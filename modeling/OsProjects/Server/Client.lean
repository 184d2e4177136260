import OsProjects.Library.Bytes
import OsProjects.Library.Program

/-!
# Clients

The functions of `clients_common.c` and `clients_statemachine.c` that serve one
client.  The system and the networking library are an environment, whose
answers are arbitrary within the interfaces; every call made of it is recorded.
-/

namespace OsProjects.Server

open Library.Program Library.Bytes

def bufferSize : ℕ := 4096

inductive ClientState
  | recvRequest
  | sendReply
  deriving DecidableEq

inductive Status
  | ok
  | bad
  | status403
  | status404
  deriving DecidableEq

/-- An open file, as the bytes that have not been read. -/
structure File where
  rest : List UInt8

structure Client where
  socket : ℤ
  state : ClientState
  file : Option File
  nread : ℤ
  nwritten : ℤ
  ntowrite : ℤ
  buffer : Buffer bufferSize
  status : Status

/-- What `get_filename` parses out of a header. -/
structure Request where
  filename : String
  protocol : String

/-- A reply header, which is a string that fits into a buffer. -/
structure Header where
  text : List UInt8
  noNull : 0 ∉ text
  length_lt : text.length < bufferSize

/-- The answers to the calls, by the number of calls made before.  A `none` is
the result -1; a transfer is of the bytes, or of the number of bytes, that are
given, but never of more than the call asks for. -/
structure Environment where
  read : ℕ → Option (List UInt8)
  headerComplete : ℕ → Bool
  getFilename : ℕ → ℤ × Request
  access : ℕ → ℤ
  fopen : ℕ → Option File
  stat : ℕ → ℤ
  header : ℕ → Header
  fread : ℕ → ℕ
  write : ℕ → Option ℕ

/-- A call with its arguments and result.  The transfers over the socket are
recorded with the position in the buffer, `close` with the client. -/
inductive Event
  | read (pos count result : ℤ)
  | headerComplete (length : ℤ)
  | getFilename (result : ℤ)
  | access (request : Request)
  | fopen (request : Request) (opened : Bool)
  | stat (request : Request)
  | get404 (request : Request)
  | get403 (request : Request)
  | get200 (request : Request) (filesize : ℤ)
  | fread (count result : ℤ)
  | fclose
  | write (pos count result : ℤ)
  | close (client : Client)

/-- A client, the calls made on its behalf, the latest first, and the bytes
written to its socket. -/
structure Connection where
  client : Client
  trace : List Event
  sent : List UInt8
  operationsCompleted : UInt64

/-- Why a run stops without returning: undefined behaviour, or loops that have
not been left. -/
inductive Stop
  | fault (f : Fault)
  | nullFile
  | running

abbrev CM := EStateM Stop Connection

namespace Connection

def log (s : Connection) (e : Event) : Connection := { s with trace := e :: s.trace }

def update (s : Connection) (f : Client → Client) : Connection := { s with client := f s.client }

def send (s : Connection) (bytes : List UInt8) : Connection := { s with sent := s.sent ++ bytes }

variable (s : Connection) (e : Event) (f : Client → Client) (bytes : List UInt8)

@[simp] theorem log_client : (s.log e).client = s.client := rfl

@[simp] theorem log_trace : (s.log e).trace = e :: s.trace := rfl

@[simp] theorem update_client : (s.update f).client = f s.client := rfl

@[simp] theorem update_trace : (s.update f).trace = s.trace := rfl

@[simp] theorem send_nil : s.send [] = s := by
  simp [send]

end Connection

def record (e : Event) : CM Unit := modify fun s ↦ s.log e

def modifyClient (f : Client → Client) : CM Unit := modify fun s ↦ s.update f

/-! ## Calls -/

/-- The `count` positions from `pos` lie in the client's buffer. -/
def InBuffer (pos count : ℤ) : Prop := 0 ≤ pos ∧ 0 ≤ count ∧ pos + count ≤ bufferSize

instance (pos count : ℤ) : Decidable (InBuffer pos count) :=
  inferInstanceAs (Decidable (_ ∧ _ ∧ _))

def checkBounds (pos count : ℤ) : CM Unit :=
  if InBuffer pos count then
    return ()
  else
    throw (.fault (.outOfBounds bufferSize (if pos < 0 then pos else bufferSize)))

def bytesAt {n : ℕ} (b : Buffer n) (pos count : ℕ) : List UInt8 :=
  (List.range count).map fun i ↦ byteAt b (pos + i)

def putBytes {n : ℕ} (b : Buffer n) (pos : ℕ) (bytes : List UInt8) : Buffer n :=
  copyInto b pos bytes.length fun i ↦ bytes.getD i 0

section Calls

variable (env : Environment)

/-- `read(client->socket, client->buffer + pos, count)` -/
def read (pos count : ℤ) : CM ℤ := do
  let s ← get
  match if s.client.socket = -1 then none else env.read s.trace.length with
  | none =>
      record (.read pos count (-1))
      return -1
  | some bytes =>
      let data := bytes.take count.toNat
      record (.read pos count data.length)
      checkBounds pos count
      modifyClient fun c ↦ { c with buffer := putBytes c.buffer pos.toNat data }
      return data.length

/-- `write(client->socket, client->buffer + pos, count)` -/
def write (pos count : ℤ) : CM ℤ := do
  let s ← get
  match if s.client.socket = -1 then none else env.write s.trace.length with
  | none =>
      record (.write pos count (-1))
      return -1
  | some limit =>
      let n := min limit count.toNat
      record (.write pos count n)
      checkBounds pos count
      modify fun s ↦ s.send (bytesAt s.client.buffer pos.toNat n)
      return n

/-- `fread(client->buffer, sizeof(char), BUFFER_SIZE, client->file)` -/
def fread : CM ℤ := do
  let s ← get
  match s.client.file with
  | none => throw .nullFile
  | some file =>
      let data := file.rest.take (min (env.fread s.trace.length) bufferSize)
      record (.fread bufferSize data.length)
      modifyClient fun c ↦ { c with
        buffer := putBytes c.buffer 0 data
        file := some ⟨file.rest.drop data.length⟩ }
      return data.length

def fclose : CM Unit := record .fclose

/-- `header_complete(client->buffer, length)`, which terminates the data. -/
def headerComplete (length : ℤ) : CM Bool := do
  let s ← get
  record (.headerComplete length)
  checkBounds length 1
  modifyClient fun c ↦ { c with buffer := putBytes c.buffer length.toNat [0] }
  return env.headerComplete s.trace.length

def getFilename : CM (ℤ × Request) := do
  let s ← get
  let (result, request) := env.getFilename s.trace.length
  record (.getFilename result)
  return (result, request)

def access (request : Request) : CM ℤ := do
  let s ← get
  record (.access request)
  return env.access s.trace.length

def fopen (request : Request) : CM (Option File) := do
  let s ← get
  let file := env.fopen s.trace.length
  record (.fopen request file.isSome)
  return file

/-- `get_404`, `get_403` or `get_200`, as `e` says. -/
def getHeader (e : Event) : CM Header := do
  let s ← get
  record e
  return env.header s.trace.length

/-! ## `clients_common.c` -/

def makeClient (socket : ℤ) (buffer : Buffer bufferSize) : Client where
  socket := socket
  state := .recvRequest
  file := none
  nread := 0
  nwritten := 0
  ntowrite := 0
  buffer := buffer
  status := .ok

def newConnection (socket : ℤ) (buffer : Buffer bufferSize) : Connection :=
  ⟨makeClient socket buffer, [], [], 0⟩

def finishClient : CM Unit := do
  let s ← get
  record (.close s.client)
  modifyClient fun c ↦ { c with socket := -1 }

/-- The two statements that every error path consists of. -/
def giveUp : CM Unit := do
  modifyClient fun c ↦ { c with status := .bad }
  finishClient

/-- The size of a file narrowed to an `int`. -/
def obtainFileSize (request : Request) : CM ℤ := do
  let s ← get
  record (.stat request)
  return Int.bmod (env.stat s.trace.length) (2 ^ 32)

def cString {n : ℕ} (b : Buffer n) : List UInt8 := (bytesAt b 0 n).takeWhile (· ≠ 0)

def strlen {n : ℕ} (b : Buffer n) : ℕ := (cString b).length

def strcpy {n : ℕ} (b : Buffer n) (text : List UInt8) : Buffer n := putBytes b 0 (text ++ [0])

def switchState (request : Request) : CM Unit := do
  let temporaryBuffer ←
    if (← access env request) = -1 then do
      let header ← getHeader env (.get404 request)
      modifyClient fun c ↦ { c with status := .status404 }
      pure header
    else do
      let file ← fopen env request
      modifyClient fun c ↦ { c with file := file }
      if file.isNone then
        let header ← getHeader env (.get403 request)
        modifyClient fun c ↦ { c with status := .status403 }
        pure header
      else
        let filesize ← obtainFileSize env request
        getHeader env (.get200 request filesize)
  modifyClient fun c ↦ { c with buffer := strcpy c.buffer temporaryBuffer.text }
  modifyClient fun c ↦ { c with
    ntowrite := strlen c.buffer
    nwritten := 0
    state := .sendReply }

/-- One iteration of the loop of `read_request`, which is left with the result
of the function. -/
def readRequestBody : Unit → CM (Unit ⊕ ℤ) := fun _ ↦ do
  let c := (← get).client
  if c.nread < bufferSize - 1 then
    -- asks for one byte more than leaves room for the terminator
    let bytesRead ← read env c.nread (bufferSize - c.nread)
    if bytesRead ≤ 0 then
      giveUp
      return .inr 0
    else
      modifyClient fun c ↦ { c with nread := c.nread + bytesRead }
      if ← headerComplete env (c.nread + bytesRead) then
        let (result, request) ← getFilename env
        if result = -1 then
          giveUp
          return .inr 0
        else
          switchState env request
          return .inr 1
      else
        return .inl ()
  else
    giveUp
    return .inr 0

def readRequest (fuel : ℕ) : CM ℤ := whileLoop .running (readRequestBody env) fuel ()

def flushBody : Unit → CM (Unit ⊕ ℤ) := fun _ ↦ do
  let c := (← get).client
  if c.ntowrite > 0 then
    let result ← write env c.nwritten c.ntowrite
    if result < 0 then
      return .inr 0
    else
      modifyClient fun c ↦ { c with
        nwritten := c.nwritten + result
        ntowrite := c.ntowrite - result }
      return .inl ()
  else
    return .inr 1

def flushBuffer (fuel : ℕ) : CM ℤ := whileLoop .running (flushBody env) fuel ()

/-- One iteration of the loop of `write_reply` over the chunks of the file, which
is left with `none` or, when a chunk cannot be written, with the result of the
function. -/
def sendFileBody (fuel : ℕ) (readResult : ℤ) : CM (ℤ ⊕ Option ℤ) := do
  if readResult = bufferSize then
    let readResult ← fread env
    modifyClient fun c ↦ { c with nwritten := 0, ntowrite := readResult }
    if (← flushBuffer env fuel) = 0 then
      giveUp
      return .inr (some 0)
    else
      return .inl readResult
  else
    return .inr none

def sendFile (fuel : ℕ) : CM (Option ℤ) :=
  whileLoop .running (sendFileBody env fuel) fuel (bufferSize : ℤ)

def writeReply (fuel : ℕ) : CM ℤ := do
  if (← flushBuffer env fuel) = 0 then
    giveUp
    return 0
  else if (← get).client.file.isSome then
    match ← sendFile env fuel with
    | some result => return result
    | none =>
        fclose
        -- `finish_client` comes after this statement
        return 1
  else
    return 1

/-- What a consumer does with a client. -/
def session (fuel : ℕ) : CM Unit := do
  if (← readRequest env fuel) ≠ 0 then
    let _ ← writeReply env fuel

/-! ## `clients_statemachine.c` -/

def continueReadingRequest : CM Unit := do
  let c := (← get).client
  let result ← read env c.nread (bufferSize - 1 - c.nread)
  if result ≤ 0 then
    giveUp
  else
    modifyClient fun c ↦ { c with nread := c.nread + result }
    if ← headerComplete env (c.nread + result) then
      let (result, request) ← getFilename env
      -- a request that is rejected is passed on as well
      if result = -1 then
        giveUp
      switchState env request

def continueSendingReply : CM Unit := do
  let c := (← get).client
  if c.ntowrite ≠ 0 then
    let result ← write env c.nwritten c.ntowrite
    -- the result is counted even if it is -1
    if result = -1 then
      giveUp
    modifyClient fun c ↦ { c with
      nwritten := c.nwritten + result
      ntowrite := c.ntowrite - result }
  else if c.file.isNone then
    finishClient
    if c.status = .ok then
      modify fun s ↦ { s with operationsCompleted := s.operationsCompleted + 1 }
  else
    let result ← fread env
    if result < bufferSize then
      fclose
      modifyClient fun c ↦ { c with file := none }
    modifyClient fun c ↦ { c with nwritten := 0, ntowrite := result }

/-- `continue_sending_reply` called until the socket is -1. -/
def sendAllBody : Unit → CM (Unit ⊕ Unit) := fun _ ↦ do
  if (← get).client.socket = -1 then
    return .inr ()
  else
    continueSendingReply env
    return .inl ()

def sendAll (fuel : ℕ) : CM Unit := whileLoop .running (sendAllBody env) fuel ()

def handleClient : CM Unit := do
  match (← get).client.state with
  | .recvRequest => continueReadingRequest env
  | .sendReply => continueSendingReply env

end Calls

end OsProjects.Server
