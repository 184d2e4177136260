import OsProjects.Server.Client

/-!
# What the functions that serve a client do

One law for each call, and from these what `switch_state` and one call of
`handle_client` may do to a connection.
-/

namespace OsProjects.Server

open Library.Program Library.Bytes

/-! ## Strings in buffers -/

section Bytes

variable {n : ℕ} (b : Buffer n)

@[simp] theorem length_bytesAt (pos count : ℕ) : (bytesAt b pos count).length = count := by
  simp [bytesAt]

@[simp] theorem bytesAt_zero (pos : ℕ) : bytesAt b pos 0 = [] := rfl

theorem bytesAt_add (pos i j : ℕ) :
    bytesAt b pos (i + j) = bytesAt b pos i ++ bytesAt b (pos + i) j := by
  simp only [bytesAt, List.range_add, List.map_append, List.map_map]
  congr 2
  funext k
  simp [Nat.add_assoc]

theorem bytesAt_eq_append (pos : ℕ) {i count : ℕ} (h : i ≤ count) :
    bytesAt b pos count = bytesAt b pos i ++ bytesAt b (pos + i) (count - i) := by
  rw [← bytesAt_add, Nat.add_sub_cancel' h]

theorem bytesAt_putBytes {bytes : List UInt8} (h : bytes.length ≤ n) :
    bytesAt (putBytes b 0 bytes) 0 bytes.length = bytes := by
  refine List.ext_getElem (length_bytesAt ..) fun i hi hi' ↦ ?_
  simp only [bytesAt, List.getElem_map, List.getElem_range]
  rw [putBytes, byteAt_copyInto _ _ _ _ (by omega), if_pos (by omega)]
  simp [List.getElem?_eq_getElem hi']

theorem cString_strcpy {text : List UInt8} (hnull : 0 ∉ text) (h : text.length < n) :
    cString (strcpy b text) = text := by
  have hlength : (text ++ [0]).length ≤ n := by
    simpa using Nat.succ_le_of_lt h
  have hcopied := bytesAt_eq_append (strcpy b text) 0 hlength
  rw [strcpy, bytesAt_putBytes b hlength] at hcopied
  have hkeep : ∀ x ∈ text, (x ≠ 0) := fun x hx heq ↦ hnull (heq ▸ hx)
  rw [cString, strcpy, hcopied, List.append_assoc, List.takeWhile_append_of_pos (by simpa using hkeep)]
  simp

end Bytes

/-! ## Calls -/

namespace Connection

variable (s : Connection)

def finish : Connection := (s.log (.close s.client)).update fun c ↦ { c with socket := -1 }

@[simp] theorem finish_client : s.finish.client = { s.client with socket := -1 } := rfl

@[simp] theorem finish_trace : s.finish.trace = .close s.client :: s.trace := rfl

def giveUp : Connection := (s.update fun c ↦ { c with status := .bad }).finish

@[simp] theorem giveUp_client :
    s.giveUp.client = { s.client with status := .bad, socket := -1 } := rfl

@[simp] theorem giveUp_trace :
    s.giveUp.trace = .close { s.client with status := .bad } :: s.trace := rfl

end Connection

section Calls

variable (env : Environment) (s : Connection) {pos count : ℤ}

theorem run_record (e : Event) : (record e).run s = .ok () (s.log e) := rfl

theorem run_modifyClient (f : Client → Client) :
    (modifyClient f).run s = .ok () (s.update f) := rfl

theorem run_checkBounds (h : InBuffer pos count) : (checkBounds pos count).run s = .ok () s := by
  rw [checkBounds, if_pos h]
  rfl

theorem ne_of_answer_eq_some {β : Type} {fd : ℤ} {answer : Option β} {b : β}
    (h : (if fd = -1 then none else answer) = some b) : fd ≠ -1 ∧ answer = some b := by
  split at h
  · cases h
  · rename_i hfd
    exact ⟨hfd, h⟩

theorem run_read (h : InBuffer pos count) : ∃ result buffer,
    (read env pos count).run s = .ok result ((s.log (.read pos count result)).update fun c ↦
      { c with buffer := buffer }) ∧ result ≤ count ∧
    (result = -1 ∨ 0 ≤ result ∧ s.client.socket ≠ -1) := by
  have hcount := h.2.1
  rw [read, run_bind_of_ok (EStateM.run_get s)]
  split
  · exact ⟨-1, s.client.buffer, rfl, by omega, .inl rfl⟩
  · rename_i bytes hbytes
    refine ⟨(bytes.take count.toNat).length, putBytes s.client.buffer pos.toNat
      (bytes.take count.toNat), ?_, ?_, .inr ⟨by omega, (ne_of_answer_eq_some hbytes).1⟩⟩
    · rw [run_bind_of_ok (run_record _ _), run_bind_of_ok (run_checkBounds _ h)]
      rfl
    · rw [List.length_take]
      omega

/-- The socket is open, and no `write` is answered with an error. -/
structure Environment.Reliable (socket : ℤ) : Prop where
  connected : socket ≠ -1
  write : ∀ i, env.write i ≠ none

theorem Environment.not_reliable_of_answer {socket : ℤ} {i : ℕ}
    (h : (if socket = -1 then none else env.write i) = none) : ¬ env.Reliable socket := by
  intro hreliable
  rw [if_neg hreliable.connected] at h
  exact hreliable.write i h

theorem run_write (h : InBuffer pos count) : ∃ result,
    (write env pos count).run s = .ok result ((s.log (.write pos count result)).send
      (bytesAt s.client.buffer pos.toNat result.toNat)) ∧ result ≤ count ∧
    (result = -1 ∧ ¬ env.Reliable s.client.socket ∨ 0 ≤ result ∧ s.client.socket ≠ -1) ∧
    ((∀ i k, env.write i = some k → 0 < k) → 0 < count → result ≠ 0) := by
  have hcount := h.2.1
  rw [write, run_bind_of_ok (EStateM.run_get s)]
  split
  · rename_i hfails
    refine ⟨-1, ?_, by omega, .inl ⟨rfl, env.not_reliable_of_answer hfails⟩, by omega⟩
    have hnothing : bytesAt s.client.buffer pos.toNat (-1 : ℤ).toNat = [] := rfl
    rw [hnothing, Connection.send_nil, run_bind_of_ok (run_record s _)]
    rfl
  · rename_i limit hlimit
    obtain ⟨hsocket, hlimit⟩ := ne_of_answer_eq_some hlimit
    refine ⟨(min limit count.toNat : ℕ), ?_, by omega, .inr ⟨by omega, hsocket⟩,
      fun hpos hlt ↦ ?_⟩
    · rw [run_bind_of_ok (run_record _ _), run_bind_of_ok (run_checkBounds _ h)]
      rfl
    · have hk := hpos _ _ hlimit
      omega

/-- `fread` transfers bytes from the front of what has not been read, and fewer
than a whole chunk only at the end of the file if the environment says so. -/
theorem run_fread {file : File} (h : s.client.file = some file) : ∃ n : ℕ,
    (fread env).run s = .ok (n : ℤ) ((s.log (.fread bufferSize n)).update fun c ↦ { c with
      buffer := putBytes c.buffer 0 (file.rest.take n)
      file := some ⟨file.rest.drop n⟩ }) ∧ n ≤ bufferSize ∧ n ≤ file.rest.length ∧
    ((∀ i, bufferSize ≤ env.fread i) → n < bufferSize → n = file.rest.length) := by
  have hlength : (file.rest.take (min (env.fread s.trace.length) bufferSize)).length =
      min (min (env.fread s.trace.length) bufferSize) file.rest.length := List.length_take
  have htake : file.rest.take (file.rest.take (min (env.fread s.trace.length) bufferSize)).length =
      file.rest.take (min (env.fread s.trace.length) bufferSize) := by
    rw [hlength, ← List.take_eq_take_min]
  refine ⟨(file.rest.take (min (env.fread s.trace.length) bufferSize)).length, ?_, by omega,
    by omega, fun hfread hlt ↦ ?_⟩
  · rw [fread, run_bind_of_ok (EStateM.run_get s)]
    simp only [h]
    rw [run_bind_of_ok (run_record _ _), run_bind_of_ok (run_modifyClient _ _), htake]
    rfl
  · have hlimit := hfread s.trace.length
    omega

theorem run_headerComplete {length : ℤ} (h : InBuffer length 1) : ∃ complete buffer,
    (headerComplete env length).run s = .ok complete
      ((s.log (.headerComplete length)).update fun c ↦ { c with buffer := buffer }) := by
  refine ⟨env.headerComplete s.trace.length, putBytes s.client.buffer length.toNat [0], ?_⟩
  rw [headerComplete, run_bind_of_ok (EStateM.run_get s), run_bind_of_ok (run_record _ _),
    run_bind_of_ok (run_checkBounds _ h)]
  rfl

theorem run_headerComplete_bufferSize : ∃ f,
    (headerComplete env bufferSize).run s =
      .error (.fault f) (s.log (.headerComplete bufferSize)) := by
  have hout : ¬ InBuffer bufferSize 1 := by
    simp only [InBuffer]
    omega
  refine ⟨.outOfBounds bufferSize (if (bufferSize : ℤ) < 0 then bufferSize else bufferSize), ?_⟩
  rw [headerComplete, run_bind_of_ok (EStateM.run_get s), run_bind_of_ok (run_record _ _),
    run_bind_of_error (e := .fault _) (t := s.log (.headerComplete bufferSize))]
  rw [checkBounds, if_neg hout]
  rfl

theorem run_giveUp : Server.giveUp.run s = .ok () s.giveUp := rfl

end Calls

/-! ## `switch_state` -/

/-- The client to which a reply with this header, and this file, is to be sent. -/
def Client.reply (c : Client) (file : Option File) (status : Status) (header : Header) : Client :=
  { c with
    state := .sendReply
    file := file
    nwritten := 0
    ntowrite := header.text.length
    buffer := strcpy c.buffer header.text
    status := status }

/-- What `switch_state` does to a connection. -/
inductive Switch (env : Environment) (request : Request) (s : Connection) : Connection → Prop
  | notFound : Switch env request s
      (((s.log (.access request)).log (.get404 request)).update fun c ↦
        c.reply c.file .status404 (env.header (s.trace.length + 1)))
  | forbidden : Switch env request s
      ((((s.log (.access request)).log (.fopen request false)).log (.get403 request)).update fun c ↦
        c.reply none .status403 (env.header (s.trace.length + 2)))
  | found {file : File} {filesize : ℤ}
      (hfilesize : filesize = Int.bmod (env.stat (s.trace.length + 2)) (2 ^ 32)) :
      Switch env request s
        (((((s.log (.access request)).log (.fopen request true)).log (.stat request)).log
          (.get200 request filesize)).update fun c ↦
            c.reply (some file) c.status (env.header (s.trace.length + 3)))

section Switch

variable (env : Environment) (request : Request) (s : Connection)

theorem strlen_strcpy (b : Buffer bufferSize) (header : Header) :
    strlen (strcpy b header.text) = header.text.length := by
  rw [strlen, cString_strcpy b header.noNull header.length_lt]

theorem run_access : (access env request).run s =
    .ok (env.access s.trace.length) (s.log (.access request)) := rfl

theorem run_fopen : (fopen env request).run s = .ok (env.fopen s.trace.length)
    (s.log (.fopen request (env.fopen s.trace.length).isSome)) := rfl

theorem Client.reply_eq (c : Client) (file : Option File) (status : Status) (header : Header) :
    c.reply file status header = { c with
      state := .sendReply
      file := file
      nwritten := 0
      ntowrite := strlen (strcpy c.buffer header.text)
      buffer := strcpy c.buffer header.text
      status := status } := by
  rw [reply, strlen_strcpy]

theorem run_switchState : ∃ t, (switchState env request).run s = .ok () t ∧
    Switch env request s t := by
  by_cases haccess : env.access s.trace.length = -1
  · refine ⟨_, ?_, .notFound⟩
    simp only [Client.reply_eq]
    rw [switchState, run_bind_of_ok (run_access env request s), if_pos haccess]
    rfl
  · cases hfopen : env.fopen (s.trace.length + 1) with
    | none =>
        refine ⟨_, ?_, .forbidden⟩
        simp only [Client.reply_eq]
        have hrun : (fopen env request).run (s.log (.access request)) = .ok none
            ((s.log (.access request)).log (.fopen request false)) := by
          rw [run_fopen, Connection.log_trace, List.length_cons, hfopen]
          rfl
        rw [switchState, run_bind_of_ok (run_access env request s), if_neg haccess, run_bind_of_ok hrun]
        rfl
    | some file =>
        refine ⟨_, ?_, @Switch.found _ _ _ file _ rfl⟩
        simp only [Client.reply_eq]
        have hrun : (fopen env request).run (s.log (.access request)) = .ok (some file)
            ((s.log (.access request)).log (.fopen request true)) := by
          rw [run_fopen, Connection.log_trace, List.length_cons, hfopen]
          rfl
        rw [switchState, run_bind_of_ok (run_access env request s), if_neg haccess, run_bind_of_ok hrun]
        rfl

theorem Client.inBuffer_reply (c : Client) (file : Option File) (status : Status)
    (header : Header) :
    InBuffer (c.reply file status header).nwritten (c.reply file status header).ntowrite := by
  have hlength := header.length_lt
  refine ⟨le_rfl, ?_, ?_⟩
  · simp [Client.reply]
  · simp only [Client.reply]
    omega

def Event.IsSwitch : Event → Prop
  | .access _ | .fopen _ _ | .stat _ | .get404 _ | .get403 _ | .get200 _ _ => True
  | _ => False

variable {env request s} {t : Connection}

theorem Switch.trace_access (h : Switch env request s t) : ∃ events,
    t.trace = events ++ s.trace ∧ (∀ e ∈ events, e.IsSwitch) ∧ .access request ∈ events := by
  cases h with
  | notFound =>
      exact ⟨[.get404 request, .access request], rfl, by simp [Event.IsSwitch], by simp⟩
  | forbidden =>
      exact ⟨[.get403 request, .fopen request false, .access request], rfl,
        by simp [Event.IsSwitch], by simp⟩
  | found hfilesize =>
      exact ⟨[.get200 request _, .stat request, .fopen request true, .access request], rfl,
        by simp [Event.IsSwitch], by simp⟩

theorem Switch.trace (h : Switch env request s t) :
    ∃ events, t.trace = events ++ s.trace ∧ ∀ e ∈ events, e.IsSwitch := by
  obtain ⟨events, htrace, hevents, -⟩ := h.trace_access
  exact ⟨events, htrace, hevents⟩

theorem Switch.inBuffer (h : Switch env request s t) :
    InBuffer t.client.nwritten t.client.ntowrite := by
  cases h <;> exact Client.inBuffer_reply ..

theorem Switch.nread (h : Switch env request s t) : t.client.nread = s.client.nread := by
  cases h <;> rfl

end Switch

/-! ## `handle_client` -/

namespace Connection

variable (s : Connection)

section Received

variable (count result : ℤ) (buffer : Buffer bufferSize)

/-- The connection after a `read` of at most `count` bytes that has succeeded
and the `header_complete` that follows it. -/
def received : Connection :=
  ((s.log (.read s.client.nread count result)).log
    (.headerComplete (s.client.nread + result))).update fun c ↦ { c with
      nread := c.nread + result
      buffer := buffer }

@[simp] theorem received_client : (s.received count result buffer).client =
    { s.client with nread := s.client.nread + result, buffer := buffer } := rfl

@[simp] theorem received_trace : (s.received count result buffer).trace =
    .headerComplete (s.client.nread + result) :: .read s.client.nread count result :: s.trace := rfl

end Received

section Sent

variable (result : ℤ) (file : File) (n : ℕ)

def wrote : Connection :=
  ((s.log (.write s.client.nwritten s.client.ntowrite result)).send
    (bytesAt s.client.buffer s.client.nwritten.toNat result.toNat)).update fun c ↦ { c with
      nwritten := c.nwritten + result
      ntowrite := c.ntowrite - result }

@[simp] theorem wrote_client : (s.wrote result).client = { s.client with
    nwritten := s.client.nwritten + result, ntowrite := s.client.ntowrite - result } := rfl

def loaded : Connection :=
  (s.log (.fread bufferSize n)).update fun c ↦ { c with
    file := some ⟨file.rest.drop n⟩
    nwritten := 0
    ntowrite := n
    buffer := putBytes c.buffer 0 (file.rest.take n) }

@[simp] theorem loaded_client : (s.loaded file n).client = { s.client with
    file := some ⟨file.rest.drop n⟩, nwritten := 0, ntowrite := n
    buffer := putBytes s.client.buffer 0 (file.rest.take n) } := rfl

@[simp] theorem loaded_sent : (s.loaded file n).sent = s.sent := rfl

end Sent

end Connection

/-- What `continue_reading_request` does to a connection. -/
inductive RequestStep (env : Environment) (s : Connection) : Connection → Prop
  | stopped {result : ℤ} {buffer : Buffer bufferSize} (hresult : result ≤ 0) :
      RequestStep env s ((s.log (.read s.client.nread (bufferSize - 1 - s.client.nread) result)).update
        fun c ↦ { c with buffer := buffer }).giveUp
  | more {result : ℤ} {buffer : Buffer bufferSize} (hsocket : s.client.socket ≠ -1)
      (hpos : 0 < result) (hle : result ≤ bufferSize - 1 - s.client.nread) :
      RequestStep env s (s.received (bufferSize - 1 - s.client.nread) result buffer)
  | rejected {result : ℤ} {buffer : Buffer bufferSize} {request : Request} {t : Connection}
      (hsocket : s.client.socket ≠ -1) (hpos : 0 < result)
      (hle : result ≤ bufferSize - 1 - s.client.nread)
      (hswitch : Switch env request ((s.received (bufferSize - 1 - s.client.nread) result
        buffer).log (.getFilename (-1))).giveUp t) :
      RequestStep env s t
  | accepted {result parsed : ℤ} {buffer : Buffer bufferSize} {request : Request} {t : Connection}
      (hsocket : s.client.socket ≠ -1) (hpos : 0 < result)
      (hle : result ≤ bufferSize - 1 - s.client.nread) (hparsed : parsed ≠ -1)
      (hswitch : Switch env request ((s.received (bufferSize - 1 - s.client.nread) result
        buffer).log (.getFilename parsed)) t) :
      RequestStep env s t

/-- What `continue_sending_reply` does to a connection. -/
inductive ReplyStep (env : Environment) (s : Connection) : Connection → Prop
  | wrote {result : ℤ} (hsocket : s.client.socket ≠ -1) (hpending : s.client.ntowrite ≠ 0)
      (hresult : 0 ≤ result) (hle : result ≤ s.client.ntowrite)
      (hprogress : (∀ i k, env.write i = some k → 0 < k) → result ≠ 0) :
      ReplyStep env s (s.wrote result)
  | failed (hpending : s.client.ntowrite ≠ 0) (hunreliable : ¬ env.Reliable s.client.socket) :
      ReplyStep env s ((s.log (.write s.client.nwritten s.client.ntowrite (-1))).giveUp.update
        fun c ↦ { c with nwritten := c.nwritten + -1, ntowrite := c.ntowrite - -1 })
  | finished {completed : UInt64} (hpending : s.client.ntowrite = 0) (hfile : s.client.file = none) :
      ReplyStep env s { s.finish with operationsCompleted := completed }
  | loaded {file : File} (hpending : s.client.ntowrite = 0) (hfile : s.client.file = some file)
      (hle : bufferSize ≤ file.rest.length) :
      ReplyStep env s (s.loaded file bufferSize)
  | loadedLast {file : File} {n : ℕ} (hpending : s.client.ntowrite = 0)
      (hfile : s.client.file = some file) (hlt : n < bufferSize) (hle : n ≤ file.rest.length)
      (hend : (∀ i, bufferSize ≤ env.fread i) → n = file.rest.length) :
      ReplyStep env s (((s.loaded file n).log .fclose).update fun c ↦ { c with file := none })

section Handle

variable (env : Environment) (s : Connection)

theorem run_headerComplete_received (count : ℤ) {result : ℤ} (buffer : Buffer bufferSize)
    (h : InBuffer (s.client.nread + result) 1) : ∃ complete buffer',
    (headerComplete env (s.client.nread + result)).run
      (((s.log (.read s.client.nread count result)).update fun c ↦
        { c with buffer := buffer }).update fun c ↦ { c with nread := c.nread + result }) =
      .ok complete (s.received count result buffer') :=
  run_headerComplete env _ h

theorem run_getFilename : (getFilename env).run s = .ok (env.getFilename s.trace.length)
    (s.log (.getFilename (env.getFilename s.trace.length).1)) := rfl

variable {s}

theorem continueReadingRequest_step (hnread : 0 ≤ s.client.nread)
    (hle : s.client.nread ≤ bufferSize - 1) :
    ∃ t, (continueReadingRequest env).run s = .ok () t ∧ RequestStep env s t := by
  have hroom : InBuffer s.client.nread (bufferSize - 1 - s.client.nread) :=
    ⟨by omega, by omega, by omega⟩
  obtain ⟨result, buffer, hread, hresult, hsocket⟩ := run_read env s hroom
  rw [continueReadingRequest, run_bind_of_ok (EStateM.run_get s), run_bind_of_ok hread]
  by_cases hstop : result ≤ 0
  · rw [if_pos hstop]
    exact ⟨_, run_giveUp _, .stopped hstop⟩
  · have hpos : 0 < result := by omega
    have hopen : s.client.socket ≠ -1 := hsocket.elim (fun h ↦ by omega) And.right
    have hnext : InBuffer (s.client.nread + result) 1 := ⟨by omega, by omega, by omega⟩
    obtain ⟨complete, buffer', hcomplete⟩ := run_headerComplete_received env s
      (bufferSize - 1 - s.client.nread) buffer hnext
    rw [if_neg hstop, run_bind_of_ok (run_modifyClient _ _), run_bind_of_ok hcomplete]
    cases complete with
    | false => exact ⟨_, rfl, .more hopen hpos hresult⟩
    | true =>
        rw [if_pos rfl, run_bind_of_ok (run_getFilename env _)]
        generalize env.getFilename _ = answer
        obtain ⟨parsed, request⟩ := answer
        by_cases hparsed : parsed = -1
        · subst hparsed
          obtain ⟨t, hrun, hswitch⟩ := run_switchState env request
            ((s.received (bufferSize - 1 - s.client.nread) result buffer').log
              (.getFilename (-1))).giveUp
          refine ⟨t, ?_, .rejected hopen hpos hresult hswitch⟩
          rw [← hrun]
          rfl
        · obtain ⟨t, hrun, hswitch⟩ := run_switchState env request
            ((s.received (bufferSize - 1 - s.client.nread) result buffer').log
              (.getFilename parsed))
          refine ⟨t, ?_, .accepted hopen hpos hresult hparsed hswitch⟩
          simp only [if_neg hparsed]
          exact hrun

theorem continueSendingReply_step (h : InBuffer s.client.nwritten s.client.ntowrite) :
    ∃ t, (continueSendingReply env).run s = .ok () t ∧ ReplyStep env s t := by
  have hntowrite := h.2.1
  rw [continueSendingReply, run_bind_of_ok (EStateM.run_get s)]
  by_cases hpending : s.client.ntowrite ≠ 0
  · obtain ⟨result, hwrite, hle, hresult, hprogress⟩ := run_write env s h
    rw [if_pos hpending, run_bind_of_ok hwrite]
    by_cases hfailed : result = -1
    · subst hfailed
      have hunreliable := (hresult.resolve_right fun h ↦ absurd h.1 (by decide)).2
      refine ⟨_, ?_, .failed hpending hunreliable⟩
      rw [if_pos rfl, show (-1 : ℤ).toNat = 0 from rfl, bytesAt_zero, Connection.send_nil]
      rfl
    · obtain ⟨hnonneg, hsocket⟩ := hresult.resolve_left fun h ↦ hfailed h.1
      refine ⟨_, ?_, .wrote hsocket hpending hnonneg hle fun hpos ↦ hprogress hpos (by omega)⟩
      simp only [if_neg hfailed]
      rfl
  · have hzero : s.client.ntowrite = 0 := not_not.mp hpending
    rw [if_neg hpending]
    cases hfile : s.client.file with
    | none =>
        by_cases hstatus : s.client.status = .ok
        · refine ⟨{ s.finish with operationsCompleted := s.operationsCompleted + 1 }, ?_,
            .finished hzero hfile⟩
          simp only [if_pos hstatus]
          rfl
        · refine ⟨{ s.finish with operationsCompleted := s.operationsCompleted }, ?_,
            .finished hzero hfile⟩
          simp only [if_neg hstatus]
          rfl
    | some file =>
        obtain ⟨n, hread, hle, hlength, hend⟩ := run_fread env s hfile
        simp only [Option.isNone_some, Bool.false_eq_true, if_false]
        rw [run_bind_of_ok hread]
        by_cases hlast : n < bufferSize
        · refine ⟨_, ?_, .loadedLast hzero hfile hlast hlength fun hfread ↦ hend hfread hlast⟩
          simp only [Nat.cast_lt, if_pos hlast]
          rfl
        · obtain rfl : n = bufferSize := by omega
          refine ⟨_, ?_, .loaded hzero hfile hlength⟩
          simp only [lt_irrefl, if_false]
          rfl

end Handle

structure Client.InBounds (c : Client) : Prop where
  nread_nonneg : 0 ≤ c.nread
  nread_le : c.nread ≤ bufferSize - 1
  reply : InBuffer c.nwritten c.ntowrite

/-- What one call of `handle_client` does to a connection. -/
inductive HandleStep (env : Environment) (s t : Connection) : Prop
  | request (hstate : s.client.state = .recvRequest) (h : RequestStep env s t)
  | reply (hstate : s.client.state = .sendReply) (h : ReplyStep env s t)

theorem handleClient_step (env : Environment) {s : Connection} (h : s.client.InBounds) :
    ∃ t, (handleClient env).run s = .ok () t ∧ HandleStep env s t := by
  rw [handleClient, run_bind_of_ok (EStateM.run_get s)]
  cases hstate : s.client.state with
  | recvRequest =>
      obtain ⟨t, hrun, hstep⟩ := continueReadingRequest_step env h.nread_nonneg h.nread_le
      exact ⟨t, hrun, .request hstate hstep⟩
  | sendReply =>
      obtain ⟨t, hrun, hstep⟩ := continueSendingReply_step env h.reply
      exact ⟨t, hrun, .reply hstate hstep⟩

theorem HandleStep.of_run {env : Environment} {s t : Connection} (h : s.client.InBounds)
    (hrun : (handleClient env).run s = .ok () t) : HandleStep env s t := by
  obtain ⟨u, hu, hstep⟩ := handleClient_step env h
  rw [hrun] at hu
  cases hu
  exact hstep

end OsProjects.Server
