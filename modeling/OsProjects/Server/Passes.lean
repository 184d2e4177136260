import OsProjects.Server.Finality
import Mathlib.Algebra.BigOperators.Group.List.Basic

/-!
# Passes of the state machine server

The server calls `handle_client` at most once for each of its clients, in some
order, and then removes those that have been finished.  After every pass
`operations_completed` is the number of removed clients that were sent the
whole reply with a 200 header.
-/

namespace OsProjects.Server

open Library.Program Library.Bytes Library.Runs

namespace Event

@[simp]
def isGet200 : Event → Bool
  | .get200 _ _ => true
  | _ => false

@[simp]
def isRefusal : Event → Bool
  | .get403 _ | .get404 _ => true
  | _ => false

@[simp]
def isFailure : Event → Bool
  | .read _ _ result => result ≤ 0
  | .getFilename result => result = -1
  | .write _ _ result => result = -1
  | _ => false

/-- A failure, or a reply without the file. -/
def Spoils (e : Event) : Prop := e.isFailure ∨ e.isRefusal

end Event

/-- A client in the list of the server, the calls made on its behalf and the
bytes written to its socket.  The rest is no data of the program: the header
and the file that were to be sent, how often the client was counted, and
whether it has been handled in this pass. -/
structure Served where
  client : Client
  trace : List Event
  sent : List UInt8
  reply : List UInt8
  counted : ℕ
  handled : Bool

namespace Served

def new (socket : ℤ) (buffer : Buffer bufferSize) : Served :=
  ⟨makeClient socket buffer, [], [], [], 0, false⟩

/-- The connection of the client, as long as `operations_completed` is `completed`. -/
def connection (c : Served) (completed : UInt64) : Connection :=
  ⟨c.client, c.trace, c.sent, completed⟩

/-- The client after a call of `handle_client` that has led to `t`. -/
def next (c : Served) (env : Environment) (completed : UInt64) (t : Connection) : Served where
  client := t.client
  trace := t.trace
  sent := t.sent
  reply :=
    if c.client.state = .recvRequest ∧ t.client.state = .sendReply then
      (env.header (t.trace.length - 1)).text ++ t.client.file.elim [] File.rest
    else
      c.reply
  counted := if t.operationsCompleted = completed then c.counted else c.counted + 1
  handled := true

/-- The request was answered with a 200 header, and the whole header and the
whole file have been written. -/
def answered (c : Served) : Bool := c.trace.any Event.isGet200 && decide (c.sent = c.reply)

end Served

structure ServerState where
  clients : List Served
  removed : List Served
  operationsCompleted : UInt64

namespace ServerState

def init : ServerState := ⟨[], [], 0⟩

def insertClient (socket : ℤ) (buffer : Buffer bufferSize) (s : ServerState) : ServerState :=
  { s with clients := .new socket buffer :: s.clients }

def handle (i : ℕ) (env : Environment) (s : ServerState) : Option ServerState := do
  let c ← s.clients[i]?
  if c.handled then
    none
  else
    match (handleClient env).run (c.connection s.operationsCompleted) with
    | .ok _ t => some { s with
        clients := s.clients.set i (c.next env s.operationsCompleted t)
        operationsCompleted := t.operationsCompleted }
    | .error _ _ => none

def searchClient (socket : ℤ) (s : ServerState) : Option Served :=
  s.clients.find? fun c ↦ c.client.socket = socket

def removeClient (socket : ℤ) (s : ServerState) : ℤ × ServerState :=
  match s.searchClient socket with
  | none => (0, s)
  | some found => (1, { s with
      clients := s.clients.eraseP fun c ↦ c.client.socket = socket
      removed := s.removed ++ [found] })

/-- The loop `while(remove_client(-1))`. -/
def removeDead : ℕ → ServerState → ServerState
  | 0, s => s
  | fuel + 1, s =>
      match s.removeClient (-1) with
      | (0, t) => t
      | (_, t) => removeDead fuel t

def endPass (s : ServerState) : ServerState :=
  let t := s.removeDead (s.clients.length + 1)
  { t with clients := t.clients.map fun c ↦ { c with handled := false } }

end ServerState

inductive ServerAction
  | insertClient (socket : ℤ) (buffer : Buffer bufferSize)
  | handleClient (i : ℕ) (env : Environment)
  | endPass

def ServerState.step (s : ServerState) : ServerAction → Option ServerState
  | .insertClient socket buffer => some (s.insertClient socket buffer)
  | .handleClient i env => s.handle i env
  | .endPass => some s.endPass

def ServerState.exec (s : ServerState) (actions : List ServerAction) : Option ServerState :=
  actions.foldlM ServerState.step s

/-- The headers are not empty, and files are read to their ends. -/
def ServerAction.Regular : ServerAction → Prop
  | .handleClient _ env => (∀ i, (env.header i).text ≠ []) ∧ ∀ i, bufferSize ≤ env.fread i
  | _ => True

def ServerStep (s : ServerState) (a : ServerAction) (t : ServerState) : Prop :=
  a.Regular ∧ s.step a = some t

/-- The counter is exact: the clients that were answered have been counted
once, and the others, which are those that failed or were refused among them,
never.  All clients can be handled in the next pass. -/
structure ServerState.Exact (s : ServerState) : Prop where
  completed : s.operationsCompleted = UInt64.ofNat (s.removed.countP Served.answered)
  removed : ∀ c ∈ s.removed, c.counted = if c.answered then 1 else 0
  clients : ∀ c ∈ s.clients, c.counted = 0
  never : ∀ c ∈ s.removed ++ s.clients, (∃ e ∈ c.trace, e.Spoils) → c.counted = 0
  defined : ∀ i env, i < s.clients.length → (s.handle i env).isSome

/-! ## What one call does to the counter -/

/-- The next call finishes the client and counts it. -/
def Client.Completes (c : Client) : Prop :=
  c.state = .sendReply ∧ c.ntowrite = 0 ∧ c.file.isNone ∧ c.status = .ok

instance (c : Client) : Decidable c.Completes :=
  inferInstanceAs (Decidable (_ ∧ _ ∧ _ ∧ _))

theorem Client.not_completes_of_file {c : Client} {file : File} (h : c.file = some file) :
    ¬ c.Completes := by
  rintro ⟨-, -, hnone, -⟩
  rw [h] at hnone
  cases hnone

section Counter

variable {env : Environment} {s t : Connection}

theorem Switch.operationsCompleted {request : Request} (h : Switch env request s t) :
    t.operationsCompleted = s.operationsCompleted := by
  cases h <;> rfl

theorem RequestStep.operationsCompleted (h : RequestStep env s t) :
    t.operationsCompleted = s.operationsCompleted := by
  cases h with
  | stopped hresult => rfl
  | more hsocket hpos hle => rfl
  | rejected hsocket hpos hle hswitch => exact hswitch.operationsCompleted
  | accepted hsocket hpos hle hparsed hswitch => exact hswitch.operationsCompleted

theorem run_continueSendingReply_of_done (env : Environment) (hpending : s.client.ntowrite = 0)
    (hfile : s.client.file = none) : (continueSendingReply env).run s =
      .ok () { s.finish with operationsCompleted :=
        if s.client.status = .ok then s.operationsCompleted + 1 else s.operationsCompleted } := by
  rw [continueSendingReply, run_bind_of_ok (EStateM.run_get s), if_neg (not_not.mpr hpending)]
  by_cases hstatus : s.client.status = .ok
  · simp only [hfile, Option.isNone_none, if_true, hstatus]
    rfl
  · simp only [hfile, Option.isNone_none, if_true, hstatus, if_false]
    rfl

theorem ReplyStep.operationsCompleted (h : ReplyStep env s t)
    (hopen : ¬ (s.client.ntowrite = 0 ∧ s.client.file = none)) :
    t.operationsCompleted = s.operationsCompleted := by
  cases h with
  | wrote hsocket hpending hresult hle hprogress => rfl
  | failed hpending => rfl
  | finished hpending hfile => exact absurd ⟨hpending, hfile⟩ hopen
  | loaded hpending hfile hle => rfl
  | loadedLast hpending hfile hlt hle hend => rfl

theorem operationsCompleted_of_handleCall (hbounds : s.client.InBounds)
    (hcall : HandleCall s env t) : t.operationsCompleted =
      s.operationsCompleted + if s.client.Completes then 1 else 0 := by
  cases HandleStep.of_run hbounds hcall with
  | request hstate hstep =>
      have hnot : ¬ s.client.Completes := by
        rintro ⟨hsend, -⟩
        rw [hstate] at hsend
        cases hsend
      rw [if_neg hnot, UInt64.add_zero]
      exact hstep.operationsCompleted
  | reply hstate hstep =>
      by_cases hdone : s.client.ntowrite = 0 ∧ s.client.file = none
      · have hrun := run_continueSendingReply_of_done env hdone.1 hdone.2
        have hcompletes : s.client.Completes ↔ s.client.status = .ok :=
          ⟨fun h ↦ h.2.2.2, fun h ↦ ⟨hstate, hdone.1, by rw [hdone.2]; rfl, h⟩⟩
        rw [HandleCall, handleClient, run_bind_of_ok (EStateM.run_get s), hstate] at hcall
        cases hcall.symm.trans hrun
        simp only [hcompletes]
        split
        · rfl
        · simp
      · have hnot : ¬ s.client.Completes := fun h ↦
          hdone ⟨h.2.1, Option.isNone_iff_eq_none.mp h.2.2.1⟩
        rw [if_neg hnot, UInt64.add_zero]
        exact hstep.operationsCompleted hdone

end Counter

/-! ## What one call does to its client -/

/-- An event that decides nothing about the client. -/
def Event.Quiet (e : Event) : Prop := ¬ e.isGet200 ∧ ¬ e.Spoils

section Switch

variable {env : Environment} {request : Request} {s t : Connection}

theorem Switch.socket (h : Switch env request s t) : t.client.socket = s.client.socket := by
  cases h <;> rfl

theorem Switch.sent (h : Switch env request s t) : t.sent = s.sent := by
  cases h <;> rfl

theorem Switch.state (h : Switch env request s t) : t.client.state = .sendReply := by
  cases h <;> rfl

/-- The reply has a 200 header exactly if the status is still `STATUS_OK`. -/
theorem Switch.answers (h : Switch env request s t) (hstatus : s.client.status = .ok)
    (htrace : ∀ e ∈ s.trace, ¬ e.isGet200) :
    (∃ e ∈ t.trace, e.isGet200) ↔ t.client.status = .ok := by
  cases h with
  | notFound => simpa [Client.reply] using htrace
  | forbidden => simpa [Client.reply] using htrace
  | found hfilesize => simpa [Client.reply] using hstatus

theorem Switch.faultless (h : Switch env request s t) (htrace : ∀ e ∈ s.trace, ¬ e.Spoils)
    (hok : t.client.status = .ok) : ∀ e ∈ t.trace, ¬ e.Spoils := by
  cases h with
  | notFound => cases hok
  | forbidden => cases hok
  | found hfilesize =>
      simpa [Event.Spoils] using htrace

theorem quiet_received {result : ℤ} (buffer : Buffer bufferSize)
    (htrace : ∀ e ∈ s.trace, e.Quiet) (hpos : 0 < result) :
    ∀ e ∈ (s.received (bufferSize - 1 - s.client.nread) result buffer).trace, e.Quiet := by
  refine List.forall_mem_cons.mpr ⟨?_, List.forall_mem_cons.mpr ⟨?_, htrace⟩⟩
  · simp [Event.Quiet, Event.Spoils]
  · simpa [Event.Quiet, Event.Spoils] using hpos

theorem Sending.sent_unsent (h : Sending s t) :
    t.sent ++ t.client.unsent = s.sent ++ s.client.unsent := by
  obtain ⟨bytes, hsent, hunsent⟩ := h.stream
  rw [hsent, List.append_assoc, hunsent]

end Switch

namespace Served

structure Receiving (c : Served) : Prop where
  bounds : ∀ n, Handled (c.connection n)
  state : c.client.state = .recvRequest
  status : c.client.status = .ok
  sent : c.sent = []
  counted : c.counted = 0
  trace : ∀ e ∈ c.trace, e.Quiet

structure Replying (c : Served) : Prop where
  bounds : ∀ n, Handled (c.connection n)
  socket : c.client.socket ≠ -1
  state : c.client.state = .sendReply
  stream : c.sent ++ c.client.unsent = c.reply
  counted : c.counted = 0
  answers : (∃ e ∈ c.trace, e.isGet200) ↔ c.client.status = .ok
  faultless : c.client.status = .ok → ∀ e ∈ c.trace, ¬ e.Spoils

structure Settled (c : Served) : Prop where
  counted : c.counted = if c.answered then 1 else 0
  faultless : c.answered → ∀ e ∈ c.trace, ¬ e.Spoils

/-- A client that is finished is not handled again before it is removed. -/
def Valid (c : Served) : Prop :=
  c.Receiving ∨ c.Replying ∨ c.client.socket = -1 ∧ c.handled ∧ c.Settled

section Next

variable {env : Environment} {c : Served} {n : UInt64} {t : Connection}

theorem answered_iff : c.answered ↔ (∃ e ∈ c.trace, e.isGet200) ∧ c.sent = c.reply := by
  simp [answered]

theorem settled_of_not_answered (hanswered : ¬ c.answered) (hcounted : c.counted = 0) :
    c.Settled :=
  ⟨by rw [if_neg hanswered, hcounted], fun h ↦ absurd h hanswered⟩

theorem Receiving.not_answered (h : c.Receiving) : ¬ c.answered := by
  intro hanswered
  obtain ⟨⟨e, he, hget⟩, -⟩ := answered_iff.mp hanswered
  exact (h.trace e he).1 hget

theorem counted_next (hbounds : c.client.InBounds) (hcall : HandleCall (c.connection n) env t) :
    (c.next env n t).counted = c.counted + if c.client.Completes then 1 else 0 := by
  have hcompleted : t.operationsCompleted = n + if c.client.Completes then 1 else 0 :=
    operationsCompleted_of_handleCall hbounds hcall
  simp only [next, hcompleted]
  split
  · simp
  · simp

theorem reply_next_of_switch (hstate : c.client.state = .recvRequest)
    (hsend : t.client.state = .sendReply) : (c.next env n t).reply =
      (env.header (t.trace.length - 1)).text ++ t.client.file.elim [] File.rest :=
  if_pos ⟨hstate, hsend⟩

theorem reply_next (hstate : c.client.state = .sendReply) : (c.next env n t).reply = c.reply := by
  refine if_neg fun hswitch ↦ ?_
  rw [hstate] at hswitch
  cases hswitch.1

theorem Receiving.request (h : c.Receiving) (hheader : ∀ i, (env.header i).text ≠ [])
    (hstep : RequestStep env (c.connection n) t) (hcounted : (c.next env n t).counted = 0) :
    (c.next env n t).Valid := by
  have hbounds : ∀ m, Handled ((c.next env n t).connection m) := fun m ↦
    ⟨((h.bounds n).request hstep).client, ((h.bounds n).request hstep).trace⟩
  cases hstep with
  | @stopped result buffer hresult =>
      refine .inr (.inr ⟨rfl, rfl, settled_of_not_answered (fun hanswered ↦ ?_) hcounted⟩)
      obtain ⟨⟨e, he, hget⟩, -⟩ := answered_iff.mp hanswered
      rcases List.mem_cons.mp he with rfl | he
      · cases hget
      rcases List.mem_cons.mp he with rfl | he
      · cases hget
      · exact (h.trace e he).1 hget
  | @more result buffer hsocket hpos hle =>
      refine .inl ⟨hbounds, h.state, h.status, h.sent, hcounted, ?_⟩
      exact quiet_received buffer h.trace hpos
  | rejected hsocket hpos hle hswitch =>
      refine .inr (.inr ⟨hswitch.socket, rfl, settled_of_not_answered (fun hanswered ↦ ?_) hcounted⟩)
      have hsent : (c.next env n t).sent = [] := hswitch.sent.trans h.sent
      have hreply := (answered_iff.mp hanswered).2
      rw [hsent, reply_next_of_switch h.state hswitch.state] at hreply
      exact hheader _ (List.append_eq_nil_iff.mp hreply.symm).1
  | @accepted result parsed buffer request t hsocket hpos hle hparsed hswitch =>
      have hquiet : ∀ e ∈ (((c.connection n).received (bufferSize - 1 - c.client.nread) result
          buffer).log (.getFilename parsed)).trace, e.Quiet :=
        List.forall_mem_cons.mpr ⟨by simpa [Event.Quiet, Event.Spoils] using hparsed, quiet_received buffer h.trace hpos⟩
      have hsocket' : t.client.socket = c.client.socket := hswitch.socket
      have hsent : t.sent = [] := hswitch.sent.trans h.sent
      refine .inr (.inl ⟨hbounds, hsocket'.trans_ne hsocket, hswitch.state, ?_, hcounted,
        hswitch.answers h.status fun e he ↦ (hquiet e he).1,
        hswitch.faultless fun e he ↦ (hquiet e he).2⟩)
      rw [reply_next_of_switch h.state hswitch.state]
      change t.sent ++ t.client.unsent = _
      rw [hsent, hswitch.unsent, List.nil_append]

theorem Replying.keeps (h : c.Replying) (hbounds : Handled t)
    (hsocket : t.client.socket = c.client.socket) (hstate : t.client.state = c.client.state)
    (hstatus : t.client.status = c.client.status)
    (hstream : t.sent ++ t.client.unsent = c.sent ++ c.client.unsent) (events : List Event)
    (htrace : t.trace = events ++ c.trace) (hevents : ∀ e ∈ events, e.Quiet)
    (hcounted : (c.next env n t).counted = 0) : (c.next env n t).Replying where
  bounds m := ⟨hbounds.client, hbounds.trace⟩
  socket := hsocket.trans_ne h.socket
  state := hstate.trans h.state
  stream := hstream.trans (h.stream.trans (reply_next h.state).symm)
  counted := hcounted
  answers := by
    change (∃ e ∈ t.trace, _) ↔ t.client.status = .ok
    rw [htrace, hstatus, ← h.answers]
    constructor
    · rintro ⟨e, he, hget⟩
      rcases List.mem_append.mp he with he | he
      · exact absurd hget (hevents e he).1
      · exact ⟨e, he, hget⟩
    · rintro ⟨e, he, hget⟩
      exact ⟨e, List.mem_append_right _ he, hget⟩
  faultless hok e he := by
    have he' : e ∈ events ++ c.trace := htrace ▸ he
    rcases List.mem_append.mp he' with he' | he'
    · exact (hevents e he').2
    · exact h.faultless (hstatus.symm.trans hok) e he'

theorem Replying.settled (h : c.Replying) (hpending : c.client.ntowrite = 0)
    (hfile : c.client.file = none) {d : Served} {client : Client}
    (htrace : d.trace = .close client :: c.trace) (hsent : d.sent = d.reply)
    (hcounted : d.counted = if c.client.Completes then 1 else 0) : d.Settled := by
  have hget : (∃ e ∈ d.trace, e.isGet200) ↔ c.client.status = .ok := by
    rw [htrace, ← h.answers]
    simp
  have hanswered : d.answered ↔ c.client.status = .ok :=
    answered_iff.trans ⟨fun hd ↦ hget.mp hd.1, fun hok ↦ ⟨hget.mpr hok, hsent⟩⟩
  have hcompletes : c.client.Completes ↔ c.client.status = .ok :=
    ⟨fun hc ↦ hc.2.2.2, fun hok ↦ ⟨h.state, hpending, by rw [hfile]; rfl, hok⟩⟩
  refine ⟨by simp only [hcounted, hcompletes, hanswered], fun hd ↦ ?_⟩
  rw [htrace]
  refine List.forall_mem_cons.mpr ⟨by simp [Event.Spoils], h.faultless (hanswered.mp hd)⟩

theorem Replying.step (h : c.Replying) (hread : ∀ i, bufferSize ≤ env.fread i)
    (hstep : ReplyStep env (c.connection n) t)
    (hcounted : (c.next env n t).counted = if c.client.Completes then 1 else 0) :
    (c.next env n t).Valid := by
  have hbuffer : InBuffer c.client.nwritten c.client.ntowrite := (h.bounds n).client.reply
  cases hstep with
  | @wrote result hsocket hpending hresult hle hprogress =>
      have hsending : Sending (c.connection n) ((c.connection n).wrote result) :=
        .wrote hbuffer hresult hle
      have hzero : ¬ c.client.Completes := fun hc ↦ hpending hc.2.1
      rw [if_neg hzero] at hcounted
      refine .inr (.inl (h.keeps ((h.bounds n).sending hsending rfl) rfl rfl rfl
        hsending.sent_unsent [.write c.client.nwritten c.client.ntowrite result] rfl ?_ hcounted))
      have hne : result ≠ -1 := by omega
      simpa [Event.Quiet, Event.Spoils] using hne
  | failed hpending =>
      have hzero : ¬ c.client.Completes := fun hc ↦ hpending hc.2.1
      rw [if_neg hzero] at hcounted
      refine .inr (.inr ⟨rfl, rfl, settled_of_not_answered (fun hanswered ↦ ?_) hcounted⟩)
      -- what could not be written is still missing
      have hsent : c.sent = c.reply := (answered_iff.mp hanswered).2.trans (reply_next h.state)
      have hunsent := h.stream
      rw [← hsent, List.append_right_eq_self] at hunsent
      have hlength := congrArg List.length (List.append_eq_nil_iff.mp hunsent).1
      rw [length_bytesAt, List.length_nil] at hlength
      have hpos := hbuffer.2.1
      have hne : c.client.ntowrite ≠ 0 := hpending
      omega
  | finished hpending hfile =>
      have hunsent : c.client.unsent = [] := by
        change bytesAt _ _ c.client.ntowrite.toNat ++ c.client.file.elim [] File.rest = []
        rw [show c.client.ntowrite = 0 from hpending, show c.client.file = none from hfile]
        rfl
      have hsent : c.sent = c.reply := by
        rw [← h.stream, hunsent, List.append_nil]
      exact .inr (.inr ⟨rfl, rfl, h.settled hpending hfile rfl
        (hsent.trans (reply_next h.state).symm) hcounted⟩)
  | @loaded file hpending hfile hle =>
      have hsending : Sending (c.connection n) ((c.connection n).loaded file bufferSize) :=
        .loaded hfile hpending le_rfl hle
      have hopen : ¬ c.client.Completes := Client.not_completes_of_file hfile
      rw [if_neg hopen] at hcounted
      refine .inr (.inl (h.keeps ((h.bounds n).sending hsending rfl) rfl rfl rfl
        hsending.sent_unsent [.fread bufferSize bufferSize] rfl ?_ hcounted))
      simp [Event.Quiet, Event.Spoils]
  | @loadedLast file k hpending hfile hlt hle hend =>
      have hsending : Sending (c.connection n) ((c.connection n).loaded file k) :=
        .loaded hfile hpending hlt.le hle
      have hhandled := (h.bounds n).sending hsending rfl
      have hbounds : Handled ((((c.connection n).loaded file k).log .fclose).update fun c ↦
          { c with file := none }) :=
        (hhandled.log (e := .fclose) trivial id).update
          ⟨hhandled.client.nread_nonneg, hhandled.client.nread_le, hhandled.client.reply⟩
      have hopen : ¬ c.client.Completes := Client.not_completes_of_file hfile
      rw [if_neg hopen] at hcounted
      refine .inr (.inl (h.keeps hbounds rfl rfl rfl ?_ [.fclose, .fread bufferSize k] rfl ?_
        hcounted))
      · rw [unsent_fclose (hend hread)]
        exact hsending.sent_unsent
      · simp [Event.Quiet, Event.Spoils]

theorem Valid.next (h : c.Valid) (hhandled : c.handled = false)
    (hheader : ∀ i, (env.header i).text ≠ []) (hread : ∀ i, bufferSize ≤ env.fread i)
    (hcall : HandleCall (c.connection n) env t) : (c.next env n t).Valid := by
  rcases h with h | h | ⟨-, hyes, -⟩
  · have hcounted := counted_next (h.bounds n).client hcall
    cases HandleStep.of_run (h.bounds n).client hcall with
    | request hstate hstep =>
        have hreading : ¬ c.client.Completes := fun hc ↦ by
          rw [Client.Completes, h.state] at hc
          cases hc.1
        rw [if_neg hreading, h.counted] at hcounted
        exact h.request hheader hstep hcounted
    | reply hstate hstep =>
        cases h.state.symm.trans hstate
  · have hcounted := counted_next (h.bounds n).client hcall
    rw [h.counted, Nat.zero_add] at hcounted
    cases HandleStep.of_run (h.bounds n).client hcall with
    | request hstate hstep =>
        cases h.state.symm.trans hstate
    | reply hstate hstep => exact h.step hread hstep hcounted
  · rw [hhandled] at hyes
    cases hyes

theorem Valid.bounds (h : c.Valid) (hhandled : c.handled = false) : c.client.InBounds := by
  rcases h with h | h | ⟨-, hyes, -⟩
  · exact (h.bounds 0).client
  · exact (h.bounds 0).client
  · rw [hhandled] at hyes
    cases hyes

theorem valid_new (socket : ℤ) (buffer : Buffer bufferSize) : (new socket buffer).Valid := by
  refine .inl ⟨fun _ ↦ ?_, rfl, rfl, rfl, rfl, by simp [new]⟩
  exact ⟨(@handled_newConnection socket buffer).client, by simp [new, connection]⟩

theorem Valid.settled (h : c.Valid) (hsocket : c.client.socket = -1) : c.Settled := by
  rcases h with h | h | ⟨-, -, hsettled⟩
  · exact settled_of_not_answered h.not_answered h.counted
  · exact absurd hsocket h.socket
  · exact hsettled

/-- A client that is still there after the pass has not been counted. -/
theorem Valid.pending (h : c.Valid) (hsocket : c.client.socket ≠ -1) :
    c.counted = 0 ∧ { c with handled := false }.Valid := by
  rcases h with h | h | ⟨hgone, -, -⟩
  · exact ⟨h.counted, .inl ⟨h.bounds, h.state, h.status, h.sent, h.counted, h.trace⟩⟩
  · exact ⟨h.counted, .inr (.inl ⟨h.bounds, h.socket, h.state, h.stream, h.counted, h.answers,
      h.faultless⟩)⟩
  · exact absurd hgone hsocket

end Next

end Served

/-! ## The list of clients -/

namespace ServerState

variable {s t : ServerState}

theorem searchClient_eq_some {socket : ℤ} {found : Served} (h : s.searchClient socket = some found) :
    found.client.socket = socket ∧ ∃ before after, s.clients = before ++ found :: after ∧
      (∀ c ∈ before, c.client.socket ≠ socket) ∧
      (s.clients.eraseP fun c ↦ c.client.socket = socket) = before ++ after := by
  obtain ⟨hfound, before, after, hclients, hbefore⟩ := List.find?_eq_some_iff_append.mp h
  have hne : ∀ c ∈ before, c.client.socket ≠ socket := by simpa using hbefore
  refine ⟨by simpa using hfound, before, after, hclients, hne, ?_⟩
  rw [hclients, List.eraseP_append_right _ (by simpa using hne)]
  simp [of_decide_eq_true hfound]

/-- The loop ends when no client with socket -1 is left. -/
theorem removeDead_eq (fuel : ℕ) (s : ServerState) (h : s.clients.length < fuel) :
    s.removeDead fuel = { s with
      clients := s.clients.filter fun c ↦ c.client.socket ≠ -1
      removed := s.removed ++ s.clients.filter fun c ↦ c.client.socket = -1 } := by
  induction fuel generalizing s with
  | zero => cases h
  | succ fuel ih =>
      cases hsearch : s.searchClient (-1) with
      | none =>
          have hnone : ∀ c ∈ s.clients, c.client.socket ≠ -1 := by
            simpa [searchClient] using hsearch
          have hkeep : (s.clients.filter fun c ↦ c.client.socket ≠ -1) = s.clients :=
            List.filter_eq_self.mpr (by simpa using hnone)
          have hdead : (s.clients.filter fun c ↦ c.client.socket = -1) = [] :=
            List.filter_eq_nil_iff.mpr (by simpa using hnone)
          simp only [removeDead, removeClient, hsearch]
          rw [hkeep, hdead, List.append_nil]
      | some found =>
          obtain ⟨hfound, before, after, hclients, hbefore, herase⟩ := searchClient_eq_some hsearch
          have hdead : (before.filter fun c ↦ c.client.socket = -1) = [] :=
            List.filter_eq_nil_iff.mpr (by simpa using hbefore)
          have hlength : (before ++ after).length < fuel := by
            rw [hclients, List.length_append, List.length_cons] at h
            rw [List.length_append]
            omega
          simp only [removeDead, removeClient, hsearch, herase]
          rw [ih _ hlength, hclients]
          simp [hfound, hdead, List.append_assoc]

theorem endPass_eq (s : ServerState) : s.endPass = { s with
    clients := (s.clients.filter fun c ↦ c.client.socket ≠ -1).map fun c ↦ { c with handled := false }
    removed := s.removed ++ s.clients.filter fun c ↦ c.client.socket = -1 } := by
  rw [endPass, removeDead_eq _ s (Nat.lt_succ_self _)]

theorem handle_eq_some {i : ℕ} {env : Environment} (h : s.handle i env = some t) :
    ∃ c before after u, s.clients = before ++ c :: after ∧ c.handled = false ∧
      HandleCall (c.connection s.operationsCompleted) env u ∧
      t = { s with
        clients := before ++ c.next env s.operationsCompleted u :: after
        operationsCompleted := u.operationsCompleted } := by
  obtain ⟨c, hc, h⟩ := Option.bind_eq_some_iff.mp h
  obtain ⟨hi, hget⟩ := List.getElem?_eq_some_iff.mp hc
  by_cases hhandled : c.handled
  · rw [if_pos hhandled] at h
    cases h
  · rw [if_neg hhandled] at h
    cases hrun : (handleClient env).run (c.connection s.operationsCompleted) with
    | error e u =>
        rw [hrun] at h
        cases h
    | ok result u =>
        rw [hrun] at h
        obtain ⟨before, after, hclients, -, hset⟩ :=
          @List.exists_of_set _ i (c.next env s.operationsCompleted u) _ hi
        rw [hget] at hclients
        refine ⟨c, before, after, u, hclients, by simpa using hhandled, hrun, ?_⟩
        rw [← Option.some.inj h, hset]

/-! ## The invariant -/

theorem sum_counted_filter (clients : List Served) :
    ((clients.filter fun c ↦ c.client.socket = -1).map Served.counted).sum +
      ((clients.filter fun c ↦ c.client.socket ≠ -1).map Served.counted).sum =
      (clients.map Served.counted).sum := by
  induction clients with
  | nil => rfl
  | cons c clients ih =>
      rw [List.map_cons, List.sum_cons, ← ih]
      by_cases hsocket : c.client.socket = -1
      · simp [hsocket, Nat.add_assoc]
      · simp [hsocket, Nat.add_left_comm]

theorem sum_counted_settled (clients : List Served) (h : ∀ c ∈ clients, c.Settled) :
    (clients.map Served.counted).sum = clients.countP Served.answered := by
  induction clients with
  | nil => rfl
  | cons c clients ih =>
      obtain ⟨hc, hclients⟩ := List.forall_mem_cons.mp h
      rw [List.map_cons, List.sum_cons, ih hclients, hc.counted, List.countP_cons, Nat.add_comm]

structure Valid (s : ServerState) : Prop where
  clients : ∀ c ∈ s.clients, c.Valid
  removed : ∀ c ∈ s.removed, c.Settled
  completed : s.operationsCompleted =
    UInt64.ofNat (((s.removed ++ s.clients).map Served.counted).sum)

theorem valid_init : init.Valid :=
  ⟨by simp [init], by simp [init], rfl⟩

theorem Valid.insertClient (h : s.Valid) (socket : ℤ) (buffer : Buffer bufferSize) :
    (s.insertClient socket buffer).Valid where
  clients := List.forall_mem_cons.mpr ⟨Served.valid_new socket buffer, h.clients⟩
  removed := h.removed
  completed := by
    rw [ServerState.insertClient, h.completed]
    simp [Served.new]

theorem Valid.handle (h : s.Valid) {i : ℕ} {env : Environment}
    (hheader : ∀ i, (env.header i).text ≠ []) (hread : ∀ i, bufferSize ≤ env.fread i)
    (hstep : s.handle i env = some t) : t.Valid := by
  obtain ⟨c, before, after, u, hclients, hhandled, hcall, rfl⟩ := handle_eq_some hstep
  have hc : c.Valid := h.clients c (by simp [hclients])
  have hothers : ∀ d, d ∈ before ∨ d ∈ after → d.Valid := fun d hd ↦ by
    refine h.clients d ?_
    rw [hclients, List.mem_append, List.mem_cons]
    exact hd.imp_right .inr
  refine ⟨fun d hd ↦ ?_, h.removed, ?_⟩
  · rcases List.mem_append.mp hd with hd | hd
    · exact hothers d (.inl hd)
    rcases List.mem_cons.mp hd with rfl | hd
    · exact hc.next hhandled hheader hread hcall
    · exact hothers d (.inr hd)
  · have hcounted := Served.counted_next (hc.bounds hhandled) hcall
    have hcompleted : u.operationsCompleted =
        s.operationsCompleted + if c.client.Completes then 1 else 0 :=
      operationsCompleted_of_handleCall (hc.bounds hhandled) hcall
    have hsum : ((s.removed ++ (before ++ c.next env s.operationsCompleted u :: after)).map
        Served.counted).sum = ((s.removed ++ s.clients).map Served.counted).sum +
          if c.client.Completes then 1 else 0 := by
      simp only [hclients, List.map_append, List.map_cons, List.sum_append, List.sum_cons, hcounted]
      omega
    rw [hsum, UInt64.ofNat_add, ← h.completed, hcompleted]
    split
    · rfl
    · rfl

theorem Valid.endPass (h : s.Valid) : s.endPass.Valid := by
  rw [endPass_eq]
  refine ⟨fun d hd ↦ ?_, fun d hd ↦ ?_, ?_⟩
  · obtain ⟨c, hc, rfl⟩ := List.mem_map.mp hd
    obtain ⟨hmem, hsocket⟩ := List.mem_filter.mp hc
    exact ((h.clients c hmem).pending (of_decide_eq_true hsocket)).2
  · rcases List.mem_append.mp hd with hd | hd
    · exact h.removed d hd
    · obtain ⟨hmem, hsocket⟩ := List.mem_filter.mp hd
      exact (h.clients d hmem).settled (of_decide_eq_true hsocket)
  · have hsplit := sum_counted_filter s.clients
    rw [h.completed, List.map_append, List.map_append, List.map_append, List.map_map,
      List.sum_append, List.sum_append, List.sum_append, ← hsplit, ← Nat.add_assoc]
    rfl

theorem valid_of_run {actions : List ServerAction} (h : Run ServerStep init actions s) :
    s.Valid := by
  refine h.invariant valid_init fun t a u ht hstep ↦ ?_
  obtain ⟨hregular, hstep⟩ := hstep
  cases a with
  | insertClient socket buffer =>
      cases hstep
      exact ht.insertClient socket buffer
  | handleClient i env => exact ht.handle hregular.1 hregular.2 hstep
  | endPass =>
      cases hstep
      exact ht.endPass

theorem Valid.handle_isSome (h : s.Valid) (hhandled : ∀ c ∈ s.clients, c.handled = false) {i : ℕ}
    (env : Environment) (hi : i < s.clients.length) : (s.handle i env).isSome := by
  have hmem : s.clients[i] ∈ s.clients := List.getElem_mem hi
  have hbounds : ((s.clients[i]).connection s.operationsCompleted).client.InBounds :=
    (h.clients _ hmem).bounds (hhandled _ hmem)
  obtain ⟨t, hrun, -⟩ := handleClient_step env hbounds
  simp [ServerState.handle, List.getElem?_eq_getElem hi, hhandled _ hmem, hrun]

theorem Valid.exact_endPass (h : s.Valid) : s.endPass.Exact := by
  have hvalid := h.endPass
  have hclients : ∀ c ∈ s.endPass.clients, c.client.socket ≠ -1 ∧ c.handled = false := by
    intro d hd
    rw [endPass_eq] at hd
    obtain ⟨c, hc, rfl⟩ := List.mem_map.mp hd
    exact ⟨of_decide_eq_true (List.mem_filter.mp hc).2, rfl⟩
  have hcounted : ∀ c ∈ s.endPass.clients, c.counted = 0 := fun c hc ↦
    ((hvalid.clients c hc).pending (hclients c hc).1).1
  refine ⟨?_, fun c hc ↦ (hvalid.removed c hc).counted, hcounted, fun c hc hspoils ↦ ?_,
    fun i env hi ↦ hvalid.handle_isSome (fun c hc ↦ (hclients c hc).2) env hi⟩
  · have hpending : (s.endPass.clients.map Served.counted).sum = 0 := by
      simpa [List.sum_eq_zero_iff] using hcounted
    rw [hvalid.completed, List.map_append, List.sum_append, hpending, Nat.add_zero,
      sum_counted_settled _ hvalid.removed]
  · rcases List.mem_append.mp hc with hc | hc
    · obtain ⟨e, he, hspoils⟩ := hspoils
      have hsettled := hvalid.removed c hc
      have hanswered : ¬ c.answered := fun hanswered ↦ hsettled.faultless hanswered e he hspoils
      rw [hsettled.counted, if_neg hanswered]
    · exact hcounted c hc

end ServerState

/-- `operations_completed` is exact after every pass. -/
theorem completed_exact {actions : List ServerAction} {s : ServerState}
    (h : Run ServerStep .init (actions ++ [.endPass]) s) : s.Exact := by
  obtain ⟨t, hrun, -, hstep⟩ := h.exists_of_snoc
  cases hstep
  exact (ServerState.valid_of_run hrun).exact_endPass

theorem run_of_exec {actions : List ServerAction} {s t : ServerState}
    (hregular : ∀ a ∈ actions, a.Regular) (h : s.exec actions = some t) :
    Run ServerStep s actions t := by
  induction actions using List.reverseRecOn generalizing t with
  | nil =>
      cases h
      exact .nil
  | append_singleton actions a ih =>
      rw [ServerState.exec, List.foldlM_append] at h
      obtain ⟨u, hu, hlast⟩ := Option.bind_eq_some_iff.mp h
      rw [List.foldlM_cons] at hlast
      obtain ⟨v, hv, hlast⟩ := Option.bind_eq_some_iff.mp hlast
      cases hlast
      exact .snoc (ih (fun b hb ↦ hregular b (List.mem_append_left _ hb)) hu)
        ⟨hregular a (by simp), hv⟩

def sendingAll : Environment := { byteByByte with write _ := some bufferSize }

/-- A client whose file is missing is handled before one that is sent its file. -/
def twoClients : List ServerAction :=
  [.insertClient 5 fun _ ↦ 0, .insertClient 6 fun _ ↦ 0,
    .handleClient 1 { sendingAll with access _ := -1 }, .handleClient 0 sendingAll] ++
  (List.replicate 6 [.endPass, .handleClient 0 sendingAll]).flatten

theorem completed_exact_twoClients : ∃ s, Run ServerStep .init (twoClients ++ [.endPass]) s ∧
    s.Exact ∧ s.removed.length = 2 ∧ s.operationsCompleted = 1 := by
  have htest : (ServerState.init.exec (twoClients ++ [.endPass])).any (fun s ↦
      decide (s.removed.length = 2 ∧ s.operationsCompleted = 1)) = true := by
    decide +kernel
  obtain ⟨s, hexec, hs⟩ := (Option.any_eq_true ..).mp htest
  have hregular : ∀ a ∈ twoClients ++ [.endPass], a.Regular := by
    have hsending : ∀ i b, ServerAction.Regular (.handleClient i { sendingAll with access _ := b }) :=
      fun _ _ ↦ ⟨fun _ ↦ List.cons_ne_nil _ _, fun _ ↦ le_rfl⟩
    intro a ha
    simp only [twoClients, List.mem_append, List.mem_cons, List.mem_flatten, List.mem_replicate,
      List.not_mem_nil, or_false] at ha
    rcases ha with ((rfl | rfl | rfl | rfl) | ⟨l, ⟨-, rfl⟩, ha⟩) | rfl
    · trivial
    · trivial
    · exact hsending 1 _
    · exact hsending 0 _
    · simp only [List.mem_cons, List.not_mem_nil, or_false] at ha
      rcases ha with rfl | rfl
      · trivial
      · exact hsending 0 _
    · trivial
  have hrun := run_of_exec hregular hexec
  exact ⟨s, hrun, completed_exact hrun, of_decide_eq_true hs⟩

end OsProjects.Server
