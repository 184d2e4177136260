import OsProjects.Library.Simulation
import OsProjects.Server.Passes

/-!
# The two readers of requests

`read_request` reads a request in a loop, `continue_reading_request` one piece of it in each
call.  They ask for different numbers of bytes.  As long as no read fills the buffer they
accept the same requests, and leave their clients in the same state.
-/

namespace OsProjects.Server

open Library.Program Library.Bytes

/-- The call without the number of bytes that it asks for. -/
def Event.unasked : Event → Event
  | .read pos _ result => .read pos 0 result
  | e => e

/-- The clients are the same, and were served by the same calls, except for the numbers of
bytes that were asked for. -/
structure Alike (s s' : Connection) : Prop where
  client : s'.client = s.client
  sent : s'.sent = s.sent
  completed : s'.operationsCompleted = s.operationsCompleted
  trace : s'.trace.map Event.unasked = s.trace.map Event.unasked

section Alike

variable {env : Environment} {s s' : Connection}

theorem Alike.length_eq (h : Alike s s') : s'.trace.length = s.trace.length := by
  simpa using congrArg List.length h.trace

theorem Alike.log (h : Alike s s') {e e' : Event} (he : e'.unasked = e.unasked) :
    Alike (s.log e) (s'.log e') := by
  refine ⟨h.client, h.sent, h.completed, ?_⟩
  rw [Connection.log_trace, Connection.log_trace, List.map_cons, List.map_cons, he, h.trace]

theorem Alike.update (h : Alike s s') (f : Client → Client) : Alike (s.update f) (s'.update f) :=
  ⟨congrArg f h.client, h.sent, h.completed, h.trace⟩

theorem Alike.giveUp (h : Alike s s') : Alike s.giveUp s'.giveUp := by
  have hbad := h.update fun c ↦ { c with status := .bad }
  have hclose : Event.close (s'.update fun c ↦ { c with status := .bad }).client =
      .close (s.update fun c ↦ { c with status := .bad }).client := congrArg _ hbad.client
  exact (hbad.log (congrArg Event.unasked hclose)).update fun c ↦ { c with socket := -1 }

/-! ## Calls made by both -/

/-- Both programs return the same, in connections that are alike. -/
def AlikeAfter {α : Type} (a : α) (t : Connection) (b : α) (t' : Connection) : Prop :=
  b = a ∧ Alike t t'

theorem Alike.together_modifyClient (h : Alike s s') (f : Client → Client) :
    Together (modifyClient f) (modifyClient f) s s' AlikeAfter :=
  .of_run (run_modifyClient s f) (run_modifyClient s' f) ⟨rfl, h.update f⟩

/-- The answer to a call depends on the number of calls before it. -/
theorem Alike.together_answer {α : Type} (h : Alike s s') (x : CM α) (e : ℕ → Event) (a : ℕ → α)
    (hx : ∀ s, x.run s = .ok (a s.trace.length) (s.log (e s.trace.length))) :
    Together x x s s' AlikeAfter := by
  refine .of_run (hx s) (hx s') ⟨by rw [h.length_eq], h.log ?_⟩
  rw [h.length_eq]

theorem Alike.together_headerComplete (h : Alike s s') {length : ℤ} (hroom : InBuffer length 1) :
    Together (headerComplete env length) (headerComplete env length) s s' fun a t b t' ↦
      AlikeAfter a t b t' ∧ ∃ buffer, t.client = { s.client with buffer := buffer } := by
  have hrun (s : Connection) : (headerComplete env length).run s =
      .ok (env.headerComplete s.trace.length) ((s.log (.headerComplete length)).update fun c ↦
        { c with buffer := putBytes c.buffer length.toNat [0] }) := by
    rw [headerComplete, run_bind_of_ok (EStateM.run_get s), run_bind_of_ok (run_record _ _),
      run_bind_of_ok (run_checkBounds _ hroom)]
    rfl
  exact .of_run (hrun s) (hrun s') ⟨⟨by rw [h.length_eq], (h.log rfl).update _⟩, _, rfl⟩

theorem Alike.together_getHeader (h : Alike s s') (e : Event) :
    Together (getHeader env e) (getHeader env e) s s' AlikeAfter :=
  h.together_answer _ (fun _ ↦ e) env.header fun _ ↦ rfl

/-- The end of `switch_state`, with the header that was made. -/
def fillBuffer (header : Header) : CM Unit := do
  modifyClient fun c ↦ { c with buffer := strcpy c.buffer header.text }
  modifyClient fun c ↦ { c with
    ntowrite := strlen c.buffer
    nwritten := 0
    state := .sendReply }

theorem Alike.together_fillBuffer (h : Alike s s') (header : Header) :
    Together (fillBuffer header) (fillBuffer header) s s' AlikeAfter :=
  (h.together_modifyClient _).bind fun _ _ _ _ ht ↦ ht.2.together_modifyClient _

theorem Alike.together_switchState (h : Alike s s') (request : Request) :
    Together (switchState env request) (switchState env request) s s' AlikeAfter := by
  refine (h.together_answer (access env request) (fun _ ↦ .access request) env.access
    fun _ ↦ rfl).bind ?_
  rintro _ t result t' ⟨rfl, ht⟩
  by_cases hresult : result = -1
  · simp only [if_pos hresult]
    refine (ht.together_getHeader (.get404 request)).bind ?_
    rintro _ u header u' ⟨rfl, hu⟩
    refine (hu.together_modifyClient _).bind ?_
    rintro _ v _ v' ⟨-, hv⟩
    exact hv.together_fillBuffer header
  simp only [if_neg hresult]
  refine (ht.together_answer (fopen env request) (fun n ↦ .fopen request (env.fopen n).isSome)
    env.fopen fun _ ↦ rfl).bind ?_
  rintro _ u file u' ⟨rfl, hu⟩
  refine (hu.together_modifyClient _).bind ?_
  rintro _ v _ v' ⟨-, hv⟩
  cases file with
  | none =>
      refine (hv.together_getHeader (.get403 request)).bind ?_
      rintro _ w header w' ⟨rfl, hw⟩
      refine (hw.together_modifyClient _).bind ?_
      rintro _ r _ r' ⟨-, hr⟩
      exact hr.together_fillBuffer header
  | some file =>
      refine (hv.together_answer (obtainFileSize env request) (fun _ ↦ .stat request)
        (fun n ↦ Int.bmod (env.stat n) (2 ^ 32)) fun _ ↦ rfl).bind ?_
      rintro _ w filesize w' ⟨rfl, hw⟩
      refine (hw.together_getHeader (.get200 request filesize)).bind ?_
      rintro _ r header r' ⟨rfl, hr⟩
      exact hr.together_fillBuffer header

end Alike

/-! ## One read -/

section Read

variable {env : Environment} {s : Connection} {pos count : ℤ}

theorem run_read_of_none (h : s.client.socket = -1 ∨ env.read s.trace.length = none) :
    (read env pos count).run s = .ok (-1) (s.log (.read pos count (-1))) := by
  have hanswer : (if s.client.socket = -1 then none else env.read s.trace.length) = none := by
    rcases h with h | h
    · rw [if_pos h]
    · rw [h, ite_self]
  rw [read, run_bind_of_ok (EStateM.run_get s), hanswer]
  rfl

theorem run_read_of_some {bytes : List UInt8} (hroom : InBuffer pos count)
    (hsocket : s.client.socket ≠ -1) (h : env.read s.trace.length = some bytes) :
    (read env pos count).run s = .ok (bytes.take count.toNat).length
      ((s.log (.read pos count (bytes.take count.toNat).length)).update fun c ↦
        { c with buffer := putBytes c.buffer pos.toNat (bytes.take count.toNat) }) := by
  rw [read, run_bind_of_ok (EStateM.run_get s)]
  simp only [if_neg hsocket, h]
  rw [run_bind_of_ok (run_record _ _), run_bind_of_ok (run_checkBounds _ hroom)]
  rfl

end Read

/-- A client whose request is being read. -/
structure Waiting (s : Connection) : Prop where
  socket : s.client.socket ≠ -1
  state : s.client.state = .recvRequest
  nread_nonneg : 0 ≤ s.client.nread
  nread_le : s.client.nread ≤ bufferSize - 1

/-- What both have come to when `read_request` returns `result`. -/
def Settled (result : ℤ) (t t' : Connection) : Prop :=
  result = 1 ∧ Alike t t' ∧ t.client.state = .sendReply ∨
    result = 0 ∧ t.client.socket = -1 ∧ t'.client.socket = -1 ∧ t'.sent = t.sent

/-- What an iteration of the loop of `read_request` and a call of `continue_reading_request` have
come to. -/
def Agreed (next : Unit ⊕ ℤ) (t t' : Connection) : Prop :=
  Sum.elim (fun _ ↦ Alike t t' ∧ Waiting t) (fun result ↦ Settled result t t') next

section Step

variable {env : Environment} {s s' : Connection}

theorem Waiting.room (h : Waiting s) :
    InBuffer s.client.nread (bufferSize - 1 - s.client.nread) := by
  have hnonneg := h.nread_nonneg
  have hle := h.nread_le
  exact ⟨by omega, by omega, by omega⟩

theorem Waiting.advance (h : Waiting s) {n : ℤ} (hn : 0 ≤ n)
    (hle : s.client.nread + n ≤ bufferSize - 1) :
    Waiting (s.update fun c ↦ { c with nread := c.nread + n }) :=
  ⟨h.socket, h.state, Int.add_nonneg h.nread_nonneg hn, hle⟩

theorem Waiting.of_alike (h : Waiting s) (halike : Alike s s') : Waiting s' := by
  rcases h with ⟨hsocket, hstate, hnonneg, hle⟩
  rw [← halike.client] at hsocket hstate hnonneg hle
  exact ⟨hsocket, hstate, hnonneg, hle⟩

/-- A read without bytes ends both. -/
theorem Waiting.continue_stops (h : Waiting s') {result : ℤ} {t : Connection}
    (hread : (read env s'.client.nread (bufferSize - 1 - s'.client.nread)).run s' = .ok result t)
    (hresult : result ≤ 0) :
    Returns (handleClient env) s' fun _ t' ↦ t'.client.socket = -1 ∧ t'.sent = t.sent := by
  refine .of_run (t := t.giveUp) (a := ()) ?_ ⟨rfl, rfl⟩
  rw [handleClient, run_bind_of_ok (EStateM.run_get s'), h.state]
  change (continueReadingRequest env).run s' = _
  rw [continueReadingRequest, run_bind_of_ok (EStateM.run_get s'), run_bind_of_ok hread,
    if_pos hresult]
  exact run_giveUp _

/-- What follows a read that has brought something. -/
def parseRequest (env : Environment) (length : ℤ) : CM Unit := do
  if ← headerComplete env length then
    let (result, request) ← getFilename env
    if result = -1 then
      giveUp
    switchState env request

theorem Waiting.run_handleClient (h : Waiting s') {result : ℤ} {t : Connection}
    (hread : (read env s'.client.nread (bufferSize - 1 - s'.client.nread)).run s' = .ok result t)
    (hresult : ¬ result ≤ 0) :
    (handleClient env).run s' = (parseRequest env (s'.client.nread + result)).run
      (t.update fun c ↦ { c with nread := c.nread + result }) := by
  rw [handleClient, run_bind_of_ok (EStateM.run_get s'), h.state]
  change (continueReadingRequest env).run s' = _
  rw [continueReadingRequest, run_bind_of_ok (EStateM.run_get s'), run_bind_of_ok hread,
    if_neg hresult, run_bind_of_ok (run_modifyClient _ _)]
  rfl

/-- What follows it in the loop. -/
def parseInLoop (env : Environment) (length : ℤ) : CM (Unit ⊕ ℤ) := do
  if ← headerComplete env length then
    let (result, request) ← getFilename env
    if result = -1 then
      giveUp
      return .inr 0
    else
      switchState env request
      return .inr 1
  else
    return .inl ()

/-- After a read that leaves room for the terminator. -/
theorem Waiting.parse_agrees (h : Waiting s) (halike : Alike s s') {length : ℤ}
    (hroom : InBuffer length 1) :
    Together (parseInLoop env length) (parseRequest env length) s s' fun next t _ t' ↦
      Agreed next t t' := by
  refine (halike.together_headerComplete hroom).bind ?_
  rintro _ t complete t' ⟨⟨rfl, ht⟩, buffer, hclient⟩
  have hwaiting : Waiting t := by
    refine ⟨?_, ?_, ?_, ?_⟩ <;> rw [hclient]
    · exact h.socket
    · exact h.state
    · exact h.nread_nonneg
    · exact h.nread_le
  cases complete with
  | false => exact .of_run rfl rfl ⟨ht, hwaiting⟩
  | true =>
      refine (ht.together_answer (getFilename env) (fun n ↦ .getFilename (env.getFilename n).1)
        env.getFilename fun _ ↦ rfl).bind ?_
      rintro _ u ⟨parsed, request⟩ u' ⟨rfl, hu⟩
      by_cases hparsed : parsed = -1
      · subst hparsed
        -- a request that is rejected is answered by one of them, on a closed socket
        obtain ⟨v, hrun, hswitch⟩ := run_switchState env request u'.giveUp
        exact .of_run rfl hrun (.inr ⟨rfl, rfl, hswitch.socket, hswitch.sent.trans hu.sent⟩)
      · simp only [if_neg hparsed]
        obtain ⟨_, v, _, v', hrun, hrun', -, hv⟩ := @Alike.together_switchState env u u' hu request
        refine .of_run (run_bind_of_ok hrun) hrun' (.inl ⟨rfl, hv, ?_⟩)
        obtain ⟨w, hw, hswitch⟩ := run_switchState env request u
        rw [hrun] at hw
        cases hw
        exact hswitch.state

/-- A read that does not fill the buffer is the same for both. -/
theorem Waiting.read_alike (h : Waiting s) (halike : Alike s s') {bytes : List UInt8}
    (hanswer : env.read s.trace.length = some bytes)
    (hlength : bytes.length ≤ bufferSize - 1 - s.client.nread) :
    Together (read env s.client.nread (bufferSize - s.client.nread))
      (read env s'.client.nread (bufferSize - 1 - s'.client.nread)) s s' fun result t result' t' ↦
        result = bytes.length ∧ result' = bytes.length ∧ Alike t t' ∧ Waiting t ∧
          t.client.nread = s.client.nread := by
  have hnonneg := h.nread_nonneg
  have hle := h.nread_le
  have hsocket' : s'.client.socket ≠ -1 := by
    rw [halike.client]
    exact h.socket
  have hanswer' : env.read s'.trace.length = some bytes := by
    rw [halike.length_eq, hanswer]
  have htake : bytes.take (bufferSize - s.client.nread).toNat = bytes :=
    List.take_of_length_le (by omega)
  have htake' : bytes.take (bufferSize - 1 - s.client.nread).toNat = bytes :=
    List.take_of_length_le (by omega)
  have hroom : InBuffer s.client.nread (bufferSize - s.client.nread) :=
    ⟨by omega, by omega, by omega⟩
  have hlog : Alike (s.log (.read s.client.nread (bufferSize - s.client.nread) bytes.length))
      (s'.log (.read s.client.nread (bufferSize - 1 - s.client.nread) bytes.length)) :=
    halike.log rfl
  have hrun := run_read_of_some hroom h.socket hanswer
  have hrun' := run_read_of_some h.room hsocket' hanswer'
  rw [htake] at hrun
  rw [htake'] at hrun'
  rw [halike.client]
  exact .of_run hrun hrun' ⟨rfl, rfl, hlog.update _,
    ⟨h.socket, h.state, h.nread_nonneg, h.nread_le⟩, rfl⟩

theorem run_readRequestBody_of_stop (hlt : s.client.nread < bufferSize - 1) {result : ℤ}
    {t : Connection} (hread : (read env s.client.nread (bufferSize - s.client.nread)).run s =
      .ok result t) (hresult : result ≤ 0) :
    (readRequestBody env ()).run s = .ok (.inr 0) t.giveUp := by
  rw [readRequestBody, run_bind_of_ok (EStateM.run_get s), if_pos hlt, run_bind_of_ok hread,
    if_pos hresult]
  rfl

theorem run_readRequestBody_of_full (hlt : ¬ s.client.nread < bufferSize - 1) :
    (readRequestBody env ()).run s = .ok (.inr 0) s.giveUp := by
  rw [readRequestBody, run_bind_of_ok (EStateM.run_get s), if_neg hlt]
  rfl

theorem run_readRequestBody_of_read (hlt : s.client.nread < bufferSize - 1) {result : ℤ}
    {t : Connection} (hread : (read env s.client.nread (bufferSize - s.client.nread)).run s =
      .ok result t) (hresult : ¬ result ≤ 0) :
    (readRequestBody env ()).run s = (parseInLoop env (s.client.nread + result)).run
      (t.update fun c ↦ { c with nread := c.nread + result }) := by
  rw [readRequestBody, run_bind_of_ok (EStateM.run_get s), if_pos hlt, run_bind_of_ok hread,
    if_neg hresult, run_bind_of_ok (run_modifyClient _ _)]
  rfl

/-- A read that fills the buffer leaves no room for the terminator. -/
theorem Waiting.body_faults (h : Waiting s) (hlt : s.client.nread < bufferSize - 1)
    {bytes : List UInt8} (hanswer : env.read s.trace.length = some bytes)
    (hlength : ¬ bytes.length ≤ bufferSize - 1 - s.client.nread) :
    ∃ e t, (readRequestBody env ()).run s = .error e t := by
  have hnonneg := h.nread_nonneg
  have hroom : InBuffer s.client.nread (bufferSize - s.client.nread) :=
    ⟨by omega, by omega, by omega⟩
  have hread := run_read_of_some hroom h.socket hanswer
  have hcount : ((bytes.take (bufferSize - s.client.nread).toNat).length : ℤ) =
      bufferSize - s.client.nread := by
    rw [List.length_take]
    omega
  rw [hcount] at hread
  rw [run_readRequestBody_of_read hlt hread (by omega), parseInLoop, add_sub_cancel]
  obtain ⟨f, hfault⟩ := run_headerComplete_bufferSize env _
  exact ⟨_, _, run_bind_of_error hfault⟩

/-- The body of the loop and the call agree as long as the read does not fill the buffer. -/
theorem Waiting.body_agrees (h : Waiting s) (halike : Alike s s') {next : Unit ⊕ ℤ}
    {t : Connection} (hrun : (readRequestBody env ()).run s = .ok next t) :
    Returns (handleClient env) s' fun _ t' ↦ Agreed next t t' := by
  have hnonneg := h.nread_nonneg
  have h' := h.of_alike halike
  by_cases hlt : s.client.nread < bufferSize - 1
  · cases hanswer : env.read s.trace.length with
    | none =>
        have hread := @run_read_of_none env s s.client.nread (bufferSize - s.client.nread)
          (.inr hanswer)
        rw [run_readRequestBody_of_stop hlt hread (by omega)] at hrun
        cases hrun
        have hread' := @run_read_of_none env s' s'.client.nread
          (bufferSize - 1 - s'.client.nread) (.inr (halike.length_eq ▸ hanswer))
        refine (h'.continue_stops hread' (by omega)).mono fun _ _ ⟨hsocket, hsent⟩ ↦ ?_
        exact .inr ⟨rfl, rfl, hsocket, hsent.trans halike.sent⟩
    | some bytes =>
        by_cases hlength : bytes.length ≤ bufferSize - 1 - s.client.nread
        · obtain ⟨_, u, _, u', hread, hread', rfl, rfl, hu, hwaiting, hnread⟩ :=
            h.read_alike halike hanswer hlength
          by_cases hresult : (bytes.length : ℤ) ≤ 0
          · rw [run_readRequestBody_of_stop hlt hread hresult] at hrun
            cases hrun
            refine (h'.continue_stops hread' hresult).mono fun _ _ ⟨hsocket, hsent⟩ ↦ ?_
            exact .inr ⟨rfl, rfl, hsocket, hsent.trans hu.sent⟩
          rw [run_readRequestBody_of_read hlt hread hresult] at hrun
          refine .of_run_eq (h'.run_handleClient hread' hresult) ?_
          have hclient : s'.client.nread + bytes.length = s.client.nread + bytes.length := by
            rw [halike.client]
          rw [hclient]
          have hadvanced := hwaiting.advance (n := bytes.length) (by omega) (by omega)
          exact (hadvanced.parse_agrees (hu.update _) ⟨by omega, by omega, by omega⟩).returns hrun
        · obtain ⟨e, u, herror⟩ := h.body_faults hlt hanswer hlength
          rw [hrun] at herror
          cases herror
  · rw [run_readRequestBody_of_full hlt] at hrun
    cases hrun
    obtain ⟨result, buffer, hread, hresult, -⟩ := run_read env s' h'.room
    rw [halike.client] at hresult
    refine (h'.continue_stops hread (by omega)).mono fun _ _ ⟨hsocket, hsent⟩ ↦ ?_
    exact .inr ⟨rfl, rfl, hsocket, hsent.trans halike.sent⟩

end Step

/-! ## The two readers -/

section Readers

variable (env : Environment)

/-- `handle_client` called until the request is answered or given up. -/
def receiveAllBody : Unit → CM (Unit ⊕ Unit) := fun _ ↦ do
  let c := (← get).client
  if c.socket = -1 ∨ c.state = .sendReply then
    return .inr ()
  else
    handleClient env
    return .inl ()

def receiveAll (fuel : ℕ) : CM Unit := whileLoop .running (receiveAllBody env) fuel ()

variable {env} {s s' : Connection} {fuel : ℕ}

theorem run_receiveAll_of_done (h : s.client.socket = -1 ∨ s.client.state = .sendReply) :
    (receiveAll env (fuel + 1)).run s = .ok () s := by
  have hbody : (receiveAllBody env ()).run s = .ok (.inr ()) s := by
    rw [receiveAllBody, run_bind_of_ok (EStateM.run_get s), if_pos h]
    rfl
  rw [receiveAll, whileLoop, run_bind_of_ok hbody]
  rfl

theorem Waiting.run_receiveAll (h : Waiting s) {t : Connection}
    (hrun : (handleClient env).run s = .ok () t) :
    (receiveAll env (fuel + 1)).run s = (receiveAll env fuel).run t := by
  have hopen : ¬ (s.client.socket = -1 ∨ s.client.state = .sendReply) := by
    rw [h.state]
    simp [h.socket]
  have hbody : (receiveAllBody env ()).run s = .ok (.inl ()) t := by
    rw [receiveAllBody, run_bind_of_ok (EStateM.run_get s), if_neg hopen, run_bind_of_ok hrun]
    rfl
  rw [receiveAll, whileLoop, run_bind_of_ok hbody]
  rfl

theorem Waiting.readers_agree (h : Waiting s) (halike : Alike s s') {result : ℤ} {t : Connection}
    (hrun : (readRequest env fuel).run s = .ok result t) :
    Returns (receiveAll env (fuel + 1)) s' fun _ u ↦ Settled result t u := by
  induction fuel generalizing s s' with
  | zero => cases hrun
  | succ fuel ih =>
      obtain ⟨next, u, hbody, hrest⟩ := run_bind_eq_ok_iff.mp hrun
      obtain ⟨_, u', hcall, hagreed⟩ := h.body_agrees halike hbody
      refine .of_run_eq ((h.of_alike halike).run_receiveAll hcall) ?_
      cases next with
      | inl acc =>
          obtain ⟨hu, hwaiting⟩ := hagreed
          exact ih hwaiting hu hrest
      | inr value =>
          cases hrest
          refine .of_run (run_receiveAll_of_done ?_) hagreed
          rcases hagreed with ⟨-, hu, hstate⟩ | ⟨-, -, hsocket, -⟩
          · rw [hu.client]
            exact .inr hstate
          · exact .inl hsocket

theorem run_readRequest_of_closed (h : s.client.socket = -1)
    (hlt : s.client.nread < bufferSize - 1) : ∃ t,
    (readRequest env (fuel + 1)).run s = .ok 0 t ∧ t.client.socket = -1 ∧ t.sent = s.sent := by
  have hread := @run_read_of_none env s s.client.nread (bufferSize - s.client.nread) (.inl h)
  have hbody := run_readRequestBody_of_stop hlt hread (by omega)
  refine ⟨(s.log (.read s.client.nread (bufferSize - s.client.nread) (-1))).giveUp, ?_, rfl, rfl⟩
  rw [readRequest, whileLoop, run_bind_of_ok hbody]
  rfl

variable {fd : ℤ} {buffer : Buffer bufferSize}

theorem nread_newConnection_lt : (newConnection fd buffer).client.nread < bufferSize - 1 := by
  simp [newConnection, makeClient, bufferSize]

theorem readers_agree_newConnection {result : ℤ} {t : Connection} (hfuel : 0 < fuel)
    (hrun : (readRequest env fuel).run (newConnection fd buffer) = .ok result t) :
    Returns (receiveAll env (fuel + 1)) (newConnection fd buffer) fun _ u ↦
      Settled result t u := by
  have hlt : (newConnection fd buffer).client.nread < bufferSize - 1 := nread_newConnection_lt
  by_cases hfd : fd = -1
  · obtain ⟨u, hclosed, hsocket, hsent⟩ := @run_readRequest_of_closed env
      (newConnection fd buffer) (fuel - 1) hfd hlt
    rw [Nat.sub_add_cancel hfuel, hrun] at hclosed
    cases hclosed
    exact .of_run (run_receiveAll_of_done (.inl hfd)) (.inr ⟨rfl, hsocket, hfd, hsent.symm⟩)
  · exact Waiting.readers_agree ⟨hfd, rfl, le_rfl, hlt.le⟩ ⟨rfl, rfl, rfl, rfl⟩ hrun

/-- A request of which no read fills the buffer is treated in the same way by both servers. -/
theorem request_readers_agree (hfuel : bufferSize < fuel) :
    Ends (readRequest env fuel) (newConnection fd buffer)
      (fun result t ↦ Returns (receiveAll env (fuel + 1)) (newConnection fd buffer) fun _ u ↦
        Settled result t u)
      (fun e t ↦ (∃ f, e = .fault f) ∧ Overrunning fd t) := by
  have hends : Ends (readRequest env fuel) (newConnection fd buffer) _ _ :=
    readRequest_ends_of_lt reading_newConnection hfuel
  cases hrun : (readRequest env fuel).run (newConnection fd buffer) with
  | error e t => exact (ends_iff_of_error hrun).mpr ((ends_iff_of_error hrun).mp hends)
  | ok result t =>
      exact (ends_iff_of_ok hrun).mpr (readers_agree_newConnection (by omega) hrun)

theorem request_readers_agree_byteByByte : ∃ t,
    (readRequest byteByByte 4097).run (newConnection 5 fun _ ↦ 0) = .ok 1 t ∧
      Returns (receiveAll byteByByte 4098) (newConnection 5 fun _ ↦ 0) fun _ u ↦ Alike t u := by
  obtain ⟨t, hrun⟩ : ∃ t,
      (readRequest byteByByte 4097).run (newConnection 5 fun _ ↦ 0) = .ok 1 t := ⟨_, rfl⟩
  have h := @request_readers_agree byteByByte 4097 5 (fun _ ↦ 0) (by decide)
  refine ⟨t, hrun, ((ends_iff_of_ok hrun).mp h).mono fun _ u hsettled ↦ ?_⟩
  rcases hsettled with ⟨-, halike, -⟩ | ⟨hresult, -⟩
  · exact halike
  · cases hresult

end Readers

end OsProjects.Server
