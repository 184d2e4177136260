import OsProjects.Library.Runs
import OsProjects.Server.Resources

/-!
# Bounds of the buffer

Every access to the buffer of a client is within it, except where
`read_request` lets a read fill it, and where `continue_sending_reply` counts
the result of a write that has failed before anything was written.
-/

namespace OsProjects.Server

open Library.Program Library.Bytes Library.Runs

namespace Event

def InBounds : Event → Prop
  | .read pos count _ => InBuffer pos count
  | .headerComplete length => InBuffer length 1
  | .fread count _ => InBuffer 0 count
  | .write pos count _ => InBuffer pos count
  | _ => True

/-- A write that fails before anything of the buffer was written. -/
def FailsAtStart : Event → Prop
  | .write pos _ result => pos = 0 ∧ result = -1
  | _ => False

theorem IsRequest.inBounds {e : Event} (h : e.IsRequest) : e.InBounds := by
  cases e with
  | read pos count result => exact h.1
  | headerComplete length => exact h
  | getFilename result => trivial
  | _ => cases h

theorem IsRequest.not_fillsBuffer {e : Event} (h : e.IsRequest) : ¬ e.FillsBuffer := by
  cases e with
  | read pos count result => exact h.2.ne
  | _ => exact id

theorem IsTransfer.inBounds {e : Event} (h : e.IsTransfer) : e.InBounds := by
  cases e with
  | write pos count result => exact h.1
  | fread count result => exact h
  | _ => cases h

theorem IsTransfer.not_fillsBuffer {e : Event} (h : e.IsTransfer) : ¬ e.FillsBuffer := by
  cases e with
  | read pos count result => cases h
  | _ => exact id

theorem IsSwitch.inBounds {e : Event} (h : e.IsSwitch) : e.InBounds := by
  cases e with
  | read pos count result => cases h
  | headerComplete length => cases h
  | fread count result => cases h
  | write pos count result => cases h
  | _ => trivial

theorem IsSwitch.not_fillsBuffer {e : Event} (h : e.IsSwitch) : ¬ e.FillsBuffer := by
  cases e with
  | read pos count result => cases h
  | _ => exact id

theorem IsTransfer.not_failsAtStart {e : Event} (h : e.IsTransfer) : ¬ e.FailsAtStart := by
  cases e with
  | write pos count result =>
      intro hfails
      have hnonneg := h.2
      have hresult := hfails.2
      omega
  | _ => exact id

theorem IsSwitch.not_failsAtStart {e : Event} (h : e.IsSwitch) : ¬ e.FailsAtStart := by
  cases e with
  | write pos count result => cases h
  | _ => exact id

end Event

/-! ## `read_request` and `write_reply` -/

structure Bounded (t : Connection) : Prop where
  inBuffer : InBuffer t.client.nwritten t.client.ntowrite
  trace : ∀ e ∈ t.trace, e.InBounds ∧ ¬ e.FillsBuffer

section Blocking

variable {env : Environment} {fd : ℤ} {s t : Connection}

theorem Bounded.log (h : Bounded s) {e : Event} (hbounds : e.InBounds)
    (hfills : ¬ e.FillsBuffer) : Bounded (s.log e) :=
  ⟨h.inBuffer, List.forall_mem_cons.mpr ⟨⟨hbounds, hfills⟩, h.trace⟩⟩

theorem Bounded.giveUp (h : Bounded s) : Bounded s.giveUp :=
  ⟨h.inBuffer, List.forall_mem_cons.mpr ⟨⟨trivial, id⟩, h.trace⟩⟩

theorem Bounded.append {events : List Event} (h : Bounded s)
    (hbuffer : InBuffer t.client.nwritten t.client.ntowrite) (htrace : t.trace = events ++ s.trace)
    (hevents : ∀ e ∈ events, e.InBounds ∧ ¬ e.FillsBuffer) : Bounded t := by
  refine ⟨hbuffer, fun e he ↦ ?_⟩
  rw [htrace] at he
  exact (List.mem_append.mp he).elim (hevents e) (h.trace e)

theorem Reading.bounded (h : Reading fd s) : Bounded s := by
  refine ⟨?_, fun e he ↦ ⟨(h.trace e he).inBounds, (h.trace e he).not_fillsBuffer⟩⟩
  rw [h.nwritten, h.ntowrite]
  exact ⟨le_rfl, le_rfl, by decide⟩

theorem Sending.bounded (h : Sending s t) (hs : Bounded s) : Bounded t := by
  obtain ⟨events, htrace, hevents⟩ := h.trace
  exact hs.append h.inBuffer htrace fun e he ↦
    ⟨(hevents e he).inBounds, (hevents e he).not_fillsBuffer⟩

theorem Accepting.bounded (h : Accepting env fd t) : Bounded t := by
  obtain ⟨s, request, parsed, hreading, -, hswitch⟩ := h
  obtain ⟨events, htrace, hevents⟩ := hswitch.trace
  have hlogged : Bounded (s.log (.getFilename parsed)) := hreading.bounded.log trivial id
  exact hlogged.append hswitch.inBuffer htrace fun e he ↦
    ⟨(hevents e he).inBounds, (hevents e he).not_fillsBuffer⟩

theorem Abandoned.bounded (h : Abandoned env s t) (hs : Bounded s) : Bounded t := by
  obtain ⟨u, hsending, -, rfl⟩ := h
  have hu := hsending.bounded hs
  exact (hu.log (e := .write u.client.nwritten u.client.ntowrite (-1)) hu.inBuffer id).giveUp

/-- The calls that the session makes are within the buffer, and so are the
counters at its end. -/
def SessionInBounds (t : Connection) : Prop :=
  (∀ e ∈ t.trace, e.InBounds) ∧ InBuffer t.client.nwritten t.client.ntowrite

theorem Bounded.sessionInBounds_iff (h : Bounded t) :
    SessionInBounds t ↔ ∀ e ∈ t.trace, ¬ e.FillsBuffer :=
  iff_of_true ⟨fun e he ↦ (h.trace e he).1, h.inBuffer⟩ fun e he ↦ (h.trace e he).2

theorem Overrunning.sessionInBounds_iff (h : Overrunning fd t) :
    SessionInBounds t ↔ ∀ e ∈ t.trace, ¬ e.FillsBuffer := by
  obtain ⟨s, count, buffer, -, -, rfl⟩ := h
  refine iff_of_false (fun hbounds ↦ ?_) fun hfills ↦ ?_
  · have hlast := (hbounds.1 (.headerComplete bufferSize) (by simp)).2.2
    omega
  · exact hfills (.read s.client.nread count count) (by simp) rfl

def sessionEnd (env : Environment) (fd : ℤ) (buffer : Buffer bufferSize) (fuel : ℕ) : Connection :=
  finalState ((session env fuel).run (newConnection fd buffer))

theorem session_inBounds_iff (buffer : Buffer bufferSize) (fuel : ℕ) :
    SessionInBounds (sessionEnd env fd buffer fuel) ↔
      ∀ e ∈ (sessionEnd env fd buffer fuel).trace, ¬ e.FillsBuffer := by
  refine Ends.finalState (P := fun t ↦ SessionInBounds t ↔ ∀ e ∈ t.trace, ¬ e.FillsBuffer)
    ((readRequest_ends reading_newConnection).bind (fun result t ht ↦ ?_) fun e t ht ↦ ?_)
  · rcases ht with ⟨rfl, u, hreading, rfl⟩ | ⟨rfl, haccepting⟩
    · exact hreading.bounded.giveUp.sessionInBounds_iff
    · refine (writeReply_ends haccepting.inBuffer).bind (fun result u hu ↦ ?_)
        fun e u hu ↦ (hu.2.bounded haccepting.bounded).sessionInBounds_iff
      rcases hu with ⟨-, hfailed⟩ | ⟨-, ⟨hsending, -, -⟩ | ⟨v, readResult, hchunked, -, rfl⟩⟩
      · exact (hfailed.bounded haccepting.bounded).sessionInBounds_iff
      · exact (hsending.bounded haccepting.bounded).sessionInBounds_iff
      · exact ((hchunked.sending.bounded haccepting.bounded).log (e := .fclose) trivial
          id).sessionInBounds_iff
  · rcases ht with ⟨rfl, hreading⟩ | ⟨-, hoverrun⟩
    · exact hreading.bounded.sessionInBounds_iff
    · exact hoverrun.sessionInBounds_iff

end Blocking

/-! ## `handle_client` -/

/-- A call of `handle_client`, for which the environment answers as it likes. -/
def HandleCall (s : Connection) (env : Environment) (t : Connection) : Prop :=
  (handleClient env).run s = .ok () t

structure Handled (t : Connection) : Prop where
  client : t.client.InBounds
  trace : ∀ e ∈ t.trace, e.InBounds ∧ ¬ e.FailsAtStart

section StateMachine

variable {env : Environment} {fd : ℤ} {buffer : Buffer bufferSize} {s t : Connection}

theorem handled_newConnection : Handled (newConnection fd buffer) :=
  ⟨⟨le_rfl, by simp [newConnection, makeClient, bufferSize],
    le_rfl, le_rfl, by simp [newConnection, makeClient]⟩, by simp [newConnection]⟩

theorem Handled.log (h : Handled s) {e : Event} (hbounds : e.InBounds)
    (hfails : ¬ e.FailsAtStart) : Handled (s.log e) :=
  ⟨h.client, List.forall_mem_cons.mpr ⟨⟨hbounds, hfails⟩, h.trace⟩⟩

theorem Handled.update (h : Handled s) {f : Client → Client} (hf : (f s.client).InBounds) :
    Handled (s.update f) :=
  ⟨hf, h.trace⟩

theorem Handled.giveUp (h : Handled s) : Handled s.giveUp :=
  ⟨⟨h.client.nread_nonneg, h.client.nread_le, h.client.reply⟩,
    List.forall_mem_cons.mpr ⟨⟨trivial, id⟩, h.trace⟩⟩

theorem Handled.append {events : List Event} (h : Handled s) (hnread : t.client.nread = s.client.nread)
    (hbuffer : InBuffer t.client.nwritten t.client.ntowrite) (htrace : t.trace = events ++ s.trace)
    (hevents : ∀ e ∈ events, e.InBounds ∧ ¬ e.FailsAtStart) : Handled t := by
  refine ⟨⟨?_, ?_, hbuffer⟩, fun e he ↦ ?_⟩
  · rw [hnread]
    exact h.client.nread_nonneg
  · rw [hnread]
    exact h.client.nread_le
  · rw [htrace] at he
    exact (List.mem_append.mp he).elim (hevents e) (h.trace e)

theorem Handled.room (h : Handled s) :
    InBuffer s.client.nread (bufferSize - 1 - s.client.nread) := by
  have hnread := h.client.nread_nonneg
  have hle := h.client.nread_le
  exact ⟨by omega, by omega, by omega⟩

theorem Handled.received {result : ℤ} (h : Handled s) (hpos : 0 < result)
    (hle : result ≤ bufferSize - 1 - s.client.nread) (buffer : Buffer bufferSize) :
    Handled (s.received (bufferSize - 1 - s.client.nread) result buffer) := by
  have hnread := h.client.nread_nonneg
  have hnext : InBuffer (s.client.nread + result) 1 := ⟨by omega, by omega, by omega⟩
  have hread := h.log (e := .read s.client.nread (bufferSize - 1 - s.client.nread) result) h.room id
  refine (hread.log (e := .headerComplete (s.client.nread + result)) hnext id).update
    ⟨hnext.1, ?_, h.client.reply⟩
  simp only [Connection.log_client]
  omega

theorem Handled.switch {request : Request} (h : Handled s) (hswitch : Switch env request s t) :
    Handled t := by
  obtain ⟨events, htrace, hevents⟩ := hswitch.trace
  exact h.append hswitch.nread hswitch.inBuffer htrace fun e he ↦
    ⟨(hevents e he).inBounds, (hevents e he).not_failsAtStart⟩

theorem Handled.sending (h : Handled s) (hsending : Sending s t)
    (hnread : t.client.nread = s.client.nread) : Handled t := by
  obtain ⟨events, htrace, hevents⟩ := hsending.trace
  exact h.append hnread hsending.inBuffer htrace fun e he ↦
    ⟨(hevents e he).inBounds, (hevents e he).not_failsAtStart⟩

theorem Handled.request (h : Handled s) (hstep : RequestStep env s t) : Handled t := by
  cases hstep with
  | @stopped result buffer hresult =>
      have hread := h.log (e := .read s.client.nread (bufferSize - 1 - s.client.nread) result)
        h.room id
      exact (hread.update ⟨h.client.nread_nonneg, h.client.nread_le, h.client.reply⟩).giveUp
  | more hsocket hpos hle => exact h.received hpos hle _
  | rejected hsocket hpos hle hswitch =>
      exact ((h.received hpos hle _).log (e := .getFilename (-1)) trivial id).giveUp.switch hswitch
  | @accepted result parsed buffer request t hsocket hpos hle hparsed hswitch =>
      exact ((h.received hpos hle _).log (e := .getFilename parsed) trivial id).switch hswitch

/-- The calls made are within the buffer, so is the progress of the client, and
no access of the next call is outside the buffer. -/
structure CallsInBounds (t : Connection) : Prop where
  client : t.client.InBounds
  trace : ∀ e ∈ t.trace, e.InBounds
  returns : ∀ env, ∃ u, HandleCall t env u

theorem Handled.callsInBounds (h : Handled t) : CallsInBounds t where
  client := h.client
  trace e he := (h.trace e he).1
  returns env := by
    obtain ⟨u, hrun, -⟩ := handleClient_step env h.client
    exact ⟨u, hrun⟩

theorem Handled.reply (h : Handled s) (hstep : ReplyStep env s t) :
    Handled t ∨ ¬ t.client.InBounds ∧ ∃ e ∈ t.trace, e.FailsAtStart := by
  cases hstep with
  | wrote hsocket hpending hresult hle hprogress =>
      exact .inl (h.sending (.wrote h.client.reply hresult hle) rfl)
  | failed hpending =>
      obtain ⟨hpos, hcount, hbound⟩ := h.client.reply
      by_cases hstart : s.client.nwritten = 0
      · refine .inr ⟨fun hclient ↦ ?_,
          .write s.client.nwritten s.client.ntowrite (-1), by simp, hstart, rfl⟩
        have hnext : 0 ≤ s.client.nwritten + -1 := hclient.reply.1
        omega
      · have hwrite := h.log (e := .write s.client.nwritten s.client.ntowrite (-1))
          h.client.reply fun hfails ↦ hstart hfails.1
        have hnext : InBuffer (s.client.nwritten + -1) (s.client.ntowrite - -1) :=
          ⟨by omega, by omega, by omega⟩
        exact .inl (hwrite.giveUp.update ⟨h.client.nread_nonneg, h.client.nread_le, hnext⟩)
  | finished hpending hfile =>
      refine .inl ⟨⟨h.client.nread_nonneg, h.client.nread_le, h.client.reply⟩, ?_⟩
      exact List.forall_mem_cons.mpr ⟨⟨trivial, id⟩, h.trace⟩
  | loaded hpending hfile hle =>
      exact .inl (h.sending (.loaded hfile hpending le_rfl hle) rfl)
  | loadedLast hpending hfile hlt hle hend =>
      have hloaded := h.sending (.loaded hfile hpending hlt.le hle) rfl
      have hclosed := hloaded.log (e := .fclose) trivial id
      exact .inl (hclosed.update ⟨h.client.nread_nonneg, h.client.nread_le, hloaded.client.reply⟩)

theorem Handled.step (h : Handled s) (hcall : HandleCall s env t) :
    Handled t ∨ ¬ t.client.InBounds ∧ ∃ e ∈ t.trace, e.FailsAtStart := by
  cases HandleStep.of_run h.client hcall with
  | request hstate hstep => exact .inl (h.request hstep)
  | reply hstate hstep => exact h.reply hstep

/-- What excludes a write that fails at the start in every state of a run keeps
the run within the buffer. -/
theorem handled_of_run {P : Connection → Prop}
    (hP : ∀ t, P t → ¬ (¬ t.client.InBounds ∧ ∃ e ∈ t.trace, e.FailsAtStart))
    {envs past : List Environment}
    (hall : ∀ past s, past <+: envs → Run HandleCall (newConnection fd buffer) past s → P s)
    (hpast : past <+: envs) (hrun : Run HandleCall (newConnection fd buffer) past s) :
    Handled s := by
  refine hrun.invariant_of_prefix (P := fun _ ↦ Handled) hpast handled_newConnection ?_
  intro past s env t hpart hfirst hs hcall
  exact (hs.step hcall).resolve_right (hP t (hall _ t hpart (.snoc hfirst hcall)))

theorem handled_inBounds_iff {envs : List Environment} :
    (∀ past s, past <+: envs → Run HandleCall (newConnection fd buffer) past s →
      CallsInBounds s) ↔
    ∀ past s, past <+: envs → Run HandleCall (newConnection fd buffer) past s →
      ∀ e ∈ s.trace, ¬ e.FailsAtStart := by
  constructor
  · intro hall past s hpast hrun e he
    exact ((handled_of_run (fun t ht hbad ↦ hbad.1 ht.client) hall hpast hrun).trace e he).2
  · intro hall past s hpast hrun
    refine (handled_of_run (P := fun t ↦ ∀ e ∈ t.trace, ¬ e.FailsAtStart)
      (fun t ht hbad ↦ ?_) hall hpast hrun).callsInBounds
    obtain ⟨e, he, hfails⟩ := hbad.2
    exact ht e he hfails

end StateMachine

/-- A session stays within the buffer exactly if no read fills it, and a run of
`handle_client` exactly if no write fails before anything of the buffer was
written. -/
theorem client_inBounds_iff (fd : ℤ) (buffer : Buffer bufferSize) :
    (∀ env fuel, SessionInBounds (sessionEnd env fd buffer fuel) ↔
      ∀ e ∈ (sessionEnd env fd buffer fuel).trace, ¬ e.FillsBuffer) ∧
    ∀ envs, (∀ past s, past <+: envs → Run HandleCall (newConnection fd buffer) past s →
        CallsInBounds s) ↔
      ∀ past s, past <+: envs → Run HandleCall (newConnection fd buffer) past s →
        ∀ e ∈ s.trace, ¬ e.FailsAtStart :=
  ⟨fun _ fuel ↦ session_inBounds_iff buffer fuel, fun _ ↦ handled_inBounds_iff⟩

def filling : Environment := { byteByByte with read _ := some (List.replicate bufferSize 71) }

def unwritable : Environment := { missingFile with write _ := none }

/-- `header_complete` is called without room for the terminator, and a write that
fails at the start is subtracted from the counters. -/
theorem accesses_out_of_bounds :
    (∃ e ∈ (sessionEnd filling 5 (fun _ ↦ 0) 1).trace, ¬ e.InBounds) ∧
    ∃ s t, HandleCall (newConnection 5 fun _ ↦ 0) missingFile s ∧ HandleCall s unwritable t ∧
      t.client.nwritten = -1 := by
  constructor
  · have htest : (sessionEnd filling 5 (fun _ ↦ 0) 1).trace.any (fun
        | .headerComplete length => length = bufferSize
        | _ => false) = true := by
      decide +kernel
    obtain ⟨e, he, hlength⟩ := List.any_eq_true.mp htest
    refine ⟨e, he, fun hbounds ↦ ?_⟩
    cases e with
    | headerComplete length =>
        obtain rfl : length = bufferSize := of_decide_eq_true hlength
        have hbound := hbounds.2.2
        omega
    | _ => cases hlength
  · have htest : returnsWith (do handleClient missingFile; handleClient unwritable)
        (newConnection 5 fun _ ↦ 0) (fun _ t ↦ t.client.nwritten = -1) = true := by
      decide +kernel
    obtain ⟨a, t, hrun, hnwritten⟩ := returnsWith_iff.mp htest
    obtain ⟨b, s, hfirst, hsecond⟩ := run_bind_eq_ok_iff.mp hrun
    exact ⟨s, t, hfirst, hsecond, of_decide_eq_true hnwritten⟩

end OsProjects.Server
