import OsProjects.Server.Bounds

/-!
# Finished clients

A client that the state machine has finished stays as it is, and its file is
closed, in every run without an error after which the functions go on: a request
that is rejected, and a write that fails.
-/

namespace OsProjects.Server

open Library.Program Library.Bytes Library.Runs

namespace Event

def IsClose : Event → Prop
  | .close _ => True
  | _ => False

/-- An error that finishes the client, after which the function goes on. -/
def FallsThrough : Event → Prop
  | .getFilename result => result = -1
  | .write _ _ result => result = -1
  | _ => False

end Event

/-- The part of a client that is settled once it is finished. -/
def Client.SameReply (c d : Client) : Prop :=
  c.state = d.state ∧ c.status = d.status ∧ c.nwritten = d.nwritten ∧ c.ntowrite = d.ntowrite ∧
    c.file = d.file

/-- A call that finishes the client changes nothing afterwards, and a call that
rejects the request does not look for a file. -/
structure FinalCall (s t : Connection) : Prop where
  kept : ∀ events client, t.trace = events ++ s.trace → .close client ∈ events →
    t.client.SameReply client
  rejected : ∀ events, t.trace = events ++ s.trace → .getFilename (-1) ∈ events →
    ∀ request, .access request ∉ events

/-- At no time after the client was finished was a file open. -/
def FilesClosed (trace : List Event) : Prop :=
  ∀ past, past <:+ trace → (∃ e ∈ past, e.IsClose) →
    past.countP Event.opensFile = past.countP Event.closesFile

structure Orderly (t : Connection) : Prop where
  handled : Handled t
  files : t.trace.countP Event.opensFile =
    t.trace.countP Event.closesFile + if t.client.file.isSome then 1 else 0
  reading : t.client.state = .recvRequest → t.client.file = none
  finished : (∃ e ∈ t.trace, e.IsClose) → t.client.socket = -1 ∧ t.client.file = none
  closed : FilesClosed t.trace
  faultless : ∀ e ∈ t.trace, ¬ e.FallsThrough

section Orderly

variable {env : Environment} {fd : ℤ} {buffer : Buffer bufferSize} {s t : Connection}
  {trace : List Event}

theorem FilesClosed.cons (h : FilesClosed trace) {e : Event}
    (he : (∃ d ∈ e :: trace, d.IsClose) →
      (e :: trace).countP Event.opensFile = (e :: trace).countP Event.closesFile) :
    FilesClosed (e :: trace) := by
  intro past hpast hclose
  rcases List.suffix_cons_iff.mp hpast with rfl | hpast
  · exact he hclose
  · exact h past hpast hclose

theorem filesClosed_of_forall (h : ∀ e ∈ trace, ¬ e.IsClose) : FilesClosed trace := by
  rintro past hpast ⟨e, he, hclose⟩
  exact absurd hclose (h e (hpast.subset he))

theorem finalCall_of_events (events : List Event) (htrace : t.trace = events ++ s.trace)
    (hkept : ∀ client, .close client ∈ events → t.client.SameReply client)
    (hparsed : .getFilename (-1) ∉ events) : FinalCall s t := by
  refine ⟨fun events' client htrace' ↦ ?_, fun events' htrace' hmem ↦ ?_⟩
  · obtain rfl := List.append_cancel_right (htrace.symm.trans htrace')
    exact hkept client
  · obtain rfl := List.append_cancel_right (htrace.symm.trans htrace')
    exact absurd hmem hparsed

theorem orderly_newConnection : Orderly (newConnection fd buffer) where
  handled := handled_newConnection
  files := rfl
  reading _ := rfl
  finished h := by simp [newConnection] at h
  closed := filesClosed_of_forall (by simp [newConnection])
  faultless := by simp [newConnection]

theorem Orderly.not_isClose (h : Orderly s)
    (hopen : s.client.socket ≠ -1 ∨ s.client.file ≠ none) : ∀ e ∈ s.trace, ¬ e.IsClose := by
  intro e he hclose
  obtain ⟨hsocket, hfile⟩ := h.finished ⟨e, he, hclose⟩
  exact hopen.elim (fun hne ↦ hne hsocket) fun hne ↦ hne hfile

theorem Orderly.open_step (h : Orderly s) (events : List Event)
    (hopen : s.client.socket ≠ -1 ∨ s.client.file ≠ none) (hhandled : Handled t)
    (htrace : t.trace = events ++ s.trace)
    (hevents : ∀ e ∈ events, ¬ e.IsClose ∧ ¬ e.FallsThrough)
    (hfiles : events.countP Event.opensFile + (if s.client.file.isSome then 1 else 0) =
      events.countP Event.closesFile + if t.client.file.isSome then 1 else 0)
    (hreading : t.client.state = .recvRequest → t.client.file = none) :
    Orderly t ∧ FinalCall s t := by
  have hnone : ∀ e ∈ t.trace, ¬ e.IsClose := by
    intro e he
    rw [htrace] at he
    exact (List.mem_append.mp he).elim (fun he ↦ (hevents e he).1) (h.not_isClose hopen e)
  refine ⟨⟨hhandled, ?_, hreading, ?_, filesClosed_of_forall hnone, ?_⟩,
    finalCall_of_events events htrace (fun client he ↦ absurd trivial (hevents _ he).1)
      fun he ↦ (hevents _ he).2 rfl⟩
  · have hold := h.files
    rw [htrace, List.countP_append, List.countP_append]
    omega
  · rintro ⟨e, he, hclose⟩
    exact absurd hclose (hnone e he)
  · intro e he
    rw [htrace] at he
    exact (List.mem_append.mp he).elim (fun he ↦ (hevents e he).2) (h.faultless e)

theorem Orderly.finish (h : Orderly s) (hfile : s.client.file = none) : Orderly s.finish := by
  have hcounts : s.trace.countP Event.opensFile = s.trace.countP Event.closesFile := by
    have hold := h.files
    rwa [hfile] at hold
  refine ⟨⟨⟨h.handled.client.nread_nonneg, h.handled.client.nread_le, h.handled.client.reply⟩,
    List.forall_mem_cons.mpr ⟨⟨trivial, id⟩, h.handled.trace⟩⟩, ?_, h.reading,
    fun _ ↦ ⟨rfl, hfile⟩, h.closed.cons fun _ ↦ ?_,
    List.forall_mem_cons.mpr ⟨id, h.faultless⟩⟩
  · simpa [List.countP_cons, hfile] using hcounts
  · simpa [List.countP_cons] using hcounts

theorem Orderly.update (h : Orderly s) {f : Client → Client} (hbounds : (f s.client).InBounds)
    (hstate : (f s.client).state = s.client.state) (hfile : (f s.client).file = s.client.file)
    (hsocket : (f s.client).socket = s.client.socket) : Orderly (s.update f) where
  handled := h.handled.update hbounds
  files := by simpa only [Connection.update_client, Connection.update_trace, hfile] using h.files
  reading hreading := hfile.trans (h.reading (hstate.symm.trans hreading))
  finished hclose := by
    simpa only [Connection.update_client, hfile, hsocket] using h.finished hclose
  closed := h.closed
  faultless := h.faultless

theorem Orderly.log_read (h : Orderly s) {pos count : ℤ} (hroom : InBuffer pos count)
    (result : ℤ) : Orderly (s.log (.read pos count result)) := by
  have hclose : (∃ e ∈ Event.read pos count result :: s.trace, e.IsClose) →
      ∃ e ∈ s.trace, e.IsClose := by
    rintro ⟨e, he, hclose⟩
    rcases List.mem_cons.mp he with rfl | he
    · cases hclose
    · exact ⟨e, he, hclose⟩
  have hcounts : (∃ e ∈ s.trace, e.IsClose) →
      s.trace.countP Event.opensFile = s.trace.countP Event.closesFile :=
    h.closed s.trace List.suffix_rfl
  exact ⟨h.handled.log (e := .read pos count result) hroom id, h.files, h.reading,
    fun h' ↦ h.finished (hclose h'), h.closed.cons fun h' ↦ hcounts (hclose h'),
    List.forall_mem_cons.mpr ⟨id, h.faultless⟩⟩

/-- A call either is final, or goes on after an error that finishes the client. -/
theorem Orderly.request (h : Orderly s) (hstate : s.client.state = .recvRequest)
    (hstep : RequestStep env s t) :
    (Orderly t ∧ FinalCall s t) ∨ ¬ FinalCall s t ∧ ∃ e ∈ t.trace, e.FallsThrough := by
  have hroom := h.handled.room
  have hhandled := h.handled.request hstep
  cases hstep with
  | @stopped result buffer hresult =>
      have hread := (h.log_read hroom result).update (f := fun c ↦ { c with buffer := buffer })
        ⟨h.handled.client.nread_nonneg, h.handled.client.nread_le, h.handled.client.reply⟩
        rfl rfl rfl
      have hbad := hread.update (f := fun c ↦ { c with status := .bad })
        ⟨h.handled.client.nread_nonneg, h.handled.client.nread_le, h.handled.client.reply⟩
        rfl rfl rfl
      refine .inl ⟨hbad.finish (h.reading hstate), ?_⟩
      refine finalCall_of_events [.close { s.client with buffer := buffer, status := .bad },
        .read s.client.nread (bufferSize - 1 - s.client.nread) result] rfl (fun client hmem ↦ ?_)
        (by simp)
      obtain rfl : client = { s.client with buffer := buffer, status := .bad } := by
        simpa using hmem
      exact ⟨rfl, rfl, rfl, rfl, rfl⟩
  | @more result buffer hsocket hpos hle =>
      refine .inl (h.open_step [.headerComplete (s.client.nread + result),
        .read s.client.nread (bufferSize - 1 - s.client.nread) result] (.inl hsocket) hhandled rfl
        ?_ rfl h.reading)
      simp [Event.IsClose, Event.FallsThrough]
  | rejected hsocket hpos hle hswitch =>
      obtain ⟨events, htrace, -, haccess⟩ := hswitch.trace_access
      refine .inr ⟨fun hfinal ↦ ?_, .getFilename (-1), by simp [htrace], rfl⟩
      refine hfinal.rejected (events ++ [_, _, _, _]) (by simpa using htrace) (by simp) _
        (List.mem_append_left _ haccess)
  | accepted hsocket hpos hle hparsed hswitch =>
      have hfile := h.reading hstate
      cases hswitch with
      | notFound =>
          refine .inl (h.open_step [_, _, _, _, _] (.inl hsocket) hhandled rfl ?_ ?_ ?_)
          · simp [Event.IsClose, Event.FallsThrough, hparsed]
          · simp [hfile, Client.reply]
          · rintro ⟨⟩
      | forbidden =>
          refine .inl (h.open_step [_, _, _, _, _, _] (.inl hsocket) hhandled rfl ?_ ?_ ?_)
          · simp [Event.IsClose, Event.FallsThrough, hparsed]
          · simp [hfile, Client.reply]
          · rintro ⟨⟩
      | found hfilesize =>
          refine .inl (h.open_step [_, _, _, _, _, _, _] (.inl hsocket) hhandled rfl ?_ ?_ ?_)
          · simp [Event.IsClose, Event.FallsThrough, hparsed]
          · simp [List.countP_cons, hfile, Client.reply]
          · rintro ⟨⟩

theorem Orderly.reply (h : Orderly s) (hstate : s.client.state = .sendReply)
    (hstep : ReplyStep env s t) :
    (Orderly t ∧ FinalCall s t) ∨ ¬ FinalCall s t ∧ ∃ e ∈ t.trace, e.FallsThrough := by
  have hreading {c : Client} (hc : c.state = s.client.state) :
      c.state = .recvRequest → c.file = none := by
    rw [hc, hstate]
    exact nofun
  cases hstep with
  | @wrote result hsocket hpending hresult hle hprogress =>
      have hhandled := h.handled.sending (.wrote h.handled.client.reply hresult hle) rfl
      refine .inl (h.open_step [_] (.inl hsocket) hhandled rfl ?_ rfl (hreading rfl))
      simp [Event.IsClose, Event.FallsThrough]
      omega
  | failed hpending =>
      refine .inr ⟨fun hfinal ↦ ?_,
        .write s.client.nwritten s.client.ntowrite (-1), by simp, rfl⟩
      -- the result -1 is added to the counter after `finish_client`
      have hkept := hfinal.kept [.close { s.client with status := .bad },
        .write s.client.nwritten s.client.ntowrite (-1)] _ rfl (List.mem_cons_self ..)
      have hcounter : s.client.nwritten + -1 = s.client.nwritten := hkept.2.2.1
      omega
  | finished hpending hfile =>
      have hfinish := h.finish hfile
      refine .inl ⟨⟨⟨hfinish.handled.client, hfinish.handled.trace⟩, hfinish.files,
        hfinish.reading, hfinish.finished, hfinish.closed, hfinish.faultless⟩,
        finalCall_of_events [.close s.client] rfl (fun client hmem ↦ ?_) (by simp)⟩
      obtain rfl : client = s.client := by
        simpa using hmem
      exact ⟨rfl, rfl, rfl, rfl, rfl⟩
  | loaded hpending hfile hle =>
      have hopen : s.client.file ≠ none := by simp [hfile]
      have hhandled := h.handled.sending (.loaded hfile hpending le_rfl hle) rfl
      refine .inl (h.open_step [_] (.inr hopen) hhandled rfl ?_ ?_ (hreading rfl))
      · simp [Event.IsClose, Event.FallsThrough]
      · simp [hfile]
  | loadedLast hpending hfile hlt hle hend =>
      have hopen : s.client.file ≠ none := by simp [hfile]
      have hloaded := h.handled.sending (.loaded hfile hpending hlt.le hle) rfl
      have hhandled := (hloaded.log (e := .fclose) trivial id).update
        (f := fun c ↦ { c with file := none })
        ⟨hloaded.client.nread_nonneg, hloaded.client.nread_le, hloaded.client.reply⟩
      refine .inl (h.open_step [_, _] (.inr hopen) hhandled rfl ?_ ?_ fun _ ↦ rfl)
      · simp [Event.IsClose, Event.FallsThrough]
      · simp [List.countP_cons, hfile]

theorem Orderly.step (h : Orderly s) (hcall : HandleCall s env t) :
    (Orderly t ∧ FinalCall s t) ∨ ¬ FinalCall s t ∧ ∃ e ∈ t.trace, e.FallsThrough := by
  cases HandleStep.of_run h.handled.client hcall with
  | request hstate hstep => exact h.request hstate hstep
  | reply hstate hstep => exact h.reply hstate hstep

/-- If in every call of a run something holds that excludes going on after an
error, the run is orderly. -/
theorem orderly_of_run {P : Connection → Connection → Prop}
    (hP : ∀ s t, P s t → ¬ (¬ FinalCall s t ∧ ∃ e ∈ t.trace, e.FallsThrough))
    {envs past : List Environment}
    (hall : ∀ past env s t, past ++ [env] <+: envs →
      Run HandleCall (newConnection fd buffer) past s → HandleCall s env t → P s t)
    (hpast : past <+: envs) (hrun : Run HandleCall (newConnection fd buffer) past s) :
    Orderly s := by
  refine hrun.invariant_of_prefix (P := fun _ ↦ Orderly) hpast orderly_newConnection ?_
  intro past s env t hpart hfirst hs hcall
  exact ((hs.step hcall).resolve_right (hP s t (hall past env s t hpart hfirst hcall))).1

/-- In a run of `handle_client` every call is final and no file stays open,
exactly if no request is rejected and no write fails. -/
theorem finished_final_iff (fd : ℤ) (buffer : Buffer bufferSize) (envs : List Environment) :
    (∀ past env s t, past ++ [env] <+: envs →
      Run HandleCall (newConnection fd buffer) past s → HandleCall s env t →
        FinalCall s t ∧ FilesClosed t.trace) ↔
    ∀ past env s t, past ++ [env] <+: envs →
      Run HandleCall (newConnection fd buffer) past s → HandleCall s env t →
        ∀ e ∈ t.trace, ¬ e.FallsThrough := by
  constructor
  · intro hall past env s t hpast hrun hcall
    have hs := orderly_of_run (P := fun s t ↦ FinalCall s t ∧ FilesClosed t.trace)
      (fun s t ht hbad ↦ hbad.1 ht.1) hall ((List.prefix_append ..).trans hpast) hrun
    have ht := (hs.step hcall).resolve_right
      fun hbad ↦ hbad.1 (hall past env s t hpast hrun hcall).1
    exact ht.1.faultless
  · intro hall past env s t hpast hrun hcall
    have hexcludes : ∀ s t : Connection, (∀ e ∈ t.trace, ¬ e.FallsThrough) →
        ¬ (¬ FinalCall s t ∧ ∃ e ∈ t.trace, e.FallsThrough) := by
      rintro s t ht ⟨-, e, he, hfalls⟩
      exact ht e he hfalls
    have hs := orderly_of_run (P := fun _ t ↦ ∀ e ∈ t.trace, ¬ e.FallsThrough) hexcludes hall
      ((List.prefix_append ..).trans hpast) hrun
    have ht := (hs.step hcall).resolve_right
      (hexcludes s t (hall past env s t hpast hrun hcall))
    exact ⟨ht.2, ht.1.closed⟩

def rejecting : Environment :=
  { byteByByte with getFilename _ := (-1, ⟨"file", "HTTP/1.1"⟩) }

/-- A rejected request finishes the client, which is then made to send a reply
from a file that stays open. -/
theorem rejected_request_opens_file : ∃ t, HandleCall (newConnection 5 fun _ ↦ 0) rejecting t ∧
    t.client.socket = -1 ∧ t.client.state = .sendReply ∧
    t.trace.countP Event.opensFile = 1 ∧ t.trace.countP Event.closesFile = 0 := by
  have htest : returnsWith (handleClient rejecting) (newConnection 5 fun _ ↦ 0) (fun _ t ↦
      t.client.socket = -1 ∧ t.client.state = .sendReply ∧
        t.trace.countP Event.opensFile = 1 ∧ t.trace.countP Event.closesFile = 0) = true := by
    decide +kernel
  obtain ⟨a, t, hrun, hfacts⟩ := returnsWith_iff.mp htest
  exact ⟨t, hrun, of_decide_eq_true hfacts⟩

end Orderly

end OsProjects.Server
