import OsProjects.Server.Passes

/-!
# Sockets and files of the state machine server

Whatever the clients do, every socket that was accepted is closed once: by `finish_client`,
or by the loop after the main loop of the server.  A file stays open only if its client
has been removed after an error after which the functions go on.
-/

namespace OsProjects.Server

open Library.Program Library.Runs

/-- A step of the server, with any answers of the system. -/
def ServerMove (s : ServerState) (a : ServerAction) (t : ServerState) : Prop := s.step a = some t

/-- The sockets with which `insert_client` was called. -/
def acceptedSockets (actions : List ServerAction) : List ℤ :=
  actions.filterMap fun
    | .insertClient socket _ => some socket
    | _ => none

namespace ServerState

/-- The sockets that the loop after the main loop closes. -/
def closeAll (s : ServerState) : List ℤ := s.clients.map fun c ↦ c.client.socket

def served (s : ServerState) : List Served := s.removed ++ s.clients

/-- How often one of the events of the clients satisfies `p`. -/
def count (p : Event → Bool) (s : ServerState) : ℕ := (s.served.map fun c ↦ c.trace.countP p).sum

end ServerState

/-! ## Clients in the list -/

section Sound

variable {env : Environment} {s t : Connection}

/-- The counters of a client are wrong only after it has been finished. -/
theorem Handled.reply_of_open (h : Handled s) (hstep : ReplyStep env s t)
    (hopen : t.client.socket ≠ -1) : Handled t := by
  refine (h.reply hstep).resolve_right ?_
  rintro ⟨-, e, he, hfails⟩
  have hold (he : e ∈ s.trace) : False := (h.trace e he).2 hfails
  cases hstep with
  | failed => exact hopen rfl
  | finished => exact hopen rfl
  | wrote hsocket hpending hresult =>
      rcases List.mem_cons.mp he with rfl | he
      · have hresult' := hfails.2
        omega
      · exact hold he
  | loaded =>
      rcases List.mem_cons.mp he with rfl | he
      · exact hfails
      · exact hold he
  | loadedLast =>
      rcases List.mem_cons.mp he with rfl | he
      · exact hfails
      rcases List.mem_cons.mp he with rfl | he
      · exact hfails
      · exact hold he

theorem Handled.open_of_step (h : Handled s) (hstep : HandleStep env s t) :
    Handled t ∨ t.client.socket = -1 := by
  by_cases hopen : t.client.socket = -1
  · exact .inr hopen
  · cases hstep with
    | request _ hstep => exact .inl (h.request hstep)
    | reply _ hstep => exact .inl (h.reply_of_open hstep hopen)

end Sound

/-- A client that is finished is not handled again before it is removed. -/
def Served.Sound (c : Served) : Prop :=
  (∀ n, Handled (c.connection n)) ∨ c.client.socket = -1 ∧ c.handled

namespace ServerState

variable {s t : ServerState} {P : Served → Prop}

structure Holds (P : Served → Prop) (s : ServerState) : Prop where
  sound : ∀ c ∈ s.clients, c.Sound
  removed : ∀ c ∈ s.removed, c.client.socket = -1
  all : ∀ c ∈ s.served, P c

theorem Holds.handleStep (h : s.Holds P) {c : Served} (hc : c ∈ s.clients)
    (hhandled : c.handled = false) {env : Environment} {u : Connection}
    (hcall : HandleCall (c.connection s.operationsCompleted) env u) :
    (∀ n, Handled (c.connection n)) ∧ HandleStep env (c.connection s.operationsCompleted) u := by
  rcases h.sound c hc with hsound | ⟨-, hyes⟩
  · exact ⟨hsound, HandleStep.of_run (hsound _).client hcall⟩
  · rw [hhandled] at hyes
    cases hyes

theorem Holds.handle (h : s.Holds P)
    (hnext : ∀ c env n u, P c → HandleStep env (c.connection n) u → P (c.next env n u)) {i : ℕ}
    {env : Environment} (hstep : s.handle i env = some t) : t.Holds P := by
  obtain ⟨c, before, after, u, hclients, hhandled, hcall, rfl⟩ := handle_eq_some hstep
  have hc : c ∈ s.clients := by simp [hclients]
  obtain ⟨hsound, hhandle⟩ := h.handleStep hc hhandled hcall
  have hothers : ∀ d, d ∈ before ∨ d ∈ after → d ∈ s.clients := by
    intro d hd
    rw [hclients]
    exact List.mem_append.mpr (hd.imp_right (List.mem_cons_of_mem _))
  refine ⟨fun d hd ↦ ?_, h.removed, fun d hd ↦ ?_⟩
  · rcases List.mem_append.mp hd with hd | hd
    · exact h.sound d (hothers d (.inl hd))
    rcases List.mem_cons.mp hd with rfl | hd
    · refine ((hsound _).open_of_step hhandle).imp (fun hu n ↦ ?_) fun hu ↦ ⟨hu, rfl⟩
      exact ⟨hu.client, hu.trace⟩
    · exact h.sound d (hothers d (.inr hd))
  · have hall : ∀ d ∈ s.clients, P d := fun d hd ↦ h.all d (List.mem_append_right _ hd)
    rcases List.mem_append.mp hd with hd | hd
    · exact h.all d (List.mem_append_left _ hd)
    rcases List.mem_append.mp hd with hd | hd
    · exact hall d (hothers d (.inl hd))
    rcases List.mem_cons.mp hd with rfl | hd
    · exact hnext _ _ _ _ (hall c hc) hhandle
    · exact hall d (hothers d (.inr hd))

theorem Holds.endPass (h : s.Holds P) (hpass : ∀ c, P c → P { c with handled := false }) :
    s.endPass.Holds P := by
  rw [endPass_eq]
  refine ⟨fun d hd ↦ ?_, fun d hd ↦ ?_, fun d hd ↦ ?_⟩
  · obtain ⟨c, hc, rfl⟩ := List.mem_map.mp hd
    obtain ⟨hmem, hsocket⟩ := List.mem_filter.mp hc
    exact .inl ((h.sound c hmem).resolve_right fun hdead ↦ of_decide_eq_true hsocket hdead.1)
  · rcases List.mem_append.mp hd with hd | hd
    · exact h.removed d hd
    · exact of_decide_eq_true (List.mem_filter.mp hd).2
  · rcases List.mem_append.mp hd with hd | hd
    · rcases List.mem_append.mp hd with hd | hd
      · exact h.all d (List.mem_append_left _ hd)
      · exact h.all d (List.mem_append_right _ (List.mem_filter.mp hd).1)
    · obtain ⟨c, hc, rfl⟩ := List.mem_map.mp hd
      exact hpass c (h.all c (List.mem_append_right _ (List.mem_filter.mp hc).1))

/-- What holds of new clients and is kept by the calls made for a client holds of all
clients that there have been. -/
theorem holds_of_run (hnew : ∀ socket buffer, P (.new socket buffer))
    (hnext : ∀ c env n u, P c → HandleStep env (c.connection n) u → P (c.next env n u))
    (hpass : ∀ c, P c → P { c with handled := false }) {actions : List ServerAction}
    (h : Run ServerMove init actions s) : s.Holds P := by
  refine h.invariant ⟨by simp [init], by simp [init], by simp [init, served]⟩
    fun t action u ht hmove ↦ ?_
  cases action with
  | insertClient socket buffer =>
      cases hmove
      refine ⟨List.forall_mem_cons.mpr ⟨.inl fun n ↦ ?_, ht.sound⟩, ht.removed, fun c hc ↦ ?_⟩
      · exact ⟨(@handled_newConnection socket buffer).client, by simp [Served.new, Served.connection]⟩
      · rcases List.mem_append.mp hc with hc | hc
        · exact ht.all c (List.mem_append_left _ hc)
        rcases List.mem_cons.mp hc with rfl | hc
        · exact hnew socket buffer
        · exact ht.all c (List.mem_append_right _ hc)
  | handleClient i env => exact ht.handle hnext hmove
  | endPass =>
      cases hmove
      exact ht.endPass hpass

end ServerState

/-! ## Sockets -/

/-- How often the socket `fd` has been closed for the client, and whether it has it still. -/
def Connection.owned (fd : ℤ) (s : Connection) : ℕ :=
  s.trace.countP (Event.closesSocket fd) + if s.client.socket = fd then 1 else 0

section Sockets

variable {env : Environment} {request : Request} {fd : ℤ} {s t : Connection}

theorem owned_congr (hsocket : t.client.socket = s.client.socket)
    (htrace : t.trace.countP (Event.closesSocket fd) = s.trace.countP (Event.closesSocket fd)) :
    t.owned fd = s.owned fd := by
  rw [Connection.owned, Connection.owned, hsocket, htrace]

theorem Switch.owned (h : Switch env request s t) : t.owned fd = s.owned fd := by
  refine owned_congr h.socket ?_
  cases h <;> simp

theorem owned_finish (hfd : fd ≠ -1) : s.finish.owned fd = s.owned fd := by
  have hclosed : (-1 : ℤ) ≠ fd := hfd.symm
  simp [Connection.owned, List.countP_cons, hclosed]

theorem owned_giveUp (hfd : fd ≠ -1) : s.giveUp.owned fd = s.owned fd := by
  have hclosed : (-1 : ℤ) ≠ fd := hfd.symm
  simp [Connection.owned, List.countP_cons, hclosed]

/-- A call closes the socket of its client exactly if the client has none afterwards. -/
theorem HandleStep.owned (hfd : fd ≠ -1) (h : HandleStep env s t) : t.owned fd = s.owned fd := by
  cases h with
  | request _ h =>
      cases h with
      | stopped => exact (owned_giveUp hfd).trans (owned_congr rfl (by simp))
      | more => exact owned_congr rfl (by simp)
      | rejected _ _ _ hswitch =>
          exact hswitch.owned.trans ((owned_giveUp hfd).trans (owned_congr rfl (by simp)))
      | accepted _ _ _ _ hswitch => exact hswitch.owned.trans (owned_congr rfl (by simp))
  | reply _ h =>
      cases h with
      | @wrote result => exact owned_congr rfl (by simp [Connection.wrote, Connection.send])
      | failed =>
          have hgiveUp := owned_giveUp hfd
            (s := s.log (.write s.client.nwritten s.client.ntowrite (-1)))
          exact hgiveUp.trans (owned_congr rfl (by simp))
      | finished => exact owned_finish hfd
      | loaded => exact owned_congr rfl (by simp [Connection.loaded])
      | loadedLast => exact owned_congr rfl (by simp [Connection.loaded])

end Sockets

namespace ServerState

variable {s t : ServerState} {f : Served → ℕ}

theorem total_endPass (hpass : ∀ c : Served, f { c with handled := false } = f c) (s : ServerState) :
    (s.endPass.served.map f).sum = (s.served.map f).sum := by
  have hlive : ((s.clients.filter fun c ↦ c.client.socket ≠ -1).map fun c ↦
      { c with handled := false }).map f = (s.clients.filter fun c ↦ c.client.socket ≠ -1).map f := by
    rw [List.map_map]
    exact List.map_congr_left fun c _ ↦ hpass c
  have hperm : ((s.clients.filter fun c ↦ c.client.socket = -1) ++
      s.clients.filter fun c ↦ c.client.socket ≠ -1).Perm s.clients := by
    simpa using List.filter_append_perm (fun c : Served ↦ decide (c.client.socket = -1)) s.clients
  have hsum := (hperm.map f).sum_eq
  rw [List.map_append, List.sum_append] at hsum
  rw [endPass_eq]
  simp only [served, List.map_append, List.sum_append, hlive]
  omega

theorem total_handle {i : ℕ} {env : Environment} {P : Served → Prop} (h : s.Holds P)
    (hnext : ∀ c env n u, HandleStep env (c.connection n) u → f (c.next env n u) = f c)
    (hstep : s.handle i env = some t) : (t.served.map f).sum = (s.served.map f).sum := by
  obtain ⟨c, before, after, u, hclients, hhandled, hcall, rfl⟩ := handle_eq_some hstep
  obtain ⟨-, hhandle⟩ := h.handleStep (by simp [hclients]) hhandled hcall
  simp [served, hclients, hnext c _ _ _ hhandle]

/-- The clients as `insert_client` made them. -/
def newClients (actions : List ServerAction) : List Served :=
  actions.filterMap fun
    | .insertClient socket buffer => some (.new socket buffer)
    | _ => none

/-- The total of what the calls made for a client do not change. -/
theorem total_of_run (hnext : ∀ c env n u, HandleStep env (c.connection n) u → f (c.next env n u) = f c)
    (hpass : ∀ c : Served, f { c with handled := false } = f c) {actions : List ServerAction}
    (h : Run ServerMove init actions s) :
    (s.served.map f).sum = ((newClients actions).map f).sum := by
  induction h with
  | nil => rfl
  | @snoc actions t u action hrun hmove ih =>
      rw [newClients, List.filterMap_append, List.map_append, List.sum_append]
      change _ = ((newClients actions).map f).sum + _
      rw [← ih]
      cases action with
      | insertClient socket buffer =>
          cases hmove
          simp [served, insertClient]
          omega
      | handleClient i env =>
          have hholds := holds_of_run (P := fun _ ↦ True) (fun _ _ ↦ trivial)
            (fun _ _ _ _ _ _ ↦ trivial) (fun _ _ ↦ trivial) hrun
          exact (total_handle hholds hnext hmove).trans (Nat.add_zero _).symm
      | endPass =>
          cases hmove
          exact (total_endPass hpass t).trans (Nat.add_zero _).symm

theorem acceptedSockets_eq (actions : List ServerAction) :
    acceptedSockets actions = (newClients actions).map fun c ↦ c.client.socket := by
  rw [acceptedSockets, newClients, List.map_filterMap]
  refine List.filterMap_congr fun action _ ↦ ?_
  cases action <;> rfl

theorem trace_of_mem_newClients {actions : List ServerAction} {c : Served}
    (hc : c ∈ newClients actions) : c.trace = [] := by
  obtain ⟨action, -, hnew⟩ := List.mem_filterMap.mp hc
  cases action <;> cases hnew
  rfl

theorem sum_owned (cs : List Served) (fd : ℤ) :
    (cs.map fun c ↦ (c.connection 0).owned fd).sum =
      (cs.map fun c ↦ c.trace.countP (Event.closesSocket fd)).sum +
        (cs.map fun c ↦ c.client.socket).count fd := by
  induction cs with
  | nil => rfl
  | cons c cs ih =>
      have howned : (c.connection 0).owned fd =
        c.trace.countP (Event.closesSocket fd) + if c.client.socket = fd then 1 else 0 := rfl
      simp only [List.map_cons, List.sum_cons, List.count_cons, ih, howned, beq_iff_eq]
      omega

end ServerState

/-- In every run of the server each socket is closed as often as it was accepted, if those
are counted that the loop after the main loop closes. -/
theorem server_sockets_accounted {actions : List ServerAction} {s : ServerState}
    (h : Run ServerMove .init actions s) {fd : ℤ} (hfd : fd ≠ -1) :
    s.count (Event.closesSocket fd) + s.closeAll.count fd = (acceptedSockets actions).count fd := by
  have hnext : ∀ c env n u, HandleStep env (Served.connection c n) u →
      ((c.next env n u).connection 0).owned fd = (c.connection 0).owned fd := by
    intro c env n u hstep
    have howned : u.owned fd = (c.connection n).owned fd := hstep.owned hfd
    exact howned
  have htotal := ServerState.total_of_run (f := fun c ↦ (c.connection 0).owned fd) hnext
    (fun _ ↦ rfl) h
  have hholds := ServerState.holds_of_run (P := fun _ ↦ True) (fun _ _ ↦ trivial)
    (fun _ _ _ _ _ _ ↦ trivial) (fun _ _ ↦ trivial) h
  have hgone : (s.removed.map fun c ↦ c.client.socket).count fd = 0 := by
    refine List.count_eq_zero.mpr fun hmem ↦ ?_
    obtain ⟨c, hc, rfl⟩ := List.mem_map.mp hmem
    exact hfd (hholds.removed c hc)
  have hunused : ((ServerState.newClients actions).map fun c ↦
      c.trace.countP (Event.closesSocket fd)).sum = 0 := by
    refine List.sum_eq_zero fun n hn ↦ ?_
    obtain ⟨c, hc, rfl⟩ := List.mem_map.mp hn
    rw [ServerState.trace_of_mem_newClients hc, List.countP_nil]
  rw [ServerState.sum_owned, ServerState.sum_owned, hunused, ← ServerState.acceptedSockets_eq,
    ServerState.served, List.map_append, List.map_append, List.count_append, hgone] at htotal
  rw [ServerState.count, ServerState.served, List.map_append, ServerState.closeAll]
  omega

/-- Two clients, one of which is still there: its socket is closed after the main loop. -/
theorem server_sockets_accounted_two : ∃ s,
    Run ServerMove .init [.insertClient 5 fun _ ↦ 0, .insertClient 6 fun _ ↦ 0,
      .handleClient 1 { sendingAll with read _ := none }, .endPass] s ∧
    s.count (Event.closesSocket 5) + s.closeAll.count 5 = 1 ∧ s.closeAll = [6] := by
  have htest : ((ServerState.init.exec [.insertClient 5 fun _ ↦ 0, .insertClient 6 fun _ ↦ 0,
      .handleClient 1 { sendingAll with read _ := none }, .endPass]).any fun s ↦
        decide (s.closeAll = [6])) = true := by
    decide +kernel
  obtain ⟨s, hexec, hs⟩ := (Option.any_eq_true ..).mp htest
  have hrun := Run.of_foldlM hexec
  exact ⟨s, hrun, server_sockets_accounted hrun (by decide), of_decide_eq_true hs⟩

/-! ## Files -/

section Files

variable {env : Environment} {request : Request} {s t : Connection}

/-- A file that was opened is closed, or open still; a client without a socket has one open
only after an error. -/
structure FileAccount (s : Connection) : Prop where
  files : s.trace.countP Event.opensFile =
    s.trace.countP Event.closesFile + s.client.file.isSome.toNat
  reading : s.client.state = .recvRequest → s.client.file = none
  leaked : s.client.socket = -1 → s.client.file.isSome → ∃ e ∈ s.trace, e.FallsThrough

theorem FileAccount.append (h : FileAccount s) (events : List Event)
    (hclient : t.client.file = s.client.file) (hstate : t.client.state = s.client.state)
    (hsocket : t.client.socket = s.client.socket) (htrace : t.trace = events ++ s.trace)
    (hevents : ∀ e ∈ events, ¬ e.opensFile ∧ ¬ e.closesFile) : FileAccount t := by
  have hopens : events.countP Event.opensFile = 0 :=
    List.countP_eq_zero.mpr fun e he ↦ (hevents e he).1
  have hcloses : events.countP Event.closesFile = 0 :=
    List.countP_eq_zero.mpr fun e he ↦ (hevents e he).2
  refine ⟨?_, fun hreading ↦ hclient.trans (h.reading (hstate ▸ hreading)), fun hgone hopen ↦ ?_⟩
  · rw [htrace, List.countP_append, List.countP_append, hopens, hcloses, hclient, h.files]
    omega
  · obtain ⟨e, he, hfalls⟩ := h.leaked (hsocket ▸ hgone) (hclient ▸ hopen)
    exact ⟨e, htrace ▸ List.mem_append_right _ he, hfalls⟩

/-- A reply is begun without a file open. -/
theorem Switch.fileAccount (h : Switch env request s t) (hfiles : s.trace.countP Event.opensFile =
      s.trace.countP Event.closesFile) (hfile : s.client.file = none)
    (hleaked : s.client.socket = -1 → ∃ e ∈ s.trace, e.FallsThrough) : FileAccount t := by
  have hsocket := h.socket
  obtain ⟨events, htrace, -⟩ := h.trace
  refine ⟨?_, fun hreading ↦ ?_, fun hgone _ ↦ ?_⟩
  · cases h <;> simp [Client.reply, List.countP_cons, hfile, hfiles]
  · rw [h.state] at hreading
    cases hreading
  · obtain ⟨e, he, hfalls⟩ := hleaked (hsocket ▸ hgone)
    exact ⟨e, htrace ▸ List.mem_append_right _ he, hfalls⟩

theorem FileAccount.requestStep (h : FileAccount s) (hstate : s.client.state = .recvRequest)
    (hstep : RequestStep env s t) : FileAccount t := by
  have hfile := h.reading hstate
  have hfiles := h.files
  rw [hfile, Option.isSome_none, Bool.toNat_false, Nat.add_zero] at hfiles
  cases hstep with
  | stopped =>
      refine ⟨?_, fun _ ↦ hfile, fun _ hopen ↦ ?_⟩
      · simpa [hfile] using hfiles
      · simp [hfile] at hopen
  | more => exact h.append [_, _] rfl rfl rfl rfl (by simp)
  | rejected _ _ _ hswitch =>
      exact hswitch.fileAccount (by simpa using hfiles) hfile fun _ ↦ ⟨.getFilename (-1), by simp, rfl⟩
  | accepted hsocket _ _ _ hswitch =>
      exact hswitch.fileAccount (by simpa using hfiles) hfile fun hgone ↦ absurd hgone hsocket

theorem FileAccount.replyStep (h : FileAccount s) (hstate : s.client.state = .sendReply)
    (hstep : ReplyStep env s t) : FileAccount t := by
  have hfiles := h.files
  cases hstep with
  | wrote => exact h.append [_] rfl rfl rfl rfl (by simp)
  | failed =>
      refine ⟨by simpa using hfiles, h.reading, fun _ _ ↦ ?_⟩
      exact ⟨.write s.client.nwritten s.client.ntowrite (-1), by simp, rfl⟩
  | finished _ hfile =>
      refine ⟨by simpa using hfiles, h.reading, fun _ hopen ↦ ?_⟩
      simp [hfile] at hopen
  | loaded _ hfile =>
      refine ⟨?_, fun hreading ↦ ?_, fun hgone _ ↦ ?_⟩
      · simpa [Connection.loaded, hfile] using hfiles
      · cases hstate.symm.trans hreading
      · obtain ⟨e, he, hfalls⟩ := h.leaked hgone (by simp [hfile])
        exact ⟨e, List.mem_cons_of_mem _ he, hfalls⟩
  | loadedLast _ hfile =>
      refine ⟨?_, fun _ ↦ rfl, fun _ hopen ↦ ?_⟩
      · simpa [Connection.loaded, List.countP_cons, hfile] using hfiles
      · simp at hopen

theorem HandleStep.fileAccount (h : FileAccount s) (hstep : HandleStep env s t) : FileAccount t := by
  cases hstep with
  | request hstate hstep => exact h.requestStep hstate hstep
  | reply hstate hstep => exact h.replyStep hstate hstep

end Files

/-- What is counted for each client is counted for all of them. -/
theorem sum_files {cs : List Served} (h : ∀ c ∈ cs, c.trace.countP Event.opensFile =
      c.trace.countP Event.closesFile + c.client.file.isSome.toNat) :
    (cs.map fun c ↦ c.trace.countP Event.opensFile).sum =
      (cs.map fun c ↦ c.trace.countP Event.closesFile).sum +
        cs.countP (fun c ↦ c.client.file.isSome) := by
  induction cs with
  | nil => rfl
  | cons c cs ih =>
      obtain ⟨hc, hcs⟩ := List.forall_mem_cons.mp h
      simp only [List.map_cons, List.sum_cons, List.countP_cons, ih hcs, hc]
      cases c.client.file <;> simp <;> omega

/-- Of each client the files opened and not closed are the one that it has, and so are those
of all clients; a removed client has one only if its request was rejected or a write failed. -/
theorem server_files_accounted {actions : List ServerAction} {s : ServerState}
    (h : Run ServerMove .init actions s) :
    (∀ c ∈ s.served, c.trace.countP Event.opensFile =
        c.trace.countP Event.closesFile + c.client.file.isSome.toNat) ∧
      s.count Event.opensFile = s.count Event.closesFile +
        s.served.countP (fun c ↦ c.client.file.isSome) ∧
      ∀ c ∈ s.removed, c.client.file.isSome → ∃ e ∈ c.trace, e.FallsThrough := by
  have hholds := ServerState.holds_of_run (P := fun c ↦ FileAccount (c.connection 0))
    (fun _ _ ↦ ⟨rfl, fun _ ↦ rfl, fun _ hopen ↦ by cases hopen⟩)
    (fun c env n u hc hstep ↦ ?_) (fun _ hc ↦ hc) h
  · have hfiles : ∀ c ∈ s.served, c.trace.countP Event.opensFile =
        c.trace.countP Event.closesFile + c.client.file.isSome.toNat := fun c hc ↦
      (hholds.all c hc).files
    exact ⟨hfiles, sum_files hfiles, fun c hc ↦
      (hholds.all c (List.mem_append_left _ hc)).leaked (hholds.removed c hc)⟩
  · have hnext : FileAccount u :=
      HandleStep.fileAccount (s := c.connection n) ⟨hc.files, hc.reading, hc.leaked⟩ hstep
    exact ⟨hnext.files, hnext.reading, hnext.leaked⟩

/-- A client that is removed with its file open, beside one that is there still. -/
theorem server_files_accounted_rejected : ∃ s,
    Run ServerMove .init [.insertClient 5 fun _ ↦ 0, .insertClient 6 fun _ ↦ 0,
      .handleClient 1 rejecting, .endPass] s ∧
    (∀ c ∈ s.served, c.trace.countP Event.opensFile =
        c.trace.countP Event.closesFile + c.client.file.isSome.toNat) ∧
      s.count Event.opensFile = s.count Event.closesFile + 1 ∧ s.closeAll = [6] ∧
      ∀ c ∈ s.removed, c.client.file.isSome → ∃ e ∈ c.trace, e.FallsThrough := by
  have htest : ((ServerState.init.exec [.insertClient 5 fun _ ↦ 0, .insertClient 6 fun _ ↦ 0,
      .handleClient 1 rejecting, .endPass]).any fun s ↦
        decide (s.served.countP (fun c ↦ c.client.file.isSome) = 1 ∧ s.closeAll = [6])) = true := by
    decide +kernel
  obtain ⟨s, hexec, hs⟩ := (Option.any_eq_true ..).mp htest
  obtain ⟨hopen, hclose⟩ := of_decide_eq_true hs
  have hrun := Run.of_foldlM hexec
  obtain ⟨hclients, hfiles, hleaked⟩ := server_files_accounted hrun
  rw [hopen] at hfiles
  exact ⟨s, hrun, hclients, hfiles, hclose, hleaked⟩

end OsProjects.Server
