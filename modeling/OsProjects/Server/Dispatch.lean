import OsProjects.Server.ThreadPool

/-!
# Dispatch of requests

What becomes of the requests in the interleavings of the thread pool: they are
in the list or have been taken, in the order in which they were accepted, and
`queue_size` counts those in the list.
-/

namespace OsProjects.Server

open Library.Chains Library.Runs Library.Interleaving

variable {T κ : Type}

def RequestList.Holds (list : RequestList κ) (requests : List κ) : Prop :=
  ∃ as, Chain (fun a ↦ (list.node a).prev) list.tail as ∧
    as.map (fun a ↦ (list.node a).data) = requests

/-- No behaviour is undefined, every accepted request has been taken once or is
in the list, and `queue_size` is right whenever the mutex is free. -/
structure Pool.Consistent (g : Pool T κ) : Prop where
  defined : g.undefined = false
  requests : ∃ requests, g.list.Holds requests ∧
    g.accepted = g.taken.map Prod.snd ++ requests ∧
    (g.owner = none → g.queueSize = requests.length)

/-- A consumer that comes back from a request does not find the queue empty, no
consumer wakes up while it is empty, and none removes a request while more than
two are in the list. -/
def DispatchesRight (t : T) (pc : Pc κ) (g : Pool T κ) : Prop :=
  match pc with
  | .test => g.queueSize = 0 → g.owner = some t
  | .waiting => g.finish = 1 ∨ g.queueSize ≠ 0
  | .remove => g.queueSize ≤ 2
  | _ => True

/-! ## The invariant -/

def Pool.pending (g : Pool T κ) : ℤ := g.accepted.length - g.taken.length

structure Pool.Sound (g : Pool T κ) : Prop where
  defined : g.undefined = false
  nodes : ∃ as, g.list.Linked as ∧ (∀ a ∈ as, a ∈ g.allocated) ∧
    g.accepted = g.taken.map Prod.snd ++ as.map (fun a ↦ (g.list.node a).data)
  size : g.owner = none → g.queueSize = g.pending

def Counting (t : T) (pc : Pc κ) (g : Pool T κ) : Prop :=
  match pc with
  | .test => g.owner = some t → g.queueSize = g.pending
  | .waiting | .serve _ => g.owner ≠ some t
  | .wait | .leave | .unlock _ | .putInsert _ | .putSignal | .putUnlock | .finishSet
  | .finishBroadcast | .finishUnlock => g.owner = some t ∧ g.queueSize = g.pending
  | .woken => g.owner = some t ∧ g.queueSize = g.pending ∧ (g.finish = 1 ∨ g.queueSize ≠ 0)
  | .remove => g.owner = some t ∧ g.queueSize = g.pending ∧ g.queueSize ≠ 0
  | .decrement _ => g.owner = some t ∧ g.queueSize = g.pending + 1
  | .putIncrement => g.owner = some t ∧ g.queueSize + 1 = g.pending
  | _ => True

variable {t : T} {pc pc' : Pc κ} {g g' : Pool T κ}

theorem Counting.frame (h : Counting t pc g) (hstep : ThreadStep t pc g pc' g')
    (howner : g.owner ≠ some t) : g'.queueSize = g.queueSize ∧ g'.finish = g.finish ∧
      g'.accepted = g.accepted ∧ g'.taken = g.taken := by
  cases hstep <;> simp_all [Counting]

theorem Counting.own (h : Counting t pc g) (hsize : g.owner = none → g.queueSize = g.pending)
    (hright : DispatchesRight t pc g) (hstep : ThreadStep t pc g pc' g') :
    Counting t pc' g' := by
  cases hstep <;> simp_all [Counting, DispatchesRight, Pool.pending]
  all_goals omega

theorem Counting.other {u : T} {k : Pc κ} (hne : u ≠ t) (hk : Counting u k g)
    (h : Counting t pc g) (hstep : ThreadStep t pc g pc' g') : Counting u k g' := by
  have howner : g'.owner = some u ↔ g.owner = some u := hstep.owner_iff hne
  by_cases hu : g.owner = some u
  · -- the mutex belongs to `u`, so that `t` changes nothing that is counted
    have hother : g.owner ≠ some t := by
      rw [hu]
      exact fun heq ↦ hne (Option.some.inj heq)
    obtain ⟨hqueue, hfinish, haccepted, htaken⟩ := h.frame hstep hother
    have hpending : g'.pending = g.pending := by rw [Pool.pending, haccepted, htaken, Pool.pending]
    have hsame : Counting u k g' ↔ Counting u k g := by
      cases k <;> simp [Counting, howner, hqueue, hfinish, hpending]
    exact hsame.mpr hk
  · have hu' : g'.owner ≠ some u := fun heq ↦ hu (howner.mp heq)
    cases k <;> simp_all [Counting]

/-! ## What a step does to the requests -/

theorem Pool.Sound.pending_eq (hg : g.Sound) : ∃ as, g.list.Linked as ∧ g.pending = as.length := by
  obtain ⟨as, hlinked, -, haccepted⟩ := hg.nodes
  refine ⟨as, hlinked, ?_⟩
  have hlength := congrArg List.length haccepted
  simp only [List.length_append, List.length_map] at hlength
  rw [Pool.pending]
  omega

theorem Pool.Sound.insert (hg : g.Sound) {newNode : Addr} {client : κ}
    (hnew : newNode ∉ g.allocated) (howner : g.owner ≠ none) :
    Pool.Sound { g with
      list := llInsertHead g.list newNode client
      allocated := insert newNode g.allocated
      accepted := g.accepted ++ [client] } := by
  obtain ⟨as, hlinked, hmem, haccepted⟩ := hg.nodes
  have hfresh : newNode ∉ as := fun ha ↦ hnew (hmem newNode ha)
  refine ⟨hg.defined, ⟨as ++ [newNode], hlinked.insert hfresh, fun a ha ↦ ?_, ?_⟩, fun h ↦ ?_⟩
  · rcases List.mem_append.mp ha with ha | ha
    · exact Set.mem_insert_of_mem _ (hmem a ha)
    · exact List.mem_singleton.mp ha ▸ Set.mem_insert ..
  · simp only [hlinked.map_data_insert hfresh, haccepted, List.append_assoc]
  · exact absurd h howner

theorem Pool.Sound.remove (hg : g.Sound) (hpos : g.pending ≠ 0) (htwo : g.pending ≤ 2)
    {a : Addr} {list : RequestList κ} (hremove : llRemoveTail g.list = (some a, list))
    (howner : g.owner ≠ none) :
    Pool.Sound { g with
      list := list
      taken := g.taken ++ [(t, (list.node a).data)] } := by
  obtain ⟨as, hlinked, hmem, haccepted⟩ := hg.nodes
  obtain ⟨bs, hlinked', hpending⟩ := hg.pending_eq
  obtain rfl := hlinked'.prev.unique hlinked.prev
  have hdata (c : Addr) : (list.node c).data = (g.list.node c).data := by
    have hsame : ((llRemoveTail g.list).2.node c).data = (g.list.node c).data :=
      RequestList.data_llRemoveTail c
    rwa [hremove] at hsame
  refine ⟨hg.defined, ?_, fun h ↦ absurd h howner⟩
  simp only [hdata]
  match bs with
  | [] => exact absurd hpending hpos
  | [b] =>
      rw [RequestList.llRemoveTail_singleton hlinked] at hremove
      cases hremove
      exact ⟨[], RequestList.linked_llInit, by simp, by simpa using haccepted⟩
  | [b, c] =>
      have hpair := RequestList.linked_llRemoveTail_pair hlinked
      rw [hremove] at hpair
      rw [RequestList.llRemoveTail_cons_cons hlinked] at hremove
      cases hremove
      exact ⟨[c], hpair, fun d hd ↦ hmem d (List.mem_cons_of_mem _ hd), by simpa using haccepted⟩
  | b :: c :: d :: ds =>
      simp only [List.length_cons] at hpending
      omega

theorem Pool.Sound.of_release (hg : g.Sound) (hqueue : g.queueSize = g.pending) :
    Pool.Sound { g with owner := none } := ⟨hg.defined, hg.nodes, fun _ ↦ hqueue⟩

theorem Pool.Sound.step (hg : g.Sound) (h : Counting t pc g) (hright : DispatchesRight t pc g)
    (hstep : ThreadStep t pc g pc' g') : g'.Sound := by
  cases hstep with
  | enter | exit | empty | nonempty | finished | proceed | serve | put | putSignal | finish
  | finishBroadcast => exact hg
  | lock hnone | wake hnone | putLock hnone | finishLock hnone =>
      exact ⟨hg.defined, hg.nodes, by simp⟩
  | wait howner | leave howner | unlock howner | putUnlock howner | finishUnlock howner =>
      exact hg.of_release h.2
  | waitUnlocked howner => exact absurd h.1 howner
  | remove hremove => exact hg.remove (h.2.1 ▸ h.2.2) (h.2.1 ▸ hright) hremove (by simp [h.1])
  | removeNull hnull =>
      obtain ⟨as, hlinked, hpending⟩ := hg.pending_eq
      match as with
      | [] => exact absurd (h.2.1.trans hpending) h.2.2
      | [a] => simp [RequestList.llRemoveTail_singleton hlinked] at hnull
      | a :: b :: as => simp [RequestList.llRemoveTail_cons_cons hlinked] at hnull
  | decrement => exact ⟨hg.defined, hg.nodes, by simp [h.1]⟩
  | putInsert newNode hnew => exact hg.insert hnew (by simp [h.1])
  | putIncrement => exact ⟨hg.defined, hg.nodes, by simp [h.1]⟩
  | finishSet => exact ⟨hg.defined, hg.nodes, hg.size⟩
  | unlockUnowned hunlocks howner =>
      refine absurd ?_ howner
      cases pc <;> simp_all [Pc.Unlocks, Counting]

/-! ## What goes wrong -/

theorem not_consistent_of_undefined {g : Pool T κ} (h : g.undefined = true) : ¬ g.Consistent := by
  intro hconsistent
  rw [hconsistent.defined] at h
  cases h

theorem not_consistent_of_remove {g : Pool T κ} {t : T} (hg : g.Sound) (hlong : 2 < g.pending)
    {a : Addr} {list : RequestList κ} (hremove : llRemoveTail g.list = (some a, list)) :
    ¬ Pool.Consistent { g with
      list := list
      taken := g.taken ++ [(t, (list.node a).data)] } := by
  obtain ⟨as, hlinked, hpending⟩ := hg.pending_eq
  rintro ⟨-, requests, ⟨bs, hprev, rfl⟩, haccepted, -⟩
  match as with
  | [] | [_] | [_, _] =>
      simp at hpending
      omega
  | b :: c :: d :: ds =>
      have hshort := RequestList.prev_llRemoveTail hlinked
      rw [hremove] at hshort
      obtain rfl := hprev.unique hshort
      have hlength := congrArg List.length haccepted
      simp only [List.length_append, List.length_map, List.length_cons, List.length_nil]
        at hlength hpending
      rw [Pool.pending] at hpending
      omega

/-! ## Runs -/

section Runs

variable [DecidableEq T] {consumers : T → Prop} [DecidablePred consumers] {list : RequestList κ}
  {l : List T} {c : Config T (Pc κ) (Pool T κ)}

theorem annotated_of_run (h : Run (Moves (PoolStep DispatchesRight)) (started consumers list) l c) :
    Annotated Pool.Sound Counting c := by
  have hstart : Annotated Pool.Sound Counting (started consumers list) := by
    refine ⟨⟨rfl, ⟨[], RequestList.linked_llInit, by simp, rfl⟩, fun _ ↦ rfl⟩, fun t ↦ ?_⟩
    simp only [started]
    split <;> trivial
  refine hstart.run h ?_ ?_
  · intro t pc g pc' g' hg hpc hstep
    exact ⟨hg.step hpc hstep.2.1 hstep.2.2, hpc.own hg.size hstep.2.1 hstep.2.2⟩
  · intro t u pc k g pc' g' hne _ hpc hk hstep
    exact hk.other hne hpc hstep.2.2

/-- The pool is consistent in every run in which the tests, wake-ups and removals
of the consumers come out right. -/
theorem pool_consistent
    (h : Run (Moves (PoolStep DispatchesRight)) (started consumers list) l c) :
    c.shared.Consistent := by
  have hsound := (annotated_of_run h).shared
  obtain ⟨as, hlinked, -, haccepted⟩ := hsound.nodes
  obtain ⟨bs, hlinked', hpending⟩ := hsound.pending_eq
  obtain rfl := hlinked'.prev.unique hlinked.prev
  refine ⟨hsound.defined, _, ⟨bs, hlinked.prev, rfl⟩, haccepted, fun hnone ↦ ?_⟩
  rw [hsound.size hnone, hpending, List.length_map]

theorem pool_consistent_one :
    ∃ c, Run (Moves (PoolStep DispatchesRight)) (started (· = true) emptyRequests)
        [true, true, true, true, false, false, false, false, false, false, true, true, true] c ∧
      c.shared.Consistent := by
  have hrun : Run (Moves (PoolStep DispatchesRight)) (started (· = true) emptyRequests)
      [true, true, true, true, false, false, false, false, false, false, true, true, true] _ :=
    .snoc (.snoc (.snoc (.snoc (.snoc (.snoc (.snoc (.snoc (.snoc (.snoc (.snoc (.snoc (.snoc .nil
      (.of_locals (k := .loop) rfl ⟨rfl, by trivial, .enter rfl⟩))
      (.of_locals (k := .lock) rfl ⟨rfl, by trivial, .lock rfl⟩))
      (.of_locals (k := .test) rfl ⟨rfl, by exact fun _ ↦ rfl, .empty rfl⟩))
      (.of_locals (k := .wait) rfl ⟨rfl, by trivial, .wait rfl⟩))
      (.of_locals (k := .idle) rfl ⟨rfl, by trivial, .put ()⟩))
      (.of_locals (k := .putLock ()) rfl ⟨rfl, by trivial, .putLock rfl⟩))
      (.of_locals (k := .putInsert ()) rfl ⟨rfl, by trivial, .putInsert 0 (by simp [started])⟩))
      (.of_locals (k := .putIncrement) rfl ⟨rfl, by trivial, .putIncrement⟩))
      (.of_locals (k := .putSignal) rfl ⟨rfl, by trivial, .putSignal⟩))
      (.of_locals (k := .putUnlock) rfl ⟨rfl, by trivial, .putUnlock rfl⟩))
      (.of_locals (k := .waiting) rfl ⟨rfl, by simp [started, DispatchesRight], .wake rfl⟩))
      (.of_locals (k := .woken) rfl ⟨rfl, by trivial, .proceed (by simp [started])⟩))
      (.of_locals (k := .remove) rfl ⟨rfl, by simp [started, DispatchesRight], .remove rfl⟩)
  exact ⟨_, hrun, pool_consistent hrun⟩

theorem spurious_wake_up_removes_nothing :
    ∃ c, Run (Moves (PoolStep fun _ _ _ ↦ True)) (started (fun _ : Unit ↦ True) emptyRequests)
        [(), (), (), (), (), ()] c ∧
      c.locals () = .remove ∧ (llRemoveTail c.shared.list).1 = none ∧
      ∃ d, Moves (PoolStep fun _ _ _ ↦ True) c () d ∧ ¬ d.shared.Consistent := by
  have hrun : Run (Moves (PoolStep fun _ _ _ ↦ True)) (started (fun _ : Unit ↦ True) emptyRequests)
      [(), (), (), (), (), ()] _ :=
    .snoc (.snoc (.snoc (.snoc (.snoc (.snoc .nil
      (.of_locals (k := .loop) rfl ⟨rfl, trivial, .enter rfl⟩))
      (.of_locals (k := .lock) rfl ⟨rfl, trivial, .lock rfl⟩))
      (.of_locals (k := .test) rfl ⟨rfl, trivial, .empty rfl⟩))
      (.of_locals (k := .wait) rfl ⟨rfl, trivial, .wait rfl⟩))
      (.of_locals (k := .waiting) rfl ⟨rfl, trivial, .wake rfl⟩))
      (.of_locals (k := .woken) rfl ⟨rfl, trivial, .proceed (by simp [started])⟩)
  refine ⟨_, hrun, rfl, rfl, _, .of_locals (k := .remove) rfl ⟨rfl, trivial, .removeNull rfl⟩, ?_⟩
  intro hconsistent
  cases hconsistent.defined

/-- The condition leaves out no step that is harmless: each of the others leads
to undefined behaviour or loses a request. -/
theorem exists_inconsistent
    (h : Run (Moves (PoolStep DispatchesRight)) (started consumers list) l c) {t : T} {pc : Pc κ}
    {g : Pool T κ} (hstep : ThreadStep t (c.locals t) c.shared pc g)
    (hwrong : ¬ DispatchesRight t (c.locals t) c.shared) :
    ∃ l d, Run (Moves (PoolStep fun _ _ _ ↦ True)) c l d ∧ ¬ d.shared.Consistent := by
  have hsound := (annotated_of_run h).shared
  have hcounting := (annotated_of_run h).locals t
  have hdefined := hsound.defined
  generalize hpc : c.locals t = pc at hstep hwrong hcounting
  have hstart : GoesTo (PoolStep fun _ _ _ ↦ True) c t pc c.shared := .start hpc
  cases hstep with
  | empty hqueue =>
      have howner : c.shared.owner ≠ some t := fun heq ↦ hwrong fun _ ↦ heq
      have hwait := hstart.step ⟨hdefined, trivial, .empty hqueue⟩
      obtain ⟨l, hrun⟩ := hwait.step ⟨hdefined, trivial, .waitUnlocked howner⟩
      exact ⟨l, _, hrun, not_consistent_of_undefined rfl⟩
  | nonempty hqueue => exact absurd (fun hzero ↦ absurd hzero hqueue) hwrong
  | wake hnone =>
      simp only [DispatchesRight, not_or, not_not] at hwrong
      obtain ⟨hfinish, hqueue⟩ := hwrong
      obtain ⟨as, hlinked, hpending⟩ := hsound.pending_eq
      have hlength : as = [] := by
        rw [← List.length_eq_zero_iff]
        have hsize := hsound.size hnone
        omega
      subst hlength
      have hnull : (llRemoveTail c.shared.list).1 = none := by
        rw [RequestList.llRemoveTail_nil hlinked]
      have hwake := hstart.step ⟨hdefined, trivial, .wake hnone⟩
      have hproceed := hwake.step ⟨hdefined, trivial, .proceed hfinish⟩
      obtain ⟨l, hrun⟩ := hproceed.step ⟨hdefined, trivial, .removeNull hnull⟩
      exact ⟨l, _, hrun, not_consistent_of_undefined rfl⟩
  | remove hremove =>
      have hlong : 2 < c.shared.pending := by
        rw [← hcounting.2.1]
        exact not_le.mp hwrong
      obtain ⟨l, hrun⟩ := hstart.step ⟨hdefined, trivial, .remove hremove⟩
      exact ⟨l, _, hrun, not_consistent_of_remove hsound hlong hremove⟩
  | removeNull hnull =>
      obtain ⟨l, hrun⟩ := hstart.step ⟨hdefined, trivial, .removeNull hnull⟩
      exact ⟨l, _, hrun, not_consistent_of_undefined rfl⟩
  | unlockUnowned hunlocks => cases pc <;> simp_all [Pc.Unlocks, DispatchesRight]
  | _ => exact absurd trivial hwrong

end Runs

end OsProjects.Server
