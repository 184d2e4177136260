import OsProjects.Server.ThreadPool

/-!
# How the thread pool stops

The mutex of the thread pool is left to the thread that locked it in two ways.  A
consumer that has just locked it and finds a request waiting locks it again, and stops all
others.  And once `finish` is set nobody removes a request from the list, whatever
still waits there.
-/

namespace OsProjects.Server

open Library.Runs Library.Interleaving

variable {T κ : Type}

/-! ## Places that only the owner of the mutex reaches -/

def Pc.Critical : Pc κ → Prop
  | .woken | .leave | .remove | .decrement _ | .unlock _ | .putInsert _ | .putIncrement
  | .putSignal | .putUnlock | .finishSet | .finishBroadcast | .finishUnlock => True
  | _ => False

/-- Whoever tests, removes or inserts requests has locked the mutex, and nobody is about to
remove a request after `finish` has been set. -/
def Enters (t : T) (pc : Pc κ) (g : Pool T κ) : Prop :=
  (pc.Critical → g.owner = some t) ∧ (pc = .remove → g.finish ≠ 1)

theorem Enters.own {t : T} {pc pc' : Pc κ} {g g' : Pool T κ} (h : Enters t pc g)
    (hstep : ThreadStep t pc g pc' g') : Enters t pc' g' := by
  cases hstep <;> simp_all [Enters, Pc.Critical]

theorem Enters.other {t u : T} {pc pc' k : Pc κ} {g g' : Pool T κ} (hne : u ≠ t)
    (ht : Enters t pc g) (h : Enters u k g) (hstep : ThreadStep t pc g pc' g') :
    Enters u k g' := by
  have hiff := hstep.owner_iff hne
  refine ⟨fun hcritical ↦ hiff.mpr (h.1 hcritical), fun hremove ↦ ?_⟩
  have hfinish := h.2 hremove
  have howner : g.owner = some u := h.1 (hremove ▸ trivial)
  -- the thread that sets `finish` has the mutex, the one that removes a request as well
  cases hstep with
  | finishSet => exact absurd (Option.some.inj (howner.symm.trans (ht.1 trivial))) hne
  | _ => exact hfinish

theorem enters_of_run [DecidableEq T] {consumers : T → Prop} [DecidablePred consumers]
    {list : RequestList κ} {allowed : T → Pc κ → Pool T κ → Prop} {l : List T}
    {c : Config T (Pc κ) (Pool T κ)}
    (h : Run (Moves (PoolStep allowed)) (started consumers list) l c) (t : T) :
    Enters t (c.locals t) c.shared := by
  have hstart (t : T) : Enters t ((started consumers list).locals t)
      (started consumers list).shared := by
    simp only [started]
    split <;> simp [Enters, Pc.Critical]
  refine (Annotated.run (I := fun _ ↦ True) (J := Enters) ⟨trivial, hstart⟩ h ?_ ?_).locals t
  · intro t pc g pc' g' _ hpc hstep
    exact ⟨trivial, hpc.own hstep.2.2⟩
  · intro t u pc k g pc' g' hne _ ht hk hstep
    exact .other hne ht hk hstep.2.2

/-! ## A consumer that locks the mutex twice -/

/-- The thread has the mutex and is not going to unlock it: it locks it again, or leaves the
loop. -/
def Pc.KeepsMutex : Pc κ → Prop
  | .test | .loop | .lock | .exited => True
  | _ => False

/-- With the mutex kept by `t`, a step of any thread leaves the global variables as they
are in `g₀`. -/
theorem ThreadStep.stopped {t : T} {g₀ : Pool T κ} (howner : g₀.owner = some t)
    (hpending : g₀.queueSize ≠ 0) {u : T} {pc pc' : Pc κ} {g g' : Pool T κ}
    (hshared : g = { g₀ with undefined := g.undefined }) (henters : Enters u pc g)
    (hkeeps : u = t → pc.KeepsMutex) (hstep : ThreadStep u pc g pc' g') :
    (u = t → pc'.KeepsMutex) ∧ g' = { g₀ with undefined := g'.undefined } := by
  have hg : g.owner = some t := by rw [hshared]; exact howner
  have hqueue : g.queueSize ≠ 0 := by rw [hshared]; exact hpending
  have hcritical (h : pc.Critical) : False := by
    have heq : u = t := Option.some.inj ((henters.1 h).symm.trans hg)
    have hpc := hkeeps heq
    cases pc <;> first | exact h | exact hpc
  cases hstep with
  | empty hzero => exact absurd hzero hqueue
  | lock hnone | wake hnone | putLock hnone | finishLock hnone => simp [hg] at hnone
  | enter | exit | nonempty => exact ⟨fun _ ↦ trivial, hshared⟩
  | serve | put | finish => exact ⟨fun heq ↦ (hkeeps heq).elim, hshared⟩
  | wait howned =>
    have hpc := hkeeps (Option.some.inj (howned.symm.trans hg))
    exact hpc.elim
  | waitUnlocked => exact ⟨hkeeps, by rw [hshared]⟩
  | unlockUnowned hunlocks =>
    exfalso
    cases pc <;> first | exact hunlocks | exact hcritical trivial
  | _ => exact (hcritical trivial).elim

structure Stopped (t u : T) (pc : Pc κ) (g : Pool T κ) : Prop where
  enters : Enters u pc g
  keeps : u = t → pc.KeepsMutex

/-- If a consumer finds the queue nonempty while it still has the mutex, the thread pool
stops: nothing is inserted, removed or counted after that, `finish` stays as it is, and
nobody else locks the mutex. -/
theorem pool_stops [DecidableEq T] {consumers : T → Prop} [DecidablePred consumers]
    {list : RequestList κ} {allowed : T → Pc κ → Pool T κ → Prop} {l k : List T}
    {c d : Config T (Pc κ) (Pool T κ)} {t : T}
    (hbefore : Run (Moves (PoolStep allowed)) (started consumers list) l c)
    (htest : c.locals t = .test) (howner : c.shared.owner = some t)
    (hpending : c.shared.queueSize ≠ 0) (hafter : Run (Moves (PoolStep allowed)) c k d) :
    d.shared = { c.shared with undefined := d.shared.undefined } := by
  have hannotated : Annotated (fun g ↦ g = { c.shared with undefined := g.undefined })
      (Stopped t) c := by
    refine ⟨rfl, fun u ↦ ⟨enters_of_run hbefore u, fun hu ↦ ?_⟩⟩
    rw [hu, htest]
    trivial
  refine (hannotated.run hafter ?_ ?_).shared
  · intro u pc g pc' g' hshared hpc hstep
    obtain ⟨hkeeps, hshared'⟩ :=
      hstep.2.2.stopped howner hpending hshared hpc.enters hpc.keeps
    exact ⟨hshared', hpc.enters.own hstep.2.2, hkeeps⟩
  · intro u v pc m g pc' g' hne hshared hpc hm hstep
    exact ⟨.other hne hpc.enters hm.enters hstep.2.2, hm.keeps⟩

/-- A request inserted before the first consumer locks the mutex is never removed. -/
theorem pool_stops_first_request :
    ∃ c, Run (Moves (PoolStep fun _ _ _ ↦ True)) (started (· = true) emptyRequests)
        [false, false, false, false, false, false, true, true] c ∧
      ∀ k d, Run (Moves (PoolStep fun _ _ _ ↦ True)) c k d → d.shared.taken = [] := by
  have hrun : Run (Moves (PoolStep fun _ _ _ ↦ True)) (started (· = true) emptyRequests)
      [false, false, false, false, false, false, true, true] _ :=
    .snoc (.snoc (.snoc (.snoc (.snoc (.snoc (.snoc (.snoc .nil
      (.of_locals (k := .idle) rfl ⟨rfl, trivial, .put ()⟩))
      (.of_locals (k := .putLock ()) rfl ⟨rfl, trivial, .putLock rfl⟩))
      (.of_locals (k := .putInsert ()) rfl ⟨rfl, trivial, .putInsert 0 (by simp [started])⟩))
      (.of_locals (k := .putIncrement) rfl ⟨rfl, trivial, .putIncrement⟩))
      (.of_locals (k := .putSignal) rfl ⟨rfl, trivial, .putSignal⟩))
      (.of_locals (k := .putUnlock) rfl ⟨rfl, trivial, .putUnlock rfl⟩))
      (.of_locals (k := .loop) rfl ⟨rfl, trivial, .enter rfl⟩))
      (.of_locals (k := .lock) rfl ⟨rfl, trivial, .lock rfl⟩)
  refine ⟨_, hrun, fun k d hafter ↦ ?_⟩
  have hstays := pool_stops hrun (t := true) rfl rfl (by simp [started]) hafter
  rw [hstays]
  rfl

/-! ## Requests after `finish_threads` -/

theorem ThreadStep.taken_eq {t : T} {pc pc' : Pc κ} {g g' : Pool T κ}
    (hstep : ThreadStep t pc g pc' g') (hfinish : g.finish = 1) (hpc : pc ≠ .remove) :
    g'.finish = 1 ∧ g'.taken = g.taken ∧ g.accepted <+: g'.accepted := by
  cases hstep with
  | remove => exact absurd rfl hpc
  | finishSet => exact ⟨rfl, rfl, List.prefix_rfl⟩
  | putInsert => exact ⟨hfinish, rfl, List.prefix_append ..⟩
  | _ => exact ⟨hfinish, rfl, List.prefix_rfl⟩

/-- What waits in the list when `finish` is set is never removed from it, and neither is
what is inserted later. -/
theorem finish_abandons [DecidableEq T] {consumers : T → Prop} [DecidablePred consumers]
    {list : RequestList κ} {allowed : T → Pc κ → Pool T κ → Prop} {l k : List T}
    {c d : Config T (Pc κ) (Pool T κ)}
    (hbefore : Run (Moves (PoolStep allowed)) (started consumers list) l c)
    (hfinish : c.shared.finish = 1) (hafter : Run (Moves (PoolStep allowed)) c k d) :
    d.shared.taken = c.shared.taken ∧ c.shared.accepted <+: d.shared.accepted := by
  have hannotated : Annotated (fun g ↦ g.finish = 1 ∧ g.taken = c.shared.taken ∧
      c.shared.accepted <+: g.accepted) Enters c :=
    ⟨⟨hfinish, rfl, List.prefix_rfl⟩, enters_of_run hbefore⟩
  refine (hannotated.run hafter ?_ ?_).shared.2
  · rintro t pc g pc' g' ⟨hset, htaken, haccepted⟩ hpc hstep
    have hremove : pc ≠ .remove := fun heq ↦ hpc.2 heq hset
    obtain ⟨hset', htaken', haccepted'⟩ := hstep.2.2.taken_eq hset hremove
    exact ⟨⟨hset', htaken'.trans htaken, haccepted.trans haccepted'⟩, hpc.own hstep.2.2⟩
  · intro t u pc k g pc' g' hne _ ht hk hstep
    exact .other hne ht hk hstep.2.2

/-- A request inserted before `finish_threads` is never served if no consumer has run by
then. -/
theorem finish_abandons_request :
    ∃ c, Run (Moves (PoolStep fun _ _ _ ↦ True)) (started (· = true) emptyRequests)
        [false, false, false, false, false, false, false, false, false] c ∧
      ∀ k d, Run (Moves (PoolStep fun _ _ _ ↦ True)) c k d →
        d.shared.taken = [] ∧ [()] <+: d.shared.accepted := by
  have hrun : Run (Moves (PoolStep fun _ _ _ ↦ True)) (started (· = true) emptyRequests)
      [false, false, false, false, false, false, false, false, false] _ :=
    .snoc (.snoc (.snoc (.snoc (.snoc (.snoc (.snoc (.snoc (.snoc .nil
      (.of_locals (k := .idle) rfl ⟨rfl, trivial, .put ()⟩))
      (.of_locals (k := .putLock ()) rfl ⟨rfl, trivial, .putLock rfl⟩))
      (.of_locals (k := .putInsert ()) rfl ⟨rfl, trivial, .putInsert 0 (by simp [started])⟩))
      (.of_locals (k := .putIncrement) rfl ⟨rfl, trivial, .putIncrement⟩))
      (.of_locals (k := .putSignal) rfl ⟨rfl, trivial, .putSignal⟩))
      (.of_locals (k := .putUnlock) rfl ⟨rfl, trivial, .putUnlock rfl⟩))
      (.of_locals (k := .idle) rfl ⟨rfl, trivial, .finish⟩))
      (.of_locals (k := .finishLock) rfl ⟨rfl, trivial, .finishLock rfl⟩))
      (.of_locals (k := .finishSet) rfl ⟨rfl, trivial, .finishSet⟩)
  exact ⟨_, hrun, fun k d hafter ↦ finish_abandons hrun rfl hafter⟩

end OsProjects.Server
