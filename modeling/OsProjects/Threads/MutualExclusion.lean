import OsProjects.Library.Interleaving
import OsProjects.Threads.Commands

/-!
# Mutual exclusion

Any number of threads whose atomic steps interleave in any order.  A thread
releases only what it holds, and an exchange succeeds only when nobody holds
the mutex, so that the flag of a mutex and its holder determine each other.
-/

namespace OsProjects.Threads

open Library.Runs Library.Interleaving

variable {U C T : Type}

/-! ## Steps of one thread -/

/-- A thread unlocks, or waits with, a mutex it holds. -/
def Thread.MayCall (thread : Thread U C) : Call U C → Prop
  | .unlock mutex => .user mutex ∈ thread.held
  | .wait _ mutex => .user mutex ∈ thread.held
  | _ => True

/-- A step of a thread.  What it does beside the mutexes is left open. -/
inductive SyncStep [DecidableEq U] [DecidableEq C] (t : T) (thread : Thread U C) (locked : Locks U C) :
    Thread U C → Locks U C → Prop
  | call {call : Call U C} : thread.todo = [] → thread.MayCall call →
      SyncStep t thread locked (thread.begin call) locked
  | mutex {thread' : Thread U C} {locked' : Locks U C} :
      thread.mutexStep locked = some (thread', locked') →
      SyncStep t thread locked thread' locked'
  | other {command : Command U C} {branch rest : List (Command U C)} {waiter : Option Slot} :
      thread.todo = command :: rest → thread.mutexStep locked = none →
      command.MayContinue branch →
      SyncStep t thread locked { thread with todo := branch ++ rest, waiter := waiter } locked

/-! ## What a thread is going to hold -/

/-- A thread that holds `held` and executes the commands releases only what it holds
then, and in the end what it holds satisfies `Q`.  An exchange of a mutex that the
thread holds already does not succeed. -/
def Releases (Q : Set (Mutex U C) → Prop) : List (Command U C) → Set (Mutex U C) → Prop
  | [], held => Q held
  | .exchange mutex :: rest, held => mutex ∉ held → Releases Q rest (insert mutex held)
  | .store mutex :: rest, held => mutex ∈ held ∧ Releases Q rest (held \ {mutex})
  | _ :: rest, held => Releases Q rest held

/-- What a thread holds when its call has returned. -/
def Thread.Returned (thread : Thread U C) (held : Set (Mutex U C)) : Prop :=
  match thread.call with
  | some (.lock mutex) => .user mutex ∈ held
  | some (.wait _ mutex) => .user mutex ∈ held
  | _ => True

/-- `thread_mutex_lock` or `thread_cond_wait` has returned. -/
structure Thread.Acquired (thread : Thread U C) (mutex : U) : Prop where
  call : thread.call = some (.lock mutex) ∨
    ∃ condition, thread.call = some (.wait condition mutex)
  returned : thread.todo = []

variable {Q : Set (Mutex U C) → Prop} {rest branch : List (Command U C)}
  {held : Set (Mutex U C)} {mutex : Mutex U C} {condition : C}

theorem releases_threadCondSignal (h : Releases Q rest held) :
    Releases Q (threadCondSignal condition ++ rest) held := by
  intro hfree
  refine ⟨Set.mem_insert _ held, ?_⟩
  rwa [Set.insert_sdiff_self_of_notMem hfree]

theorem releases_threadCondBroadcast (h : Releases Q rest held) :
    Releases Q (threadCondBroadcast condition ++ rest) held := by
  rw [threadCondBroadcast, List.append_assoc]
  exact releases_threadCondSignal h

theorem releases_append_of_mayContinue {command : Command U C}
    (hbranch : command.MayContinue branch)
    (h : Releases Q rest held) : Releases Q (branch ++ rest) held := by
  cases command with
  | signalAgain condition =>
      rcases hbranch with rfl | rfl
      · exact h
      · exact releases_threadCondBroadcast h
  | testJoiner => rcases hbranch with rfl | rfl <;> exact h
  | testFinished target => rcases hbranch with rfl | ⟨i, rfl | rfl⟩ <;> exact h
  | _ =>
      obtain rfl : branch = [] := hbranch
      exact h

theorem releases_body {thread : Thread U C} {call : Call U C} (h : thread.MayCall call) :
    Releases (thread.begin call).Returned call.body thread.held := by
  cases call with
  | lock mutex => exact fun _ ↦ Set.mem_insert _ _
  | unlock mutex => exact ⟨h, trivial⟩
  | wait condition mutex =>
      intro _
      have hmutex : Mutex.user mutex ∈ insert (.internal condition) thread.held :=
        Set.mem_insert_of_mem _ h
      refine ⟨hmutex, ⟨Set.mem_insert _ _, nofun⟩, fun _ ↦ ?_⟩
      exact Set.mem_insert _ _
  | signal condition =>
      have hreturned : Releases (thread.begin (.signal condition)).Returned [] thread.held := trivial
      exact releases_threadCondSignal hreturned
  | broadcast condition =>
      have hagain : Releases (thread.begin (.broadcast condition)).Returned
          [.signalAgain condition] thread.held := trivial
      exact releases_threadCondSignal hagain
  | _ => trivial

theorem Thread.Acquired.mem_held {thread : Thread U C} {mutex : U} (h : thread.Acquired mutex)
    (hreleases : Releases thread.Returned thread.todo thread.held) : .user mutex ∈ thread.held := by
  rw [h.returned, Releases] at hreleases
  rcases h.call with hcall | ⟨condition, hcall⟩
  · rwa [Returned, hcall] at hreleases
  · rwa [Returned, hcall] at hreleases

/-! ## Steps and what is held -/

variable [DecidableEq U] [DecidableEq C] {thread thread' : Thread U C} {locked locked' : Locks U C}

theorem releases_of_mutexStep {command : Command U C} (htodo : thread.todo = command :: rest)
    (hnone : thread.mutexStep locked = none) (h : Releases Q (command :: rest) held) :
    Releases Q rest held := by
  rw [Thread.mutexStep, htodo] at hnone
  cases command with
  | spin m => cases hnone
  | exchange m =>
      dsimp only at hnone
      split at hnone <;> cases hnone
  | store m => cases hnone
  | _ => exact h

/-- A step takes a free mutex, releases one that the thread holds, or changes
nothing about what is held. -/
inductive Holding (held : Set (Mutex U C)) (locked : Locks U C) :
    Set (Mutex U C) → Locks U C → Prop
  | same : Holding held locked held locked
  | take {m : Mutex U C} : locked m = false →
      Holding held locked (insert m held) (Function.update locked m true)
  | release {m : Mutex U C} : m ∈ held →
      Holding held locked (held \ {m}) (Function.update locked m false)

theorem holding_of_mutexStep (hstep : thread.mutexStep locked = some (thread', locked'))
    (h : Releases Q thread.todo thread.held) (hlocked : ∀ m ∈ thread.held, locked m = true) :
    Holding thread.held locked thread'.held locked' ∧ Releases Q thread'.todo thread'.held ∧
      thread'.call = thread.call := by
  rcases mutexStep_cases hstep with ⟨m, rest, htodo, rfl, rfl | rfl⟩ |
    ⟨m, rest, htodo, rfl, rfl⟩ | ⟨m, rest, htodo, hfree, rfl, rfl⟩ | ⟨m, rest, htodo, rfl, rfl⟩
  · exact ⟨.same, h, rfl⟩
  · rw [htodo] at h
    exact ⟨.same, h, rfl⟩
  · rw [htodo] at h
    exact ⟨.same, h, rfl⟩
  · rw [htodo] at h
    refine ⟨.take hfree, h fun hmem ↦ ?_, rfl⟩
    rw [hlocked m hmem] at hfree
    cases hfree
  · rw [htodo] at h
    exact ⟨.release h.1, h.2, rfl⟩

theorem SyncStep.skip {t : T} {command : Command U C} (htodo : thread.todo = command :: rest)
    (hnone : thread.mutexStep locked = none) (hmay : command.MayContinue []) :
    SyncStep t thread locked { thread with todo := rest } locked :=
  .other htodo hnone hmay

theorem SyncStep.holding {t : T} (hstep : SyncStep t thread locked thread' locked')
    (h : Releases thread.Returned thread.todo thread.held)
    (hlocked : ∀ m ∈ thread.held, locked m = true) :
    Holding thread.held locked thread'.held locked' ∧
      Releases thread'.Returned thread'.todo thread'.held := by
  cases hstep with
  | call htodo hmay => exact ⟨.same, releases_body hmay⟩
  | other htodo hstep hmay =>
      rw [htodo] at h
      exact ⟨.same, releases_append_of_mayContinue hmay (releases_of_mutexStep htodo hstep h)⟩
  | mutex hstep =>
      obtain ⟨hholding, hreleases, hcall⟩ := holding_of_mutexStep hstep h hlocked
      have hreturned : thread'.Returned = thread.Returned := by
        funext held
        rw [Thread.Returned, Thread.Returned, hcall]
      rw [hreturned]
      exact ⟨hholding, hreleases⟩

/-! ## The invariant -/

/-- The flag of a mutex is set exactly while a thread holds it, and only one does. -/
structure Owned (held : T → Set (Mutex U C)) (locked : Locks U C) : Prop where
  unique : ∀ m t u, m ∈ held t → m ∈ held u → t = u
  locked_iff : ∀ m, locked m = true ↔ ∃ t, m ∈ held t

theorem Owned.step [DecidableEq T] {held : T → Set (Mutex U C)} (h : Owned held locked) {t : T}
    {mine : Set (Mutex U C)} (hholding : Holding (held t) locked mine locked') :
    Owned (Function.update held t mine) locked' := by
  cases hholding with
  | same => rwa [Function.update_eq_self]
  | @take m hfree =>
      have hnobody (u : T) : m ∉ held u := by
        intro hu
        rw [(h.locked_iff m).mpr ⟨u, hu⟩] at hfree
        cases hfree
      have hmem (n : Mutex U C) (u : T) :
          n ∈ Function.update held t (insert m (held t)) u ↔ n ∈ held u ∨ n = m ∧ u = t := by
        by_cases hu : u = t
        · subst hu
          simp [or_comm]
        · simp [hu]
      constructor
      · intro n u v hu hv
        rcases (hmem n u).mp hu with hold | ⟨rfl, rfl⟩
        · rcases (hmem n v).mp hv with hold' | ⟨rfl, -⟩
          · exact h.unique n u v hold hold'
          · exact absurd hold (hnobody u)
        · rcases (hmem n v).mp hv with hold' | ⟨-, rfl⟩
          · exact absurd hold' (hnobody v)
          · rfl
      · intro n
        by_cases hn : n = m
        · subst hn
          simp only [Function.update_self, true_iff]
          exact ⟨t, (hmem n t).mpr (.inr ⟨rfl, rfl⟩)⟩
        · rw [Function.update_of_ne hn, h.locked_iff]
          simp [hmem, hn]
  | @release m hm =>
      have hmem (n : Mutex U C) (u : T) :
          n ∈ Function.update held t (held t \ {m}) u ↔ n ∈ held u ∧ n ≠ m := by
        by_cases hu : u = t
        · subst hu
          simp
        · rw [Function.update_of_ne hu, iff_self_and]
          rintro hn rfl
          exact hu (h.unique n u t hn hm)
      constructor
      · intro n u v hu hv
        exact h.unique n u v ((hmem n u).mp hu).1 ((hmem n v).mp hv).1
      · intro n
        by_cases hn : n = m
        · subst hn
          simp [hmem]
        · rw [Function.update_of_ne hn, h.locked_iff]
          simp [hmem, hn]

structure Exclusive (c : Config T (Thread U C) (Locks U C)) : Prop where
  releases : ∀ t, Releases (c.locals t).Returned (c.locals t).todo (c.locals t).held
  owned : Owned (fun t ↦ (c.locals t).held) c.shared

variable {c d : Config T (Thread U C) (Locks U C)}

theorem Exclusive.moves [DecidableEq T] (h : Exclusive c) {t : T} (hmoves : Moves SyncStep c t d) :
    Exclusive d := by
  cases hmoves with
  | @intro thread locked hstep =>
      obtain ⟨hholding, hreleases⟩ := hstep.holding (h.releases t) fun m hm ↦
        (h.owned.locked_iff m).mpr ⟨t, hm⟩
      constructor
      · intro u
        by_cases hu : u = t
        · subst hu
          simpa using hreleases
        · simpa [hu] using h.releases u
      · have howned := h.owned.step hholding
        have hheld : Thread.held ∘ Function.update c.locals t thread =
            Function.update (fun u ↦ (c.locals u).held) t thread.held :=
          Function.comp_update ..
        rwa [← hheld] at howned

/-- Threads that have not called anything, and mutexes after `thread_mutex_init`. -/
def unlocked : Config T (Thread U C) (Locks U C) := ⟨fun _ ↦ .idle, fun _ ↦ false⟩

/-- At most one thread holds a mutex, its flag is set exactly while one does, and
`thread_mutex_lock` and `thread_cond_wait` return to the only holder of the mutex. -/
theorem mutual_exclusion [DecidableEq T] {ts : List T}
    (h : Run (Moves SyncStep) unlocked ts c) :
    (∀ m t u, m ∈ (c.locals t).held → m ∈ (c.locals u).held → t = u) ∧
    (∀ m, c.shared m = true ↔ ∃ t, m ∈ (c.locals t).held) ∧
    ∀ t mutex, (c.locals t).Acquired mutex → .user mutex ∈ (c.locals t).held ∧
      ∀ u ≠ t, .user mutex ∉ (c.locals u).held := by
  have hstart : Exclusive (unlocked : Config T (Thread U C) (Locks U C)) :=
    ⟨fun t ↦ trivial, ⟨nofun, by simp [unlocked, Thread.idle]⟩⟩
  have hexclusive := h.invariant hstart fun _ _ _ hc hmoves ↦ hc.moves hmoves
  refine ⟨hexclusive.owned.unique, hexclusive.owned.locked_iff, fun t mutex hacquired ↦ ?_⟩
  have hmem := hacquired.mem_held (hexclusive.releases t)
  exact ⟨hmem, fun u hu hmem' ↦ hu (hexclusive.owned.unique _ u t hmem' hmem)⟩

/-- Both threads find the mutex unlocked, and the exchange of one of them fails. -/
theorem mutual_exclusion_contended : ∃ c : Config Bool (Thread Unit Unit) (Locks Unit Unit),
    Run (Moves SyncStep) unlocked [false, true, false, true, false, true, true] c ∧
      (c.locals false).Acquired () ∧ (c.locals true).call = some (.lock ()) ∧
        .user () ∈ (c.locals false).held ∧ .user () ∉ (c.locals true).held := by
  let begun : Thread Unit Unit := Thread.idle.begin (.lock ())
  let tested : Thread Unit Unit := ⟨some (.lock ()), [.exchange (.user ())], none, ∅⟩
  have hcalled : Run (Moves SyncStep) (unlocked : Config Bool (Thread Unit Unit) (Locks Unit Unit))
      [false, true] _ :=
    .snoc (.snoc .nil
      (.of_locals (k := .idle) rfl (@SyncStep.call _ _ _ _ _ _ _ _ (.lock ()) rfl trivial)))
      (.of_locals (k := .idle) rfl (@SyncStep.call _ _ _ _ _ _ _ _ (.lock ()) rfl trivial))
  have htested := (hcalled.snoc (.of_locals (t := false) (k := begun) rfl (.mutex rfl))).snoc
    (.of_locals (t := true) (k := begun) rfl (.mutex rfl))
  have hexchanged := (htested.snoc (.of_locals (t := false) (k := tested) rfl (.mutex rfl))).snoc
    (.of_locals (t := true) (k := tested) rfl (.mutex rfl))
  have hspins := hexchanged.snoc (.of_locals (t := true) (k := begun) rfl (.mutex rfl))
  obtain ⟨hmem, hothers⟩ := (mutual_exclusion hspins).2.2 false () ⟨.inl rfl, rfl⟩
  exact ⟨_, hspins, ⟨.inl rfl, rfl⟩, rfl, hmem, hothers true (by decide)⟩

end OsProjects.Threads
