import OsProjects.Threads.MutualExclusion
import OsProjects.Threads.Scheduler

/-!
# Mutual exclusion under the scheduler

The threads of the scheduler take turns on one processor, can be interrupted between
any two commands, and can lose their slot to a new thread.  A switch moves threads
between the processor and their buffers and changes none of them, so that what holds of
threads whose steps interleave holds of them as well.
-/

namespace OsProjects.Threads

open Library.Runs OsProjects.Lists

variable {U C : Type}

/-! ## The threads of a system -/

namespace System

variable {s : System U C} {i j : Slot}

/-- The thread in a slot, wherever it is. -/
def threadOf (s : System U C) (i : Slot) : Option (Thread U C) :=
  if i = s.current then some s.thread else (s.context i).buffer

theorem threadOf_current (s : System U C) : s.threadOf s.current = some s.thread := if_pos rfl

theorem threadOf_setState (x : ThreadState) : (s.setState i x).threadOf = s.threadOf := by
  funext j
  rw [threadOf, buffer_setState]
  rfl

theorem threadOf_setJoiner (number : ℤ) :
    (s.setTcb i fun tcb ↦ { tcb with joinerThreadNumber := number }).threadOf = s.threadOf := by
  funext j
  rw [threadOf, buffer_setJoiner]
  rfl

theorem threadOf_setBuffer_current :
    (s.setBuffer s.current s.thread).threadOf = s.threadOf := by
  funext j
  by_cases hj : j = s.current
  · subst hj
    exact (threadOf_current _).trans (threadOf_current s).symm
  · rw [threadOf, threadOf, if_neg hj, buffer_setBuffer, if_neg hj]
    exact if_neg hj

/-- A switch changes none of the threads. -/
theorem threadOf_transfer : (s.transfer i).threadOf = s.threadOf := by
  have hsaved (j : Slot) :
      ((s.setBuffer s.current s.thread).context j).buffer = s.threadOf j := by
    rw [buffer_setBuffer, threadOf]
  cases hbuffer : ((s.setBuffer s.current s.thread).context i).buffer with
  | none =>
      rw [transfer_eq_of_none hbuffer]
      exact threadOf_setBuffer_current (s := s)
  | some thread =>
      rw [transfer_eq hbuffer]
      funext j
      by_cases hj : j = i
      · subst hj
        rw [← hsaved, hbuffer]
        exact if_pos rfl
      · rw [← hsaved]
        exact if_neg hj

theorem threadOf_create (h : i ≠ s.current) :
    ((s.setState i .active).setBuffer i .idle).threadOf j =
      if j = i then some .idle else s.threadOf j := by
  have hbuffer : (((s.setState i .active).setBuffer i .idle).context j).buffer =
      if j = i then some .idle else (s.context j).buffer := by
    rw [buffer_setBuffer, buffer_setState]
  by_cases hj : j = i
  · rw [if_pos hj, threadOf, hbuffer, if_pos hj]
    exact if_neg (hj ▸ h)
  · rw [if_neg hj, threadOf, hbuffer, if_neg hj]
    rfl

theorem threadOf_create_current :
    ((s.setState s.current .active).setBuffer s.current .idle).threadOf = s.threadOf := by
  funext j
  by_cases hj : j = s.current
  · subst hj
    exact (threadOf_current _).trans (threadOf_current s).symm
  · rw [threadOf, threadOf, if_neg hj, buffer_setBuffer, if_neg hj, buffer_setState]
    exact if_neg hj

/-- The mutexes that the thread in a slot holds. -/
def held (s : System U C) (i : Slot) : Set (Mutex U C) := (s.threadOf i).elim ∅ Thread.held

theorem held_current (s : System U C) : s.held s.current = s.thread.held := by
  rw [held, threadOf_current]
  rfl

theorem threadOf_setThread (thread : Thread U C) (locked : Locks U C) :
    ({ s with thread := thread, locked := locked } : System U C).threadOf =
      Function.update s.threadOf s.current (some thread) := by
  funext j
  rw [Function.update_apply]
  by_cases hj : j = s.current
  · rw [if_pos hj]
    exact if_pos hj
  · rw [if_neg hj]
    exact (if_neg hj).trans (if_neg hj).symm

theorem held_setThread (thread : Thread U C) (locked : Locks U C) :
    ({ s with thread := thread, locked := locked } : System U C).held =
      Function.update s.held s.current thread.held := by
  funext j
  rw [held, threadOf_setThread, Function.update_apply, Function.update_apply]
  split <;> rfl

end System

/-! ## The invariant -/

/-- At most one thread holds a mutex, and the flag of the mutex is set then. -/
structure Sole {T : Type} (held : T → Set (Mutex U C)) (locked : Locks U C) : Prop where
  unique : ∀ m t u, m ∈ held t → m ∈ held u → t = u
  locked : ∀ m t, m ∈ held t → locked m = true

namespace Sole

variable {T : Type} [DecidableEq T] {held : T → Set (Mutex U C)} {locked locked' : Locks U C} {t : T}
  {mine : Set (Mutex U C)}

/-- A thread that holds less, like one that is given up with its slot. -/
theorem shrink (h : Sole held locked) (hmine : mine ⊆ held t) :
    Sole (Function.update held t mine) locked := by
  have hsub (u : T) : Function.update held t mine u ⊆ held u := by
    by_cases hu : u = t
    · subst hu
      rwa [Function.update_self]
    · rw [Function.update_of_ne hu]
  exact ⟨fun m u v hu hv ↦ h.unique m u v (hsub u hu) (hsub v hv),
    fun m u hu ↦ h.locked m u (hsub u hu)⟩

theorem step [DecidableEq U] [DecidableEq C] (h : Sole held locked)
    (hholding : Holding (held t) locked mine locked') :
    Sole (Function.update held t mine) locked' := by
  cases hholding with
  | same => rwa [Function.update_eq_self]
  | @take m hfree =>
      have hmem (n : Mutex U C) (u : T)
          (hu : n ∈ Function.update held t (insert m (held t)) u) :
          n ∈ held u ∧ n ≠ m ∨ n = m ∧ u = t := by
        have hnobody : n ∈ held u → n ≠ m := by
          rintro hold rfl
          rw [h.locked n u hold] at hfree
          cases hfree
        by_cases hut : u = t
        · subst hut
          rw [Function.update_self] at hu
          exact hu.symm.imp (fun hold ↦ ⟨hold, hnobody hold⟩) fun heq ↦ ⟨heq, rfl⟩
        · rw [Function.update_of_ne hut] at hu
          exact .inl ⟨hu, hnobody hu⟩
      constructor
      · intro n u v hu hv
        rcases hmem n u hu with ⟨hold, hne⟩ | ⟨heq, rfl⟩
        · exact h.unique n u v hold ((hmem n v hv).resolve_right fun heq ↦ hne heq.1).1
        · exact ((hmem n v hv).resolve_left fun hold ↦ hold.2 heq).2.symm
      · intro n u hu
        rcases hmem n u hu with ⟨hold, hne⟩ | ⟨rfl, -⟩
        · rw [Function.update_of_ne hne]
          exact h.locked n u hold
        · rw [Function.update_self]
  | @release m hm =>
      have hless := h.shrink (show held t \ {m} ⊆ held t from Set.sdiff_subset)
      refine ⟨hless.unique, fun n u hu ↦ ?_⟩
      have hne : n ≠ m := by
        rintro rfl
        by_cases hut : u = t
        · subst hut
          rw [Function.update_self] at hu
          exact hu.2 rfl
        · rw [Function.update_of_ne hut] at hu
          exact hut (h.unique n u t hu hm)
      rw [Function.update_of_ne hne]
      exact hless.locked n u hu

end Sole

/-- The threads of the system release what they hold, and nobody else holds it. -/
structure Guarded (s : System U C) : Prop where
  unnumbered : s.Unnumbered
  releases : ∀ i thread, s.threadOf i = some thread →
    Releases thread.Returned thread.todo thread.held
  sole : Sole s.held s.locked

namespace Guarded

variable {s t : System U C} {i : Slot}

theorem current (h : Guarded s) : Releases s.thread.Returned s.thread.todo s.thread.held :=
  h.releases _ _ s.threadOf_current

/-- The same threads, wherever they are. -/
theorem of_threadOf_eq (h : Guarded s) (hunnumbered : t.Unnumbered)
    (hthreads : t.threadOf = s.threadOf) (hlocked : t.locked = s.locked) : Guarded t := by
  have hheld : t.held = s.held := by
    funext i
    rw [System.held, hthreads, System.held]
  refine ⟨hunnumbered, ?_, ?_⟩
  · rw [hthreads]
    exact h.releases
  · rw [hheld, hlocked]
    exact h.sole

theorem setThread [DecidableEq U] [DecidableEq C] (h : Guarded s) (thread : Thread U C)
    {locked : Locks U C} (hholding : Holding s.thread.held s.locked thread.held locked)
    (hreleases : Releases thread.Returned thread.todo thread.held) :
    Guarded { s with thread := thread, locked := locked } := by
  refine ⟨h.unnumbered, fun j f hf ↦ ?_, ?_⟩
  · rw [System.threadOf_setThread, Function.update_apply] at hf
    split at hf
    · cases hf
      exact hreleases
    · exact h.releases j f hf
  · rw [System.held_setThread]
    rw [← s.held_current] at hholding
    exact h.sole.step hholding

theorem push [DecidableEq U] [DecidableEq C] (h : Guarded s) {commands : List (Command U C)}
    (hcommands : Releases s.thread.Returned (commands ++ s.thread.todo) s.thread.held) :
    Guarded (s.push commands) :=
  h.setThread { s.thread with todo := commands ++ s.thread.todo } .same hcommands

theorem transfer (h : Guarded s) : Guarded (s.transfer i) := by
  refine h.of_threadOf_eq h.unnumbered.switch System.threadOf_transfer ?_
  rw [System.transfer, System.switch]
  split <;> rfl

/-- A new thread holds nothing, and what the old one in its slot held is not held any more. -/
theorem create [DecidableEq C] (h : Guarded s) (newNode : Option Addr) :
    Guarded (s.perform newNode .create) := by
  have hunnumbered := h.unnumbered.perform newNode .create
  cases hfree : s.freeSlot with
  | none =>
      rw [System.perform, hfree]
      exact h
  | some i =>
      rw [System.perform_create newNode hfree] at hunnumbered ⊢
      by_cases hi : i = s.current
      · subst hi
        exact h.of_threadOf_eq hunnumbered (System.threadOf_create_current (s := s)) rfl
      · have hthreads (j : Slot) := System.threadOf_create (j := j) hi
        have hheld : ((s.setState i .active).setBuffer i .idle).held =
            Function.update s.held i ∅ := by
          funext j
          rw [System.held, hthreads, Function.update_apply]
          split <;> rfl
        refine ⟨hunnumbered, fun j f hf ↦ ?_, ?_⟩
        · have hf' := (hthreads j).symm.trans hf
          split at hf'
          · cases hf'
            exact trivial
          · exact h.releases j f hf'
        · have hsole := h.sole.shrink (Set.empty_subset (s.held i))
          rw [← hheld] at hsole
          exact hsole

variable [DecidableEq U] [DecidableEq C]

/-- A command that is not about a mutex. -/
theorem perform {command : Command U C} {rest : List (Command U C)} (h : Guarded s)
    (htodo : s.thread.todo = command :: rest) (hnone : s.thread.mutexStep s.locked = none)
    (newNode : Option Addr) : Guarded ((s.setTodo rest).perform newNode command) := by
  have hcurrent := h.current
  rw [htodo] at hcurrent
  have hrest := releases_of_mutexStep htodo hnone hcurrent
  have hset : Guarded (s.setTodo rest) :=
    h.setThread { s.thread with todo := rest } .same hrest
  have hunnumbered := hset.unnumbered.perform newNode command
  have hpush {branch : List (Command U C)} (hbranch : command.MayContinue branch) :
      Guarded ((s.setTodo rest).push branch) :=
    hset.push (releases_append_of_mayContinue hbranch hrest)
  cases command with
  | block => exact hset.of_threadOf_eq hunnumbered (System.threadOf_setState _) rfl
  | activate => exact hset.of_threadOf_eq hunnumbered (System.threadOf_setState _) rfl
  | invalidate target => exact hset.of_threadOf_eq hunnumbered (System.threadOf_setState _) rfl
  | setJoiner target => exact hset.of_threadOf_eq hunnumbered (System.threadOf_setJoiner _) rfl
  | finish =>
      have hsame := System.threadOf_setState (s := s.setTodo rest) (i := s.current) .finished
      exact hset.of_threadOf_eq hunnumbered hsame rfl
  | insertTail c => exact hset.of_threadOf_eq hunnumbered rfl rfl
  | removeHead c =>
      have hwaiter := hset.setThread { s.thread with
        todo := rest
        waiter := (llRemoveHead (s.waiters c)).1.map fun a ↦ ((llRemoveHead (s.waiters c)).2.node a).data }
        .same hrest
      exact hwaiter.of_threadOf_eq hunnumbered rfl rfl
  | wake =>
      rw [System.perform_wake newNode hset.unnumbered]
      split
      · exact hset
      · exact hset.of_threadOf_eq hset.unnumbered.setState (System.threadOf_setState _) rfl
  | create => exact hset.create newNode
  | yield =>
      rw [System.perform]
      split
      · exact hset.transfer
      · exact hset
  | switchTo target => exact hset.transfer
  | switchToJoiner =>
      rw [System.perform_switchToJoiner newNode hset.unnumbered]
      exact hset.transfer
  | signalAgain c =>
      rw [System.perform]
      split
      · exact hpush (.inr rfl)
      · exact hset
  | testJoiner =>
      rw [System.perform_testJoiner newNode hset.unnumbered]
      exact hpush (.inr rfl)
  | testFinished target =>
      rw [System.perform]
      split
      · exact hset.of_threadOf_eq hset.unnumbered rfl rfl
      · rename_i i _
        split
        · exact hpush (.inr ⟨i, .inl rfl⟩)
        · exact hpush (.inr ⟨i, .inr rfl⟩)
  | _ => exact hset

end Guarded

/-! ## Runs -/

/-- With preemption, and of the calls only those that release a mutex of the caller. -/
def System.ReleasesOwn (s : System U C) : Action U C → Prop
  | .call call => s.thread.MayCall call
  | _ => True

variable [DecidableEq U] [DecidableEq C] {s t : System U C}

theorem Guarded.step {a : Action U C} (h : Guarded s) (hstep : Step System.ReleasesOwn s a t) :
    Guarded t := by
  cases hstep with
  | @call call _ _ hcall => exact h.setThread (s.thread.begin call) .same (releases_body hcall)
  | interrupt => exact h.push h.current
  | @command newNode _ htodo =>
      rw [System.exec]
      split
      · rename_i thread locked hmutex
        have hlocked : ∀ m ∈ s.thread.held, s.locked m = true := by
          rw [← s.held_current]
          exact fun m ↦ h.sole.locked m s.current
        obtain ⟨hholding, hreleases, hcall⟩ := holding_of_mutexStep hmutex h.current hlocked
        refine h.setThread _ hholding ?_
        have hreturned : thread.Returned = s.thread.Returned := by
          funext held
          rw [Thread.Returned, Thread.Returned, hcall]
        rwa [hreturned]
      · split
        · exact h
        · exact h.perform ‹_› ‹_› newNode

/-- Whatever the threads call and wherever they are interrupted, at most one thread holds a
mutex as long as threads release only what they hold, and `thread_mutex_lock` and
`thread_cond_wait` return to the holder of the mutex. -/
theorem mutual_exclusion_scheduled {l : List (Action U C)}
    (hrun : Run (Step System.ReleasesOwn) (threadInit U C) l s) :
    (∀ m i j, m ∈ s.held i → m ∈ s.held j → i = j) ∧
      (∀ m i, m ∈ s.held i → s.locked m = true) ∧
      ∀ i thread mutex, s.threadOf i = some thread → thread.Acquired mutex →
        .user mutex ∈ s.held i ∧ ∀ j ≠ i, .user mutex ∉ s.held j := by
  have hstart : Guarded (threadInit U C) := by
    have hheld (i : Slot) : (threadInit U C).held i = ∅ := by
      rw [System.held, System.threadOf]
      split <;> rfl
    refine ⟨fun _ ↦ ⟨rfl, rfl⟩, fun i thread hthread ↦ ?_, ?_, ?_⟩
    · rw [System.threadOf] at hthread
      split at hthread
      · cases hthread
        exact trivial
      · cases hthread
    · intro m i j hi
      rw [hheld] at hi
      exact hi.elim
    · intro m i hi
      rw [hheld] at hi
      exact hi.elim
  have hguarded := hrun.invariant hstart fun _ _ _ h hstep ↦ h.step hstep
  refine ⟨hguarded.sole.unique, hguarded.sole.locked, ?_⟩
  intro i thread mutex hthread hacquired
  have hmem := hacquired.mem_held (hguarded.releases i thread hthread)
  have hheld : s.held i = thread.held := by
    rw [System.held, hthread]
    rfl
  rw [← hheld] at hmem
  exact ⟨hmem, fun j hj hmem' ↦ hj (hguarded.sole.unique _ j i hmem' hmem)⟩

/-- The main thread is interrupted while it holds a mutex. -/
theorem mutual_exclusion_scheduled_interrupt :
    ∃ (l : List (Action Unit Unit)) (s : System Unit Unit),
      Run (Step System.ReleasesOwn) (threadInit Unit Unit) l s ∧ s.current = 1 ∧
        (∃ thread, s.threadOf 0 = some thread ∧ thread.Acquired ()) ∧
          .user () ∈ s.held 0 ∧ ∀ i ≠ 0, .user () ∉ s.held i := by
  have hcreate : Run (Step System.ReleasesOwn) (threadInit Unit Unit) _ _ :=
    run_after .nil .create 1 ⟨rfl, rfl, trivial⟩ (fun _ _ ↦ trivial) (by decide)
  have hlock := run_after hcreate (.lock ()) 2 ⟨rfl, rfl, trivial⟩ (fun _ _ ↦ trivial) (by decide)
  have hyield := run_execs (hlock.snoc (.interrupt rfl trivial)) 1 (fun _ _ ↦ trivial) (by decide)
  obtain ⟨hmem, hothers⟩ := (mutual_exclusion_scheduled hyield).2.2 0 _ () rfl ⟨.inl rfl, rfl⟩
  exact ⟨_, _, hyield, rfl, ⟨_, rfl, .inl rfl, rfl⟩, hmem, hothers⟩

end OsProjects.Threads
