import OsProjects.Threads.Scheduler

/-!
# The numbers of threads

`number` is read by five functions and assigned to by none, so that every thread
has the number of the main thread.  The numbers identify the slots for as long
as no other slot is in use, which is until the first `thread_create`.
-/

namespace OsProjects.Threads

open Library.Runs OsProjects.Lists

variable {U C : Type}

/-- The number of a thread is the index of its slot. -/
def System.Numbered (s : System U C) : Prop :=
  ∀ i, s.state i ≠ .invalid → (s.context i).number = (i : ℕ)

/-- What `thread_create` returns. -/
def System.createResult (s : System U C) : ℤ :=
  match s.freeSlot with
  | some i => (s.context i).number
  | none => 0

theorem System.Unnumbered.numbered_iff {s : System U C} (h : s.Unnumbered) :
    s.Numbered ↔ ∀ i ≠ 0, s.state i = .invalid := by
  constructor
  · intro hnumbered i hi
    by_contra hstate
    have hindex := hnumbered i hstate
    rw [(h i).1] at hindex
    exact hi (Fin.val_eq_zero_iff.mp (Int.natCast_eq_zero.mp hindex.symm))
  · intro hinvalid i hstate
    obtain rfl : i = 0 := by
      by_contra hi
      exact hstate (hinvalid i hi)
    exact (h 0).1

theorem System.Unnumbered.createResult_eq {s : System U C} (h : s.Unnumbered) :
    s.createResult = (s.context 0).number := by
  rw [System.createResult, (h 0).1]
  split
  · exact (h _).1
  · rfl

theorem unnumbered_threadInit : (threadInit U C).Unnumbered := fun _ ↦ ⟨rfl, rfl⟩

theorem System.Unnumbered.step [DecidableEq U] [DecidableEq C]
    {allowed : System U C → Action U C → Prop} {s t : System U C} {a : Action U C}
    (h : s.Unnumbered) (hstep : Step allowed s a t) : t.Unnumbered := by
  cases hstep with
  | call => exact h
  | interrupt => exact h
  | command _ htodo =>
      refine System.exec_induction htodo (fun _ _ _ ↦ h) fun command rest _ _ ↦ ?_
      have hrest : (s.setTodo rest).Unnumbered := h
      exact hrest.perform _ command

/-! ## Runs without `thread_create` -/

def Thread.CreatesNone (thread : Thread U C) : Prop := ∀ command ∈ thread.todo, command ≠ .create

/-- The main thread is the only one. -/
structure Alone (s : System U C) : Prop where
  unnumbered : s.Unnumbered
  current : s.current = 0
  others : ∀ i ≠ 0, s.state i = .invalid ∧ (s.context i).buffer = none
  saved : ∀ thread, (s.context 0).buffer = some thread → thread.CreatesNone

theorem Thread.CreatesNone.of_cons {thread : Thread U C} {command : Command U C}
    {rest : List (Command U C)} (h : thread.CreatesNone) (htodo : thread.todo = command :: rest) :
    command ≠ .create ∧ ∀ c ∈ rest, c ≠ .create :=
  ⟨h command (htodo ▸ List.mem_cons_self), fun c hc ↦ h c (htodo ▸ List.mem_cons_of_mem _ hc)⟩

theorem createsNone_begin {thread : Thread U C} {call : Call U C} (hcall : call ≠ .create) :
    (thread.begin call).CreatesNone := by
  intro command hcommand
  cases call with
  | create => exact absurd rfl hcall
  | _ =>
      simp only [Thread.begin, Call.body, threadMutexLock, threadMutexUnlock, threadCondWait,
        threadCondSignal, threadCondBroadcast, threadYield, threadExit, threadJoin,
        List.mem_append, List.mem_cons, List.not_mem_nil, or_false] at hcommand
      rintro rfl
      simp at hcommand

namespace Alone

variable {s : System U C} {i : Slot}

theorem setState {x : ThreadState} (h : Alone s) (hi : i = 0 ∨ x = .invalid) :
    Alone (s.setState i x) where
  unnumbered := h.unnumbered.setState
  current := h.current
  others j hj := by
    rw [System.state_setState, System.buffer_setState]
    refine ⟨?_, (h.others j hj).2⟩
    split
    · rename_i hji
      exact hi.resolve_left fun hzero ↦ hj (hji.trans hzero)
    · exact (h.others j hj).1
  saved thread hthread := by
    rw [System.buffer_setState] at hthread
    exact h.saved thread hthread

theorem setJoiner (h : Alone s) {number : ℤ} (hnumber : number = 0) :
    Alone (s.setTcb i fun tcb ↦ { tcb with joinerThreadNumber := number }) where
  unnumbered := h.unnumbered.setTcb fun _ hzero _ ↦ ⟨hzero, hnumber⟩
  current := h.current
  others j hj := by
    rw [System.state_setJoiner, System.buffer_setJoiner]
    exact h.others j hj
  saved thread hthread := by
    rw [System.buffer_setJoiner] at hthread
    exact h.saved thread hthread

/-- Only to the main thread can the processor be handed over. -/
theorem transfer (h : Alone s) (hnone : s.thread.CreatesNone) :
    Alone (s.transfer i) ∧ (s.transfer i).thread.CreatesNone := by
  have hbuffer (j : Slot) : ((s.setBuffer s.current s.thread).context j).buffer =
      if j = 0 then some s.thread else (s.context j).buffer := by
    rw [System.buffer_setBuffer, h.current]
  have hsaved : Alone (s.setBuffer s.current s.thread) := by
    refine ⟨h.unnumbered.setBuffer, h.current, fun j hj ↦ ?_, fun thread hthread ↦ ?_⟩
    · rw [System.state_setBuffer, hbuffer, if_neg hj]
      exact h.others j hj
    · rw [hbuffer, if_pos rfl] at hthread
      cases hthread
      exact hnone
  by_cases hi : i = 0
  · subst hi
    rw [System.transfer_eq ((hbuffer 0).trans (if_pos rfl))]
    exact ⟨⟨hsaved.unnumbered, rfl, hsaved.others, hsaved.saved⟩, hnone⟩
  · rw [System.transfer_eq_of_none ((hbuffer i).trans ((if_neg hi).trans (h.others i hi).2))]
    exact ⟨⟨hsaved.unnumbered, hsaved.current, hsaved.others, hsaved.saved⟩, hnone⟩

theorem perform [DecidableEq C] (h : Alone s) (hnone : s.thread.CreatesNone)
    (newNode : Option Addr) {command : Command U C} (hcommand : command ≠ .create) :
    Alone (s.perform newNode command) ∧ (s.perform newNode command).thread.CreatesNone := by
  have hpush (branch : List (Command U C)) (hbranch : ∀ c ∈ branch, c ≠ .create) :
      Alone (s.push branch) ∧ (s.push branch).thread.CreatesNone := by
    refine ⟨⟨h.unnumbered, h.current, h.others, h.saved⟩, fun c hc ↦ ?_⟩
    rcases List.mem_append.mp hc with hc | hc
    · exact hbranch c hc
    · exact hnone c hc
  have hfields {t : System U C} (ht : t.context = s.context) (hcurrent : t.current = s.current) :
      Alone t := by
    refine ⟨fun i ↦ ?_, hcurrent.trans h.current, fun i hi ↦ ?_, fun thread hthread ↦ ?_⟩
    · rw [ht]
      exact h.unnumbered i
    · rw [System.state, ht]
      exact h.others i hi
    · rw [ht] at hthread
      exact h.saved thread hthread
  cases command with
  | create => exact absurd rfl hcommand
  | block => exact ⟨h.setState (.inl h.current), hnone⟩
  | finish =>
      have hfinished : Alone (s.setState s.current .finished) := h.setState (.inl h.current)
      exact ⟨⟨hfinished.unnumbered, hfinished.current, hfinished.others, hfinished.saved⟩, hnone⟩
  | activate => exact ⟨h.setState (.inl h.current), hnone⟩
  | invalidate target => exact ⟨h.setState (.inr rfl), hnone⟩
  | setJoiner target => exact ⟨h.setJoiner (h.unnumbered s.current).1, hnone⟩
  | switchTo target => exact h.transfer hnone
  | yield =>
      rw [System.perform]
      split
      · exact h.transfer hnone
      · exact ⟨h, hnone⟩
  | wake =>
      rw [System.perform_wake newNode h.unnumbered]
      split
      · exact ⟨h, hnone⟩
      · exact ⟨h.setState (.inl rfl), hnone⟩
  | switchToJoiner =>
      rw [System.perform_switchToJoiner newNode h.unnumbered]
      exact h.transfer hnone
  | testJoiner =>
      rw [System.perform_testJoiner newNode h.unnumbered]
      exact hpush _ (by simp)
  | signalAgain condition =>
      rw [System.perform]
      split
      · exact hpush _ (by simp [threadCondBroadcast, threadCondSignal, threadMutexLock,
          threadMutexUnlock])
      · exact ⟨h, hnone⟩
  | testFinished target =>
      rw [System.perform]
      split
      · exact ⟨hfields rfl rfl, hnone⟩
      · split
        · exact hpush _ (by simp)
        · exact hpush _ (by simp)
  | insertTail condition => exact ⟨hfields rfl rfl, hnone⟩
  | removeHead condition => exact ⟨hfields rfl rfl, hnone⟩
  | spin m => exact ⟨h, hnone⟩
  | exchange m => exact ⟨h, hnone⟩
  | store m => exact ⟨h, hnone⟩

theorem mutexStep [DecidableEq U] [DecidableEq C] {thread : Thread U C} {locked : Locks U C}
    (h : Alone s) (hnone : s.thread.CreatesNone)
    (hstep : s.thread.mutexStep s.locked = some (thread, locked)) :
    Alone { s with thread := thread, locked := locked } ∧ thread.CreatesNone := by
  refine ⟨⟨h.unnumbered, h.current, h.others, h.saved⟩, ?_⟩
  rcases mutexStep_cases hstep with ⟨m, rest, htodo, -, rfl | rfl⟩ | ⟨m, rest, htodo, -, rfl⟩ |
    ⟨m, rest, htodo, -, -, rfl⟩ | ⟨m, rest, htodo, -, rfl⟩
  · exact hnone
  · exact (hnone.of_cons htodo).2
  · intro c hc
    rcases List.mem_append.mp hc with hc | hc
    · rintro rfl
      simp [threadMutexLock] at hc
    · exact (hnone.of_cons htodo).2 c hc
  · exact (hnone.of_cons htodo).2
  · exact (hnone.of_cons htodo).2

theorem step [DecidableEq U] [DecidableEq C] {allowed : System U C → Action U C → Prop}
    {t : System U C} {a : Action U C} (h : Alone s ∧ s.thread.CreatesNone)
    (ha : a ≠ .call .create) (hstep : Step allowed s a t) : Alone t ∧ t.thread.CreatesNone := by
  obtain ⟨halone, hnone⟩ := h
  cases hstep with
  | @call call =>
      refine ⟨⟨halone.unnumbered, halone.current, halone.others, halone.saved⟩, ?_⟩
      exact createsNone_begin fun hcall ↦ ha (congrArg Action.call hcall)
  | interrupt =>
      refine ⟨⟨halone.unnumbered, halone.current, halone.others, halone.saved⟩, fun c hc ↦ ?_⟩
      rcases List.mem_append.mp hc with hc | hc
      · rintro rfl
        simp [threadYield] at hc
      · exact hnone c hc
  | command _ htodo =>
      refine System.exec_induction (P := fun t ↦ Alone t ∧ t.thread.CreatesNone) htodo
        (fun _ _ hmutex ↦ halone.mutexStep hnone hmutex) fun command rest hcommand _ ↦ ?_
      obtain ⟨hcreate, hrest⟩ := hnone.of_cons hcommand
      have halone' : Alone (s.setTodo rest) :=
        ⟨halone.unnumbered, halone.current, halone.others, halone.saved⟩
      exact halone'.perform hrest _ hcreate

end Alone

theorem alone_threadInit : Alone (threadInit U C) ∧ (threadInit U C).thread.CreatesNone := by
  refine ⟨⟨unnumbered_threadInit, rfl, fun i hi ↦ ⟨if_neg hi, rfl⟩, ?_⟩, ?_⟩
  · rintro thread ⟨⟩
  · rintro command ⟨⟩

variable [DecidableEq U] [DecidableEq C]

/-- The numbers identify the slots while no thread is created, and as long as no slot
but that of the main thread is in use.  Every thread that is created has the number
of the main thread. -/
theorem numbers_identify_slots {allowed : System U C → Action U C → Prop}
    {l : List (Action U C)} {s : System U C} (hrun : Run (Step allowed) (threadInit U C) l s) :
    (.call .create ∉ l → s.Numbered) ∧ (s.Numbered ↔ ∀ i ≠ 0, s.state i = .invalid) ∧
      s.createResult = (s.context 0).number := by
  have hunnumbered : s.Unnumbered :=
    hrun.invariant unnumbered_threadInit fun _ _ _ h hstep ↦ h.step hstep
  refine ⟨fun hcreate ↦ ?_, hunnumbered.numbered_iff, hunnumbered.createResult_eq⟩
  have halone : Alone s ∧ s.thread.CreatesNone := by
    refine hrun.invariant_of_prefix (P := fun _ t ↦ Alone t ∧ t.thread.CreatesNone)
      List.prefix_rfl alone_threadInit fun past t a u hpart _ ht hstep ↦ ?_
    refine Alone.step ht ?_ hstep
    rintro rfl
    exact hcreate (hpart.subset (List.mem_append_right _ (List.mem_singleton_self _)))
  exact hunnumbered.numbered_iff.mpr fun i hi ↦ (halone.1.others i hi).1

/-- The main thread yields and exits while it is alone, and then creates a thread. -/
theorem numbers_identify_slots_created : ∃ (l : List (Action Unit Unit)) (s t : System Unit Unit),
    Run (Step fun _ _ ↦ True) (threadInit Unit Unit) l s ∧ .call .yield ∈ l ∧ .call .exit ∈ l ∧
      s.Numbered ∧
      Run (Step fun _ _ ↦ True) (threadInit Unit Unit) (l ++ [.call .create, .command none]) t ∧
      t.state 1 = .active ∧ ¬ t.Numbered ∧ t.createResult = 0 := by
  have hlock : Run (Step fun _ _ ↦ True) (threadInit Unit Unit) _ _ :=
    run_after .nil (.lock ()) 2 ⟨rfl, rfl, trivial⟩ (fun _ _ ↦ trivial) (by decide)
  have hyield := run_after hlock .yield 1 ⟨rfl, rfl, trivial⟩ (fun _ _ ↦ trivial) (by decide)
  have hexit := run_after hyield .exit 4 ⟨rfl, rfl, trivial⟩ (fun _ _ ↦ trivial) (by decide)
  have hcreate := run_after hexit .create 1 ⟨rfl, rfl, trivial⟩ (fun _ _ ↦ trivial) (by decide)
  rw [List.append_assoc] at hcreate
  obtain ⟨hnumbered, -, -⟩ := numbers_identify_slots hexit
  obtain ⟨-, hslots, hresult⟩ := numbers_identify_slots hcreate
  refine ⟨_, _, _, hexit, by simp, by simp, hnumbered (by simp), hcreate, rfl, fun hcreated ↦ ?_,
    hresult⟩
  exact absurd (hslots.mp hcreated 1 (by decide)) (by decide)

/-- The first thread that is created has the number of the main thread. -/
theorem created_thread_unnumbered : ∃ s : System Unit Unit,
    Run (Step fun _ _ ↦ True) (threadInit Unit Unit) [.call .create, .command none] s ∧
      s.state 1 = .active ∧ (s.context 1).number = 0 ∧ ¬ s.Numbered := by
  have hrun : Run (Step fun _ _ ↦ True) (threadInit Unit Unit) _ _ :=
    run_after .nil .create 1 ⟨rfl, rfl, trivial⟩ (fun _ _ ↦ trivial) (by decide)
  refine ⟨_, hrun, rfl, rfl, fun hnumbered ↦ ?_⟩
  have hindex := hnumbered 1 (by decide)
  exact absurd hindex (by decide)

end OsProjects.Threads
