import OsProjects.Threads.Scheduler

/-!
# Runnable threads

Without preemption the states of the threads at a call determine to whom it
leaves the processor.  A call whose target is active, or that leaves an active
thread, leads to an active thread; the code itself looks at the states only in
`thread_yield`.
-/

namespace OsProjects.Threads

open Library.Runs OsProjects.Lists

variable {U C : Type}

/-- The call does not resume, or return to, a thread that is not active. -/
def System.KeepsRunning (s : System U C) : Call U C → Prop
  | .wait _ _ => ∃ i ≠ 0, i ≠ s.current ∧ s.state i = .active
  | .exit => s.state 0 = .active
  | .join target => ∃ i, slotAt target = some i ∧
      (s.state i = .finished ∨ s.state i = .active ∧ i ≠ s.current)
  | _ => True

/-- With these states of the threads the commands leave the processor to an active
thread. -/
def RunsOn (current : Slot) : (Slot → ThreadState) → List (Command U C) → Prop
  | state, [] => state current = .active
  | state, .block :: rest => RunsOn current (Function.update state current .blocked) rest
  | state, .wake :: rest =>
      RunsOn current state rest ∧ RunsOn current (Function.update state 0 .active) rest
  | state, .signalAgain _ :: rest => rest = [] ∧ state current = .active
  | state, .create :: rest => rest = [] ∧ state current = .active
  | state, .yield :: rest => (∀ command ∈ rest, command.OnMutex) ∧
      (state current = .active ∨ ∃ i ≠ 0, state i = .active)
  | state, .finish :: rest => rest = [.testJoiner] ∧ (current = 0 ∨ state 0 = .active)
  | state, .testJoiner :: rest => rest = [] ∧ (current = 0 ∨ state 0 = .active)
  | state, .activate :: rest => rest = [.switchToJoiner] ∧ (current = 0 ∨ state 0 = .active)
  | state, .switchToJoiner :: rest => rest = [] ∧ state 0 = .active
  | state, .testFinished target :: rest => rest = [] ∧ state current = .active ∧
      ∃ i, slotAt target = some i ∧
        (state i = .finished ∨ state i = .active ∧ i ≠ current)
  | state, .invalidate i :: rest => rest = [] ∧ state i = .finished ∧ state current = .active
  | state, .setJoiner i :: rest => rest = [.block, .switchTo i] ∧ i ≠ current ∧ state i = .active
  | state, .switchTo i :: rest => rest = [] ∧ state i = .active
  | state, _ :: rest => RunsOn current state rest

theorem runsOn_of_onMutex {current : Slot} {state : Slot → ThreadState} {todo : List (Command U C)}
    (hmutex : ∀ command ∈ todo, command.OnMutex) (hactive : state current = .active) :
    RunsOn current state todo := by
  induction todo with
  | nil => exact hactive
  | cons command rest ih =>
      have hrest := ih fun c hc ↦ hmutex c (List.mem_cons_of_mem _ hc)
      cases command with
      | spin m => exact hrest
      | exchange m => exact hrest
      | store m => exact hrest
      | _ => exact (hmutex _ List.mem_cons_self).elim

theorem runsOn_body {s : System U C} {call : Call U C} (hactive : s.state s.current = .active)
    (hcall : s.KeepsRunning call) : RunsOn s.current s.state call.body := by
  cases call with
  | lock m => exact hactive
  | unlock m => exact hactive
  | wait c m =>
      obtain ⟨i, hi, hne, hother⟩ := hcall
      refine ⟨?_, .inr ⟨i, hi, ?_⟩⟩
      · simp [threadMutexLock, Command.OnMutex]
      · rwa [Function.update_of_ne hne]
  | signal c =>
      refine ⟨hactive, ?_⟩
      by_cases hmain : s.current = 0
      · rw [hmain]
        exact Function.update_self ..
      · exact (Function.update_of_ne hmain ..).trans hactive
  | broadcast c =>
      refine ⟨⟨rfl, hactive⟩, rfl, ?_⟩
      by_cases hmain : s.current = 0
      · rw [hmain]
        exact Function.update_self ..
      · exact (Function.update_of_ne hmain ..).trans hactive
  | create => exact ⟨rfl, hactive⟩
  | yield => exact ⟨nofun, .inl hactive⟩
  | exit => exact ⟨rfl, .inr hcall⟩
  | join target => exact ⟨rfl, hactive, hcall⟩

/-! ## The invariant -/

/-- What holds whatever the current thread is going to do. -/
structure Standing (s : System U C) : Prop where
  unnumbered : s.Unnumbered
  suspended : ∀ i ≠ s.current, i = 0 ∨ s.state i ≠ .invalid →
    ∃ thread, (s.context i).buffer = some thread ∧ ∀ command ∈ thread.todo, command.OnMutex
  transfers : ∀ r ∈ s.transfers, r.state = .active
  undefined : s.undefined = false

structure Runnable (s : System U C) : Prop extends Standing s where
  runsOn : RunsOn s.current s.state s.thread.todo

namespace Standing

variable {s : System U C} {i : Slot}

theorem setState {x : ThreadState} (h : Standing s)
    (hi : i = s.current ∨ i = 0 ∨ s.state i ≠ .invalid) : Standing (s.setState i x) where
  unnumbered := h.unnumbered.setState
  suspended j hj hused := by
    rw [System.buffer_setState]
    apply h.suspended j hj
    by_cases hji : j = i
    · subst hji
      exact hi.resolve_left hj
    · rwa [System.state_setState, if_neg hji] at hused
  transfers := h.transfers
  undefined := h.undefined

theorem runnable_setState {x : ThreadState} (h : Standing s)
    (hi : i = s.current ∨ i = 0 ∨ s.state i ≠ .invalid)
    (hruns : RunsOn s.current (Function.update s.state i x) s.thread.todo) :
    Runnable (s.setState i x) := by
  refine ⟨h.setState hi, ?_⟩
  rw [System.state_setState_eq]
  exact hruns

theorem push {commands : List (Command U C)} (h : Standing s)
    (hruns : RunsOn s.current s.state (commands ++ s.thread.todo)) : Runnable (s.push commands) :=
  ⟨⟨h.unnumbered, h.suspended, h.transfers, h.undefined⟩, hruns⟩

theorem transfer (h : Standing s) (hmutex : ∀ command ∈ s.thread.todo, command.OnMutex)
    (hactive : s.state i = .active) : Runnable (s.transfer i) := by
  have hused : s.state i ≠ .invalid := by
    rw [hactive]
    exact ThreadState.noConfusion
  obtain ⟨thread, hbuffer, htodo⟩ : ∃ thread, ((s.setBuffer s.current s.thread).context i).buffer =
      some thread ∧ ∀ command ∈ thread.todo, command.OnMutex := by
    rw [System.buffer_setBuffer]
    split
    · exact ⟨_, rfl, hmutex⟩
    · rename_i hne
      exact h.suspended i hne (.inr hused)
  rw [System.transfer_eq hbuffer]
  constructor
  · constructor
    · exact h.unnumbered.setBuffer
    · intro j _ hj
      have hj' : j = 0 ∨ s.state j ≠ .invalid :=
        hj.imp_right fun hne ↦ (System.state_setBuffer (s := s) _).symm.trans_ne hne
      by_cases hjc : j = s.current
      · exact ⟨_, (System.buffer_setBuffer _).trans (if_pos hjc), hmutex⟩
      · obtain ⟨f, hf, hfm⟩ := h.suspended j hjc hj'
        exact ⟨f, (System.buffer_setBuffer _).trans ((if_neg hjc).trans hf), hfm⟩
    · rintro r hr
      rcases List.mem_cons.mp hr with rfl | hr
      · exact hactive
      · exact h.transfers r hr
    · exact h.undefined
  · exact runsOn_of_onMutex htodo ((System.state_setBuffer _).trans hactive)

theorem create [DecidableEq C] (h : Standing s) (newNode : Option Addr)
    (hrest : s.thread.todo = []) (hactive : s.state s.current = .active) :
    Runnable (s.perform newNode .create) := by
  cases hfree : s.freeSlot with
  | none =>
      rw [System.perform, hfree]
      refine ⟨h, ?_⟩
      rwa [hrest]
  | some i =>
      rw [System.perform_create newNode hfree]
      have hstate (j : Slot) : ((s.setState i .active).setBuffer i .idle).state j =
          if j = i then .active else s.state j :=
        (System.state_setBuffer _).trans (System.state_setState _)
      constructor
      · constructor
        · exact h.unnumbered.setState.setBuffer
        · intro j hj hused
          by_cases hji : j = i
          · refine ⟨.idle, (System.buffer_setBuffer _).trans (if_pos hji), ?_⟩
            rintro _ ⟨⟩
          · obtain ⟨f, hf, hmutex⟩ := h.suspended j hj
              (hused.imp_right ((hstate j).trans (if_neg hji)).symm.trans_ne)
            refine ⟨f, ?_, hmutex⟩
            exact (System.buffer_setBuffer _).trans ((if_neg hji).trans
              ((System.buffer_setState _).trans hf))
        · exact h.transfers
        · exact h.undefined
      · have htodo : (s.perform newNode .create).thread.todo = [] := by
          rwa [System.perform_create newNode hfree]
        rw [System.perform_create newNode hfree] at htodo
        rw [htodo]
        refine (hstate s.current).trans ?_
        rw [hactive, ite_self]

/-- If nobody else is active the caller goes on. -/
theorem yield [DecidableEq C] (h : Standing s) (newNode : Option Addr)
    (hmutex : ∀ command ∈ s.thread.todo, command.OnMutex)
    (hrunnable : s.state s.current = .active ∨ ∃ i ≠ 0, s.state i = .active) :
    Runnable (s.perform newNode .yield) := by
  have hnumber := (h.unnumbered s.current).1
  cases htarget : s.yieldTarget with
  | none =>
      rw [System.perform, htarget]
      refine ⟨h, runsOn_of_onMutex hmutex (hrunnable.resolve_right ?_)⟩
      rintro ⟨i, hi, hactive⟩
      exact System.state_of_yieldTarget_eq_none hnumber htarget hi hactive
  | some i =>
      rw [System.perform_yield newNode htarget]
      exact h.transfer hmutex (System.state_of_yieldTarget_eq_some hnumber htarget).2

theorem finish [DecidableEq C] (h : Standing s) (newNode : Option Addr)
    (hrest : s.thread.todo = [.testJoiner]) (hmain : s.current = 0 ∨ s.state 0 = .active) :
    Runnable (s.perform newNode .finish) := by
  have hmain' : s.current = 0 ∨ Function.update s.state s.current .finished 0 = .active := by
    by_cases hzero : s.current = 0
    · exact .inl hzero
    · exact .inr ((Function.update_of_ne (Ne.symm hzero) ..).trans (hmain.resolve_left hzero))
  have hfinished : Runnable (s.setState s.current .finished) := by
    apply h.runnable_setState (.inl rfl)
    rw [hrest]
    exact ⟨rfl, hmain'⟩
  exact ⟨⟨hfinished.unnumbered, hfinished.suspended, h.transfers, h.undefined⟩, hfinished.runsOn⟩

theorem setJoiner [DecidableEq C] (h : Standing s) (newNode : Option Addr)
    (hrest : s.thread.todo = [.block, .switchTo i]) (hne : i ≠ s.current)
    (hactive : s.state i = .active) : Runnable (s.perform newNode (.setJoiner i)) := by
  have hactive' : Function.update s.state s.current .blocked i = .active :=
    (Function.update_of_ne hne ..).trans hactive
  have hstanding : Standing (s.perform newNode (.setJoiner i)) := by
    refine ⟨h.unnumbered.perform newNode _, fun j hj hused ↦ ?_, h.transfers, h.undefined⟩
    rw [System.perform, System.buffer_setJoiner]
    rw [System.perform, System.state_setJoiner] at hused
    exact h.suspended j hj hused
  refine ⟨hstanding, ?_⟩
  rw [System.perform, System.state_setJoiner]
  refine hrest ▸ ?_
  exact ⟨rfl, hactive'⟩

theorem perform [DecidableEq C] {command : Command U C} (h : Standing s) (newNode : Option Addr)
    (hruns : RunsOn s.current s.state (command :: s.thread.todo)) (hother : ¬ command.OnMutex) :
    Runnable (s.perform newNode command) := by
  cases command with
  | spin m => exact absurd trivial hother
  | exchange m => exact absurd trivial hother
  | store m => exact absurd trivial hother
  | insertTail c => exact ⟨⟨h.unnumbered, h.suspended, h.transfers, h.undefined⟩, hruns⟩
  | removeHead c => exact ⟨⟨h.unnumbered, h.suspended, h.transfers, h.undefined⟩, hruns⟩
  | block => exact h.runnable_setState (.inl rfl) hruns
  | wake =>
      rw [System.perform_wake newNode h.unnumbered]
      split
      · exact ⟨h, hruns.1⟩
      · exact h.runnable_setState (.inr (.inl rfl)) hruns.2
  | signalAgain c =>
      obtain ⟨hrest, hactive⟩ := hruns
      rw [System.perform]
      split
      · apply h.push
        rw [hrest, List.append_nil]
        have hcall : s.KeepsRunning (.broadcast c) := trivial
        exact runsOn_body hactive hcall
      · refine ⟨h, ?_⟩
        rwa [hrest]
  | create => exact h.create newNode hruns.1 hruns.2
  | yield => exact h.yield newNode hruns.1 hruns.2
  | finish => exact h.finish newNode hruns.1 hruns.2
  | testJoiner =>
      obtain ⟨hrest, hmain⟩ := hruns
      rw [System.perform_testJoiner newNode h.unnumbered]
      apply h.push
      rw [hrest]
      exact ⟨rfl, hmain⟩
  | activate =>
      obtain ⟨hrest, hmain⟩ := hruns
      apply h.runnable_setState (.inl rfl)
      rw [hrest]
      refine ⟨rfl, ?_⟩
      by_cases hzero : s.current = 0
      · rw [hzero]
        exact Function.update_self ..
      · exact (Function.update_of_ne (Ne.symm hzero) ..).trans (hmain.resolve_left hzero)
  | switchToJoiner =>
      obtain ⟨hrest, hmain⟩ := hruns
      rw [System.perform_switchToJoiner newNode h.unnumbered]
      apply h.transfer _ hmain
      rw [hrest]
      rintro _ ⟨⟩
  | testFinished target =>
      obtain ⟨hrest, hactive, i, htarget, hi⟩ := hruns
      rw [System.perform, htarget]
      dsimp only
      split
      · apply h.push
        rw [hrest]
        rename_i hfinished
        exact ⟨rfl, hfinished, hactive⟩
      · rename_i hunfinished
        obtain ⟨hi, hne⟩ := hi.resolve_left hunfinished
        apply h.push
        rw [hrest]
        exact ⟨rfl, hne, hi⟩
  | invalidate i =>
      obtain ⟨hrest, hfinished, hactive⟩ := hruns
      have hne : s.current ≠ i := by
        rintro rfl
        rw [hfinished] at hactive
        cases hactive
      apply h.runnable_setState
      · right; right
        rw [hfinished]
        exact ThreadState.noConfusion
      · rw [hrest]
        exact (Function.update_of_ne hne ..).trans hactive
  | setJoiner i => exact h.setJoiner newNode hruns.1 hruns.2.1 hruns.2.2
  | switchTo i =>
      obtain ⟨hrest, hactive⟩ := hruns
      refine h.transfer ?_ hactive
      rw [hrest]
      rintro _ ⟨⟩

end Standing

/-! ## Runs -/

variable [DecidableEq U] [DecidableEq C] {s t : System U C}

theorem Runnable.mutexStep (h : Runnable s) {thread : Thread U C} {locked : Locks U C}
    (hstep : s.thread.mutexStep s.locked = some (thread, locked)) :
    Runnable { s with thread := thread, locked := locked } := by
  have hruns := h.runsOn
  refine ⟨⟨h.unnumbered, h.suspended, h.transfers, h.undefined⟩, ?_⟩
  rcases mutexStep_cases hstep with ⟨m, rest, htodo, rfl, rfl | rfl⟩ |
    ⟨m, rest, htodo, rfl, rfl⟩ | ⟨m, rest, htodo, -, rfl, rfl⟩ | ⟨m, rest, htodo, rfl, rfl⟩
  · exact hruns
  all_goals
    rw [htodo] at hruns
    exact hruns

theorem Runnable.step {a : Action U C} (h : Runnable s)
    (hstep : Step (fun s a ↦ a.Only s.KeepsRunning) s a t) : Runnable t := by
  have hruns := h.runsOn
  cases hstep with
  | interrupt _ hinterrupt => cases hinterrupt
  | call _ htodo hcall =>
      rw [htodo] at hruns
      refine ⟨⟨h.unnumbered, h.suspended, h.transfers, h.undefined⟩, ?_⟩
      exact runsOn_body hruns hcall
  | @command newNode _ htodo =>
      apply System.exec_induction htodo
      · intro thread locked
        exact h.mutexStep
      · intro command rest hcons hother
        rw [hcons] at hruns
        have hrest : Standing (s.setTodo rest) :=
          ⟨h.unnumbered, h.suspended, h.transfers, h.undefined⟩
        exact hrest.perform newNode hruns hother

/-- The scheduler runs active threads only, as long as no call waits with nobody to go on,
exits to a main thread that is not active, or joins a thread that is not. -/
theorem runs_active_only {l : List (Action U C)}
    (hrun : Run (Step fun s a ↦ a.Only s.KeepsRunning) (threadInit U C) l s) :
    (s.thread.todo = [] → s.state s.current = .active) ∧
      ∀ r ∈ s.transfers, r.state = .active := by
  have hstart : Runnable (threadInit U C) := by
    refine ⟨⟨fun _ ↦ ⟨rfl, rfl⟩, fun i hi hused ↦ ?_, nofun, rfl⟩, rfl⟩
    have hinvalid : (threadInit U C).state i = .invalid := if_neg hi
    exact absurd hinvalid (hused.resolve_left hi)
  have hrunnable := hrun.invariant hstart fun _ _ _ h hstep ↦ h.step hstep
  refine ⟨fun htodo ↦ ?_, hrunnable.transfers⟩
  have hruns := hrunnable.runsOn
  rwa [htodo] at hruns

/-- One of two threads waits, the other signals and exits, and the main thread joins it. -/
theorem runs_active_only_waiting : ∃ (l : List (Action Unit Unit)) (s : System Unit Unit),
    Run (Step fun s a ↦ a.Only s.KeepsRunning) (threadInit Unit Unit) l s ∧
      s.transfers.map (fun r ↦ (r.source, r.target)) = [(0, 2), (2, 0), (1, 2), (0, 1)] ∧
      s.state s.current = .active ∧ ∀ r ∈ s.transfers, r.state = .active := by
  have hfirst : Run (Step fun s a ↦ a.Only s.KeepsRunning) (threadInit Unit Unit) _ _ :=
    run_after .nil .create 1 ⟨rfl, rfl, trivial⟩ (fun _ _ ↦ trivial) (by decide)
  have hsecond := run_after hfirst .create 1 ⟨rfl, rfl, trivial⟩ (fun _ _ ↦ trivial) (by decide)
  have hyield := run_after hsecond .yield 1 ⟨rfl, rfl, trivial⟩ (fun _ _ ↦ trivial) (by decide)
  have hlock := run_after hyield (.lock ()) 2 ⟨rfl, rfl, trivial⟩ (fun _ _ ↦ trivial) (by decide)
  have hwait := run_after hlock (.wait () ()) 2 ⟨rfl, rfl, 2, by decide, by decide, rfl⟩
    (fun _ _ ↦ trivial) (by decide)
  have hinsert := hwait.snoc (@Step.command _ _ _ _ _ _ (some 1) rfl nofun
    (fun a _ ↦ Set.notMem_empty a) trivial)
  have hswitch := run_execs hinsert 4 (fun _ _ ↦ trivial) (by decide)
  have hsignal := run_after hswitch (.signal ()) 5 ⟨rfl, rfl, trivial⟩ (fun _ _ ↦ trivial)
    (by decide)
  have hexit := run_after hsignal .exit 4 ⟨rfl, rfl, rfl⟩ (fun _ _ ↦ trivial) (by decide)
  have hjoin := run_after hexit (.join 2) 4 ⟨rfl, rfl, 2, rfl, .inr ⟨rfl, by decide⟩⟩
    (fun _ _ ↦ trivial) (by decide)
  obtain ⟨hactive, htransfers⟩ := runs_active_only hjoin
  exact ⟨_, _, hjoin, rfl, hactive rfl, htransfers⟩

/-- The main thread locks a mutex and waits, and comes back although nobody has woken it. -/
theorem waits_alone : ∃ (l : List (Action Unit Unit)) (s : System Unit Unit),
    Run (Step fun _ a ↦ a.Only fun _ ↦ True) (threadInit Unit Unit) l s ∧
      s.thread.todo = [] ∧ s.state s.current = .blocked := by
  have hlock : Run (Step fun _ a ↦ a.Only fun _ ↦ True) (threadInit Unit Unit) _ _ :=
    run_after .nil (.lock ()) 2 ⟨rfl, rfl, trivial⟩ (fun _ _ ↦ trivial) (by decide)
  have hwait := run_after hlock (.wait () ()) 9 ⟨rfl, rfl, trivial⟩ (fun _ _ ↦ trivial) (by decide)
  exact ⟨_, _, hwait, rfl, rfl⟩

end OsProjects.Threads
