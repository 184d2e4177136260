import OsProjects.Threads.Exclusion
import OsProjects.Threads.Preemption
import OsProjects.Threads.Timer

/-!
# Spinning on a mutex

Since `thread_yield` begins every search at slot 1, the first active thread keeps the
processor, and if it spins on a mutex of a thread that has lost the processor, nobody else
runs any more.  As long as no thread gives up the processor while it holds a mutex, a
thread can spin only on what it holds itself.
-/

namespace OsProjects.Threads

open Library.Runs OsProjects.Lists

variable {U C : Type}

/-! ## What is asked of the locks -/

section Spinning

variable [DecidableEq U] [DecidableEq C]

/-- In some continuation the thread in the slot gets the processor. -/
def System.Schedulable (s : System U C) (i : Slot) : Prop :=
  ∃ l t, Run (Step fun _ _ ↦ True) s l t ∧ t.current = i

/-- A mutex on which the current thread spins has a holder, and its holders can be scheduled. -/
def System.SpinsSafely (s : System U C) : Prop :=
  ∀ m rest, s.thread.todo = .spin m :: rest → s.locked m = true →
    (∃ i, m ∈ s.held i) ∧ ∀ i, m ∈ s.held i → s.Schedulable i

end Spinning

/-- `thread_yield` goes on with its caller. -/
def System.Stays (s : System U C) : Prop := ∀ i, s.yieldTarget = some i → i = s.current

/-- Where the current thread may lose the processor it holds no mutex, and it waits with no
other one than it passes. -/
def System.LeavesUnlocked (s : System U C) : Action U C → Prop
  | .interrupt => s.thread.held = ∅ ∨ s.Stays
  | .call .yield => s.thread.held = ∅ ∨ s.Stays
  | .call .exit => s.thread.held = ∅
  | .call (.join _) => s.thread.held = ∅
  | .call (.wait _ mutex) => s.thread.held ⊆ {.user mutex}
  | _ => True

/-! ## Staying -/

namespace System

variable {s t : System U C}

theorem yieldTarget_congr (hnumber : (t.context t.current).number = (s.context s.current).number)
    (hstate : t.state = s.state) : t.yieldTarget = s.yieldTarget := by
  rw [yieldTarget, yieldTarget, hnumber, hstate]

theorem yieldTarget_transfer {i : Slot} (h : s.Unnumbered) :
    (s.transfer i).yieldTarget = s.yieldTarget := by
  have hnumbers : (s.transfer i).Unnumbered := h.switch
  refine yieldTarget_congr ((hnumbers _).1.trans (h _).1.symm) ?_
  rw [transfer, switch]
  split <;> exact funext fun _ ↦ state_setBuffer _

theorem Stays.congr (h : s.Stays) (htarget : t.yieldTarget = s.yieldTarget)
    (hcurrent : t.current = s.current) : t.Stays := by
  intro i hi
  rw [hcurrent]
  exact h i (htarget.symm.trans hi)

/-- A thread that goes on after `thread_yield` may have filled its buffer. -/
theorem perform_yield_of_stays [DecidableEq C] (h : s.Stays) (newNode : Option Addr) :
    s.perform newNode .yield = s ∨ s.perform newNode .yield =
      { s.setBuffer s.current s.thread with
        transfers := ⟨s.current, s.current, s.state s.current⟩ :: s.transfers } := by
  cases hfound : s.yieldTarget with
  | none => exact .inl (by rw [perform, hfound])
  | some i =>
      obtain rfl := h i hfound
      right
      rw [perform_yield newNode hfound]
      exact transfer_eq ((buffer_setBuffer _).trans (if_pos rfl))

theorem stays_perform_yield [DecidableEq C] (h : s.Stays) (newNode : Option Addr) :
    (s.perform newNode .yield).Stays := by
  rcases perform_yield_of_stays h newNode with heq | heq
  · rwa [heq]
  · rw [heq]
    refine h.congr (yieldTarget_congr (number_setBuffer _) ?_) rfl
    funext i
    exact state_setBuffer _

end System

/-! ## A thread that spins for ever -/

theorem System.held_begin {s : System U C} {i : Slot} (call : Call U C) (h : i ≠ s.current) :
    (s.begin call).held i = s.held i := by
  have hbegun : i ≠ (s.begin call).current := h
  rw [System.held, System.threadOf, if_neg hbegun, System.held, System.threadOf, if_neg h]
  rfl

theorem System.held_transfer {s : System U C} {i : Slot} : (s.transfer i).held = s.held := by
  funext j
  rw [System.held, System.threadOf_transfer, System.held]

/-- Every `thread_yield` goes on with a thread that spins on `m`. -/
structure Stuck (m : Mutex U C) (s : System U C) : Prop where
  stays : s.Stays
  locked : s.locked m = true
  spins : ∃ n rest, s.thread.todo = List.replicate n .yield ++ .spin m :: rest

section Stuck

variable [DecidableEq U] [DecidableEq C] {s t : System U C} {m : Mutex U C} {a : Action U C}
  {allowed : System U C → Action U C → Prop} {l : List (Action U C)}

theorem Stuck.step (h : Stuck m s) (hstep : Step allowed s a t) :
    Stuck m t ∧ t.current = s.current := by
  obtain ⟨n, rest, htodo⟩ := h.spins
  cases hstep with
  | call _ hidle =>
      rw [hidle] at htodo
      cases n <;> cases htodo
  | interrupt =>
      refine ⟨⟨h.stays, h.locked, n + 1, rest, ?_⟩, rfl⟩
      rw [List.replicate_succ, List.cons_append, ← htodo]
      rfl
  | @command newNode =>
      cases n with
      | zero =>
          have hspin : s.thread.mutexStep s.locked = some (s.thread, s.locked) := by
            have hhead : s.thread.todo = .spin m :: rest := htodo
            rw [Thread.mutexStep, hhead]
            dsimp only
            rw [if_pos h.locked]
          have hexec : s.exec newNode = s := by rw [System.exec, hspin]
          rw [hexec]
          exact ⟨h, rfl⟩
      | succ n =>
          have hyield : s.thread.todo = .yield :: (List.replicate n .yield ++ .spin m :: rest) := htodo
          rw [System.exec_eq_perform hyield id]
          have hset : (s.setTodo (List.replicate n .yield ++ .spin m :: rest)).Stays := h.stays
          have hstays := System.stays_perform_yield hset newNode
          rcases System.perform_yield_of_stays hset newNode with heq | heq
          · rw [heq] at hstays ⊢
            exact ⟨⟨hstays, h.locked, n, rest, rfl⟩, rfl⟩
          · rw [heq] at hstays ⊢
            exact ⟨⟨hstays, h.locked, n, rest, rfl⟩, rfl⟩

theorem Stuck.run (h : Stuck m s) (hrun : Run (Step allowed) s l t) :
    Stuck m t ∧ t.current = s.current := by
  refine hrun.invariant (P := fun t ↦ Stuck m t ∧ t.current = s.current) ⟨h, rfl⟩ ?_
  intro t a u ht hstep
  obtain ⟨hstuck, hcurrent⟩ := ht.1.step hstep
  exact ⟨hstuck, hcurrent.trans ht.2⟩

/-- Nobody else is ever scheduled. -/
theorem Stuck.not_spinsSafely (h : Stuck m s) {rest : List (Command U C)}
    (htodo : s.thread.todo = .spin m :: rest) {i : Slot} (hi : i ≠ s.current) (hheld : m ∈ s.held i) :
    ¬ s.SpinsSafely := by
  intro hsafe
  obtain ⟨l, t, hrun, hcurrent⟩ := (hsafe m rest htodo h.locked).2 i hheld
  exact hi (hcurrent.symm.trans (h.run hrun).2)

end Stuck

/-! ## What a thread holds where it gives up the processor -/

/-- A thread that holds `held` and executes the commands holds nothing where it gives up the
processor. -/
def Unlocks : Set (Mutex U C) → List (Command U C) → Prop
  | _, [] => True
  | held, .exchange m :: rest => Unlocks (insert m held) rest
  | held, .store m :: rest => Unlocks (held \ {m}) rest
  | held, .yield :: rest => held = ∅ ∧ Unlocks held rest
  | held, .switchTo _ :: rest => held = ∅ ∧ Unlocks held rest
  | held, .switchToJoiner :: rest => held = ∅ ∧ Unlocks held rest
  | held, .testJoiner :: rest => held = ∅ ∧ Unlocks held rest
  | held, .testFinished _ :: rest => held = ∅ ∧ Unlocks held rest
  | _, .signalAgain _ :: rest => rest = []
  | held, _ :: rest => Unlocks held rest

/-- Before the commands there may be a `thread_yield` that goes on with its caller. -/
def UnlocksAfter (stays : Prop) (held : Set (Mutex U C)) : List (Command U C) → Prop
  | .yield :: rest => (held = ∅ ∨ stays) ∧ UnlocksAfter stays held rest
  | todo => Unlocks held todo

section Commands

variable {stays stays' : Prop} {held : Set (Mutex U C)} {todo rest : List (Command U C)}

theorem Unlocks.after (h : Unlocks held todo) : UnlocksAfter stays held todo := by
  induction todo with
  | nil => exact trivial
  | cons command rest ih =>
      cases command with
      | yield => exact ⟨.inl h.1, ih h.2⟩
      | _ => exact h

theorem UnlocksAfter.unlocks (h : UnlocksAfter stays ∅ todo) : Unlocks (∅ : Set (Mutex U C)) todo := by
  induction todo with
  | nil => exact trivial
  | cons command rest ih =>
      cases command with
      | yield => exact ⟨rfl, ih h.2⟩
      | _ => exact h

theorem unlocks_threadCondBroadcast (held : Set (Mutex U C)) (condition : C) :
    Unlocks held (threadCondBroadcast condition) := rfl

theorem unlocksAfter_body {s : System U C} {call : Call U C} (h : s.LeavesUnlocked (.call call)) :
    UnlocksAfter s.Stays s.thread.held call.body := by
  cases call with
  | wait condition mutex =>
      have hreleased :
          (insert (.internal condition) s.thread.held \ {.user mutex}) \ {.internal condition} = ∅ := by
        refine Set.eq_empty_of_forall_notMem ?_
        rintro m ⟨⟨hm | hm, huser⟩, hinternal⟩
        · exact hinternal hm
        · exact huser (h hm)
      exact ⟨hreleased, trivial⟩
  | yield => exact ⟨h, trivial⟩
  | exit => exact ⟨h, trivial⟩
  | join target => exact ⟨h, trivial⟩
  | broadcast condition => exact unlocks_threadCondBroadcast s.thread.held condition
  | _ => exact trivial

end Commands

/-! ## The invariant -/

/-- Only the current thread holds mutexes, and those are the locked ones. -/
structure Unladen (s : System U C) : Prop where
  unnumbered : s.Unnumbered
  suspended : ∀ i ≠ s.current, ∀ thread, (s.context i).buffer = some thread →
    thread.held = ∅ ∧ Unlocks ∅ thread.todo
  locked_iff : ∀ m, s.locked m = true ↔ m ∈ s.thread.held

namespace Unladen

variable {s t : System U C} {i : Slot}

/-- Threads keep their buffers, unless a new one is created. -/
theorem congr (h : Unladen s) (hunnumbered : t.Unnumbered) (hcurrent : t.current = s.current)
    (hlocked : t.locked = s.locked) (hheld : t.thread.held = s.thread.held)
    (hbuffer : ∀ i, (t.context i).buffer = (s.context i).buffer ∨
      (t.context i).buffer = some .idle) : Unladen t := by
  refine ⟨hunnumbered, fun i hi thread hthread ↦ ?_, fun m ↦ ?_⟩
  · rw [hcurrent] at hi
    rcases hbuffer i with hsame | hidle
    · exact h.suspended i hi thread (hsame.symm.trans hthread)
    · rw [hidle] at hthread
      cases hthread
      exact ⟨rfl, trivial⟩
  · rw [hlocked, hheld]
    exact h.locked_iff m

theorem transfer (h : Unladen s) (hheld : s.thread.held = ∅) (hrest : Unlocks ∅ s.thread.todo) :
    Unladen (s.transfer i) ∧ Unlocks (s.transfer i).thread.held (s.transfer i).thread.todo := by
  have hsaved (j : Slot) (thread : Thread U C)
      (hthread : ((s.setBuffer s.current s.thread).context j).buffer = some thread) :
      thread.held = ∅ ∧ Unlocks ∅ thread.todo := by
    rw [System.buffer_setBuffer] at hthread
    split at hthread
    · cases hthread
      exact ⟨hheld, hrest⟩
    · exact h.suspended j ‹_› thread hthread
  have hlocked := h.locked_iff
  rw [hheld] at hlocked
  cases htarget : ((s.setBuffer s.current s.thread).context i).buffer with
  | none =>
      rw [System.transfer_eq_of_none htarget]
      refine ⟨⟨h.unnumbered.setBuffer, fun j _ ↦ hsaved j, h.locked_iff⟩, ?_⟩
      change Unlocks s.thread.held s.thread.todo
      rwa [hheld]
  | some thread =>
      obtain ⟨hempty, htodo⟩ := hsaved i thread htarget
      rw [System.transfer_eq htarget]
      refine ⟨⟨h.unnumbered.setBuffer, fun j _ ↦ hsaved j, ?_⟩, ?_⟩
      · change ∀ m, s.locked m = true ↔ m ∈ thread.held
        rwa [hempty]
      · change Unlocks thread.held thread.todo
        rwa [hempty]

/-- A command other than `thread_yield` that is not about a mutex. -/
theorem perform [DecidableEq C] {command : Command U C} (h : Unladen s) (newNode : Option Addr)
    (hcurrent : Unlocks s.thread.held (command :: s.thread.todo)) (hother : ¬ command.OnMutex)
    (hyield : command ≠ .yield) : Unladen (s.perform newNode command) ∧
      Unlocks (s.perform newNode command).thread.held (s.perform newNode command).thread.todo := by
  have hunnumbered := h.unnumbered.perform newNode command
  cases command with
  | spin m => exact absurd trivial hother
  | exchange m => exact absurd trivial hother
  | store m => exact absurd trivial hother
  | yield => exact absurd rfl hyield
  | insertTail c => exact ⟨h.congr hunnumbered rfl rfl rfl fun _ ↦ .inl rfl, hcurrent⟩
  | removeHead c => exact ⟨h.congr hunnumbered rfl rfl rfl fun _ ↦ .inl rfl, hcurrent⟩
  | block =>
      exact ⟨h.congr hunnumbered rfl rfl rfl fun _ ↦ .inl (System.buffer_setState _), hcurrent⟩
  | activate =>
      exact ⟨h.congr hunnumbered rfl rfl rfl fun _ ↦ .inl (System.buffer_setState _), hcurrent⟩
  | invalidate i =>
      exact ⟨h.congr hunnumbered rfl rfl rfl fun _ ↦ .inl (System.buffer_setState _), hcurrent⟩
  | finish =>
      exact ⟨h.congr hunnumbered rfl rfl rfl fun _ ↦ .inl (System.buffer_setState _), hcurrent⟩
  | setJoiner i =>
      exact ⟨h.congr hunnumbered rfl rfl rfl fun _ ↦ .inl (System.buffer_setJoiner _), hcurrent⟩
  | wake =>
      rw [System.perform_wake newNode h.unnumbered]
      split
      · exact ⟨h, hcurrent⟩
      · exact ⟨h.congr h.unnumbered.setState rfl rfl rfl fun _ ↦ .inl (System.buffer_setState _),
          hcurrent⟩
  | create =>
      cases hfree : s.freeSlot with
      | none =>
          rw [System.perform, hfree]
          exact ⟨h, hcurrent⟩
      | some i =>
          rw [System.perform_create newNode hfree] at hunnumbered ⊢
          refine ⟨h.congr hunnumbered rfl rfl rfl fun j ↦ ?_, hcurrent⟩
          change (((s.setState i .active).setBuffer i .idle).context j).buffer = _ ∨
            (((s.setState i .active).setBuffer i .idle).context j).buffer = _
          rw [System.buffer_setBuffer, System.buffer_setState]
          split
          · exact .inr rfl
          · exact .inl rfl
  | signalAgain c =>
      have hrest : s.thread.todo = [] := hcurrent
      rw [System.perform]
      split
      · refine ⟨h.congr h.unnumbered rfl rfl rfl fun _ ↦ .inl rfl, ?_⟩
        change Unlocks s.thread.held (threadCondBroadcast c ++ s.thread.todo)
        rw [hrest, List.append_nil]
        exact unlocks_threadCondBroadcast s.thread.held c
      · refine ⟨h, ?_⟩
        rw [hrest]
        exact trivial
  | testJoiner =>
      rw [System.perform_testJoiner newNode h.unnumbered]
      exact ⟨h.congr h.unnumbered rfl rfl rfl fun _ ↦ .inl rfl, hcurrent⟩
  | testFinished target =>
      rw [System.perform]
      split
      · exact ⟨h.congr h.unnumbered rfl rfl rfl fun _ ↦ .inl rfl, hcurrent.2⟩
      · split
        · exact ⟨h.congr h.unnumbered rfl rfl rfl fun _ ↦ .inl rfl, hcurrent.2⟩
        · exact ⟨h.congr h.unnumbered rfl rfl rfl fun _ ↦ .inl rfl, hcurrent⟩
  | switchTo i =>
      obtain ⟨hheld, hrest⟩ := hcurrent
      rw [hheld] at hrest
      exact h.transfer hheld hrest
  | switchToJoiner =>
      obtain ⟨hheld, hrest⟩ := hcurrent
      rw [hheld] at hrest
      rw [System.perform_switchToJoiner newNode h.unnumbered]
      exact h.transfer hheld hrest

/-- A `thread_yield`, which leaves the current thread only if that holds nothing. -/
theorem yield [DecidableEq C] (h : Unladen s) (newNode : Option Addr)
    (hcurrent : UnlocksAfter s.Stays s.thread.held (.yield :: s.thread.todo)) :
    Unladen (s.perform newNode .yield) ∧ UnlocksAfter (s.perform newNode .yield).Stays
      (s.perform newNode .yield).thread.held (s.perform newNode .yield).thread.todo := by
  obtain ⟨hheld | hstays, hrest⟩ := hcurrent
  · rw [hheld] at hrest
    cases hfound : s.yieldTarget with
    | none =>
        rw [System.perform, hfound]
        refine ⟨h, ?_⟩
        rw [hheld]
        exact hrest.unlocks.after
    | some i =>
        rw [System.perform_yield newNode hfound]
        obtain ⟨hunladen, hunlocks⟩ := h.transfer (i := i) hheld hrest.unlocks
        exact ⟨hunladen, hunlocks.after⟩
  · have hstill := System.stays_perform_yield hstays newNode
    rw [eq_true hstill]
    rw [eq_true hstays] at hrest
    have hunnumbered := h.unnumbered.perform newNode .yield
    rcases System.perform_yield_of_stays hstays newNode with heq | heq
    · rw [heq]
      exact ⟨h, hrest⟩
    · rw [heq] at hunnumbered ⊢
      refine ⟨⟨hunnumbered, fun j hj thread hthread ↦ ?_, h.locked_iff⟩, hrest⟩
      have hbuffer := (System.buffer_setBuffer _).symm.trans hthread
      have hne : j ≠ s.current := hj
      rw [if_neg hne] at hbuffer
      exact h.suspended j hne thread hbuffer

end Unladen

/-! ## Runs -/

variable [DecidableEq U] [DecidableEq C] {s t : System U C}

theorem Unladen.mutexStep (h : Unladen s)
    (hcurrent : UnlocksAfter s.Stays s.thread.held s.thread.todo) {thread : Thread U C}
    {locked : Locks U C} (hstep : s.thread.mutexStep s.locked = some (thread, locked)) :
    Unladen { s with thread := thread, locked := locked } ∧
      UnlocksAfter s.Stays thread.held thread.todo := by
  rcases mutexStep_cases hstep with ⟨m, rest, htodo, rfl, rfl | rfl⟩ |
    ⟨m, rest, htodo, rfl, rfl⟩ | ⟨m, rest, htodo, -, rfl, rfl⟩ | ⟨m, rest, htodo, rfl, rfl⟩
  · exact ⟨h, hcurrent⟩
  · rw [htodo] at hcurrent
    have hrest : Unlocks s.thread.held rest := hcurrent
    exact ⟨⟨h.unnumbered, h.suspended, h.locked_iff⟩, hrest.after⟩
  · rw [htodo] at hcurrent
    exact ⟨⟨h.unnumbered, h.suspended, h.locked_iff⟩, hcurrent⟩
  · rw [htodo] at hcurrent
    have hrest : Unlocks (insert m s.thread.held) rest := hcurrent
    refine ⟨⟨h.unnumbered, h.suspended, fun n ↦ ?_⟩, hrest.after⟩
    change Function.update s.locked m true n = true ↔ n ∈ insert m s.thread.held
    rw [Function.update_apply, Set.mem_insert_iff]
    split
    · simp [*]
    · simp [*, h.locked_iff n]
  · rw [htodo] at hcurrent
    have hrest : Unlocks (s.thread.held \ {m}) rest := hcurrent
    refine ⟨⟨h.unnumbered, h.suspended, fun n ↦ ?_⟩, hrest.after⟩
    change Function.update s.locked m false n = true ↔ n ∈ s.thread.held \ {m}
    rw [Function.update_apply, Set.mem_sdiff_singleton]
    split
    · simp [*]
    · simp [*, h.locked_iff n]

theorem Unladen.step {a : Action U C} (h : Unladen s)
    (hcurrent : UnlocksAfter s.Stays s.thread.held s.thread.todo)
    (hstep : Step System.LeavesUnlocked s a t) :
    Unladen t ∧ UnlocksAfter t.Stays t.thread.held t.thread.todo := by
  cases hstep with
  | @call call _ _ hallowed =>
      exact ⟨⟨h.unnumbered, h.suspended, h.locked_iff⟩, unlocksAfter_body hallowed⟩
  | interrupt _ hallowed =>
      exact ⟨⟨h.unnumbered, h.suspended, h.locked_iff⟩, hallowed, hcurrent⟩
  | @command newNode _ htodo =>
      refine System.exec_induction (P := fun t ↦
        Unladen t ∧ UnlocksAfter t.Stays t.thread.held t.thread.todo) htodo ?_ ?_
      · intro thread locked hmutex
        exact h.mutexStep hcurrent hmutex
      · intro command rest hcons hother
        have hset : Unladen (s.setTodo rest) := ⟨h.unnumbered, h.suspended, h.locked_iff⟩
        rw [hcons] at hcurrent
        by_cases hyield : command = .yield
        · subst hyield
          exact hset.yield newNode hcurrent
        · have hunlocks : Unlocks s.thread.held (command :: rest) := by
            cases command with
            | yield => exact absurd rfl hyield
            | _ => exact hcurrent
          obtain ⟨hunladen, hrest⟩ := hset.perform newNode hunlocks hother hyield
          exact ⟨hunladen, hrest.after⟩

theorem unladen_of_run {l : List (Action U C)}
    (hrun : Run (Step System.LeavesUnlocked) (threadInit U C) l s) : Unladen s := by
  have hstart : Unladen (threadInit U C) :=
    ⟨fun _ ↦ ⟨rfl, rfl⟩, nofun, fun _ ↦ iff_of_false Bool.false_ne_true (Set.notMem_empty _)⟩
  have hboth := hrun.invariant
    (P := fun t ↦ Unladen t ∧ UnlocksAfter t.Stays t.thread.held t.thread.todo) ⟨hstart, trivial⟩
    fun _ _ _ h hstep ↦ h.1.step h.2 hstep
  exact hboth.1

omit [DecidableEq U] [DecidableEq C] in
theorem Unladen.held_eq_empty (h : Unladen s) {i : Slot} (hi : i ≠ s.current) : s.held i = ∅ := by
  rw [System.held, System.threadOf, if_neg hi]
  cases hbuffer : (s.context i).buffer with
  | none => rfl
  | some thread => exact (h.suspended i hi thread hbuffer).1

/-- If no thread gives up the processor while it holds a mutex, then a thread that is
switched away from while it is blocked holds none of the mutexes of a condition variable, and
no thread spins on a mutex whose holder cannot be scheduled. -/
theorem no_lock_stranded {l : List (Action U C)}
    (hrun : Run (Step System.LeavesUnlocked) (threadInit U C) l s) :
    s.NoneStranded ∧ s.SpinsSafely := by
  have h := unladen_of_run hrun
  constructor
  · intro i hi thread hthread _
    rw [(h.suspended i hi thread hthread).1]
    exact ⟨fun _ ↦ Set.notMem_empty _, fun _ _ _ ↦ Set.notMem_empty _⟩
  · intro m rest _ hlocked
    have hcurrent : m ∈ s.held s.current := by
      rw [s.held_current]
      exact (h.locked_iff m).mp hlocked
    refine ⟨⟨s.current, hcurrent⟩, fun i hi ↦ ?_⟩
    by_cases hne : i = s.current
    · exact ⟨[], s, .nil, hne.symm⟩
    · rw [h.held_eq_empty hne] at hi
      exact absurd hi (Set.notMem_empty m)

/-- The thread in slot 2 is interrupted while it holds a mutex, after the main thread has been
interrupted in `thread_cond_wait`. -/
theorem no_lock_stranded_interrupts : ∃ (l : List (Action Unit Unit)) (s : System Unit Unit),
    Run (Step System.LeavesUnlocked) (threadInit Unit Unit) l s ∧ .interrupt ∈ l ∧
      s.current = 2 ∧ s.state 0 = .blocked ∧ .user () ∈ s.held 2 ∧ s.NoneStranded ∧
        s.SpinsSafely := by
  have hfirst : Run (Step System.LeavesUnlocked) (threadInit Unit Unit) _ _ :=
    run_after .nil .create 1 ⟨rfl, rfl, trivial⟩ (fun _ _ ↦ trivial) (by decide)
  have hsecond := run_after hfirst .create 1 ⟨rfl, rfl, trivial⟩ (fun _ _ ↦ trivial) (by decide)
  -- the other thread joins the main thread, which goes on in `thread_yield`
  have hyield := run_after hsecond .yield 1 ⟨rfl, rfl, .inl rfl⟩ (fun _ _ ↦ trivial) (by decide)
  have hjoin := run_after hyield (.join 0) 4 ⟨rfl, rfl, rfl⟩ (fun _ _ ↦ trivial) (by decide)
  have hlock := run_after hjoin (.lock ()) 2 ⟨rfl, rfl, trivial⟩ (fun _ _ ↦ trivial) (by decide)
  have hwait := run_after hlock (.wait () ()) 2
    ⟨rfl, rfl, fun _ hm ↦ hm.resolve_right (Set.notMem_empty _)⟩ (fun _ _ ↦ trivial) (by decide)
  have hinsert := hwait.snoc (@Step.command _ _ _ _ _ _ (some 1) rfl nofun
    (fun a _ ↦ Set.notMem_empty a) trivial)
  have hreleased := run_execs hinsert 3 (fun _ _ ↦ trivial) (by decide)
  have hempty : (insert (.internal ()) (insert (.user ()) ∅) \ {.user ()}) \ {.internal ()} =
      (∅ : Set (Mutex Unit Unit)) := by
    ext m
    simp
  have hswitched := run_execs (hreleased.snoc (.interrupt rfl (.inl hempty))) 1 (fun _ _ ↦ trivial)
    (by decide)
  have hlocked := run_after hswitched (.lock ()) 2 ⟨rfl, rfl, trivial⟩ (fun _ _ ↦ trivial)
    (by decide)
  have hstays := run_execs (hlocked.snoc (.interrupt rfl (.inr fun i hi ↦
    (Option.some.inj hi).symm))) 1 (fun _ _ ↦ trivial) (by decide)
  exact ⟨_, _, hstays, by simp, rfl, rfl, .inl rfl, no_lock_stranded hstays⟩

/-- The timer, which a `thread_yield` has armed, interrupts the main thread in
`thread_cond_wait` just after it has blocked itself.  A signal of another thread then spins
for ever. -/
theorem internal_mutex_stranded : ∃ (l : List (Action Unit Unit)) (t : Timed Unit Unit),
    Run (TimedStep fun _ _ ↦ True) (timedInit Unit Unit) l t ∧
      Run (Step fun _ _ ↦ True) (threadInit Unit Unit) l t.system ∧
        t.system.undefined = false ∧ ¬ t.system.NoneStranded ∧ ¬ t.system.SpinsSafely := by
  have hfirst : Run (TimedStep fun _ _ ↦ True) (timedInit Unit Unit) _ _ :=
    Timed.run_after .nil .create 1 ⟨rfl, rfl, trivial⟩ (fun _ _ ↦ trivial) (by decide)
  have hsecond := Timed.run_after hfirst .create 1 ⟨rfl, rfl, trivial⟩ (fun _ _ ↦ trivial)
    (by decide)
  have hyield := Timed.run_after hsecond .yield 1 ⟨rfl, rfl, trivial⟩ (fun _ _ ↦ trivial)
    (by decide)
  have hjoin := Timed.run_after hyield (.join 0) 4 ⟨rfl, rfl, trivial⟩ (fun _ _ ↦ trivial)
    (by decide)
  have hlock := Timed.run_after hjoin (.lock ()) 2 ⟨rfl, rfl, trivial⟩ (fun _ _ ↦ trivial)
    (by decide)
  have hwait := Timed.run_after hlock (.wait () ()) 2 ⟨rfl, rfl, trivial⟩ (fun _ _ ↦ trivial)
    (by decide)
  have hinsert := hwait.snoc (@TimedStep.command _ _ _ _ _ _ (some 1) rfl nofun
    (fun a _ ↦ Set.notMem_empty a) trivial)
  have hblock := hinsert.snoc (@TimedStep.command _ _ _ _ _ _ none rfl nofun nofun trivial)
  have hinterrupt := hblock.snoc (.interrupt rfl rfl trivial)
  have hswitch := hinterrupt.snoc (@TimedStep.command _ _ _ _ _ _ none rfl nofun nofun trivial)
  have hsignal := hswitch.snoc (@TimedStep.call _ _ _ _ _ _ (.signal ()) rfl rfl trivial)
  refine ⟨_, _, hsignal, Timed.run_system hsignal, rfl, fun hnone ↦ ?_, ?_⟩
  · refine (hnone 0 (by decide) _ rfl rfl).1 () ?_
    exact .inl rfl
  · refine Stuck.not_spinsSafely (m := .internal ()) (i := 0) ⟨fun i hi ↦ ?_, rfl, 0, _, rfl⟩ rfl
      (by decide) (.inl rfl)
    exact (Option.some.inj hi).symm

/-! ## Interrupts that strand a lock -/

/-- A mutex is locked by a call, or by the first steps of one. -/
def Mutex.locker : Mutex U C → Call U C
  | .user mutex => .lock mutex
  | .internal condition => .signal condition

omit [DecidableEq U] [DecidableEq C] in
theorem Mutex.body_locker (m : Mutex U C) : ∃ rest, m.locker.body = .spin m :: rest := by
  cases m <;> exact ⟨_, rfl⟩

/-- A thread that is found instead of the holder of a mutex spins on it for ever once it
locks it. -/
theorem Unladen.exists_spinning (h : Unladen s) (hdefined : s.undefined = false)
    {rest : List (Command U C)} (htodo : s.thread.todo = .yield :: rest) {m : Mutex U C}
    (hm : m ∈ s.thread.held) {i : Slot} (hi : s.yieldTarget = some i) (hne : i ≠ s.current)
    {thread : Thread U C} (hthread : (s.context i).buffer = some thread) (hidle : thread.todo = []) :
    ∃ l t, Run (Step fun _ _ ↦ True) s l t ∧ ¬ t.SpinsSafely := by
  have hsaved : (((s.setTodo rest).setBuffer s.current (s.setTodo rest).thread).context i).buffer =
      some thread := by
    rw [System.buffer_setBuffer, if_neg hne]
    exact hthread
  have hswitch : Step (fun _ _ ↦ True) s (.command none) ((s.setTodo rest).transfer i) := by
    have hexec : s.exec none = (s.setTodo rest).transfer i := by
      rw [System.exec_eq_perform htodo id]
      exact System.perform_yield none hi
    rw [← hexec]
    refine .command hdefined ?_ nofun trivial
    rw [htodo]
    exact List.cons_ne_nil _ _
  have hheld : m ∈ ((s.setTodo rest).transfer i).held s.current := by
    rw [System.held_transfer]
    exact (s.setTodo rest).held_current.symm ▸ hm
  have hunnumbered : (s.setTodo rest).Unnumbered := h.unnumbered
  have htarget : ((s.setTodo rest).transfer i).yieldTarget = some i := by
    rw [System.yieldTarget_transfer hunnumbered]
    exact hi
  have hafter := System.transfer_eq hsaved
  generalize (s.setTodo rest).transfer i = u at *
  have hcurrent : u.current = i := by rw [hafter]
  have hlock : Step (fun _ _ ↦ True) u (.call m.locker) (u.begin m.locker) := by
    refine .call ?_ ?_ trivial
    · rw [hafter]
      exact hdefined
    · rw [hafter]
      exact hidle
  refine ⟨_, _, .snoc (.snoc .nil hswitch) hlock, ?_⟩
  obtain ⟨tail, htail⟩ := m.body_locker
  have hstuck : Stuck m (u.begin m.locker) := by
    refine ⟨fun j hj ↦ ?_, ?_, 0, tail, htail⟩
    · exact (Option.some.inj (hj.symm.trans htarget)).trans hcurrent.symm
    · change u.locked m = true
      rw [hafter]
      exact (h.locked_iff m).mpr hm
  have hother : s.current ≠ u.current := by
    rw [hcurrent]
    exact hne.symm
  refine hstuck.not_spinsSafely htail hother ?_
  rwa [System.held_begin _ hother]

/-- An interrupt, or a call of `thread_yield`, that the condition excludes can be followed by
steps after which a thread spins for ever, if the thread found is in no call. -/
theorem exists_spinning_of_not_leavesUnlocked {l : List (Action U C)}
    (hrun : Run (Step System.LeavesUnlocked) (threadInit U C) l s) {a : Action U C}
    (ha : a = .interrupt ∨ a = .call .yield) (hnot : ¬ s.LeavesUnlocked a)
    (hstep : Step (fun _ _ ↦ True) s a t) (hidle : ∀ i, s.yieldTarget = some i →
      ∃ thread, (s.context i).buffer = some thread ∧ thread.todo = []) :
    ∃ more u, Run (Step fun _ _ ↦ True) t more u ∧ ¬ u.SpinsSafely := by
  have hunladen := unladen_of_run hrun
  have hleaves : ¬ (s.thread.held = ∅ ∨ s.Stays) := by
    rcases ha with rfl | rfl <;> exact hnot
  push Not at hleaves
  obtain ⟨⟨m, hm⟩, hgoes⟩ := hleaves
  obtain ⟨i, hi, hne⟩ : ∃ i, s.yieldTarget = some i ∧ i ≠ s.current := by
    by_contra hnone
    push Not at hnone
    exact hgoes hnone
  obtain ⟨thread, hthread, hthreadIdle⟩ := hidle i hi
  have hafter (rest : List (Command U C)) (call : Option (Call U C))
      (ht : t = { s with thread := { s.thread with todo := .yield :: rest, call := call } }) :
      ∃ more u, Run (Step fun _ _ ↦ True) t more u ∧ ¬ u.SpinsSafely := by
    have hunladen' : Unladen t := by
      rw [ht]
      exact ⟨hunladen.unnumbered, hunladen.suspended, hunladen.locked_iff⟩
    subst ht
    exact hunladen'.exists_spinning hstep.defined rfl hm hi hne hthread hthreadIdle
  cases hstep with
  | interrupt => exact hafter s.thread.todo s.thread.call rfl
  | call =>
      rcases ha with hcall | hcall
      · cases hcall
      · cases hcall
        exact hafter [] (some .yield) rfl
  | command => rcases ha with hcommand | hcommand <;> cases hcommand

end OsProjects.Threads
