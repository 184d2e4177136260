import OsProjects.Threads.Scheduler

/-!
# The interval timer

`thread_yield` disarms the timer of the preemption and arms it again only where
its own `setjmp` returns for the second time.  A thread that has been suspended
elsewhere, or has not run yet, goes on without preemption, and so does a thread
that finds no other.
-/

namespace OsProjects.Threads

open Library.Runs OsProjects.Lists

variable {U C : Type}

/-! ## `threads.c` -/

/-- The interval given to `setitimer` is not zero. -/
def alarmActivate (_armed : Bool) : Bool := true

def alarmDeactivate (_armed : Bool) : Bool := false

/-- The function with the `setjmp` that a buffer has been filled by. -/
inductive Resumption
  | handler
  | yield
  | exit
  | join
  deriving DecidableEq

/-- What happens to the timer when `setjmp` returns for the second time. -/
def Resumption.onTimer : Resumption → Bool → Bool
  | .yield, armed => alarmActivate armed
  | .handler, armed => armed
  | .exit, armed => armed
  | .join, armed => armed

/-- A system with its timer, and with the functions that the threads go on in. -/
structure Timed (U C : Type) where
  system : System U C
  armed : Bool
  resumption : Slot → Resumption

namespace Timed

/-- `setjmp` in a function, and `longjmp` with the buffer of `source`. -/
def jump (s : Timed U C) (function : Resumption) (source : Slot) : Timed U C :=
  let resumption := Function.update s.resumption s.system.current function
  { s with resumption := resumption, armed := (resumption source).onTimer s.armed }

/-- The part of a command that concerns the timer and the buffers. -/
def onCommand (s : Timed U C) : Command U C → Timed U C
  | .create =>
      match s.system.freeSlot with
      | some i => { s with resumption := Function.update s.resumption i .handler }
      | none => s
  | .yield =>
      let s := { s with armed := alarmDeactivate s.armed }
      match s.system.yieldTarget with
      | some i => s.jump .yield i
      | none => s
  | .switchToJoiner =>
      match slotAt (s.system.context s.system.current).joinerThreadNumber with
      | some i =>
          match slotAt (s.system.context i).joinerThreadNumber with
          | some j => s.jump .exit j
          | none => s
      | none => s
  | .switchTo target => s.jump .join target
  | _ => s

/-- The thread in slot `i` goes on in `thread_yield`. -/
def YieldsIn (s : Timed U C) (i : Slot) : Prop :=
  i = s.system.current ∨ s.resumption i = .yield ∧ (s.system.context i).buffer ≠ none

/-- `thread_yield` finds a thread, and one that goes on in `thread_yield`. -/
def FindsYielding (s : Timed U C) : Prop := ∃ i, s.system.yieldTarget = some i ∧ s.YieldsIn i

/-- Every `thread_yield` finds such a thread. -/
def Meets (s : Timed U C) : Action U C → Prop
  | .command _ => ∀ rest, s.system.thread.todo = .yield :: rest → s.FindsYielding
  | _ => True

variable [DecidableEq U] [DecidableEq C]

def exec (s : Timed U C) (newNode : Option Addr) : Timed U C :=
  match s.system.thread.todo with
  | [] => s
  | command :: _ => { s.onCommand command with system := s.system.exec newNode }

/-- After a call and some commands. -/
def after (s : Timed U C) (call : Call U C) (commands : ℕ) : Timed U C :=
  (exec · none)^[commands] { s with system := s.system.begin call }

end Timed

/-- `thread_init` leaves the timer as it is initially. -/
def timedInit (U C : Type) : Timed U C := ⟨threadInit U C, false, fun _ ↦ .handler⟩

variable [DecidableEq U] [DecidableEq C]

/-- The steps of a system, with interrupts only when the timer is armed. -/
inductive TimedStep (allowed : Timed U C → Action U C → Prop) (s : Timed U C) :
    Action U C → Timed U C → Prop
  | call {call : Call U C} : s.system.undefined = false → s.system.thread.todo = [] →
      allowed s (.call call) →
      TimedStep allowed s (.call call) { s with system := s.system.begin call }
  | command {newNode : Option Addr} : s.system.undefined = false → s.system.thread.todo ≠ [] →
      (∀ a ∈ newNode, a ∉ s.system.allocated) → allowed s (.command newNode) →
      TimedStep allowed s (.command newNode) (s.exec newNode)
  | interrupt : s.system.undefined = false → s.armed = true → allowed s .interrupt →
      TimedStep allowed s .interrupt { s with system := s.system.interrupt }

namespace Timed

variable {s t : Timed U C} {command : Command U C} {rest : List (Command U C)}
  {newNode : Option Addr} {allowed : Timed U C → Action U C → Prop} {a : Action U C}

theorem exec_eq (htodo : s.system.thread.todo = command :: rest) :
    s.exec newNode = { s.onCommand command with system := s.system.exec newNode } := by
  rw [exec, htodo]

/-- Without its timer, a step is a step of the scheduler. -/
theorem step_system (h : TimedStep allowed s a t) :
    Step (fun _ _ ↦ True) s.system a t.system := by
  cases h with
  | call hdefined htodo => exact .call hdefined htodo trivial
  | interrupt hdefined => exact .interrupt hdefined trivial
  | command hdefined htodo hfresh =>
      obtain ⟨command, rest, hcommand⟩ := List.exists_cons_of_ne_nil htodo
      rw [exec_eq hcommand]
      exact .command hdefined htodo hfresh trivial

theorem run_system {l : List (Action U C)} (hrun : Run (TimedStep allowed) s l t) :
    Run (Step fun _ _ ↦ True) s.system l t.system := by
  induction hrun with
  | nil => exact .nil
  | snoc _ hlast ih => exact .snoc ih (step_system hlast)

theorem run_after {l : List (Action U C)} (hrun : Run (TimedStep allowed) s l t) (call : Call U C)
    (n : ℕ) (hcall : t.system.undefined = false ∧ t.system.thread.todo = [] ∧
      allowed t (.call call))
    (hcommand : ∀ k < n, allowed (t.after call k) (.command none))
    (hafter : ∀ k < n, (t.after call k).system.undefined = false ∧
      (t.after call k).system.thread.todo.isEmpty = false) :
    Run (TimedStep allowed) s (l ++ [.call call] ++ List.replicate n (.command none))
      (t.after call n) := by
  induction n with
  | zero =>
      rw [List.replicate_zero, List.append_nil]
      exact .snoc hrun (.call hcall.1 hcall.2.1 hcall.2.2)
  | succ n ih =>
      obtain ⟨hdefined, htodo⟩ := hafter n n.lt_succ_self
      rw [List.replicate_succ', ← List.append_assoc, after, Function.iterate_succ_apply']
      have hfirst := ih (fun k hk ↦ hcommand k (hk.trans n.lt_succ_self))
        fun k hk ↦ hafter k (hk.trans n.lt_succ_self)
      refine .snoc hfirst (.command hdefined ?_ ?_ (hcommand n n.lt_succ_self))
      · intro hempty
        rw [hempty] at htodo
        cases htodo
      · rintro _ ⟨⟩

/-! ## What arms the timer -/

theorem onTimer_true (r : Resumption) : r.onTimer true = true := by
  cases r <;> rfl

theorem onTimer_false (r : Resumption) : r.onTimer false = true ↔ r = .yield := by
  cases r <;> simp [Resumption.onTimer, alarmActivate]

omit [DecidableEq U] [DecidableEq C] in
theorem armed_jump (harmed : s.armed = true) (function : Resumption) (source : Slot) :
    (s.jump function source).armed = true := by
  rw [jump, harmed]
  exact onTimer_true _

omit [DecidableEq U] [DecidableEq C] in
/-- No command but `yield` disarms the timer. -/
theorem armed_onCommand (harmed : s.armed = true) (hcommand : command ≠ .yield) :
    (s.onCommand command).armed = true := by
  cases command with
  | yield => exact absurd rfl hcommand
  | create =>
      rw [onCommand]
      split <;> exact harmed
  | switchTo target => exact armed_jump harmed _ _
  | switchToJoiner =>
      rw [onCommand]
      split
      · split
        · exact armed_jump harmed _ _
        · exact harmed
      · exact harmed
  | _ => exact harmed

omit [DecidableEq U] [DecidableEq C] in
theorem armed_onCommand_yield : (s.onCommand .yield).armed = true ↔
    ∃ i, s.system.yieldTarget = some i ∧ (i = s.system.current ∨ s.resumption i = .yield) := by
  rw [onCommand]
  cases htarget : s.system.yieldTarget with
  | none => simp [alarmDeactivate]
  | some i =>
      simp only [jump, alarmDeactivate, onTimer_false, Function.update_apply]
      by_cases hi : i = s.system.current
      · simp [hi]
      · simp [hi]

/-- The timer is armed after `thread_yield` if and only if the thread that it finds
goes on in `thread_yield`. -/
theorem exec_yield_iff (htodo : s.system.thread.todo = .yield :: rest)
    (hdefined : s.system.undefined = false) :
    (s.exec newNode).system.undefined = false ∧ (s.exec newNode).armed = true ↔
      s.FindsYielding := by
  have hexec : s.system.exec newNode = (s.system.setTodo rest).perform newNode .yield :=
    System.exec_eq_perform htodo id
  have htarget : (s.system.setTodo rest).yieldTarget = s.system.yieldTarget := rfl
  have harmed : (s.exec newNode).armed = true ↔ ∃ i, s.system.yieldTarget = some i ∧
      (i = s.system.current ∨ s.resumption i = .yield) := by
    rw [exec_eq htodo]
    exact armed_onCommand_yield
  have hundefined (i : Slot) (hi : s.system.yieldTarget = some i) :
      (s.exec newNode).system.undefined = false ↔
        i = s.system.current ∨ (s.system.context i).buffer ≠ none := by
    rw [exec_eq htodo]
    dsimp only
    rw [hexec, System.perform_yield newNode (htarget.trans hi)]
    have hbuffer : (((s.system.setTodo rest).setBuffer s.system.current
        (s.system.setTodo rest).thread).context i).buffer =
          if i = s.system.current then some (s.system.setTodo rest).thread
          else (s.system.context i).buffer :=
      System.buffer_setBuffer _
    cases hsaved : (((s.system.setTodo rest).setBuffer s.system.current
        (s.system.setTodo rest).thread).context i).buffer with
    | none =>
        rw [System.transfer_eq_of_none hsaved]
        rw [hsaved] at hbuffer
        split at hbuffer
        · cases hbuffer
        · rename_i hne
          simp [hne, ← hbuffer]
    | some thread =>
        rw [System.transfer_eq hsaved]
        rw [hsaved] at hbuffer
        split at hbuffer
        · rename_i heq
          exact iff_of_true hdefined (.inl heq)
        · refine iff_of_true hdefined (.inr ?_)
          rw [← hbuffer]
          exact Option.some_ne_none thread
  rw [harmed, FindsYielding]
  constructor
  · rintro ⟨hok, i, hi, hyields⟩
    refine ⟨i, hi, ?_⟩
    rcases hyields with heq | hyields
    · exact .inl heq
    · exact ((hundefined i hi).mp hok).imp id fun hbuffer ↦ ⟨hyields, hbuffer⟩
  · rintro ⟨i, hi, hyields⟩
    exact ⟨(hundefined i hi).mpr (hyields.imp id And.right), i, hi, hyields.imp id And.left⟩

theorem armed_step (harmed : s.armed = true)
    (h : TimedStep (fun s a ↦ s.Meets a) s a t) : t.armed = true := by
  cases h with
  | call => exact harmed
  | interrupt => exact harmed
  | command hdefined htodo _ hmeets =>
      obtain ⟨command, rest, hcommand⟩ := List.exists_cons_of_ne_nil htodo
      by_cases hyield : command = .yield
      · subst hyield
        exact ((exec_yield_iff hcommand hdefined).mpr (hmeets rest hcommand)).2
      · rw [exec_eq hcommand]
        exact armed_onCommand harmed hyield

end Timed

/-- In a run in which every `thread_yield` finds a thread that goes on in `thread_yield`
the timer remains armed, and wherever it is armed the next `thread_yield` arms it
again only if it finds such a thread. -/
theorem yield_restores_preemption {s t : Timed U C} {l : List (Action U C)}
    (hrun : Run (TimedStep fun s a ↦ s.Meets a) s l t) (harmed : s.armed = true) :
    t.armed = true ∧ ∀ newNode rest, t.system.thread.todo = .yield :: rest →
      t.system.undefined = false →
        ((t.exec newNode).system.undefined = false ∧ (t.exec newNode).armed = true ↔
          t.FindsYielding) :=
  ⟨hrun.invariant (P := fun t ↦ t.armed = true) harmed fun _ _ _ h hstep ↦ Timed.armed_step h hstep,
    fun _ _ htodo hdefined ↦ Timed.exec_yield_iff htodo hdefined⟩

/-- The main thread has yielded to a thread that it has created, and this one to
itself. -/
def armedThread : Timed Unit Unit :=
  (((timedInit Unit Unit).after .create 1).after .yield 1).after .yield 1

theorem run_armedThread :
    ∃ l, Run (TimedStep fun _ _ ↦ True) (timedInit Unit Unit) l armedThread := by
  have hcreate : Run (TimedStep fun _ _ ↦ True) (timedInit Unit Unit) _ _ :=
    Timed.run_after .nil .create 1 ⟨rfl, rfl, trivial⟩ (fun _ _ ↦ trivial) (by decide)
  have hyield := Timed.run_after hcreate .yield 1 ⟨rfl, rfl, trivial⟩ (fun _ _ ↦ trivial)
    (by decide)
  exact ⟨_, Timed.run_after hyield .yield 1 ⟨rfl, rfl, trivial⟩ (fun _ _ ↦ trivial) (by decide)⟩

/-- The main thread has joined the second of two threads, and this one has yielded to the
first, which is about to yield in `thread_cond_wait`. -/
def waitingThread : Timed Unit Unit :=
  (((((((timedInit Unit Unit).after .create 1).after .create 1).after (.join 2) 4).after
    .yield 1).after .yield 1).after (.lock ()) 2).after (.wait () ()) 6

theorem yield_restores_preemption_waiting : waitingThread.armed = true ∧
    waitingThread.system.current = 1 ∧
    ∃ t, Run (TimedStep fun s a ↦ s.Meets a) waitingThread
      [.command none, .call .yield, .command none] t ∧ t.system.current = 2 ∧ t.armed = true := by
  have harmed : waitingThread.armed = true := by decide
  have hwait : Run (TimedStep fun s a ↦ s.Meets a) waitingThread _ _ :=
    .snoc .nil (@TimedStep.command _ _ _ _ _ _ none rfl nofun nofun fun _ _ ↦
      ⟨2, rfl, .inr ⟨rfl, nofun⟩⟩)
  have hyield := Timed.run_after hwait .yield 1 ⟨rfl, rfl, trivial⟩ (fun k hk ↦ by
    obtain rfl : k = 0 := Nat.lt_one_iff.mp hk
    exact fun _ _ ↦ ⟨2, rfl, .inl rfl⟩) (by decide)
  exact ⟨harmed, by decide, _, hyield, rfl, (yield_restores_preemption hyield harmed).1⟩

/-- The main thread, which the exit of the other one has resumed, yields to it: the
timer is not armed again. -/
theorem exited_thread_disarms : ∃ (l : List (Action Unit Unit)) (t : Timed Unit Unit),
    Run (TimedStep fun _ _ ↦ True) (timedInit Unit Unit) l t ∧ t.system.current = 0 ∧
      t.system.thread.todo = threadYield ∧ t.armed = true ∧
      (t.exec none).system.undefined = false ∧ (t.exec none).system.current = 1 ∧
      (t.exec none).system.thread.todo.isEmpty = true ∧ (t.exec none).armed = false := by
  obtain ⟨l, hrun⟩ := run_armedThread
  have hexit := Timed.run_after hrun .exit 4 ⟨by decide, by decide, trivial⟩ (fun _ _ ↦ trivial)
    (by decide)
  have hyield := Timed.run_after hexit .yield 0 ⟨by decide, by decide, trivial⟩
    (fun _ _ ↦ trivial) (by decide)
  exact ⟨_, _, hyield, by decide, rfl, by decide, by decide, by decide, by decide, by decide⟩

end OsProjects.Threads
