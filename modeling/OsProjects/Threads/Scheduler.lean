import OsProjects.Library.Runs
import OsProjects.Lists.Operations
import OsProjects.Threads.Commands

/-!
# The scheduler

The thread table of `threads.c` and the execution of commands by the thread it
points to.  A thread loses the processor where the code calls `longjmp`, and
goes on from what was stored in its buffer.  With preemption `sigalm_handler` runs
`thread_yield` between any two commands.  `thread_create` and the switch from one
thread to another are one command each.
-/

namespace OsProjects.Threads

open Library.Runs OsProjects.Lists

variable {U C : Type}

inductive ThreadState
  | active
  | blocked
  | finished
  | invalid
  deriving DecidableEq

/-- The fields of `tcb_t` that the scheduler uses.  `buffer` is where the thread goes
on, if `setjmp` has been called with it. -/
structure Tcb (U C : Type) where
  number : ℤ
  buffer : Option (Thread U C)
  state : ThreadState
  joinerThreadNumber : ℤ

/-- A transfer of control, with the state of the target. -/
structure Transfer where
  source : Slot
  target : Slot
  state : ThreadState

/-- The global variables, the condition variables and mutexes, and the code that runs.
The rest is what has happened: the nodes that `malloc` has returned, for each
condition variable the threads that wait on it and have not been woken, the threads
that have called `thread_exit`, and the transfers, the latest first. -/
structure System (U C : Type) where
  context : Slot → Tcb U C
  current : Slot
  locked : Locks U C
  waiters : C → LinkedList Slot
  thread : Thread U C
  allocated : Set Addr
  waiting : C → List Slot
  exited : Set Slot
  transfers : List Transfer
  undefined : Bool

/-- The entry of `thread_context` with an index. -/
def slotAt (index : ℤ) : Option Slot :=
  if h : 0 ≤ index ∧ index < maxThreads then
    some ⟨index.toNat, by omega⟩
  else
    none

namespace System

def state (s : System U C) (i : Slot) : ThreadState := (s.context i).state

def setTcb (s : System U C) (i : Slot) (f : Tcb U C → Tcb U C) : System U C :=
  { s with context := Function.update s.context i (f (s.context i)) }

def setState (s : System U C) (i : Slot) (state : ThreadState) : System U C :=
  s.setTcb i fun tcb ↦ { tcb with state := state }

def setBuffer (s : System U C) (i : Slot) (thread : Thread U C) : System U C :=
  s.setTcb i fun tcb ↦ { tcb with buffer := some thread }

def setTodo (s : System U C) (todo : List (Command U C)) : System U C :=
  { s with thread := { s.thread with todo := todo } }

/-- Go on with further commands before the rest. -/
def push (s : System U C) (commands : List (Command U C)) : System U C :=
  s.setTodo (commands ++ s.thread.todo)

/-- `setjmp` with the buffer of the current thread, and after the assignment of
`current_thread_context` a `longjmp` with the buffer of `source`. -/
def switch (s : System U C) (target source : Slot) : System U C :=
  let s := s.setBuffer s.current s.thread
  let s := { s with transfers := ⟨s.current, target, s.state target⟩ :: s.transfers }
  match (s.context source).buffer with
  | some thread => { s with current := target, thread := thread }
  | none => { s with undefined := true }

def transfer (s : System U C) (target : Slot) : System U C := s.switch target target

/-- The thread that `thread_yield` finds, if there is one. -/
def yieldTarget (s : System U C) : Option Slot :=
  (List.range (maxThreads - 1)).findSome? fun (x : ℕ) ↦
    (slotAt (((s.context s.current).number + 1 + x).tmod maxThreads)).filter fun i ↦
      s.state i = .active

/-- The first entry of `thread_context` that is not in use. -/
def freeSlot (s : System U C) : Option Slot :=
  (List.finRange maxThreads).find? fun i ↦ s.state i = .invalid

/-! ## Fields -/

section Fields

variable {s : System U C} {i j : Slot}

theorem context_setTcb (f : Tcb U C → Tcb U C) :
    (s.setTcb i f).context j = if j = i then f (s.context j) else s.context j := by
  by_cases h : j = i
  · subst h
    simp [setTcb]
  · simp [setTcb, h]

theorem state_setState (x : ThreadState) :
    (s.setState i x).state j = if j = i then x else s.state j := by
  rw [state, setState, context_setTcb, apply_ite Tcb.state]
  rfl

theorem state_setState_eq (x : ThreadState) :
    (s.setState i x).state = Function.update s.state i x := by
  funext j
  rw [state_setState, Function.update_apply]

theorem state_setBuffer (thread : Thread U C) : (s.setBuffer i thread).state j = s.state j := by
  rw [state, setBuffer, context_setTcb, apply_ite Tcb.state, state, ite_self]

theorem buffer_setBuffer (thread : Thread U C) : ((s.setBuffer i thread).context j).buffer =
    if j = i then some thread else (s.context j).buffer := by
  rw [setBuffer, context_setTcb, apply_ite Tcb.buffer]

theorem number_setState (x : ThreadState) :
    ((s.setState i x).context j).number = (s.context j).number := by
  rw [setState, context_setTcb, apply_ite Tcb.number, ite_self]

theorem number_setBuffer (thread : Thread U C) :
    ((s.setBuffer i thread).context j).number = (s.context j).number := by
  rw [setBuffer, context_setTcb, apply_ite Tcb.number, ite_self]

theorem buffer_setState (x : ThreadState) :
    ((s.setState i x).context j).buffer = (s.context j).buffer := by
  rw [setState, context_setTcb, apply_ite Tcb.buffer, ite_self]

theorem state_setJoiner (number : ℤ) :
    (s.setTcb i fun tcb ↦ { tcb with joinerThreadNumber := number }).state = s.state := by
  funext j
  rw [state, context_setTcb, apply_ite Tcb.state, state, ite_self]

theorem buffer_setJoiner (number : ℤ) :
    ((s.setTcb i fun tcb ↦ { tcb with joinerThreadNumber := number }).context j).buffer =
      (s.context j).buffer := by
  rw [context_setTcb, apply_ite Tcb.buffer, ite_self]

theorem state_of_freeSlot_eq_some (h : s.freeSlot = some i) : s.state i = .invalid := by
  have hfound := List.find?_some h
  exact of_decide_eq_true hfound

theorem transfer_eq {thread : Thread U C}
    (h : ((s.setBuffer s.current s.thread).context i).buffer = some thread) :
    s.transfer i = { s.setBuffer s.current s.thread with
      transfers := ⟨s.current, i, s.state i⟩ :: s.transfers
      current := i
      thread := thread } := by
  simp only [transfer, switch, h, state_setBuffer]
  rfl

theorem transfer_eq_of_none
    (h : ((s.setBuffer s.current s.thread).context i).buffer = none) :
    s.transfer i = { s.setBuffer s.current s.thread with
      transfers := ⟨s.current, i, s.state i⟩ :: s.transfers
      undefined := true } := by
  simp only [transfer, switch, h, state_setBuffer]
  rfl

theorem slotAt_scan {x : ℕ} (hx : x < 127) :
    slotAt (((0 : ℤ) + 1 + x).tmod maxThreads) = some ⟨x + 1, Nat.succ_lt_succ hx⟩ := by
  have hmod : ((0 : ℤ) + 1 + x).tmod (128 : ℕ) = ((x + 1 : ℕ) : ℤ) := by
    rw [Int.tmod_eq_of_lt (by omega) (by omega)]
    omega
  rw [hmod, slotAt, dif_pos ⟨by omega, Int.ofNat_lt.mpr (Nat.succ_lt_succ hx)⟩]
  rfl

variable (hnumber : (s.context s.current).number = 0)

include hnumber

theorem yieldTarget_eq : s.yieldTarget = (List.range 127).findSome? fun (x : ℕ) ↦
    (slotAt (((0 : ℤ) + 1 + x).tmod maxThreads)).filter fun i ↦ s.state i = .active := by
  rw [yieldTarget, hnumber]
  rfl

/-- A thread with number 0 yields to an active thread other than that of slot 0. -/
theorem state_of_yieldTarget_eq_some (h : s.yieldTarget = some i) :
    i ≠ 0 ∧ s.state i = .active := by
  rw [yieldTarget_eq hnumber] at h
  obtain ⟨x, hx, hfound⟩ := List.exists_of_findSome?_eq_some h
  rw [slotAt_scan (List.mem_range.mp hx), Option.filter_eq_some_iff] at hfound
  obtain ⟨heq, hactive⟩ := hfound
  cases heq
  exact ⟨fun hzero ↦ Nat.succ_ne_zero x (congrArg Fin.val hzero), of_decide_eq_true hactive⟩

theorem state_of_yieldTarget_eq_none (h : s.yieldTarget = none) (hi : i ≠ 0) :
    s.state i ≠ .active := by
  intro hactive
  obtain ⟨n, hn⟩ := i
  cases n with
  | zero => exact hi rfl
  | succ x =>
      have hx : x < 127 := Nat.lt_of_succ_lt_succ hn
      rw [yieldTarget_eq hnumber, List.findSome?_eq_none_iff] at h
      have hnone := h x (List.mem_range.mpr hx)
      rw [slotAt_scan hx, Option.filter_some, if_pos (decide_eq_true hactive)] at hnone
      cases hnone

theorem yieldTarget_eq_one (hactive : s.state 1 = .active) : s.yieldTarget = some 1 := by
  have hfirst : (slotAt (((0 : ℤ) + 1 + (0 : ℕ)).tmod maxThreads)).filter
      (fun i ↦ s.state i = .active) = some 1 := by
    rw [slotAt_scan (by omega), Option.filter_some]
    exact if_pos (decide_eq_true hactive)
  rw [yieldTarget_eq hnumber, List.range_succ_eq_map, List.findSome?_cons, hfirst]

end Fields

variable [DecidableEq C]

/-- The execution of a command that is not about a mutex.  The handler of `SIGUSR1`
in `thread_create` leaves a buffer with which the new thread starts. -/
def perform (s : System U C) (newNode : Option Addr) : Command U C → System U C
  | .insertTail condition =>
      { s with
        waiters := Function.update s.waiters condition
          (llInsertTail (s.waiters condition) newNode s.current).2
        allocated := s.allocated ∪ {a | newNode = some a}
        waiting := Function.update s.waiting condition (s.waiting condition ++ [s.current]) }
  | .block => s.setState s.current .blocked
  | .removeHead condition =>
      let (node, list) := llRemoveHead (s.waiters condition)
      { s with
        waiters := Function.update s.waiters condition list
        waiting := Function.update s.waiting condition (s.waiting condition).tail
        thread := { s.thread with waiter := node.map fun a ↦ (list.node a).data } }
  | .wake =>
      match s.thread.waiter with
      | none => s
      | some waiter =>
          match slotAt (s.context waiter).number with
          | some i => s.setState i .active
          | none => { s with undefined := true }
  | .signalAgain condition =>
      if s.thread.signalResult = 0 then s.push (threadCondBroadcast condition) else s
  | .create =>
      match s.freeSlot with
      | some i => { (s.setState i .active).setBuffer i .idle with exited := s.exited \ {i} }
      | none => s
  | .yield =>
      match s.yieldTarget with
      | some i => s.transfer i
      | none => s
  | .finish => { s.setState s.current .finished with exited := insert s.current s.exited }
  | .testJoiner =>
      if (s.context s.current).joinerThreadNumber = -1 then
        s.push threadYield
      else
        s.push [.activate, .switchToJoiner]
  | .activate => s.setState s.current .active
  | .switchToJoiner =>
      match slotAt (s.context s.current).joinerThreadNumber with
      | some i =>
          -- `current_thread_context` is the joiner when the number is read again.
          match slotAt (s.context i).joinerThreadNumber with
          | some j => s.switch i j
          | none => { s with undefined := true }
      | none => { s with undefined := true }
  | .testFinished target =>
      match slotAt target with
      | none => { s with undefined := true }
      | some i =>
          if s.state i = .finished then
            s.push [.invalidate i]
          else
            s.push [.setJoiner i, .block, .switchTo i]
  | .invalidate target => s.setState target .invalid
  | .setJoiner target =>
      s.setTcb target fun tcb ↦
        { tcb with joinerThreadNumber := (s.context s.current).number }
  | .switchTo target => s.transfer target
  | _ => s

theorem perform_create {s : System U C} {i : Slot} (newNode : Option Addr)
    (h : s.freeSlot = some i) : s.perform newNode .create =
      { (s.setState i .active).setBuffer i .idle with exited := s.exited \ {i} } := by
  rw [perform, h]

theorem perform_yield {s : System U C} {i : Slot} (newNode : Option Addr)
    (h : s.yieldTarget = some i) : s.perform newNode .yield = s.transfer i := by
  rw [perform, h]

variable [DecidableEq U]

/-- The execution of the next command of the current thread. -/
def exec (s : System U C) (newNode : Option Addr) : System U C :=
  match s.thread.mutexStep s.locked with
  | some (thread, locked) => { s with thread := thread, locked := locked }
  | none =>
      match s.thread.todo with
      | [] => s
      | command :: rest => (s.setTodo rest).perform newNode command

def begin (s : System U C) (call : Call U C) : System U C :=
  { s with thread := s.thread.begin call }

/-- `sigalm_handler` runs before the next command. -/
def interrupt (s : System U C) : System U C := s.push threadYield

theorem exec_eq_perform {s : System U C} {newNode : Option Addr} {command : Command U C}
    {rest : List (Command U C)} (htodo : s.thread.todo = command :: rest)
    (hother : ¬ command.OnMutex) : s.exec newNode = (s.setTodo rest).perform newNode command := by
  have hnone : s.thread.mutexStep s.locked = none := by
    rw [Thread.mutexStep, htodo]
    cases command with
    | spin m => exact absurd trivial hother
    | exchange m => exact absurd trivial hother
    | store m => exact absurd trivial hother
    | _ => rfl
  rw [exec, hnone, htodo]

/-- A property of the next state, from the commands on mutexes and the others. -/
theorem exec_induction {s : System U C} {newNode : Option Addr} {P : System U C → Prop}
    (htodo : s.thread.todo ≠ [])
    (hmutex : ∀ thread locked, s.thread.mutexStep s.locked = some (thread, locked) →
      P { s with thread := thread, locked := locked })
    (hother : ∀ command rest, s.thread.todo = command :: rest → ¬ command.OnMutex →
      P ((s.setTodo rest).perform newNode command)) : P (s.exec newNode) := by
  rw [exec]
  split
  · exact hmutex _ _ ‹_›
  · split
    · exact absurd ‹_› htodo
    · exact hother _ _ ‹_› (not_onMutex_of_mutexStep ‹_› ‹_›)

end System

/-! ## Runs -/

inductive Action (U C : Type)
  | call (call : Call U C)
  | command (newNode : Option Addr)
  | interrupt

variable [DecidableEq U] [DecidableEq C]

/-- A step of the current thread that satisfies the condition `allowed`.  After undefined
behaviour there are no steps. -/
inductive Step (allowed : System U C → Action U C → Prop) (s : System U C) :
    Action U C → System U C → Prop
  | call {call : Call U C} : s.undefined = false → s.thread.todo = [] →
      allowed s (.call call) → Step allowed s (.call call) (s.begin call)
  | command {newNode : Option Addr} : s.undefined = false → s.thread.todo ≠ [] →
      (∀ a ∈ newNode, a ∉ s.allocated) → allowed s (.command newNode) →
      Step allowed s (.command newNode) (s.exec newNode)
  | interrupt : s.undefined = false → allowed s .interrupt → Step allowed s .interrupt s.interrupt

theorem Step.defined {allowed : System U C → Action U C → Prop} {s t : System U C}
    {a : Action U C} (h : Step allowed s a t) : s.undefined = false := by
  cases h <;> assumption

/-- A call and the commands that are executed then. -/
def System.after (s : System U C) (call : Call U C) (commands : ℕ) : System U C :=
  (System.exec · none)^[commands] (s.begin call)

theorem System.after_succ {s : System U C} {call : Call U C} {n : ℕ} {command : Command U C}
    {rest : List (Command U C)} (htodo : (s.after call n).thread.todo = command :: rest)
    (hother : ¬ command.OnMutex) :
    s.after call (n + 1) = ((s.after call n).setTodo rest).perform none command := by
  rw [after, Function.iterate_succ_apply']
  exact exec_eq_perform htodo hother

theorem run_execs {allowed : System U C → Action U C → Prop} {s t : System U C}
    {l : List (Action U C)} (hrun : Run (Step allowed) s l t) (n : ℕ)
    (hcommand : ∀ k < n, allowed ((System.exec · none)^[k] t) (.command none))
    (hexecs : ∀ k < n, ((System.exec · none)^[k] t).undefined = false ∧
      ((System.exec · none)^[k] t).thread.todo.isEmpty = false) :
    Run (Step allowed) s (l ++ List.replicate n (.command none))
      ((System.exec · none)^[n] t) := by
  induction n with
  | zero =>
      rw [List.replicate_zero, List.append_nil]
      exact hrun
  | succ n ih =>
      obtain ⟨hundefined, htodo⟩ := hexecs n n.lt_succ_self
      rw [List.replicate_succ', ← List.append_assoc, Function.iterate_succ_apply']
      have hfirst := ih (fun k hk ↦ hcommand k (hk.trans n.lt_succ_self))
        (fun k hk ↦ hexecs k (hk.trans n.lt_succ_self))
      refine .snoc hfirst (.command hundefined ?_ nofun (hcommand n n.lt_succ_self))
      intro hempty
      rw [hempty] at htodo
      cases htodo

theorem run_after {allowed : System U C → Action U C → Prop} {s t : System U C}
    {l : List (Action U C)} (hrun : Run (Step allowed) s l t) (call : Call U C) (n : ℕ)
    (hcall : t.undefined = false ∧ t.thread.todo = [] ∧ allowed t (.call call))
    (hcommand : ∀ k < n, allowed (t.after call k) (.command none))
    (hafter : ∀ k < n, (t.after call k).undefined = false ∧
      (t.after call k).thread.todo.isEmpty = false) :
    Run (Step allowed) s (l ++ [.call call] ++ List.replicate n (.command none))
      (t.after call n) :=
  run_execs (.snoc hrun (.call hcall.1 hcall.2.1 hcall.2.2)) n hcommand hafter

/-- The state after `thread_init`, which leaves the numbers of the threads and of their
joiners as they are initially.  The condition variables and mutexes have been initialized
as well. -/
def threadInit (U C : Type) : System U C where
  context i := ⟨0, none, if i = 0 then .active else .invalid, 0⟩
  current := 0
  locked _ := false
  waiters _ := llInit ⟨none, none, fun _ ↦ ⟨0, none, none⟩⟩
  thread := .idle
  allocated := ∅
  waiting _ := []
  exited := ∅
  transfers := []
  undefined := false

/-- Nothing assigns to `number` after the start, and what `thread_join` assigns to
`joiner_thread_number` is a number. -/
def System.Unnumbered (s : System U C) : Prop :=
  ∀ i, (s.context i).number = 0 ∧ (s.context i).joinerThreadNumber = 0

namespace System.Unnumbered

variable {s : System U C} {i j : Slot}

omit [DecidableEq U] [DecidableEq C]

theorem setTcb {f : Tcb U C → Tcb U C} (h : s.Unnumbered)
    (hf : ∀ tcb, tcb.number = 0 → tcb.joinerThreadNumber = 0 →
      (f tcb).number = 0 ∧ (f tcb).joinerThreadNumber = 0) : (s.setTcb i f).Unnumbered := by
  intro j
  rw [context_setTcb]
  split
  · exact hf _ (h j).1 (h j).2
  · exact h j

theorem setState {x : ThreadState} (h : s.Unnumbered) : (s.setState i x).Unnumbered :=
  h.setTcb fun _ hnumber hjoiner ↦ ⟨hnumber, hjoiner⟩

theorem setBuffer {thread : Thread U C} (h : s.Unnumbered) : (s.setBuffer i thread).Unnumbered :=
  h.setTcb fun _ hnumber hjoiner ↦ ⟨hnumber, hjoiner⟩

theorem switch (h : s.Unnumbered) : (s.switch i j).Unnumbered := by
  have hsaved : (s.setBuffer s.current s.thread).Unnumbered := h.setBuffer
  rw [System.switch]
  split <;> exact hsaved

theorem perform [DecidableEq C] (h : s.Unnumbered) (newNode : Option Addr)
    (command : Command U C) : (s.perform newNode command).Unnumbered := by
  cases command with
  | block => exact h.setState
  | finish => exact h.setState
  | activate => exact h.setState
  | invalidate target => exact h.setState
  | switchTo target => exact h.switch
  | setJoiner target =>
      rw [System.perform]
      exact h.setTcb fun _ hnumber _ ↦ ⟨hnumber, (h s.current).1⟩
  | create =>
      rw [System.perform]
      split
      · exact h.setState.setBuffer
      · exact h
  | yield =>
      rw [System.perform]
      split
      · exact h.switch
      · exact h
  | wake =>
      rw [System.perform]
      split
      · exact h
      · split
        · exact h.setState
        · exact h
  | switchToJoiner =>
      rw [System.perform]
      split
      · split
        · exact h.switch
        · exact h
      · exact h
  | signalAgain condition =>
      rw [System.perform]
      split <;> exact h
  | testJoiner =>
      rw [System.perform]
      split <;> exact h
  | testFinished target =>
      rw [System.perform]
      split
      · exact h
      · split <;> exact h
  | _ => exact h

end System.Unnumbered

omit [DecidableEq U] in
/-- The waiter that is woken is the thread with number 0. -/
theorem System.perform_wake {s : System U C} (newNode : Option Addr) (h : s.Unnumbered) :
    s.perform newNode .wake = if s.thread.waiter = none then s else s.setState 0 .active := by
  rw [System.perform]
  cases hwaiter : s.thread.waiter with
  | none => rfl
  | some waiter =>
      dsimp only
      rw [(h waiter).1]
      rfl

omit [DecidableEq U] in
/-- Both numbers that `thread_exit` reads are 0. -/
theorem System.perform_switchToJoiner {s : System U C} (newNode : Option Addr)
    (h : s.Unnumbered) : s.perform newNode .switchToJoiner = s.transfer 0 := by
  have hzero : slotAt 0 = some 0 := rfl
  rw [System.perform, (h s.current).2, hzero]
  dsimp only
  rw [(h 0).2, hzero]
  rfl

omit [DecidableEq U] in
/-- The number of the joiner that `thread_exit` reads is 0. -/
theorem System.perform_testJoiner {s : System U C} (newNode : Option Addr) (h : s.Unnumbered) :
    s.perform newNode .testJoiner = s.push [.activate, .switchToJoiner] := by
  rw [System.perform, (h s.current).2]
  exact if_neg (by decide)

/-- Without preemption, and of the calls only those in `calls`. -/
def Action.Only (calls : Call U C → Prop) : Action U C → Prop
  | .call k => calls k
  | .command _ => True
  | .interrupt => False

end OsProjects.Threads
