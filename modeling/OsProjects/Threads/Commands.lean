import Mathlib.Algebra.GroupWithZero.Nat
import Mathlib.Data.Fintype.Defs
import Mathlib.Data.Set.Insert
import Mathlib.Logic.Function.Basic

/-!
# Threads as lists of commands

The functions of `threads.c` and `synchronization.c` as lists of atomic
commands, which are in the order of the statements.  A thread is what it has
still to do of the function it has called; the commands on mutexes are executed
here, the others by the scheduler.
-/

namespace OsProjects.Threads

abbrev maxThreads : ℕ := 128

instance : NeZero maxThreads := ⟨Nat.succ_ne_zero 127⟩

/-- An index of the array `thread_context`. -/
abbrev Slot := Fin maxThreads

/-- A mutex: one of the program, or the `internal_mutex` of a condition variable. -/
inductive Mutex (U C : Type)
  | user (mutex : U)
  | internal (condition : C)
  deriving DecidableEq

inductive Command (U C : Type)
  /-- `while(mutex->locked);` -/
  | spin (mutex : Mutex U C)
  /-- `atomic_compare_exchange_strong(&(mutex->locked), &expected, 1)` -/
  | exchange (mutex : Mutex U C)
  /-- `atomic_store(&mutex->locked, 0)` -/
  | store (mutex : Mutex U C)
  /-- `ll_insert_tail(&condition_variable->waiters_list, &current_thread_context->number)` -/
  | insertTail (condition : C)
  /-- `current_thread_context->state = STATE_BLOCKED` -/
  | block
  /-- `ll_remove_head(&condition_variable->waiters_list)` -/
  | removeHead (condition : C)
  /-- `thread_context[waiter->thread_id].state = STATE_ACTIVE`, if there is a waiter. -/
  | wake
  /-- The test of `while(!thread_cond_signal(condition_variable))` -/
  | signalAgain (condition : C)
  | create
  | yield
  /-- `current_thread_context->state = STATE_FINISHED` -/
  | finish
  /-- The test of `joiner_thread_number` in `thread_exit` -/
  | testJoiner
  /-- `current_thread_context->state = STATE_ACTIVE` -/
  | activate
  | switchToJoiner
  /-- The test for `STATE_FINISHED` in `thread_join` -/
  | testFinished (target : ℤ)
  /-- `thread_context[target_thread_number].state = STATE_INVALID` -/
  | invalidate (target : Slot)
  | setJoiner (target : Slot)
  | switchTo (target : Slot)

variable {U C : Type}

/-! ## `synchronization.c` -/

def threadMutexLock (mutex : Mutex U C) : List (Command U C) := [.spin mutex, .exchange mutex]

def threadMutexUnlock (mutex : Mutex U C) : List (Command U C) := [.store mutex]

def threadCondWait (condition : C) (mutex : U) : List (Command U C) :=
  threadMutexLock (.internal condition) ++ [.insertTail condition, .block] ++
    threadMutexUnlock (.user mutex) ++ threadMutexUnlock (.internal condition) ++
    [.yield] ++ threadMutexLock (.user mutex)

def threadCondSignal (condition : C) : List (Command U C) :=
  threadMutexLock (.internal condition) ++ [.removeHead condition, .wake] ++
    threadMutexUnlock (.internal condition)

def threadCondBroadcast (condition : C) : List (Command U C) :=
  threadCondSignal condition ++ [.signalAgain condition]

/-! ## `threads.c` -/

def threadCreate : List (Command U C) := [.create]

def threadYield : List (Command U C) := [.yield]

def threadExit : List (Command U C) := [.finish, .testJoiner]

def threadJoin (target : ℤ) : List (Command U C) := [.testFinished target]

def Command.OnMutex : Command U C → Prop
  | .spin _ => True
  | .exchange _ => True
  | .store _ => True
  | _ => False

/-- What may come between a command and the next one in the list. -/
def Command.MayContinue : Command U C → List (Command U C) → Prop
  | .signalAgain condition, branch => branch = [] ∨ branch = threadCondBroadcast condition
  | .testJoiner, branch => branch = threadYield ∨ branch = [.activate, .switchToJoiner]
  | .testFinished _, branch => branch = [] ∨
      ∃ i, branch = [.invalidate i] ∨ branch = [.setJoiner i, .block, .switchTo i]
  | _, branch => branch = []

/-! ## Threads -/

inductive Call (U C : Type)
  | lock (mutex : U)
  | unlock (mutex : U)
  | wait (condition : C) (mutex : U)
  | signal (condition : C)
  | broadcast (condition : C)
  | create
  | yield
  | exit
  | join (target : ℤ)

def Call.body : Call U C → List (Command U C)
  | .lock mutex => threadMutexLock (.user mutex)
  | .unlock mutex => threadMutexUnlock (.user mutex)
  | .wait condition mutex => threadCondWait condition mutex
  | .signal condition => threadCondSignal condition
  | .broadcast condition => threadCondBroadcast condition
  | .create => threadCreate
  | .yield => threadYield
  | .exit => threadExit
  | .join target => threadJoin target

/-- The call a thread has made last and what is left of it.  `waiter` is what
`removed_value` in `thread_cond_signal` points to; `held` are the mutexes between
an exchange of the thread that has succeeded and its releasing store. -/
structure Thread (U C : Type) where
  call : Option (Call U C)
  todo : List (Command U C)
  waiter : Option Slot
  held : Set (Mutex U C)

namespace Thread

def idle : Thread U C := ⟨none, [], none, ∅⟩

def begin (thread : Thread U C) (call : Call U C) : Thread U C :=
  { thread with call := some call, todo := call.body }

/-- What `thread_cond_signal` returns. -/
def signalResult (thread : Thread U C) : ℤ := if thread.waiter.isSome then 0 else 1

end Thread

abbrev Locks (U C : Type) := Mutex U C → Bool

/-- The execution of a command on a mutex. -/
def Thread.mutexStep [DecidableEq U] [DecidableEq C] (thread : Thread U C) (locked : Locks U C) :
    Option (Thread U C × Locks U C) :=
  match thread.todo with
  | .spin mutex :: rest =>
      some (if locked mutex then thread else { thread with todo := rest }, locked)
  | .exchange mutex :: rest =>
      if locked mutex then
        some ({ thread with todo := threadMutexLock mutex ++ rest }, locked)
      else
        some ({ thread with todo := rest, held := insert mutex thread.held },
          Function.update locked mutex true)
  | .store mutex :: rest =>
      some ({ thread with todo := rest, held := thread.held \ {mutex} },
        Function.update locked mutex false)
  | _ => none

theorem mutexStep_cases [DecidableEq U] [DecidableEq C] {thread thread' : Thread U C}
    {locked locked' : Locks U C} (h : thread.mutexStep locked = some (thread', locked')) :
    (∃ m rest, thread.todo = .spin m :: rest ∧ locked' = locked ∧
      (thread' = thread ∨ thread' = { thread with todo := rest })) ∨
    (∃ m rest, thread.todo = .exchange m :: rest ∧ locked' = locked ∧
      thread' = { thread with todo := threadMutexLock m ++ rest }) ∨
    (∃ m rest, thread.todo = .exchange m :: rest ∧ locked m = false ∧
      locked' = Function.update locked m true ∧
      thread' = { thread with todo := rest, held := insert m thread.held }) ∨
    ∃ m rest, thread.todo = .store m :: rest ∧ locked' = Function.update locked m false ∧
      thread' = { thread with todo := rest, held := thread.held \ {m} } := by
  rw [Thread.mutexStep] at h
  split at h
  · rename_i m rest htodo
    cases h
    refine .inl ⟨m, rest, htodo, rfl, ?_⟩
    split
    · exact .inl rfl
    · exact .inr rfl
  · rename_i m rest htodo
    split at h
    · cases h
      exact .inr (.inl ⟨m, rest, htodo, rfl, rfl⟩)
    · rename_i hfree
      cases h
      exact .inr (.inr (.inl ⟨m, rest, htodo, by simpa using hfree, rfl, rfl⟩))
  · rename_i m rest htodo
    cases h
    exact .inr (.inr (.inr ⟨m, rest, htodo, rfl, rfl⟩))
  · cases h

theorem not_onMutex_of_mutexStep [DecidableEq U] [DecidableEq C] {thread : Thread U C}
    {locked : Locks U C} {command : Command U C} {rest : List (Command U C)}
    (htodo : thread.todo = command :: rest) (hnone : thread.mutexStep locked = none) :
    ¬ command.OnMutex := by
  intro hmutex
  rw [Thread.mutexStep, htodo] at hnone
  cases command with
  | spin m => cases hnone
  | exchange m =>
      dsimp only at hnone
      split at hnone <;> cases hnone
  | store m => cases hnone
  | _ => exact hmutex

end OsProjects.Threads
