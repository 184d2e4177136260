import OsProjects.Lists.Sequence
import OsProjects.Threads.Scheduler

/-!
# Condition variables

Without preemption a condition variable is used by one thread at a time, and its
list holds the threads that wait, in order.  What a signal finds in the list is the
number of the thread, which is 0, so that it always wakes slot 0.
-/

namespace OsProjects.Threads

open Library.Runs OsProjects.Lists

variable {U C : Type}

/-- No preemption, and `malloc` has a node for each thread that waits. -/
def System.Cooperative (s : System U C) : Action U C → Prop
  | .call _ => True
  | .command newNode => ∀ condition rest, s.thread.todo = .insertTail condition :: rest →
      newNode ≠ none
  | .interrupt => False

/-! ## Commands with the internal mutex -/

def Command.OnUserMutex : Command U C → Prop
  | .spin (.user _) => True
  | .exchange (.user _) => True
  | .store (.user _) => True
  | _ => False

/-- Commands that begin with the given internal mutex locked, if any, and use the list
of a condition variable only while its internal mutex is locked. -/
def Brackets : Option C → List (Command U C) → Prop
  | locked, [] => locked = none
  | locked, .spin (.internal _) :: rest => locked = none ∧ Brackets none rest
  | locked, .exchange (.internal c) :: rest => locked = none ∧ Brackets (some c) rest
  | locked, .store (.internal c) :: rest => locked = some c ∧ Brackets none rest
  | locked, .insertTail c :: rest => locked = some c ∧ Brackets locked rest
  | locked, .removeHead c :: rest => locked = some c ∧ Brackets locked rest
  | locked, .signalAgain _ :: rest => locked = none ∧ rest = []
  | locked, .testJoiner :: rest => locked = none ∧ rest = []
  | locked, .testFinished _ :: rest => locked = none ∧ rest = []
  | locked, .yield :: rest => locked = none ∧ ∀ command ∈ rest, command.OnUserMutex
  | locked, .switchToJoiner :: rest => locked = none ∧ ∀ command ∈ rest, command.OnUserMutex
  | locked, .switchTo _ :: rest => locked = none ∧ ∀ command ∈ rest, command.OnUserMutex
  | locked, _ :: rest => Brackets locked rest

theorem brackets_of_onUserMutex {todo : List (Command U C)}
    (h : ∀ command ∈ todo, command.OnUserMutex) : Brackets none todo := by
  induction todo with
  | nil => rfl
  | cons command rest ih =>
      have hrest := ih fun c hc ↦ h c (List.mem_cons_of_mem _ hc)
      have hcommand := h command List.mem_cons_self
      cases command with
      | spin m => cases m with
        | user m => exact hrest
        | internal c => exact hcommand.elim
      | exchange m => cases m with
        | user m => exact hrest
        | internal c => exact hcommand.elim
      | store m => cases m with
        | user m => exact hrest
        | internal c => exact hcommand.elim
      | _ => exact hcommand.elim

theorem brackets_threadCondBroadcast (c : C) :
    Brackets none (threadCondBroadcast c : List (Command U C)) :=
  ⟨rfl, rfl, rfl, rfl, rfl, rfl⟩

theorem brackets_body (call : Call U C) : Brackets none call.body := by
  cases call with
  | wait c m => exact ⟨rfl, rfl, rfl, rfl, rfl, by simp [threadMutexLock, Command.OnUserMutex]⟩
  | signal c => exact ⟨rfl, rfl, rfl, rfl, rfl⟩
  | broadcast c => exact brackets_threadCondBroadcast c
  | yield => exact ⟨rfl, nofun⟩
  | exit => exact ⟨rfl, rfl⟩
  | join target => exact ⟨rfl, rfl⟩
  | _ => exact rfl

/-! ## The invariant -/

/-- What holds beside the current thread. -/
structure Listed (s : System U C) : Prop where
  unnumbered : s.Unnumbered
  lists : ∀ c, ∃ as, (s.waiters c).Holds as (s.waiting c) ∧ ∀ a ∈ as, a ∈ s.allocated
  suspended : ∀ i ≠ s.current, ∀ thread, (s.context i).buffer = some thread →
    ∀ command ∈ thread.todo, command.OnUserMutex

/-- The internal mutexes that are locked are those that the current thread has locked. -/
def Locked (locks : Locks U C) (locked : Option C) : Prop :=
  ∀ c, locks (.internal c) = true ↔ locked = some c

structure Orderly (s : System U C) : Prop extends Listed s where
  brackets : ∃ locked, Locked s.locked locked ∧ Brackets locked s.thread.todo

namespace Listed

variable {s : System U C} {i : Slot}

theorem setTcb {f : Tcb U C → Tcb U C} (h : Listed s) (hunnumbered : (s.setTcb i f).Unnumbered)
    (hbuffer : ∀ thread, (f (s.context i)).buffer = some thread →
      (s.context i).buffer = some thread ∨ ∀ command ∈ thread.todo, command.OnUserMutex) :
    Listed (s.setTcb i f) where
  unnumbered := hunnumbered
  lists := h.lists
  suspended j hj thread hthread := by
    rw [System.context_setTcb] at hthread
    split at hthread
    · rename_i hji
      subst hji
      exact (hbuffer thread hthread).elim (h.suspended j hj thread) id
    · exact h.suspended j hj thread hthread

theorem setState {x : ThreadState} (h : Listed s) : Listed (s.setState i x) :=
  h.setTcb h.unnumbered.setState fun _ ↦ .inl

/-- A switch when the internal mutexes are free and the rest is on other mutexes. -/
theorem transfer (h : Listed s) (hfree : Locked s.locked none)
    (hmutex : ∀ command ∈ s.thread.todo, command.OnUserMutex) : Orderly (s.transfer i) := by
  have hbuffer (j : Slot) (thread : Thread U C)
      (hthread : ((s.setBuffer s.current s.thread).context j).buffer = some thread) :
      ∀ command ∈ thread.todo, command.OnUserMutex := by
    rw [System.buffer_setBuffer] at hthread
    split at hthread
    · cases hthread
      exact hmutex
    · rename_i hj
      exact h.suspended j hj thread hthread
  have hsaved : Listed (s.setBuffer s.current s.thread) :=
    h.setTcb h.unnumbered.setBuffer fun thread hthread ↦ by
      cases hthread
      exact .inr hmutex
  cases htarget : ((s.setBuffer s.current s.thread).context i).buffer with
  | none =>
      rw [System.transfer_eq_of_none htarget]
      exact ⟨⟨hsaved.unnumbered, hsaved.lists, hsaved.suspended⟩, none, hfree,
        brackets_of_onUserMutex hmutex⟩
  | some thread =>
      rw [System.transfer_eq htarget]
      exact ⟨⟨hsaved.unnumbered, hsaved.lists, fun j _ ↦ hbuffer j⟩, none, hfree,
        brackets_of_onUserMutex (hbuffer i thread htarget)⟩

theorem orderly_setState {x : ThreadState} {locked : Option C} (h : Listed s)
    (hlocked : Locked s.locked locked) (hrest : Brackets locked s.thread.todo) :
    Orderly (s.setState i x) :=
  ⟨h.setState, locked, hlocked, hrest⟩

theorem push {commands : List (Command U C)} {locked : Option C} (h : Listed s)
    (hlocked : Locked s.locked locked) (hrest : Brackets locked (commands ++ s.thread.todo)) :
    Orderly (s.push commands) :=
  ⟨⟨h.unnumbered, h.lists, h.suspended⟩, locked, hlocked, hrest⟩

variable [DecidableEq C]

/-- A list that changes together with the threads that wait. -/
theorem update {t : System U C} {c : C} {list : LinkedList Slot} {as : List Addr} {xs : List Slot}
    (h : Listed s) (hunnumbered : t.Unnumbered)
    (hwaiters : t.waiters = Function.update s.waiters c list)
    (hwaiting : t.waiting = Function.update s.waiting c xs)
    (hholds : list.Holds as xs) (hallocated : ∀ a ∈ as, a ∈ t.allocated)
    (hmore : s.allocated ⊆ t.allocated) (hcurrent : t.current = s.current)
    (hcontext : t.context = s.context) : Listed t where
  unnumbered := hunnumbered
  lists d := by
    rw [hwaiters, hwaiting]
    by_cases hd : d = c
    · subst hd
      simpa using ⟨as, hholds, hallocated⟩
    · obtain ⟨bs, hbs, hmem⟩ := h.lists d
      refine ⟨bs, ?_, fun a ha ↦ hmore (hmem a ha)⟩
      rwa [Function.update_of_ne hd, Function.update_of_ne hd]
  suspended := by
    rw [hcurrent, hcontext]
    exact h.suspended

theorem insertTail (h : Listed s) (c : C) {a : Addr} (hfresh : a ∉ s.allocated) :
    Listed (s.perform (some a) (.insertTail c)) := by
  obtain ⟨as, hholds, hallocated⟩ := h.lists c
  have hnew : a ∉ as := fun ha ↦ hfresh (hallocated a ha)
  refine h.update h.unnumbered rfl rfl (hholds.insertTail hnew) ?_ Set.subset_union_left rfl rfl
  intro b hb
  rcases List.mem_append.mp hb with hb | hb
  · exact .inl (hallocated b hb)
  · exact .inr (congrArg some (List.mem_singleton.mp hb).symm)

theorem perform {command : Command U C} {locked : Option C} (h : Listed s)
    (hlocked : Locked s.locked locked) (hbrackets : Brackets locked (command :: s.thread.todo))
    (hother : ¬ command.OnMutex) (newNode : Option Addr)
    (hnode : ∀ c, command = .insertTail c → newNode ≠ none)
    (hfresh : ∀ a ∈ newNode, a ∉ s.allocated) : Orderly (s.perform newNode command) := by
  cases command with
  | spin m => exact absurd trivial hother
  | exchange m => exact absurd trivial hother
  | store m => exact absurd trivial hother
  | block => exact h.orderly_setState hlocked hbrackets
  | activate => exact h.orderly_setState hlocked hbrackets
  | invalidate i => exact h.orderly_setState hlocked hbrackets
  | finish =>
      have hfinished := h.orderly_setState (i := s.current) (x := .finished) hlocked hbrackets
      exact ⟨⟨hfinished.unnumbered, hfinished.lists, hfinished.suspended⟩, hfinished.brackets⟩
  | insertTail c =>
      obtain ⟨a, rfl⟩ := Option.ne_none_iff_exists'.mp (hnode c rfl)
      exact ⟨h.insertTail c (hfresh a rfl), locked, hlocked, hbrackets.2⟩
  | removeHead c =>
      obtain ⟨as, hholds, hallocated⟩ := h.lists c
      refine ⟨?_, locked, hlocked, hbrackets.2⟩
      exact h.update h.unnumbered rfl rfl hholds.removeHead
        (fun a ha ↦ hallocated a (List.mem_of_mem_tail ha)) subset_rfl rfl rfl
  | wake =>
      rw [System.perform_wake newNode h.unnumbered]
      split
      · exact ⟨h, locked, hlocked, hbrackets⟩
      · exact h.orderly_setState hlocked hbrackets
  | signalAgain c =>
      obtain ⟨rfl, hrest⟩ := hbrackets
      rw [System.perform]
      split
      · apply h.push hlocked
        rw [hrest, List.append_nil]
        exact brackets_threadCondBroadcast c
      · refine ⟨h, none, hlocked, ?_⟩
        rw [hrest]
        rfl
  | create =>
      rw [System.perform]
      split
      · rename_i i _
        have hactive : Listed (s.setState i .active) := h.setState
        have hbuffer : Listed ((s.setState i .active).setBuffer i .idle) :=
          hactive.setTcb hactive.unnumbered.setBuffer fun thread hthread ↦ by
            cases hthread
            refine .inr ?_
            rintro _ ⟨⟩
        exact ⟨⟨hbuffer.unnumbered, hbuffer.lists, hbuffer.suspended⟩, locked, hlocked, hbrackets⟩
      · exact ⟨h, locked, hlocked, hbrackets⟩
  | yield =>
      obtain ⟨rfl, hmutex⟩ := hbrackets
      rw [System.perform]
      split
      · exact h.transfer hlocked hmutex
      · exact ⟨h, none, hlocked, brackets_of_onUserMutex hmutex⟩
  | testJoiner =>
      obtain ⟨rfl, hrest⟩ := hbrackets
      rw [System.perform_testJoiner newNode h.unnumbered]
      apply h.push hlocked
      rw [hrest]
      refine ⟨rfl, ?_⟩
      rintro _ ⟨⟩
  | switchToJoiner =>
      obtain ⟨rfl, hmutex⟩ := hbrackets
      rw [System.perform_switchToJoiner newNode h.unnumbered]
      exact h.transfer hlocked hmutex
  | testFinished target =>
      obtain ⟨rfl, hrest⟩ := hbrackets
      rw [System.perform]
      split
      · refine ⟨⟨h.unnumbered, h.lists, h.suspended⟩, none, hlocked, ?_⟩
        exact hrest ▸ rfl
      · split
        · apply h.push hlocked
          rw [hrest]
          rfl
        · apply h.push hlocked
          rw [hrest]
          refine ⟨rfl, ?_⟩
          rintro _ ⟨⟩
  | setJoiner i =>
      rw [System.perform]
      refine ⟨?_, locked, hlocked, hbrackets⟩
      exact h.setTcb (h.unnumbered.setTcb fun _ hnumber _ ↦ ⟨hnumber, (h.unnumbered s.current).1⟩)
        fun _ ↦ .inl
  | switchTo i =>
      obtain ⟨rfl, hmutex⟩ := hbrackets
      exact h.transfer hlocked hmutex

end Listed

/-! ## Steps -/

variable [DecidableEq U] [DecidableEq C] {s t : System U C}

namespace Locked

variable {locks : Locks U C} {locked : Option C} {m : U} {c : C} {x : Bool}

theorem update_user (h : Locked locks locked) :
    Locked (Function.update locks (.user m) x) locked := by
  intro d
  have hne : Mutex.internal d ≠ Mutex.user m := nofun
  rw [Function.update_of_ne hne]
  exact h d

theorem take (h : Locked locks none) : Locked (Function.update locks (.internal c) true) (some c) := by
  intro d
  by_cases hd : d = c
  · simp [hd]
  · have hnone := h d
    simpa [Function.update_apply, hd, Ne.symm hd] using hnone

theorem release (h : Locked locks (some c)) :
    Locked (Function.update locks (.internal c) false) none := by
  intro d
  by_cases hd : d = c
  · simp [hd]
  · have hsome := h d
    simpa [Function.update_apply, hd, Ne.symm hd] using hsome

end Locked

theorem Orderly.mutexStep (h : Orderly s) {thread : Thread U C} {locks : Locks U C}
    (hstep : s.thread.mutexStep s.locked = some (thread, locks)) :
    Orderly { s with thread := thread, locked := locks } := by
  obtain ⟨locked, hlocked, hbrackets⟩ := h.brackets
  refine ⟨⟨h.unnumbered, h.lists, h.suspended⟩, ?_⟩
  rcases mutexStep_cases hstep with ⟨m, rest, htodo, rfl, rfl | rfl⟩ |
    ⟨m, rest, htodo, rfl, rfl⟩ | ⟨m, rest, htodo, -, rfl, rfl⟩ | ⟨m, rest, htodo, rfl, rfl⟩
  · exact h.brackets
  · rw [htodo] at hbrackets
    refine ⟨locked, hlocked, ?_⟩
    cases m with
    | user m => exact hbrackets
    | internal c =>
        obtain ⟨rfl, hrest⟩ := hbrackets
        exact hrest
  · rw [htodo] at hbrackets
    refine ⟨locked, hlocked, ?_⟩
    cases m with
    | user m => exact hbrackets
    | internal c =>
        obtain ⟨rfl, hrest⟩ := hbrackets
        exact ⟨rfl, rfl, hrest⟩
  · rw [htodo] at hbrackets
    cases m with
    | user m => exact ⟨locked, hlocked.update_user, hbrackets⟩
    | internal c =>
        obtain ⟨rfl, hrest⟩ := hbrackets
        exact ⟨some c, hlocked.take, hrest⟩
  · rw [htodo] at hbrackets
    cases m with
    | user m => exact ⟨locked, hlocked.update_user, hbrackets⟩
    | internal c =>
        obtain ⟨rfl, hrest⟩ := hbrackets
        exact ⟨none, hlocked.release, hrest⟩

theorem Orderly.exec (h : Orderly s) {newNode : Option Addr} (htodo : s.thread.todo ≠ [])
    (hfresh : ∀ a ∈ newNode, a ∉ s.allocated) (hallowed : s.Cooperative (.command newNode)) :
    Orderly (s.exec newNode) := by
  apply System.exec_induction htodo
  · intro thread locks
    exact h.mutexStep
  · intro command rest hcons hother
    obtain ⟨locked, hlocked, hbrackets⟩ := h.brackets
    rw [hcons] at hbrackets
    have hrest : Listed (s.setTodo rest) := ⟨h.unnumbered, h.lists, h.suspended⟩
    exact hrest.perform hlocked hbrackets hother newNode
      (fun c hc ↦ hallowed c rest (hc ▸ hcons)) hfresh

theorem Orderly.exec_none (h : Orderly s) {command : Command U C} {rest : List (Command U C)}
    (htodo : s.thread.todo = command :: rest) (hcommand : ∀ c, command ≠ .insertTail c) :
    Orderly (s.exec none) := by
  apply h.exec
  · rw [htodo]
    exact List.cons_ne_nil _ _
  · exact nofun
  · intro c rest' hcons
    rw [htodo] at hcons
    exact absurd (List.cons.inj hcons).1 (hcommand c)

omit [DecidableEq U] [DecidableEq C] in
theorem Orderly.begin (h : Orderly s) (htodo : s.thread.todo = []) (call : Call U C) :
    Orderly (s.begin call) := by
  obtain ⟨locked, hlocked, hbrackets⟩ := h.brackets
  rw [htodo] at hbrackets
  obtain rfl : locked = none := hbrackets
  exact ⟨⟨h.unnumbered, h.lists, h.suspended⟩, none, hlocked, brackets_body call⟩

theorem Orderly.step (h : Orderly s) {a : Action U C} (hstep : Step System.Cooperative s a t) :
    Orderly t := by
  cases hstep with
  | interrupt _ hallowed => exact hallowed.elim
  | command _ htodo hfresh hallowed => exact h.exec htodo hfresh hallowed
  | @call call _ htodo => exact h.begin htodo call

theorem orderly_of_run {l : List (Action U C)}
    (hrun : Run (Step System.Cooperative) (threadInit U C) l s) : Orderly s := by
  have hstart : Orderly (threadInit U C) :=
    ⟨⟨fun _ ↦ ⟨rfl, rfl⟩, fun _ ↦ ⟨[], ⟨LinkedList.linked_llInit, rfl⟩, nofun⟩, nofun⟩,
      none, fun _ ↦ by simp [threadInit], rfl⟩
  exact hrun.invariant hstart fun _ _ _ h hstep ↦ h.step hstep

/-! ## A signal -/

namespace System

variable {m : Mutex U C} {newNode : Option Addr} {rest : List (Command U C)} {c : C}

theorem exec_spin (htodo : s.thread.todo = .spin m :: rest) (hfree : s.locked m = false) :
    s.exec newNode = s.setTodo rest := by
  simp [exec, Thread.mutexStep, htodo, hfree, setTodo]

theorem exec_exchange (htodo : s.thread.todo = .exchange m :: rest) (hfree : s.locked m = false) :
    s.exec newNode = { s with
      thread := { s.thread with todo := rest, held := insert m s.thread.held }
      locked := Function.update s.locked m true } := by
  simp [exec, Thread.mutexStep, htodo, hfree]

theorem exec_lock (htodo : s.thread.todo = threadMutexLock m ++ rest) (hfree : s.locked m = false) :
    (s.exec none).exec none = { s with
      thread := { s.thread with todo := rest, held := insert m s.thread.held }
      locked := Function.update s.locked m true } := by
  rw [exec_spin htodo hfree]
  exact exec_exchange rfl hfree

theorem exec_store (htodo : s.thread.todo = .store m :: rest) : s.exec newNode = { s with
      thread := { s.thread with todo := rest, held := s.thread.held \ {m} }
      locked := Function.update s.locked m false } := by
  simp [exec, Thread.mutexStep, htodo]

theorem exec_wake (h : s.Unnumbered) (htodo : s.thread.todo = .wake :: rest) :
    s.exec newNode = if s.thread.waiter = none then s.setTodo rest else
      (s.setTodo rest).setState 0 .active :=
  (exec_eq_perform htodo id).trans (perform_wake newNode h)

end System

/-- What a signal does: its result depends on whether a thread waits, and slot 0 is woken
whoever waits. -/
structure Signalled (s : System U C) (c : C) (rest : List (Command U C)) (t : System U C) : Prop where
  orderly : Orderly t
  todo : t.thread.todo = rest
  result : t.thread.signalResult = if s.waiting c = [] then 1 else 0
  state : t.state = if s.waiting c = [] then s.state else Function.update s.state 0 .active
  waiting : t.waiting = Function.update s.waiting c (s.waiting c).tail
  undefined : t.undefined = s.undefined

theorem Orderly.signal (h : Orderly s) {c : C} {rest : List (Command U C)}
    (htodo : s.thread.todo = threadCondSignal c ++ rest) :
    Signalled s c rest ((System.exec · none)^[5] s) := by
  obtain ⟨locked, hlocked, hbrackets⟩ := h.brackets
  rw [htodo] at hbrackets
  obtain rfl : locked = none := hbrackets.1
  have hfree : s.locked (.internal c) = false := by
    have hnone := hlocked c
    simpa using hnone
  obtain ⟨as, hholds, -⟩ := h.lists c
  have hwaiter : (llRemoveHead (s.waiters c)).1 = none ↔ s.waiting c = [] :=
    hholds.llRemoveHead_eq_none
  have hspin : (s.exec none).thread.todo =
      .exchange (.internal c) :: .removeHead c :: .wake :: .store (.internal c) :: rest := by
    rw [System.exec_spin htodo hfree]
    rfl
  have hlocks := (h.exec_none htodo nofun).exec_none hspin nofun
  have hlock := System.exec_lock htodo hfree
  obtain ⟨u, hu, hutodo, hustate, huwaiters, huwaiting, huundefined⟩ :
      ∃ u, (s.exec none).exec none = u ∧
        u.thread.todo = .removeHead c :: .wake :: .store (.internal c) :: rest ∧
        u.state = s.state ∧ u.waiters = s.waiters ∧ u.waiting = s.waiting ∧
        u.undefined = s.undefined :=
    ⟨_, hlock, rfl, rfl, rfl, rfl, rfl⟩
  rw [hu] at hlocks
  have hremoves := hlocks.exec_none hutodo nofun
  obtain ⟨v, hv, hvtodo, hvwaiter, hvstate, hvwaiting, hvundefined⟩ :
      ∃ v, u.exec none = v ∧ v.thread.todo = .wake :: .store (.internal c) :: rest ∧
        (v.thread.waiter = none ↔ s.waiting c = []) ∧ v.state = s.state ∧
        v.waiting = Function.update s.waiting c (s.waiting c).tail ∧ v.undefined = s.undefined := by
    refine ⟨_, System.exec_eq_perform hutodo id, rfl, ?_, hustate, ?_, huundefined⟩
    · rw [← hwaiter, ← huwaiters]
      exact Option.map_eq_none_iff
    · rw [← huwaiting]
      rfl
  rw [hv] at hremoves
  have hwakes := hremoves.exec_none hvtodo nofun
  obtain ⟨w, hw, hwtodo, hwwaiter, hwstate, hwwaiting, hwundefined⟩ :
      ∃ w, v.exec none = w ∧ w.thread.todo = .store (.internal c) :: rest ∧
        w.thread.waiter = v.thread.waiter ∧
        w.state = (if s.waiting c = [] then s.state else Function.update s.state 0 .active) ∧
        w.waiting = v.waiting ∧ w.undefined = v.undefined := by
    rw [System.exec_wake hremoves.unnumbered hvtodo]
    by_cases hempty : s.waiting c = []
    · rw [if_pos (hvwaiter.mpr hempty), if_pos hempty]
      exact ⟨_, rfl, rfl, rfl, hvstate, rfl, rfl⟩
    · rw [if_neg (hvwaiter.not.mpr hempty), if_neg hempty]
      refine ⟨_, rfl, rfl, rfl, ?_, rfl, rfl⟩
      rw [System.state_setState_eq, ← hvstate]
      rfl
  rw [hw] at hwakes
  have hstore : (System.exec · none)^[5] s = w.exec none := by
    rw [← hw, ← hv, ← hu]
    rfl
  rw [hstore]
  refine ⟨hwakes.exec_none hwtodo nofun, ?_, ?_, ?_, ?_, ?_⟩ <;> rw [System.exec_store hwtodo]
  · have hsome : w.thread.waiter.isSome = true ↔ s.waiting c ≠ [] := by
      rw [Option.isSome_iff_ne_none, hwwaiter]
      exact hvwaiter.not
    by_cases hempty : s.waiting c = []
    · rw [if_pos hempty]
      exact if_neg fun h ↦ hsome.mp h hempty
    · rw [if_neg hempty]
      exact if_pos (hsome.mpr hempty)
  · exact hwstate
  · exact hwwaiting.trans hvwaiting
  · exact hwundefined.trans hvundefined

/-! ## A broadcast -/

/-- A broadcast comes to its end, when nobody waits, and wakes slot 0 if somebody has waited. -/
theorem Orderly.broadcast (h : Orderly s) {c : C} (htodo : s.thread.todo = threadCondBroadcast c) :
    ∃ n t, (System.exec · none)^[n] s = t ∧ t.thread.todo = [] ∧ t.undefined = s.undefined ∧
      t.state = (if s.waiting c = [] then s.state else Function.update s.state 0 .active) ∧
      t.waiting c = [] := by
  generalize hwaiting : s.waiting c = waiting
  induction waiting generalizing s with
  | nil =>
      obtain ⟨horderly, hagain, hresult, hstate, hleft, hundefined⟩ := h.signal htodo
      rw [if_pos hwaiting] at hresult hstate
      have hend : (System.exec · none)^[6] s = ((System.exec · none)^[5] s).setTodo [] := by
        rw [Function.iterate_succ_apply', System.exec_eq_perform hagain id, System.perform]
        refine if_neg fun hzero ↦ ?_
        cases hresult.symm.trans hzero
      refine ⟨6, _, hend, rfl, hundefined, hstate, ?_⟩
      have hnone := congrFun hleft c
      rwa [hwaiting, Function.update_self] at hnone
  | cons first rest ih =>
      obtain ⟨horderly, hagain, hresult, hstate, hleft, hundefined⟩ := h.signal htodo
      have hwaits : s.waiting c ≠ [] := hwaiting ▸ List.cons_ne_nil first rest
      rw [if_neg hwaits] at hresult hstate
      have hpush : (System.exec · none)^[6] s =
          (((System.exec · none)^[5] s).setTodo []).push (threadCondBroadcast c) := by
        rw [Function.iterate_succ_apply', System.exec_eq_perform hagain id, System.perform]
        exact if_pos hresult
      have hagain' : Orderly ((System.exec · none)^[6] s) := by
        rw [Function.iterate_succ_apply']
        refine horderly.exec_none hagain ?_
        rintro _ ⟨⟩
      have hrest : ((System.exec · none)^[6] s).waiting c = rest := by
        have htail := congrFun hleft c
        rw [hwaiting, Function.update_self] at htail
        rw [hpush]
        exact htail
      obtain ⟨n, t, ht, htodo', hundefined', hstate', hwaiting'⟩ :=
        ih hagain' (by rw [hpush]; exact List.append_nil _) hrest
      refine ⟨n + 6, t, ?_, htodo', ?_, ?_, hwaiting'⟩
      · rw [Function.iterate_add_apply]
        exact ht
      · rw [hundefined', hpush]
        exact hundefined
      · have hsame : ((System.exec · none)^[6] s).state = Function.update s.state 0 .active := by
          rw [hpush]
          exact hstate
        rw [hstate', hsame, Function.update_idem, ite_self, if_neg (List.cons_ne_nil _ _)]

/-! ## What the calls are for -/

/-- A signal wakes the thread that has waited longest and no other one. -/
def System.WakesFirst (s : System U C) (c : C) (t : System U C) : Prop :=
  match s.waiting c with
  | [] => t.thread.signalResult = 1 ∧ t.state = s.state ∧ t.waiting c = []
  | first :: rest => t.thread.signalResult = 0 ∧
      t.state = Function.update s.state first .active ∧ t.waiting c = rest

/-- A broadcast wakes all threads that wait and no other one. -/
def System.WakesAll (s : System U C) (c : C) (t : System U C) : Prop :=
  t.waiting c = [] ∧ ∀ i, t.state i = if i ∈ s.waiting c then .active else s.state i

omit [DecidableEq U] [DecidableEq C] in
theorem update_active_eq_iff {state : Slot → ThreadState} {i j : Slot} :
    Function.update state i .active = Function.update state j .active ↔
      i = j ∨ state i = .active ∧ state j = .active := by
  constructor
  · intro heq
    by_cases hij : i = j
    · exact .inl hij
    · have hi := congrFun heq i
      have hj := congrFun heq j
      rw [Function.update_self, Function.update_of_ne hij] at hi
      rw [Function.update_self, Function.update_of_ne (Ne.symm hij)] at hj
      exact .inr ⟨hi.symm, hj⟩
  · rintro (rfl | ⟨hi, hj⟩)
    · rfl
    · rw [← hi, Function.update_eq_self, hi, ← hj, Function.update_eq_self]

omit [DecidableEq U] in
theorem Signalled.wakesFirst_iff {c : C} {rest : List (Command U C)} (h : Signalled s c rest t) :
    s.WakesFirst c t ↔ ∀ first ∈ (s.waiting c).head?,
      first = 0 ∨ s.state first = .active ∧ s.state 0 = .active := by
  have hresult := h.result
  have hstate := h.state
  have hleft := congrFun h.waiting c
  rw [Function.update_self] at hleft
  rw [System.WakesFirst]
  cases hwaiting : s.waiting c with
  | nil =>
      rw [hwaiting] at hresult hstate hleft
      simp [hresult, hstate, hleft]
  | cons first rest =>
      rw [hwaiting] at hresult hstate hleft
      simp only [List.cons_ne_nil, if_false] at hresult hstate
      simp only [hresult, hstate, hleft, List.tail_cons, true_and, and_true, List.head?_cons,
        Option.mem_some_iff, forall_eq']
      rw [eq_comm, update_active_eq_iff]

omit [DecidableEq U] [DecidableEq C] in
theorem wakesAll_iff {c : C}
    (hstate : t.state = if s.waiting c = [] then s.state else Function.update s.state 0 .active)
    (hleft : t.waiting c = []) : s.WakesAll c t ↔
      (∀ i ∈ s.waiting c, i = 0 ∨ s.state i = .active) ∧
        (s.waiting c = [] ∨ 0 ∈ s.waiting c ∨ s.state 0 = .active) := by
  rw [System.WakesAll, and_iff_right hleft]
  by_cases hempty : s.waiting c = []
  · rw [if_pos hempty] at hstate
    simp [hstate, hempty]
  · rw [if_neg hempty] at hstate
    have hmain : t.state 0 = .active := hstate ▸ Function.update_self ..
    have hothers (i : Slot) (hi : i ≠ 0) : t.state i = s.state i :=
      hstate ▸ Function.update_of_ne hi ..
    constructor
    · intro hall
      constructor
      · intro i hi
        by_cases hzero : i = 0
        · exact .inl hzero
        · right
          rw [← hothers i hzero, hall i, if_pos hi]
      · right
        by_cases hwaits : 0 ∈ s.waiting c
        · exact .inl hwaits
        · right
          rw [← hmain, hall 0, if_neg hwaits]
    · rintro ⟨hwaits, hwoken⟩ i
      by_cases hzero : i = 0
      · subst hzero
        split
        · exact hmain
        · rename_i hnot
          rw [hmain, (hwoken.resolve_left hempty).resolve_left hnot]
      · rw [hothers i hzero]
        split
        · rename_i hi
          exact (hwaits i hi).resolve_left hzero
        · rfl

/-- A signal meets its purpose if the thread that has waited longest is that of slot 0, and a
broadcast if no other thread than that of slot 0 has waited, unless they are active. -/
theorem cond_wakes_iff {l : List (Action U C)}
    (hrun : Run (Step System.Cooperative) (threadInit U C) l s) (hdefined : s.undefined = false)
    (htodo : s.thread.todo = []) (c : C) :
    ((s.after (.signal c) 5).thread.todo = [] ∧ (s.after (.signal c) 5).undefined = false ∧
      (s.WakesFirst c (s.after (.signal c) 5) ↔ ∀ first ∈ (s.waiting c).head?,
        first = 0 ∨ s.state first = .active ∧ s.state 0 = .active)) ∧
    ∃ n, (s.after (.broadcast c) n).thread.todo = [] ∧
      (s.after (.broadcast c) n).undefined = false ∧
      (s.WakesAll c (s.after (.broadcast c) n) ↔
        (∀ i ∈ s.waiting c, i = 0 ∨ s.state i = .active) ∧
          (s.waiting c = [] ∨ 0 ∈ s.waiting c ∨ s.state 0 = .active)) := by
  have horderly := orderly_of_run hrun
  constructor
  · have hsignal := (horderly.begin htodo (.signal c)).signal (List.append_nil _).symm
    refine ⟨hsignal.todo, hsignal.undefined.trans hdefined, ?_⟩
    exact hsignal.wakesFirst_iff
  · obtain ⟨n, t, rfl, hreturned, hundefined, hstate, hwaiting⟩ :=
      (horderly.begin htodo (.broadcast c)).broadcast rfl
    refine ⟨n, hreturned, hundefined.trans hdefined, ?_⟩
    exact wakesAll_iff hstate hwaiting

/-! ## Runs with a waiting thread -/

def Command.isInsertTail : Command U C → Bool
  | .insertTail _ => true
  | _ => false

theorem cooperative_execs {n : ℕ} (h : ∀ k < n, ((System.exec · none)^[k] s).thread.todo.head?.all
    (fun command ↦ !command.isInsertTail) = true) :
    ∀ k < n, ((System.exec · none)^[k] s).Cooperative (.command none) := by
  intro k hk c rest htodo
  have hhead := h k hk
  rw [htodo] at hhead
  cases hhead

theorem cond_wakes_iff_main : ∃ (l : List (Action Unit Unit)) (s : System Unit Unit),
    Run (Step System.Cooperative) (threadInit Unit Unit) l s ∧ s.waiting () = [0] ∧
      s.state 0 = .blocked ∧ s.WakesFirst () (s.after (.signal ()) 5) := by
  have hcreate : Run (Step System.Cooperative) (threadInit Unit Unit) _ _ :=
    run_after .nil .create 1 ⟨rfl, rfl, trivial⟩ (cooperative_execs (by decide)) (by decide)
  have hlock := run_after hcreate (.lock ()) 2 ⟨rfl, rfl, trivial⟩ (cooperative_execs (by decide))
    (by decide)
  have hwait := run_after hlock (.wait () ()) 2 ⟨rfl, rfl, trivial⟩ (cooperative_execs (by decide))
    (by decide)
  have hinsert := hwait.snoc (.command rfl nofun (fun a _ ↦ Set.notMem_empty a) fun _ _ _ ↦
    Option.some_ne_none 1)
  have hblocked := run_execs hinsert 4 (cooperative_execs (by decide)) (by decide)
  refine ⟨_, _, hblocked, rfl, rfl, (cond_wakes_iff hblocked rfl rfl ()).1.2.2.mpr ?_⟩
  intro first hfirst
  cases hfirst
  exact .inl rfl

/-- A signal for the thread of slot 1 leaves it blocked. -/
theorem waiter_not_woken : ∃ (l : List (Action Unit Unit)) (s : System Unit Unit),
    Run (Step System.Cooperative) (threadInit Unit Unit) l s ∧ s.undefined = false ∧
      s.thread.todo = [] ∧ s.waiting () = [1] ∧ ¬ s.WakesFirst () (s.after (.signal ()) 5) := by
  have hfirst : Run (Step System.Cooperative) (threadInit Unit Unit) _ _ :=
    run_after .nil .create 1 ⟨rfl, rfl, trivial⟩ (cooperative_execs (by decide)) (by decide)
  have hsecond := run_after hfirst .create 1 ⟨rfl, rfl, trivial⟩ (cooperative_execs (by decide))
    (by decide)
  have hyield := run_after hsecond .yield 1 ⟨rfl, rfl, trivial⟩ (cooperative_execs (by decide))
    (by decide)
  have hlock := run_after hyield (.lock ()) 2 ⟨rfl, rfl, trivial⟩ (cooperative_execs (by decide))
    (by decide)
  have hwait := run_after hlock (.wait () ()) 2 ⟨rfl, rfl, trivial⟩ (cooperative_execs (by decide))
    (by decide)
  have hinsert := hwait.snoc (.command rfl nofun (fun a _ ↦ Set.notMem_empty a) fun _ _ _ ↦
    Option.some_ne_none 1)
  have hblocked := run_execs hinsert 4 (cooperative_execs (by decide)) (by decide)
  have horderly := (orderly_of_run hblocked).begin rfl (.signal ())
  refine ⟨_, _, hblocked, rfl, rfl, rfl, fun hwakes ↦ ?_⟩
  rcases (horderly.signal rfl).wakesFirst_iff.mp hwakes 1 rfl with hzero | ⟨hactive, -⟩
  · cases hzero
  · cases hactive

end OsProjects.Threads
