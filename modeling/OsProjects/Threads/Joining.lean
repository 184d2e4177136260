import OsProjects.Threads.Scheduler
import Mathlib.Tactic.IntervalCases

/-!
# Joins and exits

The number of a joiner is never the -1 that `thread_exit` tests for, so that an
exit always makes its thread active again and resumes slot 0.  What is left of the
purpose of joins holds while nobody exits: a thread that has joined another one
does not come back, unless somebody joins it in turn.
-/

namespace OsProjects.Threads

open Library.Runs OsProjects.Lists

variable {U C : Type}

/-- A created thread that has exited remains finished until its slot is invalidated; an
exit is for good; and a join that has returned has met the exit of its target. -/
structure System.JoinsMeetExits (s : System U C) : Prop where
  finished : ∀ i ∈ s.exited, i ≠ 0 → s.state i = .finished ∨ s.state i = .invalid
  exit : s.thread.call = some .exit → s.thread.todo ≠ []
  join : ∀ target, s.thread.call = some (.join target) → s.thread.todo = [] →
    s.state s.current = .active ∧ ∃ i, slotAt target = some i ∧ i ∈ s.exited ∧
      s.state i = .invalid ∧ (s.context i).joinerThreadNumber = (s.current : ℕ)

/-- The thread waits in a `thread_join`, or is about to wait for itself. -/
def System.AwaitsInJoin (s : System U C) (i : Slot) : Prop :=
  i = s.current ∨ ∃ thread target, (s.context i).buffer = some thread ∧
    thread.call = some (.join target) ∧ thread.todo = []

/-- No exits, and no switch of a `thread_join` to a thread that waits in one. -/
def System.JoinsRunning (s : System U C) : Action U C → Prop
  | .call call => call ≠ .exit
  | .command _ => ∀ i rest, s.thread.todo = .switchTo i :: rest → ¬ s.AwaitsInJoin i
  | .interrupt => True

/-! ## Threads in a join -/

/-- A `thread_join` that has still to switch, which it does when `stopped` holds. -/
def Switches : Prop → List (Command U C) → Prop
  | _, .testFinished _ :: rest => rest = []
  | stopped, .setJoiner _ :: rest => Switches stopped rest
  | _, .block :: rest => Switches True rest
  | stopped, .yield :: rest => Switches stopped rest
  | stopped, .switchTo _ :: rest => rest = [] ∧ stopped
  | _, _ => False

theorem Switches.mono {p q : Prop} (hpq : p → q) {todo : List (Command U C)}
    (h : Switches p todo) : Switches q todo := by
  fun_induction Switches p todo with
  | case1 => exact h
  | case2 p i rest ih => exact ih hpq h
  | case3 => exact h
  | case4 p rest ih => exact ih hpq h
  | case5 => exact ⟨h.1, hpq h.2⟩
  | case6 => exact h.elim

/-- The command belongs to what the thread may have called. -/
def Thread.Fits (thread : Thread U C) : Command U C → Prop
  | .finish => False
  | .testJoiner => False
  | .activate => False
  | .switchToJoiner => False
  | .invalidate _ => False
  | .testFinished _ => ∃ target, thread.call = some (.join target)
  | .setJoiner _ => ∃ target, thread.call = some (.join target)
  | .switchTo _ => ∃ target, thread.call = some (.join target)
  | _ => True

structure Thread.NoExit (thread : Thread U C) : Prop where
  call : thread.call ≠ some .exit
  todo : ∀ command ∈ thread.todo, thread.Fits command

theorem noExit_begin {thread : Thread U C} {call : Call U C} (hcall : call ≠ .exit) :
    (thread.begin call).NoExit := by
  refine ⟨fun h ↦ hcall (Option.some.inj h), ?_⟩
  cases call with
  | exit => exact absurd rfl hcall
  | join target =>
      intro command hcommand
      obtain rfl := List.mem_singleton.mp hcommand
      exact ⟨target, rfl⟩
  | _ =>
      simp [Thread.begin, Call.body, threadMutexLock, threadMutexUnlock, threadCondWait,
        threadCondSignal, threadCondBroadcast, threadCreate, threadYield, Thread.Fits]

/-- The thread does not become active unless its slot is 0. -/
def System.Stopped (s : System U C) (i : Slot) : Prop := i = 0 ∨ s.state i = .blocked

theorem Thread.NoExit.of_call_eq {f g : Thread U C} (h : f.NoExit) (hcall : g.call = f.call)
    (htodo : ∀ command ∈ g.todo, command ∈ f.todo ∨ f.Fits command) : g.NoExit := by
  refine ⟨hcall ▸ h.call, fun command hcommand ↦ ?_⟩
  have hfits : f.Fits command := (htodo command hcommand).elim (h.todo command) id
  have heq : g.Fits command = f.Fits command := by
    cases command <;> simp [Thread.Fits, hcall]
  exact heq.mpr hfits

/-! ## The invariant -/

/-- What holds beside the current thread. -/
structure Apart (s : System U C) : Prop where
  unnumbered : s.Unnumbered
  exited : s.exited = ∅
  unfinished : ∀ i, s.state i ≠ .finished
  invalid : ∀ i, s.state i = .invalid → i ≠ s.current ∧ (s.context i).buffer = none
  suspended : ∀ i ≠ s.current, ∀ thread, (s.context i).buffer = some thread →
    thread.NoExit ∧ ∀ target, thread.call = some (.join target) →
      Switches (s.Stopped i) thread.todo ∨ thread.todo = [] ∧ s.Stopped i

structure Unjoined (s : System U C) : Prop extends Apart s where
  noExit : s.thread.NoExit
  switches : ∀ target, s.thread.call = some (.join target) →
    Switches (s.Stopped s.current) s.thread.todo

theorem Unjoined.joinsMeetExits {s : System U C} (h : Unjoined s) : s.JoinsMeetExits where
  finished i hi := by
    rw [h.exited] at hi
    exact hi.elim
  exit hcall := (h.noExit.call hcall).elim
  join target hcall htodo := by
    have hswitches := h.switches target hcall
    rw [htodo] at hswitches
    exact hswitches.elim

namespace Apart

variable {s : System U C} {i : Slot}

theorem setState {x : ThreadState} (h : Apart s) (hfinished : x ≠ .finished)
    (hinvalid : x ≠ .invalid) (hi : i = s.current ∨ i = 0) : Apart (s.setState i x) where
  unnumbered := h.unnumbered.setState
  exited := h.exited
  unfinished j := by
    rw [System.state_setState]
    split
    · exact hfinished
    · exact h.unfinished j
  invalid j hj := by
    rw [System.state_setState] at hj
    rw [System.buffer_setState]
    split at hj
    · exact absurd hj hinvalid
    · exact h.invalid j hj
  suspended j hj thread hthread := by
    rw [System.buffer_setState] at hthread
    obtain ⟨hnoExit, hjoin⟩ := h.suspended j hj thread hthread
    have hstopped : s.Stopped j → (s.setState i x).Stopped j := by
      rintro (hzero | hblocked)
      · exact .inl hzero
      · by_cases hji : j = i
        · exact .inl (hji.trans (hi.resolve_left fun hic ↦ hj (hji.trans hic)))
        · exact .inr ((System.state_setState _).trans ((if_neg hji).trans hblocked))
    refine ⟨hnoExit, fun target htarget ↦ ?_⟩
    exact (hjoin target htarget).imp (Switches.mono hstopped) (And.imp_right hstopped)

theorem transfer (h : Apart s) (hnoExit : s.thread.NoExit)
    (hjoin : ∀ target, s.thread.call = some (.join target) →
      Switches (s.Stopped s.current) s.thread.todo ∨
        s.thread.todo = [] ∧ s.Stopped s.current)
    (hresumed : ∀ thread, ((s.setBuffer s.current s.thread).context i).buffer = some thread →
      ∀ target, thread.call = some (.join target) → thread.todo ≠ [])
    (hdefined : (s.transfer i).undefined = false) : Unjoined (s.transfer i) := by
  have hstopped (j : Slot) : (s.setBuffer s.current s.thread).Stopped j = s.Stopped j := by
    rw [System.Stopped, System.state_setBuffer, System.Stopped]
  have hsuspended (j : Slot) (thread : Thread U C)
      (hthread : ((s.setBuffer s.current s.thread).context j).buffer = some thread) :
      thread.NoExit ∧ ∀ target, thread.call = some (.join target) →
        Switches ((s.setBuffer s.current s.thread).Stopped j) thread.todo ∨
          thread.todo = [] ∧ (s.setBuffer s.current s.thread).Stopped j := by
    rw [System.buffer_setBuffer] at hthread
    rw [hstopped]
    split at hthread
    · rename_i hj
      cases hthread
      rw [hj]
      exact ⟨hnoExit, hjoin⟩
    · rename_i hj
      exact h.suspended j hj thread hthread
  cases hbuffer : ((s.setBuffer s.current s.thread).context i).buffer with
  | none =>
      rw [System.transfer_eq_of_none hbuffer] at hdefined
      cases hdefined
  | some thread =>
      rw [System.transfer_eq hbuffer]
      have hthread := hsuspended i thread hbuffer
      refine ⟨⟨h.unnumbered.setBuffer, h.exited, fun j ↦ ?_, fun j hj ↦ ?_, fun j _ f hf ↦ ?_⟩,
        hthread.1, fun target htarget ↦ ?_⟩
      · exact (System.state_setBuffer (s := s) _).trans_ne (h.unfinished j)
      · obtain ⟨hne, hnone⟩ := h.invalid j ((System.state_setBuffer _).symm.trans hj)
        have hnone' : ((s.setBuffer s.current s.thread).context j).buffer = none := by
          rw [System.buffer_setBuffer, if_neg hne, hnone]
        refine ⟨?_, hnone'⟩
        rintro rfl
        rw [hnone'] at hbuffer
        cases hbuffer
      · exact hsuspended j f hf
      · exact (hthread.2 target htarget).resolve_right fun hwaits ↦
          hresumed thread hbuffer target htarget hwaits.1

theorem create [DecidableEq C] (h : Apart s) (newNode : Option Addr) :
    Apart (s.perform newNode .create) := by
  cases hfree : s.freeSlot with
  | none =>
      rw [System.perform, hfree]
      exact h
  | some i =>
      rw [System.perform_create newNode hfree]
      have hinvalid := System.state_of_freeSlot_eq_some hfree
      have hstate (j : Slot) : ((s.setState i .active).setBuffer i .idle).state j =
          if j = i then .active else s.state j :=
        (System.state_setBuffer _).trans (System.state_setState _)
      have hbuffer (j : Slot) : (((s.setState i .active).setBuffer i .idle).context j).buffer =
          if j = i then some .idle else (s.context j).buffer := by
        rw [System.buffer_setBuffer, System.buffer_setState]
      refine ⟨h.unnumbered.setState.setBuffer, ?_, fun j hj ↦ ?_, fun j hj ↦ ?_,
        fun j hj thread hthread ↦ ?_⟩
      · dsimp only
        rw [h.exited, Set.empty_sdiff]
      · have hj' := (hstate j).symm.trans hj
        split at hj'
        · cases hj'
        · exact h.unfinished j hj'
      · have hj' := (hstate j).symm.trans hj
        split at hj'
        · cases hj'
        · rename_i hne
          obtain ⟨hcurrent, hnone⟩ := h.invalid j hj'
          exact ⟨hcurrent, (hbuffer j).trans ((if_neg hne).trans hnone)⟩
      · have hthread' := (hbuffer j).symm.trans hthread
        split at hthread'
        · cases hthread'
          refine ⟨⟨?_, ?_⟩, ?_⟩
          · rintro ⟨⟩
          · rintro _ ⟨⟩
          · rintro _ ⟨⟩
        · rename_i hne
          obtain ⟨hnoExit, hjoin⟩ := h.suspended j hj thread hthread'
          refine ⟨hnoExit, fun target htarget ↦ ?_⟩
          have hstopped : s.Stopped j →
              ((s.setState i .active).setBuffer i .idle).Stopped j := by
            rintro (hzero | hblocked)
            · exact .inl hzero
            · exact .inr ((hstate j).trans ((if_neg hne).trans hblocked))
          exact (hjoin target htarget).imp (Switches.mono hstopped) (And.imp_right hstopped)

theorem setJoiner (h : Apart s) {number : ℤ} (hnumber : number = 0) :
    Apart (s.setTcb i fun tcb ↦ { tcb with joinerThreadNumber := number }) where
  unnumbered := h.unnumbered.setTcb fun _ hzero _ ↦ ⟨hzero, hnumber⟩
  exited := h.exited
  unfinished j := by
    rw [System.state_setJoiner]
    exact h.unfinished j
  invalid j hj := by
    rw [System.state_setJoiner] at hj
    rw [System.buffer_setJoiner]
    exact h.invalid j hj
  suspended j hj thread hthread := by
    rw [System.buffer_setJoiner] at hthread
    rw [System.Stopped, System.state_setJoiner]
    exact h.suspended j hj thread hthread

end Apart

/-! ## Steps -/

theorem Switches.ne_nil {p : Prop} {todo : List (Command U C)} (h : Switches p todo) :
    todo ≠ [] := by
  rintro rfl
  exact h

namespace Unjoined

variable [DecidableEq C] {s : System U C} {command : Command U C} {rest : List (Command U C)}

theorem yield (h : Unjoined s) (htodo : s.thread.todo = .yield :: rest) (newNode : Option Addr)
    (hrest : (s.setTodo rest).thread.NoExit) (hapart : Apart (s.setTodo rest))
    (hdefined : ((s.setTodo rest).perform newNode .yield).undefined = false) :
    Unjoined ((s.setTodo rest).perform newNode .yield) := by
  have hswitches (target : ℤ) (htarget : s.thread.call = some (.join target)) :
      Switches (s.Stopped s.current) rest := by
    have hall := h.switches target htarget
    rwa [htodo] at hall
  cases hfound : (s.setTodo rest).yieldTarget with
  | none =>
      rw [System.perform, hfound]
      exact ⟨hapart, hrest, hswitches⟩
  | some i =>
      rw [System.perform_yield newNode hfound] at hdefined ⊢
      obtain ⟨hi, hactive⟩ := System.state_of_yieldTarget_eq_some (h.unnumbered s.current).1 hfound
      refine hapart.transfer hrest (fun target htarget ↦ .inl (hswitches target htarget)) ?_
        hdefined
      intro thread hthread target htarget
      rw [System.buffer_setBuffer] at hthread
      split at hthread
      · cases hthread
        exact (hswitches target htarget).ne_nil
      · rename_i hne
        obtain ⟨-, hjoin⟩ := hapart.suspended i hne thread hthread
        refine ((hjoin target htarget).resolve_right ?_).ne_nil
        rintro ⟨-, hzero | hblocked⟩
        · exact hi hzero
        · cases hactive.symm.trans hblocked

theorem testFinished {target : ℤ} (h : Unjoined s)
    (htodo : s.thread.todo = .testFinished target :: rest) (newNode : Option Addr)
    (hrest : (s.setTodo rest).thread.NoExit)
    (hdefined : ((s.setTodo rest).perform newNode (.testFinished target)).undefined = false) :
    Unjoined ((s.setTodo rest).perform newNode (.testFinished target)) := by
  obtain ⟨target', htarget'⟩ := h.noExit.todo _ (htodo ▸ List.mem_cons_self)
  have hempty : rest = [] := by
    have hswitches := h.switches target' htarget'
    rw [htodo] at hswitches
    exact hswitches
  rw [System.perform] at hdefined ⊢
  split at hdefined
  · cases hdefined
  · rename_i i _
    have hunfinished : (s.setTodo rest).state i ≠ .finished := h.unfinished i
    rw [if_neg hunfinished]
    refine ⟨⟨h.unnumbered, h.exited, h.unfinished, h.invalid, h.suspended⟩, ?_, fun _ _ ↦ ?_⟩
    · refine hrest.of_call_eq rfl fun command hcommand ↦ ?_
      have hjoin : ∀ command ∈ [.setJoiner i, .block, .switchTo i], s.thread.Fits command := by
        simp [Thread.Fits, htarget']
      exact (List.mem_append.mp hcommand).symm.imp_right (hjoin command)
    · rw [hempty]
      exact ⟨rfl, trivial⟩

theorem perform (h : Unjoined s) (htodo : s.thread.todo = command :: rest)
    (hother : ¬ command.OnMutex) (newNode : Option Addr)
    (hallowed : ∀ i, command = .switchTo i → ¬ s.AwaitsInJoin i)
    (hdefined : ((s.setTodo rest).perform newNode command).undefined = false) :
    Unjoined ((s.setTodo rest).perform newNode command) := by
  have hapart : Apart (s.setTodo rest) :=
    ⟨h.unnumbered, h.exited, h.unfinished, h.invalid, h.suspended⟩
  have hrest : (s.setTodo rest).thread.NoExit :=
    h.noExit.of_call_eq rfl fun c hc ↦ .inl (htodo ▸ List.mem_cons_of_mem _ hc)
  have hfits : s.thread.Fits command := h.noExit.todo _ (htodo ▸ List.mem_cons_self)
  have hswitches (target : ℤ) (htarget : s.thread.call = some (.join target)) :
      Switches (s.Stopped s.current) (command :: rest) :=
    htodo ▸ h.switches target htarget
  cases command with
  | spin m => exact absurd trivial hother
  | exchange m => exact absurd trivial hother
  | store m => exact absurd trivial hother
  | finish => exact hfits.elim
  | testJoiner => exact hfits.elim
  | activate => exact hfits.elim
  | switchToJoiner => exact hfits.elim
  | invalidate i => exact hfits.elim
  | yield => exact h.yield htodo newNode hrest hapart hdefined
  | insertTail c =>
      exact ⟨⟨h.unnumbered, h.exited, h.unfinished, h.invalid, h.suspended⟩, hrest,
        fun target htarget ↦ (hswitches target htarget).elim⟩
  | removeHead c =>
      exact ⟨⟨h.unnumbered, h.exited, h.unfinished, h.invalid, h.suspended⟩,
        hrest.of_call_eq rfl fun _ ↦ .inl, fun target htarget ↦ (hswitches target htarget).elim⟩
  | block =>
      refine ⟨hapart.setState nofun nofun (.inl rfl), hrest, fun target htarget ↦ ?_⟩
      have hblocked : Switches True rest := hswitches target htarget
      exact hblocked.mono fun _ ↦ .inr ((System.state_setState _).trans (if_pos rfl))
  | wake =>
      rw [System.perform_wake newNode hapart.unnumbered]
      split
      · exact ⟨hapart, hrest, fun target htarget ↦ (hswitches target htarget).elim⟩
      · exact ⟨hapart.setState nofun nofun (.inr rfl), hrest,
          fun target htarget ↦ (hswitches target htarget).elim⟩
  | signalAgain c =>
      rw [System.perform]
      split
      · refine ⟨⟨h.unnumbered, h.exited, h.unfinished, h.invalid, h.suspended⟩, ?_,
          fun target htarget ↦ (hswitches target htarget).elim⟩
        refine hrest.of_call_eq rfl fun command hcommand ↦ ?_
        have hbroadcast : ∀ command ∈ threadCondBroadcast c, s.thread.Fits command := by
          simp [threadCondBroadcast, threadCondSignal, threadMutexLock, threadMutexUnlock,
            Thread.Fits]
        exact (List.mem_append.mp hcommand).symm.imp_right (hbroadcast command)
      · exact ⟨hapart, hrest, fun target htarget ↦ (hswitches target htarget).elim⟩
  | create =>
      have hthread : ((s.setTodo rest).perform newNode .create).thread = (s.setTodo rest).thread := by
        rw [System.perform]
        split <;> rfl
      refine ⟨hapart.create newNode, ?_, fun target htarget ↦ ?_⟩
      · rw [hthread]
        exact hrest
      · rw [hthread] at htarget
        exact (hswitches target htarget).elim
  | testFinished target => exact h.testFinished htodo newNode hrest hdefined
  | setJoiner i =>
      rw [System.perform]
      refine ⟨hapart.setJoiner (h.unnumbered s.current).1, hrest, fun target htarget ↦ ?_⟩
      rw [System.Stopped, System.state_setJoiner]
      exact hswitches target htarget
  | switchTo i =>
      have hawaits := hallowed i rfl
      refine hapart.transfer hrest (fun target htarget ↦ .inr (hswitches target htarget)) ?_ hdefined
      intro thread hthread target htarget hwaits
      have hne : i ≠ (s.setTodo rest).current := fun heq ↦ hawaits (.inl heq)
      rw [System.buffer_setBuffer, if_neg hne] at hthread
      exact hawaits (.inr ⟨thread, target, hthread, htarget, hwaits⟩)

variable [DecidableEq U] {t : System U C}

theorem mutexStep (h : Unjoined s) {thread : Thread U C} {locked : Locks U C}
    (hstep : s.thread.mutexStep s.locked = some (thread, locked)) :
    Unjoined { s with thread := thread, locked := locked } := by
  have hapart : Apart { s with thread := thread, locked := locked } :=
    ⟨h.unnumbered, h.exited, h.unfinished, h.invalid, h.suspended⟩
  have hjoin (c : Command U C) (rest : List (Command U C)) (htodo : s.thread.todo = c :: rest)
      (hmutex : c.OnMutex) (target : ℤ) : s.thread.call ≠ some (.join target) := by
    intro htarget
    have hswitches := h.switches target htarget
    rw [htodo] at hswitches
    cases c <;> first | exact hmutex | exact hswitches
  rcases mutexStep_cases hstep with ⟨m, rest, htodo, rfl, rfl | rfl⟩ |
    ⟨m, rest, htodo, rfl, rfl⟩ | ⟨m, rest, htodo, -, rfl, rfl⟩ | ⟨m, rest, htodo, rfl, rfl⟩
  · exact h
  · refine ⟨hapart, h.noExit.of_call_eq rfl fun c hc ↦ .inl ?_,
      fun target htarget ↦ absurd htarget (hjoin _ _ htodo trivial target)⟩
    exact htodo ▸ List.mem_cons_of_mem _ hc
  · refine ⟨hapart, h.noExit.of_call_eq rfl fun c hc ↦ ?_,
      fun target htarget ↦ absurd htarget (hjoin _ _ htodo trivial target)⟩
    have hlock : ∀ c ∈ threadMutexLock m, s.thread.Fits c := by
      simp [threadMutexLock, Thread.Fits]
    exact (List.mem_append.mp hc).symm.imp (htodo ▸ List.mem_cons_of_mem _) (hlock c)
  all_goals
    refine ⟨hapart, h.noExit.of_call_eq rfl fun c hc ↦ .inl ?_,
      fun target htarget ↦ absurd htarget (hjoin _ _ htodo trivial target)⟩
    exact htodo ▸ List.mem_cons_of_mem _ hc

theorem step (h : Unjoined s) {a : Action U C} (hstep : Step System.JoinsRunning s a t)
    (hdefined : t.undefined = false) : Unjoined t := by
  have hapart : Apart s := h.toApart
  cases hstep with
  | @call call _ htodo hcall =>
      refine ⟨⟨h.unnumbered, h.exited, h.unfinished, h.invalid, h.suspended⟩,
        noExit_begin hcall, fun target htarget ↦ ?_⟩
      obtain rfl := Option.some.inj htarget
      rfl
  | interrupt =>
      refine ⟨⟨h.unnumbered, h.exited, h.unfinished, h.invalid, h.suspended⟩, ?_, h.switches⟩
      refine h.noExit.of_call_eq rfl fun c hc ↦ ?_
      rcases List.mem_cons.mp hc with rfl | hc
      · exact .inr trivial
      · exact .inl hc
  | @command newNode _ htodo _ hallowed =>
      refine System.exec_induction (P := fun t ↦ t.undefined = false → Unjoined t) htodo ?_ ?_
        hdefined
      · intro thread locked hmutex _
        exact h.mutexStep hmutex
      · intro command rest hcons hother hdefined
        exact h.perform hcons hother newNode (fun i hi ↦ hallowed i rest (hi ▸ hcons)) hdefined

end Unjoined

/-! ## Exits -/

/-- An exit makes its thread active again before it switches to slot 0. -/
theorem after_exit [DecidableEq U] [DecidableEq C] {s : System U C} (h : s.Unnumbered) :
    (s.after .exit 3).Unnumbered ∧ (s.after .exit 3).current = s.current ∧
      s.current ∈ (s.after .exit 3).exited ∧ (s.after .exit 3).state s.current = .active ∧
      (s.after .exit 3).thread.call = some .exit ∧
      (s.after .exit 3).thread.todo = [.switchToJoiner] := by
  have hcalled : ((s.begin .exit).setTodo [.testJoiner]).Unnumbered := h
  have hfinish : s.after .exit 1 = ((s.begin .exit).setTodo [.testJoiner]).perform none .finish :=
    System.after_succ (n := 0) rfl id
  have hfinished : (s.after .exit 1).Unnumbered := by
    rw [hfinish]
    exact hcalled.perform _ _
  have htest : s.after .exit 2 = ((s.after .exit 1).setTodo []).push [.activate, .switchToJoiner] := by
    have hexec : s.after .exit 2 = ((s.after .exit 1).setTodo []).perform none .testJoiner :=
      System.after_succ (by rw [hfinish]; rfl) id
    have hjoiner : (((s.after .exit 1).setTodo []).context
        ((s.after .exit 1).setTodo []).current).joinerThreadNumber = 0 := (hfinished _).2
    rw [hexec, System.perform, hjoiner]
    rfl
  have hactivate : s.after .exit 3 = ((s.after .exit 2).setTodo [.switchToJoiner]).setState
      (s.after .exit 2).current .active :=
    System.after_succ (by rw [htest]; rfl) id
  have hcurrent : (s.after .exit 2).current = s.current := by
    rw [htest, hfinish]
    rfl
  refine ⟨?_, ?_, ?_, ?_, ?_, ?_⟩
  · rw [hactivate, htest]
    exact System.Unnumbered.setState hfinished
  · rw [hactivate]
    exact hcurrent
  · rw [hactivate, htest, hfinish]
    exact Set.mem_insert _ _
  · rw [hactivate, hcurrent, System.state_setState, if_pos rfl]
  · rw [hactivate, htest, hfinish]
    rfl
  · rw [hactivate]
    rfl

/-- The thread of an exit is not finished, or comes back if it is the main thread. -/
theorem exists_not_joinsMeetExits [DecidableEq U] [DecidableEq C] {s : System U C}
    (h : s.Unnumbered) : ∃ n ≤ 4, ¬ (s.after .exit n).JoinsMeetExits := by
  obtain ⟨hunnumbered, hcurrent, hexited, hactive, hcall, htodo⟩ := after_exit h
  by_cases hmain : s.current = 0
  · refine ⟨4, le_rfl, fun hmeets ↦ ?_⟩
    have hswitch : s.after .exit 4 = ((s.after .exit 3).setTodo []).transfer 0 := by
      have hrest : ((s.after .exit 3).setTodo []).Unnumbered := hunnumbered
      rw [System.after_succ htodo id, System.perform_switchToJoiner none hrest]
    have hbuffer : ((((s.after .exit 3).setTodo []).setBuffer (s.after .exit 3).current
        ((s.after .exit 3).setTodo []).thread).context 0).buffer =
          some ((s.after .exit 3).setTodo []).thread := by
      rw [System.buffer_setBuffer, if_pos (hcurrent.trans hmain).symm]
    rw [hswitch, System.transfer_eq hbuffer] at hmeets
    exact hmeets.exit hcall rfl
  · refine ⟨3, by decide, fun hmeets ↦ ?_⟩
    rcases hmeets.finished s.current hexited hmain with hstate | hstate <;>
      cases hactive.symm.trans hstate

/-- A switch to a thread that waits in a `thread_join` makes its call return. -/
theorem Unjoined.not_joinsMeetExits [DecidableEq U] [DecidableEq C] {s : System U C} {i : Slot}
    {rest : List (Command U C)} {newNode : Option Addr} (h : Unjoined s)
    (htodo : s.thread.todo = .switchTo i :: rest) (hawaits : s.AwaitsInJoin i) :
    ¬ (s.exec newNode).JoinsMeetExits := by
  obtain ⟨target, htarget⟩ := h.noExit.todo _ (htodo ▸ List.mem_cons_self)
  have hempty : rest = [] := by
    have hswitches := h.switches target htarget
    rw [htodo] at hswitches
    exact hswitches.1
  obtain ⟨thread, target, hthread, hcall, hreturned⟩ : ∃ thread target,
      (((s.setTodo rest).setBuffer s.current (s.setTodo rest).thread).context i).buffer =
        some thread ∧ thread.call = some (.join target) ∧ thread.todo = [] := by
    by_cases hi : i = s.current
    · exact ⟨_, target, (System.buffer_setBuffer _).trans (if_pos hi), htarget, hempty⟩
    · obtain ⟨thread, target, hbuffer, hcall, hreturned⟩ := hawaits.resolve_left hi
      exact ⟨thread, target, (System.buffer_setBuffer _).trans ((if_neg hi).trans hbuffer), hcall,
        hreturned⟩
  rw [System.exec_eq_perform htodo id, System.perform, System.transfer_eq hthread]
  intro hmeets
  obtain ⟨-, j, -, hexited, -⟩ := hmeets.join target hcall hreturned
  have hnobody : j ∈ s.exited := hexited
  rw [h.exited] at hnobody
  exact hnobody

/-- While nobody exits and no join resumes a thread that waits in one, joins meet exits.
The condition is exact: the first call or switch against it leads to a state where they do
not. -/
theorem joins_meet_exits [DecidableEq U] [DecidableEq C] {l : List (Action U C)} {s : System U C}
    (hrun : Run (Step System.JoinsRunning) (threadInit U C) l s) (hdefined : s.undefined = false) :
    s.JoinsMeetExits ∧
      (s.thread.todo = [] → ∃ n ≤ 4, ¬ (s.after .exit n).JoinsMeetExits) ∧
      ∀ i rest newNode, s.thread.todo = .switchTo i :: rest → s.AwaitsInJoin i →
        ¬ (s.exec newNode).JoinsMeetExits := by
  have hstart : Unjoined (threadInit U C) := by
    refine ⟨⟨fun _ ↦ ⟨rfl, rfl⟩, rfl, fun i ↦ ?_, fun i hi ↦ ⟨?_, rfl⟩, nofun⟩,
      ⟨nofun, nofun⟩, nofun⟩
    · show (if i = 0 then ThreadState.active else .invalid) ≠ .finished
      split <;> exact ThreadState.noConfusion
    · rintro rfl
      cases hi
  have hunjoined : Unjoined s := by
    refine hrun.invariant (P := fun t ↦ t.undefined = false → Unjoined t) (fun _ ↦ hstart) ?_ hdefined
    intro t a u ht hstep
    exact (ht hstep.defined).step hstep
  refine ⟨hunjoined.joinsMeetExits, fun _ ↦ exists_not_joinsMeetExits hunjoined.unnumbered, ?_⟩
  intro i rest newNode htodo hawaits
  exact hunjoined.not_joinsMeetExits htodo hawaits

theorem joins_meet_exits_waiting : ∃ (l : List (Action Unit Unit)) (s : System Unit Unit),
    Run (Step System.JoinsRunning) (threadInit Unit Unit) l s ∧ s.current = 1 ∧
      s.state 0 = .blocked ∧ s.JoinsMeetExits := by
  have hcreate : Run (Step System.JoinsRunning) (threadInit Unit Unit) _ _ :=
    run_after .nil .create 1 ⟨rfl, rfl, nofun⟩ (fun k hk ↦ by
      obtain rfl := Nat.lt_one_iff.mp hk
      exact nofun) (by decide)
  have hidle : ∀ k < 4, ((((threadInit Unit Unit).after .create 1).after (.join 1) k).context
      1).buffer = some .idle := by
    intro k hk
    interval_cases k <;> rfl
  have hjoin := run_after hcreate (.join 1) 4 ⟨rfl, rfl, nofun⟩ (fun k hk i rest htodo ↦ by
    obtain rfl : i = 1 := by
      interval_cases k <;> cases htodo
      rfl
    rintro (hself | ⟨thread, target, hthread, hcall, -⟩)
    · interval_cases k <;> cases hself
    · cases (hidle k hk).symm.trans hthread
      cases hcall) (by decide)
  exact ⟨_, _, hjoin, rfl, rfl, (joins_meet_exits hjoin rfl).1⟩

/-- The main thread joins a thread, which exits: it is active again, and the main thread
returns from its join as a blocked thread. -/
theorem exited_thread_active : ∃ (l : List (Action Unit Unit)) (s : System Unit Unit),
    Run (Step fun _ a ↦ a.Only fun _ ↦ True) (threadInit Unit Unit) l s ∧ s.undefined = false ∧
      s.thread.call = some (.join 1) ∧ s.thread.todo = [] ∧ s.state s.current = .blocked ∧
      1 ∈ s.exited ∧ s.state 1 = .active ∧ ¬ s.JoinsMeetExits := by
  have hcreate : Run (Step fun _ a ↦ a.Only fun _ ↦ True) (threadInit Unit Unit) _ _ :=
    run_after .nil .create 1 ⟨rfl, rfl, trivial⟩ (fun _ _ ↦ trivial) (by decide)
  have hjoin := run_after hcreate (.join 1) 4 ⟨rfl, rfl, trivial⟩ (fun _ _ ↦ trivial) (by decide)
  have hexit := run_after hjoin .exit 4 ⟨rfl, rfl, trivial⟩ (fun _ _ ↦ trivial) (by decide)
  refine ⟨_, _, hexit, rfl, rfl, rfl, rfl, .inl rfl, rfl, fun hmeets ↦ ?_⟩
  rcases hmeets.finished 1 (.inl rfl) (by decide) with hstate | hstate <;> cases hstate

end OsProjects.Threads
