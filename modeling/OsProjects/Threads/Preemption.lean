import OsProjects.Threads.Scheduler
import Mathlib.Data.Set.Basic

/-!
# Preemption

The timer may switch to another thread between any two commands.  A thread in
`thread_cond_wait` is blocked while it still holds the internal mutex and the mutex
of the program, and nobody runs a blocked thread.  Without an interrupt there, a
blocked thread that does not run has released both.
-/

namespace OsProjects.Threads

open Library.Runs OsProjects.Lists

variable {U C : Type}

/-- The mutex of the program that a thread in `thread_cond_wait` waits with. -/
def Thread.waitsWith (thread : Thread U C) : Option U :=
  match thread.call with
  | some (.wait _ mutex) => some mutex
  | _ => none

/-- No internal mutex is held, and not the mutex that the thread waits with. -/
def Clear (mutex : Option U) (held : Set (Mutex U C)) : Prop :=
  (∀ c, .internal c ∉ held) ∧ ∀ m ∈ mutex, .user m ∉ held

/-- A thread that has been switched away from while it is blocked does not hold the mutexes
of condition variables. -/
def System.NoneStranded (s : System U C) : Prop :=
  ∀ i ≠ s.current, ∀ thread, (s.context i).buffer = some thread → s.state i = .blocked →
    (∀ c, .internal c ∉ thread.held) ∧
      ∀ c m, thread.call = some (.wait c m) → .user m ∉ thread.held

/-- The current thread is about to release a mutex in `thread_cond_wait`. -/
def System.InWindow (s : System U C) : Prop :=
  ∃ c m mutex rest, s.thread.call = some (.wait c m) ∧ s.thread.todo = .store mutex :: rest

/-- No interrupt where `thread_cond_wait` releases the mutexes, no wait with nobody to go on,
and no `thread_join` or `thread_exit` that switches to a thread that is not active. -/
def System.SwitchesSafely (s : System U C) : Action U C → Prop
  | .call _ => True
  | .interrupt => ¬ s.InWindow
  | .command _ =>
      match s.thread.todo with
      | .yield :: _ => s.thread.waitsWith ≠ none → s.state s.current = .blocked →
          s.yieldTarget ≠ none
      | .switchTo i :: _ => s.state i = .active
      | .switchToJoiner :: _ => s.state 0 = .active
      | _ => True

theorem Thread.exists_of_waitsWith {thread : Thread U C} (h : thread.waitsWith ≠ none) :
    ∃ c m, thread.call = some (.wait c m) := by
  rw [waitsWith] at h
  split at h
  · exact ⟨_, _, ‹_›⟩
  · exact absurd rfl h

/-! ## Commands of a blocked thread -/

/-- A thread that holds `held`, is blocked or not, and executes the commands is not blocked
when they are over, and whenever it is switched away from while it is blocked, its mutexes
are clear. -/
def Relinquishes (mutex : Option U) : Prop → Set (Mutex U C) → List (Command U C) → Prop
  | blocked, held, [] => ¬ blocked ∧ ∀ c, .internal c ∉ held
  | blocked, held, .block :: rest => ¬ blocked ∧ Relinquishes mutex True held rest
  | blocked, held, .exchange m :: rest => ¬ blocked ∧ Relinquishes mutex blocked (insert m held) rest
  | blocked, held, .store m :: rest =>
      (mutex = none → ¬ blocked) ∧ Relinquishes mutex blocked (held \ {m}) rest
  | blocked, held, .yield :: rest => (blocked → Clear mutex held) ∧
      Relinquishes mutex False held rest ∧ (mutex = none → Relinquishes mutex blocked held rest)
  | blocked, held, .switchTo _ :: rest =>
      (blocked → Clear mutex held) ∧ Relinquishes mutex False held rest
  | blocked, held, .switchToJoiner :: rest =>
      (blocked → Clear mutex held) ∧ Relinquishes mutex False held rest
  | blocked, held, .testFinished _ :: rest =>
      ¬ blocked ∧ Clear mutex held ∧ Relinquishes mutex blocked held rest
  | blocked, held, .signalAgain _ :: rest => ¬ blocked ∧ rest = [] ∧ ∀ c, .internal c ∉ held
  | blocked, held, _ :: rest => ¬ blocked ∧ Relinquishes mutex blocked held rest

variable {mutex : Option U} {blocked : Prop} {held : Set (Mutex U C)} {todo : List (Command U C)}

/-- What a blocked thread may do, a thread that is not blocked may do. -/
theorem Relinquishes.active (h : Relinquishes mutex blocked held todo) :
    Relinquishes mutex False held todo := by
  induction todo generalizing blocked held with
  | nil => exact ⟨not_false, h.2⟩
  | cons command rest ih =>
      cases command with
      | block => exact ⟨not_false, h.2⟩
      | exchange m => exact ⟨not_false, ih h.2⟩
      | store m => exact ⟨fun _ ↦ not_false, ih h.2⟩
      | yield => exact ⟨False.elim, h.2.1, fun _ ↦ h.2.1⟩
      | switchTo i => exact ⟨False.elim, h.2⟩
      | switchToJoiner => exact ⟨False.elim, h.2⟩
      | testFinished target => exact ⟨not_false, h.2.1, ih h.2.2⟩
      | signalAgain c => exact ⟨not_false, h.2⟩
      | _ => exact ⟨not_false, ih h.2⟩

theorem Relinquishes.of_not (h : Relinquishes mutex False held todo) (hblocked : ¬ blocked) :
    Relinquishes mutex blocked held todo := by
  rwa [eq_false hblocked]

/-- An interrupt outside the window, before the next command. -/
theorem Relinquishes.interrupt (h : Relinquishes mutex blocked held todo)
    (hwindow : mutex ≠ none → ∀ m rest, todo ≠ .store m :: rest) :
    Relinquishes mutex blocked held (.yield :: todo) := by
  refine ⟨fun hblocked ↦ ?_, h.active, fun _ ↦ h⟩
  cases todo with
  | nil => exact absurd hblocked h.1
  | cons command rest =>
      cases command with
      | store m =>
          by_cases hmutex : mutex = none
          · exact absurd hblocked (h.1 hmutex)
          · exact absurd rfl (hwindow hmutex m rest)
      | yield => exact h.1 hblocked
      | switchTo i => exact h.1 hblocked
      | switchToJoiner => exact h.1 hblocked
      | _ => exact absurd hblocked h.1

theorem relinquishes_threadCondSignal {c : C} {rest : List (Command U C)} (hblocked : ¬ blocked)
    (hrest : Relinquishes mutex blocked (insert (.internal c) held \ {.internal c}) rest) :
    Relinquishes mutex blocked held (threadCondSignal c ++ rest) :=
  ⟨hblocked, hblocked, hblocked, hblocked, fun _ ↦ hblocked, hrest⟩

theorem relinquishes_threadCondBroadcast {c : C} (hblocked : ¬ blocked)
    (hheld : ∀ c, .internal c ∉ held) :
    Relinquishes mutex blocked held (threadCondBroadcast c) := by
  apply relinquishes_threadCondSignal hblocked
  rw [Set.insert_sdiff_self_of_notMem (hheld c)]
  exact ⟨hblocked, rfl, hheld⟩

theorem relinquishes_body {thread : Thread U C} (call : Call U C) (hblocked : ¬ blocked)
    (hheld : ∀ c, .internal c ∉ thread.held) :
    Relinquishes (thread.begin call).waitsWith blocked thread.held call.body := by
  cases call with
  | lock m => exact ⟨hblocked, hblocked, hblocked, by simpa using hheld⟩
  | unlock m => exact ⟨fun _ ↦ hblocked, hblocked, fun c hc ↦ hheld c hc.1⟩
  | wait c m =>
      have hreleased (d : C) :
          .internal d ∉ (insert (.internal c) thread.held \ {.user m}) \ {.internal c} := by
        rintro ⟨⟨hd | hd, -⟩, hne⟩
        · exact hne hd
        · exact hheld d hd
      refine ⟨hblocked, hblocked, hblocked, hblocked, nofun, nofun, fun _ ↦ ⟨hreleased, ?_⟩,
        ⟨not_false, not_false, not_false, ?_⟩, nofun⟩
      · intro n hn hmem
        cases hn
        exact hmem.1.2 rfl
      · simpa using hreleased
  | signal c =>
      apply relinquishes_threadCondSignal hblocked
      rw [Set.insert_sdiff_self_of_notMem (hheld c)]
      exact ⟨hblocked, hheld⟩
  | broadcast c => exact relinquishes_threadCondBroadcast hblocked hheld
  | create => exact ⟨hblocked, hblocked, hheld⟩
  | yield => exact ⟨fun h ↦ absurd h hblocked, ⟨not_false, hheld⟩, fun _ ↦ ⟨hblocked, hheld⟩⟩
  | exit => exact ⟨hblocked, hblocked, hblocked, hheld⟩
  | join target => exact ⟨hblocked, ⟨hheld, nofun⟩, hblocked, hheld⟩

/-! ## The invariant -/

/-- What holds for the threads that do not run. -/
structure Aside (s : System U C) : Prop where
  unnumbered : s.Unnumbered
  suspended : ∀ i ≠ s.current, ∀ thread, (s.context i).buffer = some thread →
    (s.state i = .blocked → Clear thread.waitsWith thread.held) ∧
      Relinquishes thread.waitsWith False thread.held thread.todo

structure Preemptible (s : System U C) : Prop extends Aside s where
  current : Relinquishes s.thread.waitsWith (s.state s.current = .blocked) s.thread.held
    s.thread.todo

theorem Preemptible.noneStranded {s : System U C} (h : Preemptible s) : s.NoneStranded := by
  intro i hi thread hthread hblocked
  have hclear := (h.suspended i hi thread hthread).1 hblocked
  refine ⟨hclear.1, fun c m hcall ↦ hclear.2 m ?_⟩
  rw [Thread.waitsWith, hcall]
  rfl

namespace Aside

variable {s : System U C} {i : Slot}

theorem setState {x : ThreadState} (h : Aside s) (hi : i = s.current ∨ x ≠ .blocked) :
    Aside (s.setState i x) where
  unnumbered := h.unnumbered.setState
  suspended j hj thread hthread := by
    rw [System.buffer_setState] at hthread
    obtain ⟨hclear, htodo⟩ := h.suspended j hj thread hthread
    refine ⟨fun hblocked ↦ ?_, htodo⟩
    rw [System.state_setState] at hblocked
    split at hblocked
    · rename_i hji
      exact absurd hblocked (hi.resolve_left fun hic ↦ hj (hji.trans hic))
    · exact hclear hblocked

/-- A switch to an active thread. -/
theorem transfer (h : Aside s) (hactive : s.state i = .active)
    (hclear : s.state s.current = .blocked → Clear s.thread.waitsWith s.thread.held)
    (hrest : Relinquishes s.thread.waitsWith False s.thread.held s.thread.todo)
    (hdefined : (s.transfer i).undefined = false) : Preemptible (s.transfer i) := by
  have hsuspended (j : Slot) (thread : Thread U C)
      (hthread : ((s.setBuffer s.current s.thread).context j).buffer = some thread) :
      ((s.setBuffer s.current s.thread).state j = .blocked → Clear thread.waitsWith thread.held) ∧
        Relinquishes thread.waitsWith False thread.held thread.todo := by
    rw [System.state_setBuffer]
    rw [System.buffer_setBuffer] at hthread
    split at hthread
    · rename_i hj
      cases hthread
      exact ⟨hj ▸ hclear, hrest⟩
    · rename_i hj
      exact h.suspended j hj thread hthread
  cases htarget : ((s.setBuffer s.current s.thread).context i).buffer with
  | none =>
      rw [System.transfer_eq_of_none htarget] at hdefined
      cases hdefined
  | some thread =>
      rw [System.transfer_eq htarget]
      refine ⟨⟨h.unnumbered.setBuffer, fun j _ ↦ hsuspended j⟩, ?_⟩
      apply (hsuspended i thread htarget).2.of_not
      intro hblocked
      cases hactive.symm.trans ((System.state_setBuffer _).symm.trans hblocked)

theorem preemptible_setState {x : ThreadState} (h : Aside s) (hx : x ≠ .blocked)
    (hblocked : s.state s.current ≠ .blocked)
    (hrest : Relinquishes s.thread.waitsWith (s.state s.current = .blocked) s.thread.held
      s.thread.todo) : Preemptible (s.setState i x) := by
  refine ⟨h.setState (.inr hx), hrest.active.of_not ?_⟩
  intro hstill
  have hstate := (System.state_setState x).symm.trans hstill
  split at hstate
  · exact hx hstate
  · exact hblocked hstate

theorem push {commands : List (Command U C)} (h : Aside s)
    (hrest : Relinquishes s.thread.waitsWith (s.state s.current = .blocked) s.thread.held
      (commands ++ s.thread.todo)) : Preemptible (s.push commands) :=
  ⟨⟨h.unnumbered, h.suspended⟩, hrest⟩

theorem create [DecidableEq C] (h : Aside s) (newNode : Option Addr)
    (hblocked : s.state s.current ≠ .blocked)
    (hrest : Relinquishes s.thread.waitsWith (s.state s.current = .blocked) s.thread.held
      s.thread.todo) : Preemptible (s.perform newNode .create) := by
  rw [System.perform]
  split
  · rename_i i _
    have hactive : Preemptible (s.setState i .active) :=
      h.preemptible_setState ThreadState.noConfusion hblocked hrest
    refine ⟨⟨hactive.unnumbered.setBuffer, fun j hj thread hthread ↦ ?_⟩, ?_⟩
    · have hbuffer := (System.buffer_setBuffer _).symm.trans hthread
      split at hbuffer
      · cases hbuffer
        refine ⟨fun _ ↦ ⟨fun _ ↦ Set.notMem_empty _, ?_⟩, not_false, fun _ ↦ Set.notMem_empty _⟩
        rintro _ ⟨⟩
      · obtain ⟨hclear, htodo⟩ := hactive.suspended j hj thread hbuffer
        exact ⟨fun hstill ↦ hclear ((System.state_setBuffer _).symm.trans hstill), htodo⟩
    · apply hactive.current.active.of_not
      intro hstill
      have hstate := (System.state_setState _).symm.trans
        ((System.state_setBuffer _).symm.trans hstill)
      split at hstate
      · cases hstate
      · exact hblocked hstate
  · exact ⟨h, hrest⟩

theorem yield [DecidableEq C] (h : Aside s) (newNode : Option Addr)
    (hcurrent : Relinquishes s.thread.waitsWith (s.state s.current = .blocked) s.thread.held
      (.yield :: s.thread.todo))
    (hyield : s.thread.waitsWith ≠ none → s.state s.current = .blocked → s.yieldTarget ≠ none)
    (hdefined : (s.perform newNode .yield).undefined = false) :
    Preemptible (s.perform newNode .yield) := by
  obtain ⟨hclear, hrest, hunfound⟩ := hcurrent
  cases hfound : s.yieldTarget with
  | none =>
      rw [System.perform, hfound]
      refine ⟨h, ?_⟩
      by_cases hwaits : s.thread.waitsWith = none
      · exact hunfound hwaits
      · apply hrest.of_not
        intro hblocked
        exact hyield hwaits hblocked hfound
  | some i =>
      rw [System.perform_yield newNode hfound] at hdefined ⊢
      have hactive := System.state_of_yieldTarget_eq_some (h.unnumbered s.current).1 hfound
      exact h.transfer hactive.2 hclear hrest hdefined

theorem perform [DecidableEq C] {command : Command U C} (h : Aside s) (newNode : Option Addr)
    (hcurrent : Relinquishes s.thread.waitsWith (s.state s.current = .blocked) s.thread.held
      (command :: s.thread.todo))
    (hother : ¬ command.OnMutex)
    (hyield : command = .yield → s.thread.waitsWith ≠ none → s.state s.current = .blocked →
      s.yieldTarget ≠ none)
    (hswitch : ∀ i, command = .switchTo i → s.state i = .active)
    (hexit : command = .switchToJoiner → s.state 0 = .active)
    (hdefined : (s.perform newNode command).undefined = false) :
    Preemptible (s.perform newNode command) := by
  cases command with
  | spin m => exact absurd trivial hother
  | exchange m => exact absurd trivial hother
  | store m => exact absurd trivial hother
  | insertTail c => exact ⟨⟨h.unnumbered, h.suspended⟩, hcurrent.2⟩
  | removeHead c => exact ⟨⟨h.unnumbered, h.suspended⟩, hcurrent.2⟩
  | create => exact h.create newNode hcurrent.1 hcurrent.2
  | activate => exact h.preemptible_setState ThreadState.noConfusion hcurrent.1 hcurrent.2
  | invalidate i => exact h.preemptible_setState ThreadState.noConfusion hcurrent.1 hcurrent.2
  | finish =>
      have hfinished := h.preemptible_setState (i := s.current) (x := .finished)
        ThreadState.noConfusion hcurrent.1 hcurrent.2
      exact ⟨⟨hfinished.unnumbered, hfinished.suspended⟩, hfinished.current⟩
  | block =>
      have hblocked : (s.setState s.current .blocked).state s.current = .blocked :=
        (System.state_setState _).trans (if_pos rfl)
      refine ⟨h.setState (.inl rfl), ?_⟩
      have hrest := hcurrent.2
      rw [← eq_true hblocked] at hrest
      exact hrest
  | wake =>
      rw [System.perform_wake newNode h.unnumbered]
      split
      · exact ⟨h, hcurrent.2⟩
      · exact h.preemptible_setState ThreadState.noConfusion hcurrent.1 hcurrent.2
  | signalAgain c =>
      obtain ⟨hblocked, hrest, hheld⟩ := hcurrent
      rw [System.perform]
      split
      · apply h.push
        rw [hrest, List.append_nil]
        exact relinquishes_threadCondBroadcast hblocked hheld
      · refine ⟨h, ?_⟩
        rw [hrest]
        exact ⟨hblocked, hheld⟩
  | yield => exact h.yield newNode hcurrent (hyield rfl) hdefined
  | testJoiner =>
      obtain ⟨hblocked, hrest⟩ := hcurrent
      rw [System.perform_testJoiner newNode h.unnumbered]
      apply h.push
      exact ⟨hblocked, fun hstill ↦ absurd hstill hblocked, hrest.active⟩
  | switchToJoiner =>
      rw [System.perform_switchToJoiner newNode h.unnumbered] at hdefined ⊢
      exact h.transfer (hexit rfl) hcurrent.1 hcurrent.2 hdefined
  | testFinished target =>
      obtain ⟨hblocked, hclear, hrest⟩ := hcurrent
      rw [System.perform] at hdefined ⊢
      split at hdefined
      · cases hdefined
      · split
        · exact h.push ⟨hblocked, hrest⟩
        · exact h.push ⟨hblocked, hblocked, fun _ ↦ hclear, hrest.active⟩
  | setJoiner i =>
      rw [System.perform]
      refine ⟨⟨h.unnumbered.setTcb fun _ hnumber _ ↦ ⟨hnumber, (h.unnumbered s.current).1⟩,
        fun j hj thread hthread ↦ ?_⟩, ?_⟩
      · rw [System.buffer_setJoiner] at hthread
        rw [System.state_setJoiner]
        exact h.suspended j hj thread hthread
      · rw [System.state_setJoiner]
        exact hcurrent.2
  | switchTo i => exact h.transfer (hswitch i rfl) hcurrent.1 hcurrent.2 hdefined

end Aside

/-! ## Runs -/

variable [DecidableEq U] [DecidableEq C] {s t : System U C}

theorem Preemptible.mutexStep (h : Preemptible s) {thread : Thread U C} {locks : Locks U C}
    (hstep : s.thread.mutexStep s.locked = some (thread, locks)) :
    Preemptible { s with thread := thread, locked := locks } := by
  have hcurrent := h.current
  refine ⟨⟨h.unnumbered, h.suspended⟩, ?_⟩
  rcases mutexStep_cases hstep with ⟨m, rest, htodo, rfl, rfl | rfl⟩ |
    ⟨m, rest, htodo, rfl, rfl⟩ | ⟨m, rest, htodo, -, rfl, rfl⟩ | ⟨m, rest, htodo, rfl, rfl⟩
  · exact hcurrent
  · rw [htodo] at hcurrent
    exact hcurrent.2
  · rw [htodo] at hcurrent
    exact ⟨hcurrent.1, hcurrent⟩
  · rw [htodo] at hcurrent
    exact hcurrent.2
  · rw [htodo] at hcurrent
    exact hcurrent.2

theorem Preemptible.step {a : Action U C} (h : Preemptible s)
    (hstep : Step System.SwitchesSafely s a t) (hdefined : t.undefined = false) :
    Preemptible t := by
  cases hstep with
  | @call call _ htodo =>
      have hreturned := h.current
      rw [htodo] at hreturned
      exact ⟨⟨h.unnumbered, h.suspended⟩, relinquishes_body call hreturned.1 hreturned.2⟩
  | interrupt _ hwindow =>
      refine ⟨⟨h.unnumbered, h.suspended⟩, h.current.interrupt fun hwaits mutex rest htodo ↦ ?_⟩
      obtain ⟨c, m, hcall⟩ := Thread.exists_of_waitsWith hwaits
      exact hwindow ⟨c, m, mutex, rest, hcall, htodo⟩
  | @command newNode _ htodo _ hallowed =>
      refine System.exec_induction (P := fun t ↦ t.undefined = false → Preemptible t) htodo ?_ ?_
        hdefined
      · intro thread locks hmutex _
        exact h.mutexStep hmutex
      · intro command rest hcons hother hdefined
        have haside : Aside (s.setTodo rest) := ⟨h.unnumbered, h.suspended⟩
        have hcurrent := h.current
        rw [hcons] at hcurrent
        rw [System.SwitchesSafely, hcons] at hallowed
        refine haside.perform newNode hcurrent hother ?_ ?_ ?_ hdefined
        · rintro rfl
          exact hallowed
        · rintro i rfl
          exact hallowed
        · rintro rfl
          exact hallowed

/-- A thread that is switched away from while it is blocked holds no internal mutex and not
the one it waits with, if the condition holds at all steps. -/
theorem noneStranded_of_run {l : List (Action U C)}
    (hrun : Run (Step System.SwitchesSafely) (threadInit U C) l s) (hdefined : s.undefined = false) :
    s.NoneStranded := by
  have hstart : Preemptible (threadInit U C) :=
    ⟨⟨fun _ ↦ ⟨rfl, rfl⟩, nofun⟩, nofun, fun _ ↦ Set.notMem_empty _⟩
  have hpreemptible : Preemptible s := by
    refine hrun.invariant (P := fun t ↦ t.undefined = false → Preemptible t) (fun _ ↦ hstart) ?_
      hdefined
    intro t a u ht hstep
    exact (ht hstep.defined).step hstep
  exact hpreemptible.noneStranded

end OsProjects.Threads
