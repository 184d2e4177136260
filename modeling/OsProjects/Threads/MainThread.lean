import OsProjects.Threads.Exclusion
import OsProjects.Threads.Numbers
import OsProjects.Threads.Timer

/-!
# The main thread

No search of `thread_yield` finds the main thread.  Once another thread has the
processor, the main thread gets it back from a call of `thread_exit` or from a
`thread_join` with the number 0 only.  A main thread that joins the threads it has
created gives all its turns to itself, since 0 is the number it has for each of them.
-/

namespace OsProjects.Threads

open Library.Runs OsProjects.Lists

variable {U C : Type}

/-! ## Which call a command belongs to -/

def Thread.Serves (thread : Thread U C) : Command U C → Prop
  | .finish => thread.call = some .exit
  | .testJoiner => thread.call = some .exit
  | .activate => thread.call = some .exit
  | .switchToJoiner => thread.call = some .exit
  | .testFinished target => thread.call = some (.join target)
  | .switchTo i => ∃ target, thread.call = some (.join target) ∧ slotAt target = some i
  | _ => True

theorem serves_congr {f g : Thread U C} (h : g.call = f.call) (command : Command U C) :
    g.Serves command ↔ f.Serves command := by
  cases command <;> simp [Thread.Serves, h]

theorem serves_begin {thread : Thread U C} {call : Call U C} :
    ∀ command ∈ call.body, (thread.begin call).Serves command := by
  intro command hcommand
  cases call with
  | exit =>
      rcases List.mem_cons.mp hcommand with rfl | hcommand
      · rfl
      · obtain rfl := List.mem_singleton.mp hcommand
        rfl
  | join target =>
      obtain rfl := List.mem_singleton.mp hcommand
      rfl
  | _ =>
      simp only [Call.body, threadMutexLock, threadMutexUnlock, threadCondWait,
        threadCondSignal, threadCondBroadcast, threadCreate, threadYield, List.mem_append,
        List.mem_cons, List.not_mem_nil, or_false] at hcommand
      cases command <;> simp [Thread.Serves] at hcommand ⊢

/-- Every thread executes what belongs to the call it has made. -/
structure Serving (s : System U C) : Prop where
  unnumbered : s.Unnumbered
  serves : ∀ i thread, s.threadOf i = some thread → ∀ command ∈ thread.todo, thread.Serves command

namespace Serving

variable {s t : System U C} {i : Slot}

theorem of_threadOf_eq (h : Serving s) (hunnumbered : t.Unnumbered)
    (hthreads : t.threadOf = s.threadOf) : Serving t := by
  refine ⟨hunnumbered, ?_⟩
  rw [hthreads]
  exact h.serves

/-- The current thread goes on in its call, with commands of it. -/
theorem of_current (h : Serving s) (hcontext : t.context = s.context)
    (hcurrent : t.current = s.current)
    (hserves : ∀ command ∈ t.thread.todo, t.thread.Serves command) : Serving t := by
  constructor
  · rw [System.Unnumbered, hcontext]
    exact h.unnumbered
  · intro j f hf
    rw [System.threadOf] at hf
    split at hf
    · cases hf
      exact hserves
    · rename_i hj
      rw [hcurrent] at hj
      rw [hcontext] at hf
      exact h.serves j f ((if_neg hj).trans hf)

theorem create [DecidableEq C] (h : Serving s) (newNode : Option Addr) :
    Serving (s.perform newNode .create) := by
  have hunnumbered := h.unnumbered.perform newNode .create
  cases hfree : s.freeSlot with
  | none =>
      rw [System.perform, hfree]
      exact h
  | some i =>
      rw [System.perform_create newNode hfree] at hunnumbered ⊢
      by_cases hi : i = s.current
      · subst hi
        exact h.of_threadOf_eq hunnumbered (System.threadOf_create_current (s := s))
      · refine ⟨hunnumbered, fun j f hf ↦ ?_⟩
        have hf' := (System.threadOf_create hi).symm.trans hf
        split at hf'
        · cases hf'
          rintro _ ⟨⟩
        · exact h.serves j f hf'

theorem perform [DecidableEq C] {command : Command U C} {rest : List (Command U C)}
    (h : Serving s) (htodo : s.thread.todo = command :: rest) (newNode : Option Addr) :
    Serving ((s.setTodo rest).perform newNode command) := by
  have hall := h.serves _ _ s.threadOf_current
  rw [htodo] at hall
  have hcommand := hall command List.mem_cons_self
  have hrest : ∀ c ∈ rest, s.thread.Serves c := fun c hc ↦ hall c (List.mem_cons_of_mem _ hc)
  have hsame (t : System U C) (hcontext : t.context = s.context) (hcurrent : t.current = s.current)
      (hcall : t.thread.call = s.thread.call)
      (hserves : ∀ c ∈ t.thread.todo, s.thread.Serves c) : Serving t :=
    h.of_current hcontext hcurrent fun c hc ↦ (serves_congr hcall c).mpr (hserves c hc)
  have hset : Serving (s.setTodo rest) := hsame _ rfl rfl rfl hrest
  have hpush (branch : List (Command U C)) (hbranch : ∀ c ∈ branch, s.thread.Serves c) :
      Serving ((s.setTodo rest).push branch) :=
    hsame _ rfl rfl rfl fun c hc ↦ (List.mem_append.mp hc).elim (hbranch c) (hrest c)
  have hunnumbered := hset.unnumbered.perform newNode command
  have htransfer (i : Slot) : Serving ((s.setTodo rest).transfer i) :=
    hset.of_threadOf_eq hset.unnumbered.switch System.threadOf_transfer
  cases command with
  | block => exact hset.of_threadOf_eq hunnumbered (System.threadOf_setState _)
  | activate => exact hset.of_threadOf_eq hunnumbered (System.threadOf_setState _)
  | invalidate target => exact hset.of_threadOf_eq hunnumbered (System.threadOf_setState _)
  | setJoiner target => exact hset.of_threadOf_eq hunnumbered (System.threadOf_setJoiner _)
  | finish =>
      have hsaved := System.threadOf_setState (s := s.setTodo rest) (i := s.current) .finished
      exact hset.of_threadOf_eq hunnumbered hsaved
  | insertTail c => exact hsame _ rfl rfl rfl hrest
  | removeHead c => exact hsame _ rfl rfl rfl hrest
  | create => exact hset.create newNode
  | wake =>
      rw [System.perform_wake newNode hset.unnumbered]
      split
      · exact hset
      · exact hset.of_threadOf_eq hset.unnumbered.setState (System.threadOf_setState _)
  | yield =>
      rw [System.perform]
      split
      · exact htransfer _
      · exact hset
  | switchTo target => exact htransfer target
  | switchToJoiner =>
      rw [System.perform_switchToJoiner newNode hset.unnumbered]
      exact htransfer 0
  | signalAgain c =>
      rw [System.perform]
      split
      · refine hpush _ fun command hc ↦ ?_
        simp only [threadCondBroadcast, threadCondSignal, threadMutexLock, threadMutexUnlock,
          List.mem_append, List.mem_cons, List.not_mem_nil, or_false] at hc
        cases command <;> simp [Thread.Serves] at hc ⊢
      · exact hset
  | testJoiner =>
      rw [System.perform_testJoiner newNode hset.unnumbered]
      refine hpush _ fun command hc ↦ ?_
      rcases List.mem_cons.mp hc with rfl | hc
      · exact hcommand
      · obtain rfl := List.mem_singleton.mp hc
        exact hcommand
  | testFinished target =>
      rw [System.perform]
      split
      · exact hsame _ rfl rfl rfl hrest
      · rename_i i hi
        split
        · refine hpush _ fun command hc ↦ ?_
          obtain rfl := List.mem_singleton.mp hc
          trivial
        · refine hpush _ fun command hc ↦ ?_
          simp only [List.mem_cons, List.not_mem_nil, or_false] at hc
          rcases hc with rfl | rfl | rfl
          · trivial
          · trivial
          · exact ⟨target, hcommand, hi⟩
  | _ => exact hset

variable [DecidableEq U] [DecidableEq C]

theorem mutexStep (h : Serving s) {thread : Thread U C} {locked : Locks U C}
    (hstep : s.thread.mutexStep s.locked = some (thread, locked)) :
    Serving { s with thread := thread, locked := locked } := by
  have hall := h.serves _ _ s.threadOf_current
  refine h.of_current rfl rfl ?_
  rcases mutexStep_cases hstep with ⟨m, rest, htodo, -, rfl | rfl⟩ | ⟨m, rest, htodo, -, rfl⟩ |
    ⟨m, rest, htodo, -, -, rfl⟩ | ⟨m, rest, htodo, -, rfl⟩
  · exact hall
  all_goals rw [htodo] at hall
  · exact fun c hc ↦ hall c (List.mem_cons_of_mem _ hc)
  · intro c hc
    rcases List.mem_append.mp hc with hc | hc
    · simp only [threadMutexLock, List.mem_cons, List.not_mem_nil, or_false] at hc
      rcases hc with rfl | rfl <;> trivial
    · exact hall c (List.mem_cons_of_mem _ hc)
  · exact fun c hc ↦ (serves_congr (by rfl) c).mpr (hall c (List.mem_cons_of_mem _ hc))
  · exact fun c hc ↦ (serves_congr (by rfl) c).mpr (hall c (List.mem_cons_of_mem _ hc))

theorem step {allowed : System U C → Action U C → Prop} {a : Action U C} (h : Serving s)
    (hstep : Step allowed s a t) : Serving t := by
  cases hstep with
  | call => exact h.of_current rfl rfl serves_begin
  | interrupt =>
      refine h.of_current rfl rfl fun c hc ↦ ?_
      rcases List.mem_append.mp hc with hc | hc
      · obtain rfl := List.mem_singleton.mp hc
        trivial
      · exact h.serves _ _ s.threadOf_current c hc
  | @command newNode _ htodo =>
      exact System.exec_induction htodo (fun _ _ hmutex ↦ h.mutexStep hmutex)
        fun command rest hcons _ ↦ h.perform hcons newNode

end Serving

/-! ## Who gives the processor to the main thread -/

theorem eq_zero_of_slotAt {index : ℤ} (h : slotAt index = some 0) : index = 0 := by
  rw [slotAt] at h
  split at h
  · have hzero := congrArg Fin.val (Option.some.inj h)
    change index.toNat = 0 at hzero
    omega
  · cases h

theorem System.current_transfer (s : System U C) (i : Slot) :
    (s.transfer i).current = s.current ∨ (s.transfer i).current = i := by
  rw [transfer, switch]
  split
  · exact .inr rfl
  · exact .inl rfl

theorem System.current_perform [DecidableEq C] {s : System U C} {command : Command U C} (newNode : Option Addr)
    (h : s.Unnumbered) (hmain : (s.perform newNode command).current = 0) (hs : s.current ≠ 0) :
    command = .switchToJoiner ∨ command = .switchTo 0 := by
  have htransfer {i : Slot} (hi : (s.transfer i).current = 0) : i = 0 := by
    rcases s.current_transfer i with heq | heq
    · exact (hs (heq.symm.trans hi)).elim
    · exact heq.symm.trans hi
  cases command with
  | switchToJoiner => exact .inl rfl
  | switchTo i =>
      obtain rfl := htransfer hmain
      exact .inr rfl
  | yield =>
      cases hfound : s.yieldTarget with
      | none =>
          rw [perform, hfound] at hmain
          exact (hs hmain).elim
      | some i =>
          rw [perform_yield newNode hfound] at hmain
          exact ((state_of_yieldTarget_eq_some (h s.current).1 hfound).1 (htransfer hmain)).elim
  | create =>
      rw [perform] at hmain
      split at hmain <;> exact (hs hmain).elim
  | wake =>
      rw [perform_wake newNode h] at hmain
      split at hmain <;> exact (hs hmain).elim
  | signalAgain c =>
      rw [perform] at hmain
      split at hmain <;> exact (hs hmain).elim
  | testJoiner =>
      rw [perform] at hmain
      split at hmain <;> exact (hs hmain).elim
  | testFinished target =>
      rw [perform] at hmain
      split at hmain
      · exact (hs hmain).elim
      · split at hmain <;> exact (hs hmain).elim
  | _ => exact (hs hmain).elim

variable [DecidableEq U] [DecidableEq C] {s t : System U C}

/-- Whatever the threads call and wherever they are interrupted, the processor goes back to
the main thread when a `thread_exit` switches to the joiner or a `thread_join` with the number
0 switches to its thread. -/
theorem main_resumed_by_exit_or_join {allowed : System U C → Action U C → Prop}
    {l : List (Action U C)} {a : Action U C} (hrun : Run (Step allowed) (threadInit U C) l s)
    (hstep : Step allowed s a t) (haway : s.current ≠ 0) (hback : t.current = 0) :
    s.thread.call = some .exit ∧ s.thread.todo.head? = some .switchToJoiner ∨
      s.thread.call = some (.join 0) ∧ s.thread.todo.head? = some (.switchTo 0) := by
  have hstart : Serving (threadInit U C) := by
    refine ⟨unnumbered_threadInit, fun i thread hthread ↦ ?_⟩
    rw [System.threadOf] at hthread
    split at hthread
    · cases hthread
      rintro _ ⟨⟩
    · cases hthread
  have hserving := hrun.invariant hstart fun _ _ _ h hstep ↦ h.step hstep
  have hall := hserving.serves _ _ s.threadOf_current
  cases hstep with
  | call => exact (haway hback).elim
  | interrupt => exact (haway hback).elim
  | @command newNode _ htodo =>
      refine System.exec_induction (P := fun t ↦ t.current = 0 →
        s.thread.call = some .exit ∧ s.thread.todo.head? = some .switchToJoiner ∨
          s.thread.call = some (.join 0) ∧ s.thread.todo.head? = some (.switchTo 0))
        htodo (fun _ _ _ hback ↦ (haway hback).elim) ?_ hback
      intro command rest hcons _ hmain
      have hserves := hall command (hcons ▸ List.mem_cons_self)
      have hunnumbered : (s.setTodo rest).Unnumbered := hserving.unnumbered
      rw [hcons]
      rcases System.current_perform newNode hunnumbered hmain haway with rfl | rfl
      · exact .inl ⟨hserves, rfl⟩
      · obtain ⟨target, hcall, htarget⟩ := hserves
        right
        rw [hcall, eq_zero_of_slotAt htarget]
        exact ⟨rfl, rfl⟩

theorem main_resumed_by_exit : ∃ (l : List (Action Unit Unit)) (s t : System Unit Unit)
    (a : Action Unit Unit), Run (Step fun _ _ ↦ True) (threadInit Unit Unit) l s ∧
      Step (fun _ _ ↦ True) s a t ∧ s.current = 1 ∧ t.current = 0 ∧
      (s.thread.call = some .exit ∧ s.thread.todo.head? = some .switchToJoiner ∨
        s.thread.call = some (.join 0) ∧ s.thread.todo.head? = some (.switchTo 0)) := by
  have hcreate : Run (Step fun _ _ ↦ True) (threadInit Unit Unit) _ _ :=
    run_after .nil .create 1 ⟨rfl, rfl, trivial⟩ (fun _ _ ↦ trivial) (by decide)
  have hyield := run_after hcreate .yield 1 ⟨rfl, rfl, trivial⟩ (fun _ _ ↦ trivial) (by decide)
  have hexit := run_after hyield .exit 3 ⟨rfl, rfl, trivial⟩ (fun _ _ ↦ trivial) (by decide)
  refine ⟨_, _, _, .command none, hexit, .command rfl nofun nofun trivial, rfl, rfl, ?_⟩
  exact main_resumed_by_exit_or_join hexit (@Step.command _ _ _ _ _ _ none rfl nofun nofun trivial)
    (by decide) rfl

/-! ## A main thread that joins the threads it has created -/

/-- Calls of the main thread that do not hand over the processor on purpose, and joins with
the number that `thread_create` returns. -/
def System.KeepsMain (s : System U C) : Action U C → Prop
  | .call (.wait _ _) => False
  | .call .yield => False
  | .call .exit => False
  | .call (.join target) => target = s.createResult
  | _ => True

def Command.KeepsMain : Command U C → Prop
  | .yield => False
  | .finish => False
  | .testJoiner => False
  | .activate => False
  | .switchToJoiner => False
  | .invalidate _ => False
  | .testFinished target => target = 0
  | .switchTo i => i = 0
  | _ => True

/-- Only the main thread has run. -/
structure MainOnly (s : System U C) : Prop where
  unnumbered : s.Unnumbered
  current : s.current = 0
  main : s.state 0 = .active ∨ s.state 0 = .blocked
  others : ∀ i ≠ 0, ∀ thread, (s.context i).buffer = some thread → thread = .idle
  targets : ∀ r ∈ s.transfers, r.target = 0
  defined : s.undefined = false
  todo : ∀ command ∈ s.thread.todo, command.KeepsMain

namespace MainOnly

variable {i : Slot}

omit [DecidableEq U] [DecidableEq C]

theorem of_fields (h : MainOnly s) (hcontext : t.context = s.context) (hcurrent : t.current = s.current)
    (htransfers : t.transfers = s.transfers) (hdefined : t.undefined = s.undefined)
    (htodo : ∀ command ∈ t.thread.todo, command.KeepsMain) : MainOnly t := by
  refine ⟨?_, hcurrent.trans h.current, ?_, ?_, ?_, hdefined.trans h.defined, htodo⟩
  · rw [System.Unnumbered, hcontext]
    exact h.unnumbered
  · rw [System.state, hcontext]
    exact h.main
  · rw [hcontext]
    exact h.others
  · rw [htransfers]
    exact h.targets

theorem setState {x : ThreadState} (h : MainOnly s) (hx : x = .active ∨ x = .blocked) :
    MainOnly (s.setState i x) := by
  refine ⟨h.unnumbered.setState, h.current, ?_, fun j hj f hf ↦ ?_, h.targets, h.defined, h.todo⟩
  · rw [System.state_setState]
    split
    · exact hx
    · exact h.main
  · rw [System.buffer_setState] at hf
    exact h.others j hj f hf

theorem setJoiner {number : ℤ} (h : MainOnly s) (hnumber : number = 0) :
    MainOnly (s.setTcb i fun tcb ↦ { tcb with joinerThreadNumber := number }) := by
  refine ⟨h.unnumbered.setTcb fun _ hzero _ ↦ ⟨hzero, hnumber⟩, h.current, ?_, fun j hj f hf ↦ ?_,
    h.targets, h.defined, h.todo⟩
  · rw [System.state_setJoiner]
    exact h.main
  · rw [System.buffer_setJoiner] at hf
    exact h.others j hj f hf

theorem transfer_eq (h : MainOnly s) : s.transfer 0 = { s.setBuffer 0 s.thread with
    transfers := ⟨0, 0, s.state 0⟩ :: s.transfers
    current := 0 } := by
  have hbuffer : ((s.setBuffer s.current s.thread).context 0).buffer = some s.thread := by
    rw [System.buffer_setBuffer, h.current, if_pos rfl]
  rw [System.transfer_eq hbuffer, h.current]
  rfl

/-- The main thread gives the processor to itself. -/
theorem transfer (h : MainOnly s) : MainOnly (s.transfer 0) := by
  rw [h.transfer_eq]
  refine ⟨h.unnumbered.setBuffer, rfl, ?_, fun j hj f hf ↦ ?_, fun r hr ↦ ?_, h.defined, h.todo⟩
  · have hmain := h.main
    rw [← System.state_setBuffer (s := s) (i := 0) s.thread] at hmain
    exact hmain
  · exact h.others j hj f
      ((if_neg hj).symm.trans ((System.buffer_setBuffer _).symm.trans hf))
  · rcases List.mem_cons.mp hr with rfl | hr
    · rfl
    · exact h.targets r hr

theorem create [DecidableEq C] (h : MainOnly s) (newNode : Option Addr) :
    MainOnly (s.perform newNode .create) := by
  cases hfree : s.freeSlot with
  | none =>
      rw [System.perform, hfree]
      exact h
  | some i =>
      rw [System.perform_create newNode hfree]
      have hset := h.setState (i := i) (x := .active) (.inl rfl)
      refine ⟨hset.unnumbered.setBuffer, h.current, ?_, fun j hj f hf ↦ ?_, h.targets, h.defined,
        h.todo⟩
      · have hmain := hset.main
        rw [← System.state_setBuffer (s := s.setState i .active) (i := i) .idle] at hmain
        exact hmain
      · have hf' := (System.buffer_setBuffer _).symm.trans hf
        split at hf'
        · exact (Option.some.inj hf').symm
        · exact hset.others j hj f hf'

theorem push {commands : List (Command U C)} (h : MainOnly s)
    (hcommands : ∀ command ∈ commands, command.KeepsMain) : MainOnly (s.push commands) :=
  h.of_fields rfl rfl rfl rfl fun c hc ↦ (List.mem_append.mp hc).elim (hcommands c) (h.todo c)

theorem perform [DecidableEq C] {command : Command U C} (h : MainOnly s) (newNode : Option Addr)
    (hcommand : command.KeepsMain) : MainOnly (s.perform newNode command) := by
  cases command with
  | yield => exact hcommand.elim
  | finish => exact hcommand.elim
  | testJoiner => exact hcommand.elim
  | activate => exact hcommand.elim
  | switchToJoiner => exact hcommand.elim
  | invalidate i => exact hcommand.elim
  | block => exact h.setState (.inr rfl)
  | create => exact h.create newNode
  | insertTail c => exact h.of_fields rfl rfl rfl rfl h.todo
  | removeHead c => exact h.of_fields rfl rfl rfl rfl h.todo
  | setJoiner i => exact h.setJoiner (h.unnumbered s.current).1
  | switchTo i =>
      obtain rfl : i = 0 := hcommand
      exact h.transfer
  | wake =>
      rw [System.perform_wake newNode h.unnumbered]
      split
      · exact h
      · exact h.setState (.inl rfl)
  | signalAgain c =>
      rw [System.perform]
      split
      · refine h.push fun command hc ↦ ?_
        simp only [threadCondBroadcast, threadCondSignal, threadMutexLock, threadMutexUnlock,
          List.mem_append, List.mem_cons, List.not_mem_nil, or_false] at hc
        cases command <;> simp [Command.KeepsMain] at hc ⊢
      · exact h
  | testFinished target =>
      obtain rfl : target = 0 := hcommand
      have hzero : slotAt 0 = some 0 := rfl
      have hunfinished : s.state 0 ≠ .finished := by
        rcases h.main with heq | heq <;> rw [heq] <;> exact ThreadState.noConfusion
      rw [System.perform, hzero]
      dsimp only
      rw [if_neg hunfinished]
      refine h.push fun command hc ↦ ?_
      simp only [List.mem_cons, List.not_mem_nil, or_false] at hc
      rcases hc with rfl | rfl | rfl
      · trivial
      · trivial
      · rfl
  | spin m => exact h
  | exchange m => exact h
  | store m => exact h

theorem begin (h : MainOnly s) {call : Call U C} (hcall : s.KeepsMain (.call call)) :
    MainOnly (s.begin call) := by
  refine h.of_fields rfl rfl rfl rfl fun command hcommand ↦ ?_
  cases call with
  | wait c m => exact hcall.elim
  | yield => exact hcall.elim
  | exit => exact hcall.elim
  | join target =>
      obtain rfl := List.mem_singleton.mp hcommand
      exact hcall.trans (h.unnumbered.createResult_eq.trans (h.unnumbered 0).1)
  | _ =>
      simp only [System.begin, Thread.begin, Call.body, threadMutexLock, threadMutexUnlock,
        threadCondSignal, threadCondBroadcast, threadCreate, List.mem_append, List.mem_cons,
        List.not_mem_nil, or_false] at hcommand
      cases command <;> simp [Command.KeepsMain] at hcommand ⊢

theorem mutexStep [DecidableEq U] [DecidableEq C] (h : MainOnly s) {thread : Thread U C}
    {locked : Locks U C} (hstep : s.thread.mutexStep s.locked = some (thread, locked)) :
    MainOnly { s with thread := thread, locked := locked } := by
  have hall := h.todo
  refine h.of_fields rfl rfl rfl rfl ?_
  rcases mutexStep_cases hstep with ⟨m, rest, htodo, -, rfl | rfl⟩ | ⟨m, rest, htodo, -, rfl⟩ |
    ⟨m, rest, htodo, -, -, rfl⟩ | ⟨m, rest, htodo, -, rfl⟩
  · exact hall
  all_goals rw [htodo] at hall
  · exact fun c hc ↦ hall c (List.mem_cons_of_mem _ hc)
  · intro c hc
    rcases List.mem_append.mp hc with hc | hc
    · simp only [threadMutexLock, List.mem_cons, List.not_mem_nil, or_false] at hc
      rcases hc with rfl | rfl <;> trivial
    · exact hall c (List.mem_cons_of_mem _ hc)
  · exact fun c hc ↦ hall c (List.mem_cons_of_mem _ hc)
  · exact fun c hc ↦ hall c (List.mem_cons_of_mem _ hc)

theorem exec [DecidableEq U] [DecidableEq C] (h : MainOnly s) (htodo : s.thread.todo ≠ [])
    (newNode : Option Addr) : MainOnly (s.exec newNode) := by
  refine System.exec_induction htodo (fun _ _ hmutex ↦ h.mutexStep hmutex) fun command rest hcons _ ↦ ?_
  have hall := h.todo
  rw [hcons] at hall
  have hset : MainOnly (s.setTodo rest) :=
    h.of_fields rfl rfl rfl rfl fun c hc ↦ hall c (List.mem_cons_of_mem _ hc)
  exact hset.perform newNode (hall command List.mem_cons_self)

/-- `thread_join` returns to a main thread that it has blocked. -/
theorem join_returns [DecidableEq U] [DecidableEq C] (h : MainOnly s) :
    (s.after (.join 0) 4).thread.todo = [] ∧ (s.after (.join 0) 4).state 0 = .blocked := by
  have hcall : s.KeepsMain (.call (.join 0)) :=
    (h.unnumbered.createResult_eq.trans (h.unnumbered 0).1).symm
  have hbegin := h.begin hcall
  have htest : s.after (.join 0) 1 =
      ((s.begin (.join 0)).setTodo []).push [.setJoiner 0, .block, .switchTo 0] := by
    have hzero : slotAt 0 = some 0 := rfl
    have hunfinished : s.state 0 ≠ .finished := by
      rcases h.main with heq | heq <;> rw [heq] <;> exact ThreadState.noConfusion
    have hfirst : s.after (.join 0) 1 =
        ((s.after (.join 0) 0).setTodo []).perform none (.testFinished 0) :=
      System.after_succ rfl id
    rw [hfirst, System.perform, hzero]
    exact if_neg hunfinished
  have hjoiner : s.after (.join 0) 2 =
      ((s.after (.join 0) 1).setTodo [.block, .switchTo 0]).perform none (.setJoiner 0) :=
    System.after_succ (by rw [htest]; rfl) id
  have hblock : s.after (.join 0) 3 =
      ((s.after (.join 0) 2).setTodo [.switchTo 0]).perform none .block :=
    System.after_succ (by rw [hjoiner]; rfl) id
  have hswitch : s.after (.join 0) 4 =
      ((s.after (.join 0) 3).setTodo []).perform none (.switchTo 0) :=
    System.after_succ (by rw [hblock]; rfl) id
  have hone : MainOnly (s.after (.join 0) 1) := hbegin.exec (by rintro ⟨⟩) none
  have htwo : MainOnly (s.after (.join 0) 2) := by
    rw [System.after, Function.iterate_succ_apply']
    exact hone.exec (by rw [htest]; rintro ⟨⟩) none
  have hthree : MainOnly (s.after (.join 0) 3) := by
    rw [System.after, Function.iterate_succ_apply']
    exact htwo.exec (by rw [hjoiner]; rintro ⟨⟩) none
  have hset : MainOnly ((s.after (.join 0) 3).setTodo []) :=
    hthree.of_fields rfl rfl rfl rfl (by rintro _ ⟨⟩)
  have hblocked : (s.after (.join 0) 3).state 0 = .blocked := by
    have hcurrent : (s.after (.join 0) 2).current = 0 := htwo.current
    rw [hblock]
    exact (System.state_setState _).trans (if_pos hcurrent.symm)
  have hlast : s.after (.join 0) 4 = ((s.after (.join 0) 3).setTodo []).transfer 0 := hswitch
  rw [hlast, hset.transfer_eq]
  exact ⟨rfl, (System.state_setBuffer _).trans hblocked⟩

end MainOnly

/-! ## The timer -/

theorem Timed.exec_system {s : Timed U C} (newNode : Option Addr) :
    (s.exec newNode).system = s.system.exec newNode := by
  rw [Timed.exec]
  split
  · rename_i htodo
    rw [System.exec, Thread.mutexStep, htodo]
  · rfl

theorem Timed.after_system {s : Timed U C} (call : Call U C) (n : ℕ) :
    (s.after call n).system = s.system.after call n := by
  induction n with
  | zero => rfl
  | succ n ih =>
      rw [Timed.after, Function.iterate_succ_apply', Timed.exec_system, System.after,
        Function.iterate_succ_apply']
      exact congrArg (System.exec · none) ih

omit [DecidableEq U] [DecidableEq C] in
theorem Timed.onCommand_armed {s : Timed U C} {command : Command U C}
    (hcommand : command.KeepsMain) (hmain : s.system.current = 0) :
    (s.onCommand command).armed = s.armed := by
  cases command with
  | yield => exact hcommand.elim
  | switchToJoiner => exact hcommand.elim
  | switchTo i =>
      obtain rfl : i = 0 := hcommand
      rw [Timed.onCommand, Timed.jump, hmain]
      dsimp only
      rw [Function.update_self]
      rfl
  | create =>
      rw [Timed.onCommand]
      split <;> rfl
  | _ => rfl

theorem MainOnly.timedStep {s t : Timed U C} {a : Action U C}
    (h : MainOnly s.system ∧ s.armed = false)
    (hstep : TimedStep (fun s ↦ s.system.KeepsMain) s a t) :
    a ≠ .interrupt ∧ MainOnly t.system ∧ t.armed = false := by
  obtain ⟨hmain, harmed⟩ := h
  cases hstep with
  | call _ _ hcall => exact ⟨nofun, hmain.begin hcall, harmed⟩
  | interrupt _ hinterrupt =>
      rw [harmed] at hinterrupt
      cases hinterrupt
  | @command newNode _ htodo =>
      obtain ⟨command, rest, hcons⟩ := List.exists_cons_of_ne_nil htodo
      refine ⟨nofun, ?_, ?_⟩
      · rw [Timed.exec_system]
        exact hmain.exec htodo newNode
      · rw [Timed.exec_eq hcons]
        have hcommand := hmain.todo command (hcons ▸ List.mem_cons_self)
        exact (Timed.onCommand_armed hcommand hmain.current).trans harmed

/-- While the main thread creates threads and joins them, with the timer as `thread_init`
leaves it, there are no interrupts, no thread that has been created runs, and every join
returns. -/
theorem joins_run_nobody {t : Timed U C} {l : List (Action U C)}
    (hrun : Run (TimedStep fun s ↦ s.system.KeepsMain) (timedInit U C) l t) :
    .interrupt ∉ l ∧ t.system.current = 0 ∧ (∀ r ∈ t.system.transfers, r.target = 0) ∧
      (∀ i ≠ 0, ∀ thread, t.system.threadOf i = some thread → thread = .idle) ∧
      (t.system.thread.todo = [] →
        (t.after (.join t.system.createResult) 4).system.thread.todo = []) := by
  have hstart : MainOnly (timedInit U C).system ∧ (timedInit U C).armed = false := by
    refine ⟨⟨unnumbered_threadInit, rfl, .inl rfl, ?_, nofun, rfl, nofun⟩, rfl⟩
    rintro i - thread ⟨⟩
  have hmain : .interrupt ∉ l ∧ MainOnly t.system ∧ t.armed = false := by
    induction hrun with
    | nil => exact ⟨List.not_mem_nil, hstart⟩
    | snoc _ hlast ih =>
        obtain ⟨hnext, ht⟩ := MainOnly.timedStep ih.2 hlast
        refine ⟨fun hmem ↦ ?_, ht⟩
        rcases List.mem_append.mp hmem with hmem | hmem
        · exact ih.1 hmem
        · exact hnext (List.mem_singleton.mp hmem).symm
  obtain ⟨hnone, hmain, -⟩ := hmain
  refine ⟨hnone, hmain.current, hmain.targets, fun i hi thread hthread ↦ ?_, fun _ ↦ ?_⟩
  · rw [System.threadOf, hmain.current, if_neg hi] at hthread
    exact hmain.others i hi thread hthread
  · have hzero : t.system.createResult = 0 :=
      hmain.unnumbered.createResult_eq.trans (hmain.unnumbered 0).1
    rw [hzero, Timed.after_system]
    exact hmain.join_returns.1

/-- The main threads of `producer-consumer1.c` and `producer-consumer2.c`, with two threads. -/
theorem joins_run_nobody_two : ∃ (l : List (Action Unit Unit)) (t : Timed Unit Unit),
    Run (TimedStep fun s ↦ s.system.KeepsMain) (timedInit Unit Unit) l t ∧
      t.system.state 1 = .active ∧ t.system.state 2 = .active ∧ t.system.transfers.length = 2 ∧
      t.system.threadOf 1 = some .idle ∧ ∀ r ∈ t.system.transfers, r.target = 0 := by
  have hstart : Run (TimedStep fun s ↦ s.system.KeepsMain) (timedInit Unit Unit) [] _ := .nil
  have hfirst := Timed.run_after hstart .create 1 ⟨rfl, rfl, trivial⟩ (fun _ _ ↦ trivial) (by decide)
  have hsecond := Timed.run_after hfirst .create 1 ⟨rfl, rfl, trivial⟩ (fun _ _ ↦ trivial)
    (by decide)
  have hjoin := Timed.run_after hsecond (.join 0) 4 ⟨rfl, rfl, rfl⟩ (fun _ _ ↦ trivial) (by decide)
  have hjoin' := Timed.run_after hjoin (.join 0) 4 ⟨rfl, rfl, rfl⟩ (fun _ _ ↦ trivial) (by decide)
  exact ⟨_, _, hjoin', rfl, rfl, rfl, rfl, (joins_run_nobody hjoin').2.2.1⟩

end OsProjects.Threads
