import Mathlib.Data.Fin.Tuple.Basic
import OsProjects.Threads.Scheduler

/-!
# The slots of the thread table

Without preemption a thread that exits is active again before anybody can look at its
state.  `thread_join` never finds a finished thread, so that no slot is ever given back, and
the slots in use are those of the main thread and of the first threads created.
-/

namespace OsProjects.Threads

open Library.Runs OsProjects.Lists

variable {U C : Type}

/-! ## Commands of calls that are not interrupted -/

def Command.IsCreate : Command U C → Bool
  | .create => true
  | _ => false

def Call.IsCreate : Call U C → Bool
  | .create => true
  | _ => false

/-- The calls of `thread_create` among the actions. -/
def Action.IsCreate : Action U C → Bool
  | .call c => c.IsCreate
  | _ => false

/-- Nothing invalidates a slot, a thread exits at once, and after a switch there is nothing
to do but to lock a mutex. -/
def Uninterrupted : List (Command U C) → Prop
  | [] => True
  | .invalidate _ :: _ => False
  | .finish :: rest => rest = [.testJoiner]
  | .testJoiner :: rest => rest = []
  | .activate :: rest => rest = [.switchToJoiner]
  | .switchToJoiner :: rest => rest = []
  | .switchTo _ :: rest => rest = []
  | .testFinished _ :: rest => rest = []
  | .yield :: rest => ∀ command ∈ rest, command.OnMutex
  | _ :: rest => Uninterrupted rest

/-- The thread has finished and has not been made active again. -/
def Exits (todo : List (Command U C)) : Prop :=
  todo = [.testJoiner] ∨ todo = [.activate, .switchToJoiner]

theorem uninterrupted_of_onMutex {todo : List (Command U C)}
    (h : ∀ command ∈ todo, command.OnMutex) : Uninterrupted todo := by
  induction todo with
  | nil => trivial
  | cons command rest ih =>
      have hrest := ih fun c hc ↦ h c (List.mem_cons_of_mem _ hc)
      cases command with
      | spin m => exact hrest
      | exchange m => exact hrest
      | store m => exact hrest
      | _ => exact (h _ List.mem_cons_self).elim

theorem countP_isCreate_of_onMutex {todo : List (Command U C)}
    (h : ∀ command ∈ todo, command.OnMutex) : todo.countP Command.IsCreate = 0 := by
  rw [List.countP_eq_zero]
  intro command hcommand
  cases command with
  | create => exact (h _ hcommand).elim
  | _ => exact Bool.false_ne_true

theorem uninterrupted_body (call : Call U C) : Uninterrupted call.body := by
  cases call <;>
    simp [Call.body, threadMutexLock, threadMutexUnlock, threadCondWait, threadCondSignal,
      threadCondBroadcast, threadCreate, threadYield, threadExit, threadJoin, Uninterrupted,
      Command.OnMutex]

theorem countP_isCreate_body (call : Call U C) :
    call.body.countP Command.IsCreate = if call.IsCreate then 1 else 0 := by
  cases call <;> rfl

/-! ## The invariant -/

/-- The slots in use are the first `k + 1`, and the threads that wait for their turn have at
most a mutex to lock. -/
structure Filled (k : ℕ) (s : System U C) : Prop where
  unnumbered : s.Unnumbered
  used : ∀ i, s.state i ≠ .invalid ↔ i.val ≤ k
  buffer : ∀ i, (s.context i).buffer ≠ none → i.val ≤ k
  current : s.current.val ≤ k
  suspended : ∀ i ≠ s.current, ∀ thread, (s.context i).buffer = some thread →
    ∀ command ∈ thread.todo, command.OnMutex

structure Unreclaimed (k : ℕ) (s : System U C) : Prop extends Filled k s where
  uninterrupted : Uninterrupted s.thread.todo
  finished : ∀ i, s.state i = .finished → i = s.current ∧ Exits s.thread.todo

namespace Filled

variable {k : ℕ} {s : System U C} {i : Slot}

theorem setState {x : ThreadState} (h : Filled k s) (hi : i.val ≤ k) (hx : x ≠ .invalid) :
    Filled k (s.setState i x) where
  unnumbered := h.unnumbered.setState
  used j := by
    rw [System.state_setState]
    by_cases hji : j = i
    · rw [if_pos hji, hji]
      exact iff_of_true hx hi
    · rw [if_neg hji]
      exact h.used j
  buffer j hj := by
    rw [System.buffer_setState] at hj
    exact h.buffer j hj
  current := h.current
  suspended j hj thread hthread := by
    rw [System.buffer_setState] at hthread
    exact h.suspended j hj thread hthread

theorem setJoiner {number : ℤ} (h : Filled k s) (hnumber : number = 0) :
    Filled k (s.setTcb i fun tcb ↦ { tcb with joinerThreadNumber := number }) where
  unnumbered := h.unnumbered.setTcb fun _ hzero _ ↦ ⟨hzero, hnumber⟩
  used j := by
    rw [System.state_setJoiner]
    exact h.used j
  buffer j hj := by
    rw [System.buffer_setJoiner] at hj
    exact h.buffer j hj
  current := h.current
  suspended j hj thread hthread := by
    rw [System.buffer_setJoiner] at hthread
    exact h.suspended j hj thread hthread

theorem of_fields {t : System U C} (h : Filled k s) (hcontext : t.context = s.context)
    (hcurrent : t.current = s.current) : Filled k t := by
  refine ⟨?_, ?_, ?_, ?_, ?_⟩
  · rw [System.Unnumbered, hcontext]
    exact h.unnumbered
  · intro i
    rw [System.state, hcontext]
    exact h.used i
  · rw [hcontext]
    exact h.buffer
  · rw [hcurrent]
    exact h.current
  · rw [hcontext, hcurrent]
    exact h.suspended

theorem unreclaimed {t : System U C} (h : Filled k s) (hcontext : t.context = s.context)
    (hcurrent : t.current = s.current) (hnone : ∀ j, s.state j ≠ .finished)
    (hrest : Uninterrupted t.thread.todo) : Unreclaimed k t := by
  refine ⟨h.of_fields hcontext hcurrent, hrest, fun j hj ↦ ?_⟩
  rw [System.state, hcontext] at hj
  exact (hnone j hj).elim

/-- The thread that goes on has at most a mutex to lock. -/
theorem transfer (h : Filled k s) (hfinished : ∀ i, s.state i ≠ .finished)
    (hrest : ∀ command ∈ s.thread.todo, command.OnMutex) :
    Unreclaimed k (s.transfer i) ∧ ∀ command ∈ (s.transfer i).thread.todo, command.OnMutex := by
  have hsaved : Filled k (s.setBuffer s.current s.thread) := by
    refine ⟨h.unnumbered.setBuffer, fun j ↦ ?_, fun j hj ↦ ?_, h.current, fun j hj f hf ↦ ?_⟩
    · rw [System.state_setBuffer]
      exact h.used j
    · rw [System.buffer_setBuffer] at hj
      split at hj
      · rename_i hjc
        rw [hjc]
        exact h.current
      · exact h.buffer j hj
    · exact h.suspended j hj f ((if_neg hj).symm.trans ((System.buffer_setBuffer _).symm.trans hf))
  have hthread (j : Slot) (f : Thread U C)
      (hf : ((s.setBuffer s.current s.thread).context j).buffer = some f) :
      ∀ command ∈ f.todo, command.OnMutex := by
    by_cases hj : j = s.current
    · rw [System.buffer_setBuffer, if_pos hj] at hf
      cases hf
      exact hrest
    · exact hsaved.suspended j hj f hf
  have hnone (j : Slot) : (s.setBuffer s.current s.thread).state j ≠ .finished := by
    rw [System.state_setBuffer]
    exact hfinished j
  cases hbuffer : ((s.setBuffer s.current s.thread).context i).buffer with
  | none =>
      rw [System.transfer_eq_of_none hbuffer]
      exact ⟨hsaved.unreclaimed rfl rfl hnone (uninterrupted_of_onMutex hrest), hrest⟩
  | some thread =>
      rw [System.transfer_eq hbuffer]
      have hmutex := hthread i thread hbuffer
      refine ⟨⟨⟨hsaved.unnumbered, hsaved.used, hsaved.buffer, hsaved.buffer i ?_,
        fun j _ ↦ hthread j⟩, uninterrupted_of_onMutex hmutex, fun j hj ↦ (hnone j hj).elim⟩, hmutex⟩
      rw [hbuffer]
      exact Option.some_ne_none thread

theorem freeSlot_eq (h : Filled k s) (hfree : s.freeSlot = some i) : i.val = k + 1 := by
  rw [System.freeSlot, ← Fin.find?_eq_find?_finRange, Fin.find?_eq_some_iff] at hfree
  obtain ⟨hinvalid, hbefore⟩ := hfree
  have hlarge : k < i.val := by
    by_contra hle
    exact (h.used i).mpr (Nat.not_lt.mp hle) (of_decide_eq_true hinvalid)
  -- the first slot after those in use is not found before `i`
  by_contra hne
  have hnext : k + 1 < maxThreads := by omega
  have hused := (h.used ⟨k + 1, hnext⟩).mp
    (of_decide_eq_false (hbefore ⟨k + 1, hnext⟩ (Fin.lt_def.mpr (by simp only; omega))))
  simp only at hused
  omega

theorem le_of_freeSlot_eq_none (h : Filled k s) (hfree : s.freeSlot = none) (i : Slot) :
    i.val ≤ k := by
  rw [System.freeSlot, List.find?_eq_none] at hfree
  exact (h.used i).mp fun hinvalid ↦ hfree i (List.mem_finRange i) (decide_eq_true hinvalid)

theorem unreclaimed_setState {x : ThreadState} (h : Filled k s) (hi : i.val ≤ k)
    (hinvalid : x ≠ .invalid) (hx : x ≠ .finished) (hothers : ∀ j ≠ i, s.state j ≠ .finished)
    (hrest : Uninterrupted s.thread.todo) : Unreclaimed k (s.setState i x) := by
  refine ⟨h.setState hi hinvalid, hrest, fun j hj ↦ ?_⟩
  rw [System.state_setState] at hj
  split at hj
  · exact absurd hj hx
  · exact absurd hj (hothers j ‹_›)

/-- A new thread takes the first slot after those in use, if there is one. -/
theorem create [DecidableEq C] (h : Filled k s) (newNode : Option Addr)
    (hnone : ∀ j, s.state j ≠ .finished) (hrest : Uninterrupted s.thread.todo) :
    Unreclaimed (k + 1) (s.perform newNode .create) ∧
      (s.perform newNode .create).thread = s.thread := by
  cases hfree : s.freeSlot with
  | none =>
      have hall := h.le_of_freeSlot_eq_none hfree
      rw [System.perform, hfree]
      refine ⟨⟨⟨h.unnumbered, fun i ↦ ?_, fun i _ ↦ ?_, ?_, h.suspended⟩, hrest,
        fun j hj ↦ (hnone j hj).elim⟩, rfl⟩
      · exact iff_of_true ((h.used i).mpr (hall i)) ((hall i).trans (Nat.le_add_right ..))
      · exact (hall i).trans (Nat.le_add_right ..)
      · exact h.current.trans (Nat.le_add_right ..)
  | some i =>
      have hi := h.freeSlot_eq hfree
      rw [System.perform_create newNode hfree]
      have hstate (j : Slot) : ((s.setState i .active).setBuffer i .idle).state j =
          if j = i then .active else s.state j :=
        (System.state_setBuffer _).trans (System.state_setState _)
      have hbuffer (j : Slot) : (((s.setState i .active).setBuffer i .idle).context j).buffer =
          if j = i then some .idle else (s.context j).buffer := by
        rw [System.buffer_setBuffer, System.buffer_setState]
      refine ⟨⟨⟨h.unnumbered.setState.setBuffer, fun j ↦ ?_, fun j hj ↦ ?_, ?_,
        fun j hj f hf ↦ ?_⟩, hrest, fun j hj ↦ ?_⟩, rfl⟩
      · refine (iff_of_eq (congrArg (· ≠ ThreadState.invalid) (hstate j))).trans ?_
        by_cases hji : j = i
        · rw [if_pos hji, hji, hi]
          exact iff_of_true ThreadState.noConfusion le_rfl
        · have hne : j.val ≠ k + 1 := fun heq ↦ hji (Fin.ext (heq.trans hi.symm))
          rw [if_neg hji, h.used]
          omega
      · have hj' := (hbuffer j).symm.trans_ne hj
        by_cases hji : j = i
        · rw [hji, hi]
        · rw [if_neg hji] at hj'
          exact (h.buffer j hj').trans (Nat.le_add_right ..)
      · exact h.current.trans (Nat.le_add_right ..)
      · have hf' := (hbuffer j).symm.trans hf
        split at hf'
        · cases hf'
          rintro _ ⟨⟩
        · exact h.suspended j hj f hf'
      · have hj' := (hstate j).symm.trans hj
        split at hj'
        · cases hj'
        · exact (hnone j hj').elim

/-- A command that is not about a mutex, and how many slots are in use then. -/
theorem perform [DecidableEq C] {command : Command U C} (h : Filled k s) (newNode : Option Addr)
    (huninterrupted : Uninterrupted (command :: s.thread.todo))
    (hfinished : ∀ i, s.state i = .finished → i = s.current ∧ Exits (command :: s.thread.todo))
    (hother : ¬ command.OnMutex) :
    ∃ k', Unreclaimed k' (s.perform newNode command) ∧
      k' + (s.perform newNode command).thread.todo.countP Command.IsCreate =
        k + (command :: s.thread.todo).countP Command.IsCreate := by
  have hnone (hexit : ¬ (command = .testJoiner ∨ command = .activate)) (j : Slot) :
      s.state j ≠ .finished := by
    intro hj
    rcases (hfinished j hj).2 with heq | heq
    · exact hexit (.inl (List.cons_eq_cons.mp heq).1)
    · exact hexit (.inr (List.cons_eq_cons.mp heq).1)
  have htransfer (i : Slot) (hrest : ∀ command ∈ s.thread.todo, command.OnMutex)
      (hfinished : ∀ j, s.state j ≠ .finished) : ∃ k', Unreclaimed k' (s.transfer i) ∧
        k' + (s.transfer i).thread.todo.countP Command.IsCreate =
          k + s.thread.todo.countP Command.IsCreate := by
    obtain ⟨hnext, hmutex⟩ := h.transfer (i := i) hfinished hrest
    refine ⟨k, hnext, ?_⟩
    rw [countP_isCreate_of_onMutex hmutex, countP_isCreate_of_onMutex hrest]
  cases command with
  | spin m => exact absurd trivial hother
  | exchange m => exact absurd trivial hother
  | store m => exact absurd trivial hother
  | invalidate i => exact huninterrupted.elim
  | insertTail c =>
      exact ⟨k, h.unreclaimed rfl rfl (hnone (by simp)) huninterrupted, rfl⟩
  | removeHead c =>
      exact ⟨k, h.unreclaimed rfl rfl (hnone (by simp)) huninterrupted, rfl⟩
  | block =>
      exact ⟨k, h.unreclaimed_setState h.current ThreadState.noConfusion ThreadState.noConfusion
        (fun j _ ↦ hnone (by simp) j) huninterrupted, rfl⟩
  | wake =>
      rw [System.perform_wake newNode h.unnumbered]
      split
      · exact ⟨k, h.unreclaimed rfl rfl (hnone (by simp)) huninterrupted, rfl⟩
      · exact ⟨k, h.unreclaimed_setState (Nat.zero_le k) ThreadState.noConfusion
          ThreadState.noConfusion (fun j _ ↦ hnone (by simp) j) huninterrupted, rfl⟩
  | signalAgain c =>
      rw [System.perform]
      split
      · exact ⟨k, h.unreclaimed rfl rfl (hnone (by simp)) huninterrupted, rfl⟩
      · exact ⟨k, h.unreclaimed rfl rfl (hnone (by simp)) huninterrupted, rfl⟩
  | create =>
      obtain ⟨hcreated, hthread⟩ := h.create newNode (hnone (by simp)) huninterrupted
      refine ⟨k + 1, hcreated, ?_⟩
      rw [hthread, List.countP_cons_of_pos rfl]
      omega
  | yield =>
      have hrest : ∀ command ∈ s.thread.todo, command.OnMutex := huninterrupted
      rw [System.perform]
      split
      · exact htransfer _ hrest (hnone (by simp))
      · exact ⟨k, h.unreclaimed rfl rfl (hnone (by simp)) (uninterrupted_of_onMutex hrest), rfl⟩
  | finish =>
      have hrest : s.thread.todo = [.testJoiner] := huninterrupted
      have hset := h.setState (x := .finished) h.current ThreadState.noConfusion
      refine ⟨k, ⟨hset.of_fields rfl rfl, ?_, fun j hj ↦ ?_⟩, rfl⟩
      · change Uninterrupted s.thread.todo
        rw [hrest]
        rfl
      · have hj' := (System.state_setState _).symm.trans hj
        split at hj'
        · exact ⟨‹_›, .inl hrest⟩
        · exact (hnone (by simp) j hj').elim
  | testJoiner =>
      have hrest : s.thread.todo = [] := huninterrupted
      rw [System.perform_testJoiner newNode h.unnumbered]
      have htodo : (s.push [.activate, .switchToJoiner]).thread.todo =
          [.activate, .switchToJoiner] := by
        change [.activate, .switchToJoiner] ++ s.thread.todo = _
        rw [hrest]
        rfl
      refine ⟨k, ⟨h.of_fields rfl rfl, ?_, fun j hj ↦ ⟨(hfinished j hj).1, .inr htodo⟩⟩, ?_⟩
      · rw [htodo]
        rfl
      · rw [htodo, hrest]
        rfl
  | activate =>
      have hrest : s.thread.todo = [.switchToJoiner] := huninterrupted
      refine ⟨k, h.unreclaimed_setState h.current ThreadState.noConfusion ThreadState.noConfusion
        (fun j hne hj ↦ hne (hfinished j hj).1) ?_, rfl⟩
      rw [hrest]
      rfl
  | switchToJoiner =>
      have hrest : s.thread.todo = [] := huninterrupted
      rw [System.perform_switchToJoiner newNode h.unnumbered]
      refine htransfer 0 ?_ (hnone (by simp))
      rw [hrest]
      rintro _ ⟨⟩
  | testFinished target =>
      have hrest : s.thread.todo = [] := huninterrupted
      rw [System.perform]
      split
      · refine ⟨k, h.unreclaimed rfl rfl (hnone (by simp)) ?_, rfl⟩
        change Uninterrupted s.thread.todo
        rw [hrest]
        trivial
      · rename_i i _
        rw [if_neg (hnone (by simp) i)]
        refine ⟨k, h.unreclaimed rfl rfl (hnone (by simp)) ?_, rfl⟩
        change Uninterrupted ([.setJoiner i, .block, .switchTo i] ++ s.thread.todo)
        rw [hrest]
        rfl
  | setJoiner i =>
      refine ⟨k, ⟨h.setJoiner (h.unnumbered s.current).1, huninterrupted, fun j hj ↦ ?_⟩, rfl⟩
      rw [System.perform, System.state_setJoiner] at hj
      exact (hnone (by simp) j hj).elim
  | switchTo i =>
      have hrest : s.thread.todo = [] := huninterrupted
      refine htransfer i ?_ (hnone (by simp))
      rw [hrest]
      rintro _ ⟨⟩

end Filled

/-! ## Runs -/

variable [DecidableEq U] [DecidableEq C] {s t : System U C}

theorem Unreclaimed.mutexStep {k : ℕ} (h : Unreclaimed k s) {thread : Thread U C}
    {locked : Locks U C} (hstep : s.thread.mutexStep s.locked = some (thread, locked)) :
    Unreclaimed k { s with thread := thread, locked := locked } ∧
      thread.todo.countP Command.IsCreate = s.thread.todo.countP Command.IsCreate := by
  have hrest := h.uninterrupted
  have hnone {command : Command U C} {rest : List (Command U C)}
      (htodo : s.thread.todo = command :: rest) (hmutex : command.OnMutex) (j : Slot) :
      s.state j ≠ .finished := by
    intro hj
    rcases (h.finished j hj).2 with heq | heq <;> rw [htodo] at heq
    · obtain rfl := (List.cons_eq_cons.mp heq).1
      exact hmutex
    · obtain rfl := (List.cons_eq_cons.mp heq).1
      exact hmutex
  have hnext {thread : Thread U C} (hthread : Uninterrupted thread.todo)
      (hnone : ∀ j, s.state j ≠ .finished) :
      Unreclaimed k { s with thread := thread, locked := locked } :=
    ⟨h.toFilled.of_fields rfl rfl, hthread, fun j hj ↦ (hnone j hj).elim⟩
  rcases mutexStep_cases hstep with ⟨m, rest, htodo, -, rfl | rfl⟩ | ⟨m, rest, htodo, -, rfl⟩ |
    ⟨m, rest, htodo, -, -, rfl⟩ | ⟨m, rest, htodo, -, rfl⟩
  · exact ⟨hnext hrest (hnone htodo trivial), rfl⟩
  all_goals
    rw [htodo] at hrest ⊢
    exact ⟨hnext hrest (hnone htodo trivial), rfl⟩

theorem Unreclaimed.step {k : ℕ} {a : Action U C} (h : Unreclaimed k s)
    (hstep : Step (fun _ a ↦ a.Only fun _ ↦ True) s a t) :
    ∃ k', Unreclaimed k' t ∧ k' + t.thread.todo.countP Command.IsCreate =
      k + s.thread.todo.countP Command.IsCreate + if a.IsCreate then 1 else 0 := by
  cases hstep with
  | interrupt _ hinterrupt => cases hinterrupt
  | @call call _ htodo =>
      refine ⟨k, ⟨h.toFilled.of_fields rfl rfl, uninterrupted_body call, fun j hj ↦ ?_⟩, ?_⟩
      · rcases (h.finished j hj).2 with heq | heq <;> rw [htodo] at heq <;> cases heq
      · rw [htodo, List.countP_nil, Nat.add_zero]
        exact congrArg (k + ·) (countP_isCreate_body call)
  | @command newNode _ htodo =>
      have hcalls : (Action.command (C := C) (U := U) newNode).IsCreate = false := rfl
      rw [hcalls, if_neg Bool.false_ne_true, Nat.add_zero]
      refine System.exec_induction (P := fun t ↦ ∃ k', Unreclaimed k' t ∧
        k' + t.thread.todo.countP Command.IsCreate =
          k + s.thread.todo.countP Command.IsCreate) htodo ?_ ?_
      · intro thread locked hmutex
        obtain ⟨hnext, hcount⟩ := h.mutexStep hmutex
        exact ⟨k, hnext, congrArg (k + ·) hcount⟩
      · intro command rest hcons hother
        have hset : Filled k (s.setTodo rest) := h.toFilled.of_fields rfl rfl
        have hrest := h.uninterrupted
        have hfinished := h.finished
        rw [hcons] at hrest hfinished ⊢
        exact hset.perform newNode hrest hfinished hother

/-- Without preemption the slots in use are the first ones, one for every call of
`thread_create`: neither `thread_exit` nor `thread_join` gives one back. -/
theorem slots_never_reclaimed {l : List (Action U C)}
    (hrun : Run (Step fun _ a ↦ a.Only fun _ ↦ True) (threadInit U C) l s)
    (htodo : s.thread.todo = []) (i : Slot) :
    s.state i ≠ .invalid ↔ i.val ≤ l.countP Action.IsCreate := by
  have hstart : Unreclaimed 0 (threadInit U C) := by
    have hstate (i : Slot) : (threadInit U C).state i = if i = 0 then .active else .invalid := rfl
    refine ⟨⟨fun _ ↦ ⟨rfl, rfl⟩, fun i ↦ ?_, fun i hi ↦ (hi rfl).elim, le_rfl, ?_⟩, trivial,
      fun i hi ↦ ?_⟩
    · rw [hstate]
      by_cases hzero : i = 0
      · rw [if_pos hzero, hzero]
        exact iff_of_true ThreadState.noConfusion le_rfl
      · rw [if_neg hzero]
        exact iff_of_false (fun h ↦ h rfl) fun h ↦ hzero (Fin.ext (Nat.le_zero.mp h))
    · rintro i - thread ⟨⟩
    · rw [hstate] at hi
      split at hi <;> cases hi
  have hcount : ∃ k, Unreclaimed k s ∧
      k + s.thread.todo.countP Command.IsCreate = l.countP Action.IsCreate := by
    clear htodo
    induction hrun with
    | nil => exact ⟨0, hstart, rfl⟩
    | @snoc l s t a _ hlast ih =>
        obtain ⟨k, hs, hk⟩ := ih
        obtain ⟨k', ht, hk'⟩ := hs.step hlast
        refine ⟨k', ht, ?_⟩
        rw [hk', hk, List.countP_append, List.countP_singleton]
  obtain ⟨k, hs, hk⟩ := hcount
  rw [htodo, List.countP_nil, Nat.add_zero] at hk
  rw [← hk]
  exact hs.used i

/-- The created thread has exited, and the main thread goes on. -/
theorem slots_never_reclaimed_exit : ∃ (l : List (Action Unit Unit)) (s : System Unit Unit),
    Run (Step fun _ a ↦ a.Only fun _ ↦ True) (threadInit Unit Unit) l s ∧
      s.thread.todo = [] ∧ s.current = 0 ∧ 1 ∈ s.exited ∧ s.state 1 ≠ .invalid := by
  have hcreate : Run (Step fun _ a ↦ a.Only fun _ ↦ True) (threadInit Unit Unit) _ _ :=
    run_after .nil .create 1 ⟨rfl, rfl, trivial⟩ (fun _ _ ↦ trivial) (by decide)
  have hyield := run_after hcreate .yield 1 ⟨rfl, rfl, trivial⟩ (fun _ _ ↦ trivial) (by decide)
  have hexit := run_after hyield .exit 4 ⟨rfl, rfl, trivial⟩ (fun _ _ ↦ trivial) (by decide)
  exact ⟨_, _, hexit, rfl, rfl, .inl rfl, (slots_never_reclaimed hexit rfl 1).mpr (by decide)⟩

end OsProjects.Threads
