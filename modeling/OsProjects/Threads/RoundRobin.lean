import OsProjects.Threads.Scheduler
import Mathlib.Data.Fintype.Basic
import Mathlib.Data.Finset.Card

/-!
# Yielding in turn

No thread is ever given its number, so that every search for the next thread
starts after slot 0.  The first thread that has been created is found by all of
them, itself included, and the thread in slot 0 by none.
-/

namespace OsProjects.Threads

open Library.Runs

variable {U C : Type} [DecidableEq U] [DecidableEq C]

namespace System

/-- The threads that have been scheduled, in order. -/
def schedule (s : System U C) : List Slot := s.transfers.reverse.map Transfer.target

def activeThreads (s : System U C) : Finset Slot := Finset.univ.filter fun i ↦ s.state i = .active

/-- Among any as many consecutive turns as there are active threads, each of these
threads has one. -/
def RoundRobin (s : System U C) (schedule : List Slot) : Prop :=
  ∀ past window rest, schedule = past ++ window ++ rest →
    window.length = s.activeThreads.card → ∀ i ∈ s.activeThreads, window.count i = 1

end System

/-! ## Creation -/

/-- What calls of `thread_create` lead to. -/
structure Created (s : System U C) : Prop where
  current : s.current = 0
  number : ∀ i, (s.context i).number = 0
  transfers : s.transfers = []
  undefined : s.undefined = false
  main : s.state 0 = .active
  first : s.state 1 = .active ∨ ∀ i ≠ 0, s.state i = .invalid
  buffer : ∀ i ≠ 0, s.state i = .active → (s.context i).buffer = some .idle
  todo : s.thread.todo = [] ∨ s.thread.todo = threadCreate

omit [DecidableEq U] [DecidableEq C] in
theorem freeSlot_eq_one {s : System U C} (hmain : s.state 0 = .active)
    (hfirst : s.state 1 = .invalid) : s.freeSlot = some 1 := by
  rw [System.freeSlot, List.finRange_succ, List.find?_cons_of_neg (by simp [hmain]),
    List.finRange_succ, List.map_cons, List.find?_cons_of_pos]
  · rfl
  · exact decide_eq_true hfirst

omit [DecidableEq U] [DecidableEq C] in
theorem created_threadInit : Created (threadInit U C) where
  current := rfl
  number _ := rfl
  transfers := rfl
  undefined := rfl
  main := rfl
  first := .inr fun i hi ↦ if_neg hi
  buffer i hi hactive := by
    have hinvalid : (threadInit U C).state i = .invalid := if_neg hi
    rw [hinvalid] at hactive
    cases hactive
  todo := .inl rfl

omit [DecidableEq U] in
theorem Created.create {s : System U C} (h : Created s) (newNode : Option Lists.Addr) :
    Created ((s.setTodo []).perform newNode .create) := by
  have htodo : Created (s.setTodo []) :=
    ⟨h.current, h.number, h.transfers, h.undefined, h.main, h.first, h.buffer, .inl rfl⟩
  rw [System.perform]
  cases hfree : (s.setTodo []).freeSlot with
  | none => exact htodo
  | some i =>
      have hinvalid : s.state i = .invalid := System.state_of_freeSlot_eq_some hfree
      have hi : i ≠ 0 := by
        rintro rfl
        rw [h.main] at hinvalid
        cases hinvalid
      have hstate (j : Slot) : (((s.setTodo []).setState i .active).setBuffer i .idle).state j =
          if j = i then .active else s.state j := by
        rw [System.state_setBuffer, System.state_setState]
        rfl
      refine ⟨h.current, fun j ↦ ?_, h.transfers, h.undefined, ?_, ?_, fun j hj hactive ↦ ?_,
        .inl rfl⟩
      · exact (System.number_setBuffer _).trans ((System.number_setState _).trans (h.number j))
      · exact (hstate 0).trans (by rw [if_neg hi.symm, h.main])
      · left
        apply (hstate 1).trans
        rcases h.first with hfirst | hfirst
        · rw [hfirst, ite_self]
        · have hone := freeSlot_eq_one h.main (hfirst 1 (by decide))
          rw [if_pos (Option.some.inj (hone.symm.trans hfree))]
      · apply (System.buffer_setBuffer _).trans
        by_cases hji : j = i
        · rw [if_pos hji]
        · rw [if_neg hji, System.buffer_setState]
          apply h.buffer j hj
          have hold := (hstate j).symm.trans hactive
          rwa [if_neg hji] at hold

theorem Created.step {s t : System U C} {a : Action U C} (h : Created s)
    (hstep : Step (fun _ a ↦ a.Only (· = .create)) s a t) : Created t := by
  cases hstep with
  | call _ _ hcall =>
      obtain rfl := hcall
      exact ⟨h.current, h.number, h.transfers, h.undefined, h.main, h.first, h.buffer, .inr rfl⟩
  | command _ htodo =>
      have hcreate := h.todo.resolve_left htodo
      rw [System.exec_eq_perform hcreate id]
      exact h.create _
  | interrupt _ hinterrupt => cases hinterrupt

/-! ## Yields -/

/-- What calls of `thread_yield` lead to from `s`. -/
structure Yielding (s t : System U C) : Prop where
  state : ∀ i, t.state i = s.state i
  number : ∀ i, (t.context i).number = 0
  undefined : t.undefined = false
  buffer : t.current = 1 ∨ (t.context 1).buffer = some .idle
  schedule : t.schedule = List.replicate t.schedule.length 1
  todo : t.thread.todo = [] ∨ t.thread.todo = threadYield

omit [DecidableEq U] in
/-- A yield of any thread hands over to the first thread that has been created. -/
theorem Yielding.yield {s t : System U C} (h : Yielding s t) (hone : s.state 1 = .active)
    (newNode : Option Lists.Addr) : Yielding s ((t.setTodo []).perform newNode .yield) ∧
      ((t.setTodo []).perform newNode .yield).schedule = t.schedule ++ [1] ∧
      ((t.setTodo []).perform newNode .yield).thread.todo = [] := by
  have htarget : (t.setTodo []).yieldTarget = some 1 :=
    System.yieldTarget_eq_one (h.number t.current) ((h.state 1).trans hone)
  obtain ⟨thread, hbuffer, htodo⟩ : ∃ thread, (((t.setTodo []).setBuffer t.current
      (t.setTodo []).thread).context 1).buffer = some thread ∧ thread.todo = [] := by
    by_cases hcurrent : 1 = t.current
    · exact ⟨_, (System.buffer_setBuffer _).trans (if_pos hcurrent), rfl⟩
    · have hidle := h.buffer.resolve_left (Ne.symm hcurrent)
      exact ⟨.idle, (System.buffer_setBuffer _).trans ((if_neg hcurrent).trans hidle), rfl⟩
  have hperform := System.perform_yield newNode htarget
  rw [System.transfer_eq hbuffer] at hperform
  have hschedule : ((t.setTodo []).perform newNode .yield).schedule = t.schedule ++ [1] := by
    rw [hperform, System.schedule, List.reverse_cons, List.map_append]
    rfl
  have hreturned : ((t.setTodo []).perform newNode .yield).thread.todo = [] := by
    rw [hperform]
    exact htodo
  refine ⟨?_, hschedule, hreturned⟩
  constructor
  · intro i
    rw [hperform]
    exact (System.state_setBuffer _).trans (h.state i)
  · intro i
    rw [hperform]
    exact (System.number_setBuffer _).trans (h.number i)
  · rw [hperform]
    exact h.undefined
  · rw [hperform]
    exact .inl rfl
  · rw [hschedule, List.length_append, List.replicate_add, ← h.schedule]
    rfl
  · exact .inl hreturned

theorem Yielding.step {s t u : System U C} {a : Action U C} (h : Yielding s t)
    (hone : s.state 1 = .active) (hstep : Step (fun _ a ↦ a.Only (· = .yield)) t a u) :
    Yielding s u := by
  cases hstep with
  | call _ _ hcall =>
      obtain rfl := hcall
      exact ⟨h.state, h.number, h.undefined, h.buffer, h.schedule, .inr rfl⟩
  | command _ htodo =>
      have hyield := h.todo.resolve_left htodo
      rw [System.exec_eq_perform hyield id]
      exact (h.yield hone _).1
  | interrupt _ hinterrupt => cases hinterrupt

/-- A thread can yield as often as it likes. -/
theorem Yielding.exists_yields {s : System U C} (h : Yielding s s) (hone : s.state 1 = .active)
    (htodo : s.thread.todo = []) (n : ℕ) : ∃ l t, Run (Step fun _ a ↦ a.Only (· = .yield)) s l t ∧
      Yielding s t ∧ t.thread.todo = [] ∧ t.schedule.length = s.schedule.length + n := by
  induction n with
  | zero => exact ⟨[], s, .nil, h, htodo, rfl⟩
  | succ n ih =>
      obtain ⟨l, t, hrun, hyielding, hidle, hlength⟩ := ih
      have hcall : Step (fun _ a ↦ a.Only (· = .yield)) t (.call .yield) (t.begin .yield) :=
        .call hyielding.undefined hidle rfl
      have hcalled := hyielding.step hone hcall
      have hyield := hcalled.yield hone none
      have hcommand : Step (fun _ a ↦ a.Only (· = .yield)) (t.begin .yield) (.command none)
          ((t.begin .yield).exec none) :=
        .command hcalled.undefined nofun nofun trivial
      rw [System.exec_eq_perform rfl id] at hcommand
      refine ⟨_, _, .snoc (.snoc hrun hcall) hcommand, hyield.1, hyield.2.2, ?_⟩
      rw [hyield.2.1, List.length_append, ← Nat.add_assoc, ← hlength]
      rfl

omit [DecidableEq U] [DecidableEq C] in
theorem Created.yielding {s : System U C} (h : Created s) (htodo : s.thread.todo = [])
    (hone : s.state 1 = .active) : Yielding s s where
  state _ := rfl
  number := h.number
  undefined := h.undefined
  buffer := .inr (h.buffer 1 (by decide) hone)
  schedule := by
    rw [System.schedule, h.transfers]
    rfl
  todo := .inl htodo

omit [DecidableEq U] [DecidableEq C] in
theorem Created.first_of_card {s : System U C} (h : Created s) (hcard : 2 ≤ s.activeThreads.card) :
    s.state 1 = .active := by
  apply h.first.resolve_right
  intro hinvalid
  obtain ⟨i, hactive, hi⟩ := Finset.exists_mem_ne hcard 0
  rw [System.activeThreads, Finset.mem_filter, hinvalid i hi] at hactive
  cases hactive.2

omit [DecidableEq U] [DecidableEq C] in
theorem Yielding.not_roundRobin {s t : System U C} (h : Yielding s t)
    (hmain : s.state 0 = .active) (hlong : s.activeThreads.card ≤ t.schedule.length) :
    ¬ s.RoundRobin t.schedule := by
  intro hround
  have hmem : 0 ∈ s.activeThreads := Finset.mem_filter.mpr ⟨Finset.mem_univ 0, hmain⟩
  have hcount := hround [] (t.schedule.take s.activeThreads.card)
    (t.schedule.drop s.activeThreads.card) (by simp) (by simpa using hlong) 0 hmem
  rw [h.schedule, List.take_replicate, List.count_replicate] at hcount
  cases hcount

/-- After any creation of threads the yields are not in turn: the thread of slot 1 is
scheduled every time, the main thread never. -/
theorem never_round_robin {s : System U C} {l : List (Action U C)}
    (hrun : Run (Step fun _ a ↦ a.Only (· = .create)) (threadInit U C) l s)
    (htodo : s.thread.todo = []) (hcard : 2 ≤ s.activeThreads.card) :
    (∀ n, ∃ k t, Run (Step fun _ a ↦ a.Only (· = .yield)) s k t ∧ t.schedule.length = n) ∧
    ∀ k t, Run (Step fun _ a ↦ a.Only (· = .yield)) s k t →
      t.schedule = List.replicate t.schedule.length 1 ∧
      (s.activeThreads.card ≤ t.schedule.length → ¬ s.RoundRobin t.schedule) := by
  have hcreated : Created s :=
    hrun.invariant created_threadInit fun _ _ _ hs hstep ↦ hs.step hstep
  have hone := hcreated.first_of_card hcard
  have hstart := hcreated.yielding htodo hone
  constructor
  · intro n
    obtain ⟨k, t, hyields, -, -, hlength⟩ := hstart.exists_yields hone htodo n
    refine ⟨k, t, hyields, ?_⟩
    rw [hlength, System.schedule, hcreated.transfers]
    exact Nat.zero_add n
  · intro k t hyields
    have hyielding := hyields.invariant hstart fun _ _ _ ht hstep ↦ ht.step hone hstep
    exact ⟨hyielding.schedule, hyielding.not_roundRobin hcreated.main⟩

/-- The main thread can create a thread. -/
theorem exists_created : ∃ (l : List (Action Unit Unit)) (s : System Unit Unit),
    Run (Step fun _ a ↦ a.Only (· = .create)) (threadInit Unit Unit) l s ∧
      s.thread.todo = [] ∧ Created s ∧ 2 ≤ s.activeThreads.card := by
  have hrun : Run (Step fun _ a ↦ a.Only (· = .create)) (threadInit Unit Unit) _ _ :=
    run_after .nil .create 1 ⟨rfl, rfl, rfl⟩ (fun _ _ ↦ trivial) (by decide)
  have hcreated := hrun.invariant created_threadInit fun _ _ _ hs hstep ↦ hs.step hstep
  refine ⟨_, _, hrun, rfl, hcreated, ?_⟩
  refine Finset.one_lt_card.mpr ⟨0, ?_, 1, ?_, by decide⟩
  · exact Finset.mem_filter.mpr ⟨Finset.mem_univ 0, rfl⟩
  · exact Finset.mem_filter.mpr ⟨Finset.mem_univ 1, rfl⟩

theorem never_round_robin_one_thread : ∃ (l : List (Action Unit Unit)) (s : System Unit Unit),
    Run (Step fun _ a ↦ a.Only (· = .create)) (threadInit Unit Unit) l s ∧
      s.thread.todo = [] ∧ 2 ≤ s.activeThreads.card ∧
      ∀ k t, Run (Step fun _ a ↦ a.Only (· = .yield)) s k t → 0 ∉ t.schedule := by
  obtain ⟨l, s, hrun, htodo, -, hcard⟩ := exists_created
  refine ⟨l, s, hrun, htodo, hcard, fun k t hyields hmain ↦ ?_⟩
  rw [((never_round_robin hrun htodo hcard).2 k t hyields).1] at hmain
  exact absurd (List.eq_of_mem_replicate hmain) (by decide)

theorem main_thread_starves : ∃ (l k : List (Action Unit Unit)) (s t : System Unit Unit),
    Run (Step fun _ a ↦ a.Only (· = .create)) (threadInit Unit Unit) l s ∧
      s.thread.todo = [] ∧ 2 ≤ s.activeThreads.card ∧
      Run (Step fun _ a ↦ a.Only (· = .yield)) s k t ∧ ¬ s.RoundRobin t.schedule := by
  obtain ⟨l, s, hrun, htodo, hcreated, hcard⟩ := exists_created
  have hone := hcreated.first_of_card hcard
  obtain ⟨k, t, hyields, hyielding, -, hlength⟩ :=
    (hcreated.yielding htodo hone).exists_yields hone htodo s.activeThreads.card
  refine ⟨l, k, s, t, hrun, htodo, hcard, hyields, hyielding.not_roundRobin hcreated.main ?_⟩
  rw [hlength]
  exact Nat.le_add_left ..

end OsProjects.Threads
