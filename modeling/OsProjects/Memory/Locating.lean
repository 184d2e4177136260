import OsProjects.Memory.RangeMappings
import Mathlib.Order.Bounds.Basic

/-!
# Looking for unmapped pages

`vm_locate` looks at the flags of every page `vm_find` gives it.  A page that is
found has its flag set, which resets the counter, and for one that is not found
`vm_find` returns `NULL`, which the loop reads all the same.
-/

namespace OsProjects.Memory

open Library.Program

/-- Why a call of `vm_locate` stops without a result: a fault, or `i++` at the
greatest value of an `int`. -/
inductive LocateStop
  | fault (e : Fault)
  | overflow

abbrev LM := EStateM LocateStop Machine

def liftVM {α : Type} (x : VM α) : LM α := fun s ↦
  match x.run s with
  | .ok a t => .ok a t
  | .error e t => .error (.fault e) t

section Code

variable (base : ℕ)

/-- One iteration of `vm_locate`; the accumulator holds `counter` and the result
once it is known. -/
def locateBody (number : ℤ) (i : ℕ) (acc : ℤ × Option UInt64) :
    LM (ForInStep (ℤ × Option UInt64)) := do
  let (counter, _) := acc
  let currentPage := (← liftVM (vmFind base (UInt64.ofNat i))).getD 0
  if (← liftVM (loadEntry base currentPage)).flags = 0 ∧ counter = number then
    return .done (counter, some (UInt64.ofNat i))
  else if (← liftVM (loadEntry base currentPage)).flags = 0 then
    return .yield (counter + 1, none)
  else
    return .yield (0, none)

/-- `vm_locate`, whose bound `pow(2,36)` no `int` reaches. -/
def vmLocate (number : ℤ) : LM UInt64 := do
  let (_, result) ← forLoop (locateBody base number) 1 (2 ^ 31 - 1) (0, none)
  match result with
  | some page => return page
  | none => throw .overflow

end Code

/-! ## One iteration -/

variable {base : ℕ} {s : Machine}

theorem run_liftVM_of_ok {α : Type} {x : VM α} {a : α} {t : Machine} (h : x.run s = .ok a t) :
    (liftVM x).run s = .ok a t := by
  change (match x.run s with | .ok a t => _ | .error e t => _) = _
  rw [h]

theorem run_liftVM_of_error {α : Type} {x : VM α} {e : Fault} {t : Machine}
    (h : x.run s = .error e t) : (liftVM x).run s = .error (.fault e) t := by
  change (match x.run s with | .ok a t => _ | .error e t => _) = _
  rw [h]

theorem run_loadEntry_cases (base p : ℕ) (s : Machine) :
    (∃ e, (loadEntry base p).run s = .ok e s) ∨ ∃ e, (loadEntry base p).run s = .error e s := by
  rw [loadEntry, locate]
  split
  · exact .inl ⟨_, rfl⟩
  · exact .inr ⟨_, rfl⟩

theorem state_of_loadEntry {p : ℕ} {e : Entry} {t : Machine}
    (h : (loadEntry base p).run s = .ok e t) : t = s := by
  rcases run_loadEntry_cases base p s with ⟨e', he⟩ | ⟨e', he⟩
  · rw [he] at h
    cases h
    rfl
  · rw [he] at h
    cases h

theorem exists_rest_of_followed {p pointer : ℕ} {t : Machine} {rest : ℕ → VM (Option ℕ)}
    (h : (followed base pointer rest).run s = .ok (some p) t) :
    ∃ x, (rest x).run s = .ok (some p) t := by
  obtain ⟨e, u, hload, hrest⟩ := run_bind_eq_ok_iff.mp h
  obtain rfl := state_of_loadEntry hload
  split at hrest
  · cases hrest
  · exact ⟨_, hrest⟩

theorem load_of_lastLevel {p pointer : ℕ} {t : Machine}
    (h : (lastLevel base pointer).run s = .ok (some p) t) :
    t = s ∧ ∃ e, (loadEntry base p).run s = .ok e s ∧ e.flags = 1 := by
  obtain ⟨e, u, hload, hrest⟩ := run_bind_eq_ok_iff.mp h
  obtain rfl := state_of_loadEntry hload
  split at hrest
  case isTrue hflags =>
    cases hrest
    exact ⟨rfl, e, hload, hflags⟩
  case isFalse => cases hrest

/-- The flags of the entry of a page that is found are set. -/
theorem load_of_vmFind {page : UInt64} {p : ℕ} {t : Machine}
    (h : (vmFind base page).run s = .ok (some p) t) :
    t = s ∧ ∃ e, (loadEntry base p).run s = .ok e s ∧ e.flags = 1 := by
  by_cases hpage : page = 0
  · rw [vmFind, if_pos hpage] at h
    cases h
  · rw [vmFind_eq hpage, run_bind_of_ok (EStateM.run_get s)] at h
    obtain ⟨second, hsecond⟩ := exists_rest_of_followed h
    obtain ⟨third, hthird⟩ := exists_rest_of_followed hsecond
    obtain ⟨fourth, hfourth⟩ := exists_rest_of_followed hthird
    exact load_of_lastLevel hfourth

/-- An iteration faults, or it finds its page and starts to count anew. -/
theorem run_locateBody_cases (hbase : 0 < base) (s : Machine) (number : ℤ) (i : ℕ)
    (acc : ℤ × Option UInt64) :
    (∃ e t, (locateBody base number i acc).run s = .error (.fault e) t) ∨
      (locateBody base number i acc).run s = .ok (.yield (0, none)) s := by
  rw [locateBody]
  cases hfind : (vmFind base (UInt64.ofNat i)).run s with
  | error e t => exact .inl ⟨e, t, run_bind_of_error (run_liftVM_of_error hfind)⟩
  | ok found t =>
      rw [run_bind_of_ok (run_liftVM_of_ok hfind)]
      cases found with
      | none =>
          -- the flags are read at `NULL`
          have hload := run_liftVM_of_error (run_loadEntry_of_outside base (s := t) (.inl hbase))
          exact .inl ⟨_, t, run_bind_of_error hload⟩
      | some p =>
          obtain ⟨rfl, e, hload, hflags⟩ := load_of_vmFind hfind
          have hne : e.flags ≠ 0 := by
            rw [hflags]
            decide
          right
          rw [Option.getD_some, run_bind_of_ok (run_liftVM_of_ok hload),
            if_neg fun h ↦ hne h.1, run_bind_of_ok (run_liftVM_of_ok hload), if_neg hne]
          rfl

/-! ## The whole loop -/

theorem run_locateLoop_cases (hbase : 0 < base) (s : Machine) (number : ℤ) (i count : ℕ)
    (counter : ℤ) :
    (∃ e t, (forLoop (locateBody base number) i count (counter, none)).run s =
        .error (.fault e) t) ∨
      ∃ c, (forLoop (locateBody base number) i count (counter, none)).run s = .ok (c, none) s := by
  induction count generalizing i counter with
  | zero => exact .inr ⟨counter, rfl⟩
  | succ count ih =>
      rcases run_locateBody_cases hbase s number i (counter, none) with ⟨e, t, hbody⟩ | hbody
      · exact .inl ⟨e, t, by rw [forLoop, run_bind_of_error hbody]⟩
      · rw [run_forLoop_of_yield hbody]
        exact ih (i + 1) 0

/-- The loop never ends with a result. -/
theorem run_vmLocate (hbase : 0 < base) (s : Machine) (number : ℤ) :
    ∃ e t, (vmLocate base number).run s = .error e t := by
  rcases run_locateLoop_cases hbase s number 1 (2 ^ 31 - 1) 0 with ⟨e, t, hloop⟩ | ⟨c, hloop⟩
  · exact ⟨_, t, by rw [vmLocate, run_bind_of_error hloop]⟩
  · exact ⟨.overflow, s, by rw [vmLocate, run_bind_of_ok hloop]; rfl⟩

/-! ## Free runs of pages -/

/-- The pages `page, …, page + number - 1` exist and are unmapped. -/
def Machine.FreeRun (s : Machine) (base : ℕ) (number : ℤ) (page : ℕ) : Prop :=
  1 ≤ page ∧ page + number ≤ 2 ^ 36 ∧
    ∀ q : UInt64, page ≤ q.toNat → (q.toNat : ℤ) < page + number → ¬ Found base s q

/-- What `translation.h` says of `vm_locate`: it returns the first page of the
first free run, or `0` if there is none. -/
def Machine.Locates (s : Machine) (base : ℕ) (number : ℤ) : Prop :=
  Returns (vmLocate base number) s fun page _ ↦
    (page ≠ 0 → IsLeast {q | s.FreeRun base number q} page.toNat) ∧
      (page = 0 ↔ ∀ q, ¬ s.FreeRun base number q)

/-- No call of `vm_locate` returns a page, whatever the tables hold. -/
theorem vmLocate_never_locates {base : ℕ} (hbase : 0 < base) (s : Machine) (number : ℤ) :
    ¬ s.Locates base number := by
  rintro ⟨page, t, hrun, -⟩
  obtain ⟨e, u, hstop⟩ := run_vmLocate hbase s number
  rw [hstop] at hrun
  cases hrun

theorem vmLocate_never_locates_one : ¬ emptyMachine.Locates (2 ^ 32) 1 :=
  vmLocate_never_locates (by decide) emptyMachine 1

/-- Before the first mapping every page is free, and the call faults. -/
theorem free_page_not_located :
    emptyMachine.FreeRun (2 ^ 32) 1 1 ∧
      (∃ e t, (vmLocate (2 ^ 32) 1).run emptyMachine = .error e t) ∧
        ¬ emptyMachine.Locates (2 ^ 32) 1 := by
  obtain ⟨e, t, hrun⟩ := @run_vmLocate (2 ^ 32) (by decide) emptyMachine 1
  have hfree : emptyMachine.FreeRun (2 ^ 32) 1 1 := by
    refine ⟨le_rfl, by decide, fun q hq _ hfound ↦ ?_⟩
    have hpage : q ≠ 0 := by
      rintro rfl
      exact absurd hq (by decide)
    obtain ⟨f, hf⟩ := run_vmFind_of_null wellPlaced_two_pow (s := emptyMachine) rfl hpage
    obtain ⟨p, hp⟩ := hfound
    rw [hf] at hp
    cases hp
  refine ⟨hfree, ⟨e, t, hrun⟩, ?_⟩
  rintro ⟨page, u, hreturn, -⟩
  rw [hrun] at hreturn
  cases hreturn

end OsProjects.Memory
