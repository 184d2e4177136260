import OsProjects.Server.Client
import Mathlib.Data.Nat.Count
import Mathlib.Data.PNat.Basic

/-!
# Reaping children

The handler of `SIGCHLD` in `server_fork.c`, which collects the children that
have exited.  It counts whatever `waitpid` returns, except that there are no children.
-/

namespace OsProjects.Server

open Library.Program

/-- How a child has ended. -/
inductive ChildStatus
  | exited (status : UInt8)
  | killed (signal : ℕ)

/-- `EXIT_SUCCESS` -/
def statusOk : UInt8 := 0

/-- A result of `waitpid(-1, &status, WNOHANG)`, with what it writes to `status`. -/
inductive WaitResult
  | reaped (pid : ℕ+) (status : ChildStatus)
  | noneExited
  | noChildren

namespace WaitResult

def value : WaitResult → ℤ
  | reaped pid _ => pid
  | noneExited => 0
  | noChildren => -1

def ExitedOk : WaitResult → Prop
  | reaped _ (.exited status) => status = statusOk
  | _ => False

instance : DecidablePred ExitedOk
  | reaped _ (.exited status) => inferInstanceAs (Decidable (status = statusOk))
  | reaped _ (.killed _) => inferInstanceAs (Decidable False)
  | noneExited => inferInstanceAs (Decidable False)
  | noChildren => inferInstanceAs (Decidable False)

end WaitResult

/-- The calls of `waitpid` that have been made, and `operations_completed`. -/
structure Reaper where
  waits : ℕ
  operationsCompleted : UInt64

section Handler

/- What `waitpid` returns, call after call. -/
variable (results : ℕ → WaitResult)

def waitpid : EStateM Stop Reaper ℤ := do
  let s ← get
  modify fun s ↦ { s with waits := s.waits + 1 }
  return (results s.waits).value

def childHandlerBody : Unit → EStateM Stop Reaper (Unit ⊕ Unit) := fun _ ↦ do
  if (← waitpid results) ≠ -1 then
    modify fun s ↦ { s with operationsCompleted := s.operationsCompleted + 1 }
    return .inl ()
  else
    return .inr ()

def childHandler (fuel : ℕ) : EStateM Stop Reaper Unit :=
  whileLoop .running (childHandlerBody results) fuel ()

/-- The first result that is no child is the one after `n` children. -/
def Reaps (n : ℕ) : Prop := (results n).value ≤ 0 ∧ ∀ k < n, 0 < (results k).value

/-- The handler stops at the first result that is no child, and has then counted the
children that have exited with `STATUS_OK`. -/
def ReapsExactly (completed : UInt64) : Prop :=
  ∀ n, Reaps results n → ∃ bound, ∀ fuel, bound < fuel →
    Returns (childHandler results fuel) ⟨0, completed⟩ fun _ t ↦
      t.waits = n + 1 ∧ t.operationsCompleted =
        completed + UInt64.ofNat (Nat.count (fun k ↦ (results k).ExitedOk) n)

variable {results} {s : Reaper} {completed : UInt64} {n fuel : ℕ}

theorem run_waitpid : (waitpid results).run s =
    .ok (results s.waits).value ⟨s.waits + 1, s.operationsCompleted⟩ := rfl

theorem run_childHandlerBody (h : (results s.waits).value ≠ -1) :
    (childHandlerBody results ()).run s =
      .ok (.inl ()) ⟨s.waits + 1, s.operationsCompleted + 1⟩ := by
  rw [childHandlerBody, run_bind_of_ok run_waitpid, if_pos h]
  rfl

theorem run_childHandlerBody_of_noChildren (h : (results s.waits).value = -1) :
    (childHandlerBody results ()).run s =
      .ok (.inr ()) ⟨s.waits + 1, s.operationsCompleted⟩ := by
  rw [childHandlerBody, run_bind_of_ok run_waitpid, if_neg (not_not.mpr h)]
  rfl

/-- As long as `waitpid` does not fail every call is counted. -/
theorem run_childHandler (h : ∀ k < n, (results k).value ≠ -1) :
    (childHandler results (n + fuel)).run ⟨0, completed⟩ =
      (childHandler results fuel).run ⟨n, completed + UInt64.ofNat n⟩ := by
  have hzero : (⟨0, completed⟩ : Reaper) = ⟨0, completed + UInt64.ofNat 0⟩ := by simp
  rw [hzero]
  refine run_whileLoop_of_continues (A := fun _ ↦ ())
    (S := fun k ↦ Reaper.mk k (completed + UInt64.ofNat k)) fun k hk ↦ ?_
  rw [UInt64.ofNat_add, ← UInt64.add_assoc]
  exact run_childHandlerBody (h k hk)

theorem run_childHandler_of_noChildren (h : ∀ k < n, (results k).value ≠ -1)
    (hlast : (results n).value = -1) :
    (childHandler results (n + (fuel + 1))).run ⟨0, completed⟩ =
      .ok () ⟨n + 1, completed + UInt64.ofNat n⟩ := by
  have hbody := run_childHandlerBody_of_noChildren (s := ⟨n, completed + UInt64.ofNat n⟩) hlast
  rw [run_childHandler h, childHandler, whileLoop, run_bind_of_ok hbody]
  rfl

/-- Without a failure the handler is never left. -/
theorem run_childHandler_of_children (h : ∀ k, (results k).value ≠ -1) :
    (childHandler results fuel).run ⟨0, completed⟩ =
      .error .running ⟨fuel, completed + UInt64.ofNat fuel⟩ := by
  have hrun : (childHandler results (fuel + 0)).run ⟨0, completed⟩ =
      (childHandler results 0).run ⟨fuel, completed + UInt64.ofNat fuel⟩ :=
    run_childHandler fun k _ ↦ h k
  exact hrun

/-- A handler that returns has called `waitpid`. -/
theorem childHandler_waits (results : ℕ → WaitResult) (s : Reaper) (fuel : ℕ) :
    Ends (childHandler results fuel) s (fun _ t ↦ s.waits < t.waits) fun _ _ ↦ True := by
  refine Ends.whileLoop (I := fun _ t ↦ s.waits ≤ t.waits) (fun _ t ht ↦ ?_)
    (fun _ _ _ ↦ trivial) le_rfl
  by_cases h : (results t.waits).value = -1
  · exact (ends_iff_of_ok (run_childHandlerBody_of_noChildren h)).mpr (Nat.lt_succ_of_le ht)
  · exact (ends_iff_of_ok (run_childHandlerBody h)).mpr (Nat.le_succ_of_le ht)

/-- All results are counted as often as those that should be exactly if the number of the
others is a multiple of the size of the counter. -/
theorem add_ofNat_count_iff {P : ℕ → Prop} [DecidablePred P] :
    completed + UInt64.ofNat n = completed + UInt64.ofNat (Nat.count P n) ↔
      2 ^ 64 ∣ Nat.count (fun k ↦ ¬ P k) n := by
  have hsum : Nat.count P n + Nat.count (fun k ↦ ¬ P k) n = n := by
    induction n with
    | zero => simp
    | succ n ih =>
        rw [Nat.count_succ, Nat.count_succ]
        split <;> omega
  rw [UInt64.add_right_inj, ← UInt64.toNat_inj, UInt64.toNat_ofNat', UInt64.toNat_ofNat']
  constructor
  · intro h
    omega
  · intro h
    omega

/-- The handler is right exactly if the first result that is no child, if there is one, is a
failure, and all children before it have exited with `STATUS_OK`, unless the others are so
many that the counter has come round. -/
theorem reaps_exactly_iff (results : ℕ → WaitResult) (completed : UInt64) :
    ReapsExactly results completed ↔ ∀ n, Reaps results n → (results n).value = -1 ∧
      2 ^ 64 ∣ Nat.count (fun k ↦ ¬ (results k).ExitedOk) n := by
  have hchild {n : ℕ} (h : Reaps results n) : ∀ k < n, (results k).value ≠ -1 := by
    intro k hk heq
    have hpos := h.2 k hk
    omega
  constructor
  · intro h n hn
    obtain ⟨bound, hbound⟩ := h n hn
    by_cases hlast : (results n).value = -1
    · have hrun : (childHandler results (n + (bound + 1))).run ⟨0, completed⟩ =
          .ok () ⟨n + 1, completed + UInt64.ofNat n⟩ :=
        run_childHandler_of_noChildren (hchild hn) hlast
      obtain ⟨-, hcount⟩ := (hbound _ (by omega)).of_eq hrun
      exact ⟨hlast, add_ofNat_count_iff.mp hcount⟩
    · -- the next call comes after the result at which the handler should have stopped
      have hmore : ∀ k < n + 1, (results k).value ≠ -1 := by
        intro k hk
        rcases Nat.lt_succ_iff_lt_or_eq.mp hk with hk | rfl
        · exact hchild hn k hk
        · exact hlast
      obtain ⟨_, t, hrun, hwaits, -⟩ := hbound (n + 1 + bound) (by omega)
      rw [run_childHandler hmore] at hrun
      have hlater : n + 1 < t.waits := (ends_iff_of_ok hrun).mp (childHandler_waits results _ bound)
      omega
  · intro h n hn
    obtain ⟨hlast, hcount⟩ := h n hn
    refine ⟨n, fun fuel hfuel ↦ ?_⟩
    obtain ⟨k, rfl⟩ : ∃ k, fuel = n + (k + 1) := ⟨fuel - n - 1, by omega⟩
    refine .of_run (run_childHandler_of_noChildren (hchild hn) hlast) ⟨rfl, ?_⟩
    exact add_ofNat_count_iff.mpr hcount

end Handler

/-- A child exits with `STATUS_BAD` while another one goes on. -/
def oneFailed : ℕ → WaitResult
  | 0 => .reaped 100 (.exited 1)
  | _ + 1 => .noneExited

/-- The handler is not left, and counts in every iteration. -/
theorem handler_spins : (∀ fuel, (childHandler oneFailed fuel).run ⟨0, 0⟩ =
      .error .running ⟨fuel, UInt64.ofNat fuel⟩) ∧ ¬ ReapsExactly oneFailed 0 := by
  have hreaped : (100 : ℤ) ≠ -1 := by decide
  have hnone : (0 : ℤ) ≠ -1 := by decide
  have hspins (fuel : ℕ) : (childHandler oneFailed fuel).run ⟨0, 0⟩ =
      .error .running ⟨fuel, UInt64.ofNat fuel⟩ := by
    rw [run_childHandler_of_children, UInt64.zero_add]
    intro k
    cases k with
    | zero => exact hreaped
    | succ k => exact hnone
  refine ⟨hspins, fun h ↦ ?_⟩
  have hreaps : Reaps oneFailed 1 := by
    refine ⟨le_rfl, fun k hk ↦ ?_⟩
    obtain rfl : k = 0 := Nat.lt_one_iff.mp hk
    decide
  obtain ⟨bound, hbound⟩ := h 1 hreaps
  obtain ⟨_, t, hrun, -⟩ := hbound (bound + 1) (Nat.lt_succ_self bound)
  rw [hspins] at hrun
  cases hrun

end OsProjects.Server
