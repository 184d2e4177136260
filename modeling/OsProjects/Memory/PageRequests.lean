import OsProjects.Memory.FrameContracts
import OsProjects.Memory.Locating
import OsProjects.Memory.PageRelease

/-!
# Asking for pages

`palloc` of `kmalloc.c` takes its frames before it looks for pages.  The search for
pages never returns a page, so that the frames are taken and nothing is mapped to them.
-/

namespace OsProjects.Memory

open Library.Program

section Code

/- The address of the array `memory`, and the function that `palloc` calls for the
address of its page. -/
variable (base : ℕ) (pageAddress : UInt64 → UInt64)

def palloc (number : UInt64) : LM UInt64 := do
  let frameNumber := cUInt64 (← liftVM (liftFrames (allocateFrame (cInt number.toNat))))
  -- the page found is overwritten
  let _ ← vmLocate base (cInt number.toNat)
  let pageNumber := frameNumber
  let _ ← liftVM (vmMap base pageNumber frameNumber (cInt number.toNat) 0)
  return pageAddress pageNumber

end Code

/-! ## The search for pages -/

section Relation

variable {R : Machine → Machine → Prop} [Std.Refl R] [IsTrans Machine R] {base : ℕ}

omit [Std.Refl R] [IsTrans Machine R] in
theorem liftVM_guarantees {α : Type} {x : VM α} {A : α → Prop} (h : Guarantees R x A) :
    Guarantees R (liftVM x) A := by
  intro s
  obtain ⟨hR, hA⟩ := h s
  cases hrun : x.run s with
  | ok a t =>
      rw [hrun] at hR
      rw [run_liftVM_of_ok hrun]
      refine ⟨hR, ?_⟩
      rintro b u ⟨⟩
      exact hA a t hrun
  | error e t =>
      rw [hrun] at hR
      rw [run_liftVM_of_error hrun]
      refine ⟨hR, ?_⟩
      rintro b u ⟨⟩

theorem locateBody_guarantees (number : ℤ) (i : ℕ) (acc : ℤ × Option UInt64) :
    Guarantees R (locateBody base number i acc) fun _ ↦ True := by
  have hload (p : ℕ) : Guarantees R (liftVM (loadEntry base p)) fun _ ↦ True :=
    liftVM_guarantees (loadEntry_guarantees p)
  refine (liftVM_guarantees (vmFind_guarantees _)).bind fun found _ ↦ (hload _).bind fun e _ ↦ ?_
  split
  · exact .pure trivial
  · refine (hload _).bind fun e _ ↦ ?_
    split <;> exact .pure trivial

theorem vmLocate_guarantees (number : ℤ) :
    Guarantees R (vmLocate base number) fun _ ↦ True := by
  have hloop : Guarantees R (forLoop (locateBody base number) 1 (2 ^ 31 - 1) (0, none))
      fun _ ↦ True := by
    refine Guarantees.forLoop (I := fun _ _ ↦ True) trivial fun i acc _ _ _ ↦ ?_
    refine (locateBody_guarantees number i acc).mono fun _ _ ↦ ?_
    intros
    trivial
  refine hloop.bind fun acc _ ↦ ?_
  obtain ⟨_, result⟩ := acc
  cases result with
  | none => exact .throw _
  | some page => exact .pure trivial

end Relation

variable {base : ℕ}

/-- The search stops where it began. -/
theorem run_vmLocate_self (hbase : 0 < base) (s : Machine) (number : ℤ) :
    ∃ e, (vmLocate base number).run s = .error e s := by
  obtain ⟨e, t, hrun⟩ := run_vmLocate hbase s number
  have hkeeps : Guarantees (· = ·) (vmLocate base number) fun _ ↦ True := vmLocate_guarantees number
  have hsame := (hkeeps s).1
  rw [hrun] at hsame
  obtain rfl : s = t := hsame
  exact ⟨e, hrun⟩

/-! ## What is taken -/

/-- The first `n` consecutive frames, of which the first one is marked and all are counted,
or nothing if there are none. -/
inductive Frames.Takes (s : Frames) (n : ℤ) : Frames → Prop
  | taken {f : ℕ} (hpos : 1 ≤ n) (hleast : IsLeast {g : ℤ | s.Room n g} f) :
      s.Takes n ((s.markFrame f).count (cUInt64 n))
  | refused (hnone : ∀ g, 1 ≤ n → ¬ s.Room n g) : s.Takes n s

theorem exists_run_allocateFrame (s : Frames) (n : ℤ) :
    ∃ r t, (allocateFrame n).run s = .ok r t ∧ s.Takes n t := by
  rcases Int.lt_or_le 0 n with hpos | hneg
  · obtain ⟨k, rfl⟩ := Int.eq_ofNat_of_zero_le hpos.le
    rcases run_allocateFrame (s := s) (n := k) (by omega) with
      ⟨f, hfirst, hend, hrun⟩ | ⟨hnone, hrun⟩
    · exact ⟨_, _, hrun, .taken hpos (isLeast_room hfirst hend)⟩
    · refine ⟨_, _, hrun, .refused fun g _ hroom ↦ ?_⟩
      obtain ⟨q, -, hend, hfree⟩ := Frames.room_iff.mp hroom
      exact hnone q hend hfree
  · exact ⟨_, _, run_allocateFrame_of_nonpos hneg, .refused fun g hpos ↦ by omega⟩

/-- No call of `palloc` returns.  It takes its frames and leaves the tables as they were. -/
theorem palloc_takes_frames_only (hbase : 0 < base) (pageAddress : UInt64 → UInt64) (s : Machine)
    (number : UInt64) :
    ∃ e t, (palloc base pageAddress number).run s = .error e { s with frames := t } ∧
      s.frames.Takes (cInt number.toNat) t := by
  obtain ⟨r, t, hrun, htakes⟩ := exists_run_allocateFrame s.frames (cInt number.toNat)
  obtain ⟨e, hlocate⟩ := run_vmLocate_self hbase { s with frames := t } (cInt number.toNat)
  refine ⟨e, t, ?_, htakes⟩
  rw [palloc, run_bind_of_ok (run_liftVM_of_ok (run_liftFrames hrun)),
    run_bind_of_error hlocate]

theorem palloc_takes_frames_only_first : ∃ e t,
    (palloc (2 ^ 32) id 1).run emptyMachine = .error e { emptyMachine with frames := t } ∧
      emptyMachine.frames.Takes 1 t := by
  obtain ⟨e, t, hrun, htakes⟩ := @palloc_takes_frames_only (2 ^ 32) (by decide) id emptyMachine 1
  rw [cInt_of_lt (by decide)] at htakes
  exact ⟨e, t, hrun, htakes⟩

end OsProjects.Memory
