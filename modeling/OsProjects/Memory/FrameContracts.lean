import OsProjects.Memory.Frame
import Mathlib.Order.Bounds.Basic

/-!
# What the header of the frame allocator promises

The search of `allocate_frame` is an exact first fit, for every number asked
for.  `deallocate_frame` does not look at the bits of its range before it frees
them, and nothing it does is what `frame.h` describes.
-/

namespace OsProjects.Memory

open Library.Program Library.FirstFit Library.Windows

variable {s : Frames}

/-! ## The search -/

/-- The `n` frames from `f` on lie in the memory, and their bits are clear. -/
def Frames.Room (s : Frames) (n f : ℤ) : Prop :=
  0 ≤ f ∧ f + n ≤ numFrames ∧ ∀ q : ℕ, f ≤ q → q < f + n → s.marked q = false

theorem Frames.room_natCast {n f : ℕ} : s.Room n f ↔ f + n ≤ numFrames ∧ Free s.marked f n := by
  constructor
  · rintro ⟨-, hend, hclear⟩
    exact ⟨by omega, fun q hq hlt ↦ hclear q (by omega) (by omega)⟩
  · rintro ⟨hend, hfree⟩
    exact ⟨by omega, by omega, fun q hq hlt ↦ hfree q (by omega) (by omega)⟩

theorem Frames.room_iff {n : ℕ} {f : ℤ} :
    s.Room n f ↔ ∃ g : ℕ, f = g ∧ g + n ≤ numFrames ∧ Free s.marked g n := by
  constructor
  · intro h
    obtain ⟨g, rfl⟩ := Int.eq_ofNat_of_zero_le h.1
    exact ⟨g, rfl, room_natCast.mp h⟩
  · rintro ⟨g, rfl, h⟩
    exact room_natCast.mpr h

theorem isLeast_room {n f : ℕ} (hfirst : FirstFree s.marked f n) (hend : f + n ≤ numFrames) :
    IsLeast {g : ℤ | s.Room n g} f := by
  refine ⟨Frames.room_natCast.mpr ⟨hend, hfirst.1⟩, fun g hg ↦ ?_⟩
  obtain ⟨q, rfl, -, hfree⟩ := Frames.room_iff.mp hg
  by_contra hlt
  exact hfirst.2 q (by omega) hfree

/-- `allocate_frame` returns the least frame from which on the whole range is
free, and `-1` exactly if there is none; a refused call changes nothing. -/
theorem allocateFrame_firstFit (s : Frames) (n : ℤ) :
    ∃ r t, (allocateFrame n).run s = .ok r t ∧
      (1 ≤ n → (r ≠ -1 → IsLeast {f : ℤ | s.Room n f} r) ∧ (r = -1 ↔ ∀ f, ¬ s.Room n f)) ∧
      (r = -1 ∨ n ≤ 0 → t = s) := by
  rcases Int.lt_or_le 0 n with hpos | hneg
  · obtain ⟨k, rfl⟩ := Int.eq_ofNat_of_zero_le hpos.le
    rcases run_allocateFrame (s := s) (n := k) (by omega) with
      ⟨f, hfirst, hend, hrun⟩ | ⟨hnone, hrun⟩
    · have hleast := isLeast_room hfirst hend
      refine ⟨f, _, hrun, fun _ ↦ ⟨fun _ ↦ hleast, ?_⟩, by omega⟩
      constructor
      · intro h
        omega
      · intro h
        exact (h f hleast.1).elim
    · refine ⟨-1, s, hrun, fun _ ↦ ⟨fun h ↦ (h rfl).elim, fun _ f hf ↦ ?_, fun _ ↦ rfl⟩,
        fun _ ↦ rfl⟩
      obtain ⟨g, -, hgend, hfree⟩ := Frames.room_iff.mp hf
      exact hnone g hgend hfree
  · exact ⟨-1, s, run_allocateFrame_of_nonpos hneg, by omega, fun _ ↦ rfl⟩

/-! ## Freeing -/

/-- All frames of the range exist and are marked as allocated. -/
def Frames.Allocated (s : Frames) (frame n : ℕ) : Prop :=
  ∀ q, frame ≤ q → q < frame + n → q < numFrames ∧ s.marked q = true

/-- What `frame.h` says of `deallocate_frame`: a range that is allocated is freed
and its length returned, and every other one refused with nothing changed. -/
def Frames.Deallocates (s : Frames) (frame : UInt64) (n : ℤ) : Prop :=
  Returns (deallocateFrame frame n) s fun r t ↦
    (s.Allocated frame.toNat n.toNat →
      r = n ∧ t.framesAllocated = s.framesAllocated - cUInt64 n ∧
        t.framesAvailable = s.framesAvailable + cUInt64 n ∧
        ∀ q, t.marked q =
          (s.marked q && !decide (frame.toNat ≤ q ∧ q < frame.toNat + n.toNat))) ∧
      (¬ s.Allocated frame.toNat n.toNat → r = -1 ∧ t = s)

theorem run_deallocateFrame_of_le {m : UInt64} {n : ℤ} (hm : numFrames ≤ m.toNat) (hn : 0 < n) :
    (deallocateFrame m n).run s = .error (.outOfBounds bitmapSize (m.toNat / 8 : ℕ)) s := by
  have hindex : (bitmapIndex m).run s = .error (.outOfBounds bitmapSize (m.toNat / 8 : ℕ)) s := by
    rw [bitmapIndex, if_neg (by simp only [numFrames, bitmapSize] at *; omega)]
    rfl
  have hunset : (bitUnset m).run s = .error (.outOfBounds bitmapSize (m.toNat / 8 : ℕ)) s := by
    rw [bitUnset, run_bind_of_error hindex]
  obtain ⟨k, rfl⟩ : ∃ k : ℕ, n = (k + 1 : ℕ) := ⟨n.toNat - 1, by omega⟩
  rw [deallocateFrame, Int.toNat_natCast, forLoop]
  apply run_bind_of_error
  apply run_bind_of_error
  exact run_bind_of_error hunset

/-- A positive `int` changes a counter. -/
theorem sub_cUInt64_ne {x : UInt64} {n : ℤ} (hn : 1 ≤ n) (hlt : n < 2 ^ 31) :
    x - cUInt64 n ≠ x := by
  intro h
  have hvalue := congrArg UInt64.toNat h
  have hbound := x.toNat_lt
  rw [UInt64.toNat_sub, toNat_cUInt64] at hvalue
  omega

/-- No call of `deallocate_frame` does what `frame.h` says. -/
theorem deallocateFrame_never_deallocates (s : Frames) (frame : UInt64) {n : ℤ} (hn : 1 ≤ n)
    (hlt : n < 2 ^ 31) : ¬ s.Deallocates frame n := by
  intro h
  rcases Nat.lt_or_ge frame.toNat numFrames with hframe | hframe
  · obtain ⟨hallocated, hrefused⟩ := h.of_eq (run_deallocateFrame (s := s) hframe hn)
    by_cases hrange : s.Allocated frame.toNat n.toNat
    · have hresult := (hallocated hrange).1
      omega
    · have hcount := congrArg Frames.framesAllocated (hrefused hrange).2
      exact sub_cUInt64_ne hn hlt hcount
  · obtain ⟨r, t, hrun, -⟩ := h
    rw [run_deallocateFrame_of_le hframe hn] at hrun
    cases hrun

theorem deallocateFrame_never_deallocates_one :
    ¬ (Frames.mk 1 1023 fun _ ↦ 1).Deallocates 0 1 :=
  deallocateFrame_never_deallocates _ 0 (by decide) (by decide)

/-- Of two allocated frames one is freed, and the call reports a failure. -/
theorem two_frames_one_freed :
    ∃ t, (Frames.mk 2 1022 fun _ ↦ 3).Allocated 0 2 ∧
      (deallocateFrame 0 2).run (Frames.mk 2 1022 fun _ ↦ 3) = .ok (-1) t ∧
      t.marked 1 = true ∧ ¬ (Frames.mk 2 1022 fun _ ↦ 3).Deallocates 0 2 := by
  have hrange : (Frames.mk 2 1022 fun _ ↦ 3).Allocated 0 2 := by
    intro q _ hq
    obtain rfl | rfl : q = 0 ∨ q = 1 := by omega
    · exact ⟨by decide, by decide⟩
    · exact ⟨by decide, by decide⟩
  have hrun := run_deallocateFrame (s := Frames.mk 2 1022 fun _ ↦ 3) (m := 0) (n := 2)
    (by decide) (by decide)
  refine ⟨_, hrange, hrun, by decide, fun h ↦ ?_⟩
  have hresult := ((h.of_eq hrun).1 hrange).1
  omega

end OsProjects.Memory
