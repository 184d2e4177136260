import OsProjects.Library.Bytes
import OsProjects.Library.FirstFit
import OsProjects.Library.Program
import OsProjects.Library.Windows

/-!
# Physical frames

The allocator of `frame.c`: a bitmap of 1024 bits and two counters.  The
search for consecutive frames is an exact first fit, but of the frames found
only the first is marked.
-/

namespace OsProjects.Memory

open Library.Program Library.Bytes Library.FirstFit Library.Windows

def numFrames : ℕ := 1024

def bitmapSize : ℕ := numFrames / 8

/-- The global variables of `frame.c`. -/
structure Frames where
  framesAllocated : UInt64
  framesAvailable : UInt64
  bitmap : Buffer bitmapSize

abbrev FM := EStateM Fault Frames

/-! ## `frame.c` -/

def frameInit : FM Unit :=
  set { framesAllocated := 0, framesAvailable := 1024, bitmap := fun _ ↦ 0 : Frames }

def bitmapIndex (frameNumber : UInt64) : FM (ℕ × ℕ) :=
  if frameNumber.toNat / 8 < bitmapSize then
    return (frameNumber.toNat / 8, frameNumber.toNat % 8)
  else
    throw (.outOfBounds bitmapSize (frameNumber.toNat / 8 : ℕ))

def bitSet (frameNumber : UInt64) : FM Unit := do
  let (j, k) ← bitmapIndex frameNumber
  modify fun s ↦ { s with bitmap := setBit s.bitmap j k }

def bitUnset (frameNumber : UInt64) : FM Unit := do
  let (j, k) ← bitmapIndex frameNumber
  modify fun s ↦ { s with bitmap := clearBit s.bitmap j k }

def getValue (frameNumber : UInt64) : FM ℕ := do
  let (j, k) ← bitmapIndex frameNumber
  let s ← get
  return (byteAt s.bitmap j).toNat >>> k &&& 1

/-- The loop over `j` that marks the frames found, which sets the bit of the
first of them in every iteration. -/
def markFrames (i : ℕ) (numberFrames : ℤ) : FM Unit :=
  forLoop (fun _ _ ↦ do
    bitSet (cUInt64 (i - numberFrames + 1))
    return .yield ()) 0 numberFrames.toNat ()

/-- One iteration of the search; the accumulator holds `consecutive_counter`
and the result once it is known. -/
def allocateBody (numberFrames : ℤ) (i : ℕ) (acc : ℤ × Option ℤ) :
    FM (ForInStep (ℤ × Option ℤ)) := do
  let (consecutiveCounter, result) := acc
  let value ← getValue (cUInt64 i)
  if value = 0 then
    if consecutiveCounter + 1 = numberFrames then
      markFrames i numberFrames
      modify fun s ↦ { s with
        framesAllocated := s.framesAllocated + cUInt64 numberFrames
        framesAvailable := s.framesAvailable - cUInt64 numberFrames }
      return .done (consecutiveCounter + 1, some (i - numberFrames + 1))
    else
      return .yield (consecutiveCounter + 1, result)
  else
    return .yield (0, result)

def allocateFrame (numberFrames : ℤ) : FM ℤ := do
  let (_, result) ← forLoop (allocateBody numberFrames) 0 numFrames (0, none)
  match result with
  | some frame => return frame
  | none => return -1

def deallocateFrame (frameNumber : UInt64) (numberFrames : ℤ) : FM ℤ := do
  forLoop (fun _ _ ↦ do
    bitUnset frameNumber
    modify fun s ↦ { s with
      framesAllocated := s.framesAllocated - 1
      framesAvailable := s.framesAvailable + 1 }
    return .yield ()) 0 numberFrames.toNat ()
  return -1

/-! ## Bits -/

namespace Frames

def marked (s : Frames) (f : ℕ) : Bool := bitAt s.bitmap f

def markFrame (s : Frames) (f : ℕ) : Frames :=
  { s with bitmap := setBit s.bitmap (f / 8) (f % 8) }

def clearFrame (s : Frames) (f : ℕ) : Frames :=
  { s with bitmap := clearBit s.bitmap (f / 8) (f % 8) }

def count (s : Frames) (n : UInt64) : Frames :=
  { s with
    framesAllocated := s.framesAllocated + n
    framesAvailable := s.framesAvailable - n }

def uncount (s : Frames) (n : UInt64) : Frames :=
  { s with
    framesAllocated := s.framesAllocated - n
    framesAvailable := s.framesAvailable + n }

variable (s : Frames) {f : ℕ}

@[simp] theorem count_marked (n : UInt64) : (s.count n).marked = s.marked := rfl

@[simp] theorem uncount_marked (n : UInt64) : (s.uncount n).marked = s.marked := rfl

theorem iterate_markFrame (k : ℕ) :
    (fun t : Frames ↦ t.markFrame f)^[k + 1] s = s.markFrame f := by
  induction k generalizing s with
  | zero => rfl
  | succ k ih =>
      rw [Function.iterate_succ_apply, ih]
      simp [markFrame]

theorem iterate_clearFrame (k : ℕ) :
    (fun t : Frames ↦ (t.clearFrame f).uncount 1)^[k + 1] s =
      (s.clearFrame f).uncount (UInt64.ofNat (k + 1)) := by
  induction k generalizing s with
  | zero => rfl
  | succ k ih =>
      have hnext : UInt64.ofNat (k + 1 + 1) = 1 + UInt64.ofNat (k + 1) := by
        rw [UInt64.ofNat_add, UInt64.add_comm]
        rfl
      rw [Function.iterate_succ_apply, ih]
      simp only [clearFrame, uncount, clearBit_clearBit, hnext]
      congr 1 <;> grind

theorem div_lt_bitmapSize (hf : f < numFrames) : f / 8 < bitmapSize := by
  simp only [numFrames, bitmapSize] at *
  omega

theorem marked_markFrame (hf : f < numFrames) : (s.markFrame f).marked = mark s.marked f := by
  funext q
  exact bitAt_setBit s.bitmap q (div_lt_bitmapSize hf)

theorem marked_clearFrame (hf : f < numFrames) (q : ℕ) :
    (s.clearFrame f).marked q = (s.marked q && !decide (q = f)) :=
  bitAt_clearBit s.bitmap q (div_lt_bitmapSize hf)

end Frames

section Bits

variable {n : UInt64} (s : Frames) (hn : n.toNat < numFrames)
include hn

theorem run_bitmapIndex : (bitmapIndex n).run s = .ok (n.toNat / 8, n.toNat % 8) s := by
  rw [bitmapIndex, if_pos (Frames.div_lt_bitmapSize hn)]
  rfl

theorem run_bitSet : (bitSet n).run s = .ok () (s.markFrame n.toNat) := by
  rw [bitSet, run_bind_of_ok (run_bitmapIndex s hn)]
  rfl

theorem run_bitUnset : (bitUnset n).run s = .ok () (s.clearFrame n.toNat) := by
  rw [bitUnset, run_bind_of_ok (run_bitmapIndex s hn)]
  rfl

theorem run_getValue :
    (getValue n).run s = .ok (if s.marked n.toNat then 1 else 0) s := by
  have hbit : (byteAt s.bitmap (n.toNat / 8)).toNat >>> (n.toNat % 8) &&& 1 =
      if s.marked n.toNat then 1 else 0 := by
    simp only [Frames.marked, bitAt, Nat.testBit, Nat.and_comm _ 1, Nat.one_and_eq_mod_two,
      bne_iff_ne]
    split <;> omega
  rw [getValue, run_bind_of_ok (run_bitmapIndex s hn), run_bind_of_ok (EStateM.run_get s)]
  simp only [hbit]
  rfl

end Bits

/-! ## Marking and clearing -/

section Loops

variable {s : Frames} {f : ℕ} {n : ℤ}

theorem toNat_cUInt64_frame (hf : f < numFrames) : (cUInt64 (f : ℤ)).toNat = f := by
  simp only [numFrames] at hf
  exact toNat_cUInt64_natCast (by omega)

/-- The loop of `allocate_frame` marks one frame, however many it has found. -/
theorem run_markFrames {i : ℕ} (hn : 0 < n) (hi : (i : ℤ) - n + 1 = f) (hf : f < numFrames) :
    (markFrames i n).run s = .ok () (s.markFrame f) := by
  have hframe := toNat_cUInt64_frame hf
  have hbody : ∀ (_ : ℕ) (t : Frames),
      (do bitSet (cUInt64 (i - n + 1)); return ForInStep.yield () : FM (ForInStep Unit)).run t =
        .ok (.yield ()) (t.markFrame f) := by
    intro _ t
    have hset := run_bitSet (n := cUInt64 (i - n + 1)) t (by rw [hi, hframe]; exact hf)
    rw [run_bind_of_ok hset, hi, hframe]
    rfl
  rw [markFrames, run_forLoop_iterate hbody,
    show n.toNat = n.toNat - 1 + 1 by omega, Frames.iterate_markFrame]

theorem run_deallocateFrame {m : UInt64} (hm : m.toNat < numFrames) (hn : 0 < n) :
    (deallocateFrame m n).run s = .ok (-1) ((s.clearFrame m.toNat).uncount (cUInt64 n)) := by
  have hbody : ∀ (_ : ℕ) (t : Frames), (do
      bitUnset m
      modify fun u ↦ { u with
        framesAllocated := u.framesAllocated - 1
        framesAvailable := u.framesAvailable + 1 }
      return ForInStep.yield () : FM (ForInStep Unit)).run t =
        .ok (.yield ()) ((t.clearFrame m.toNat).uncount 1) := by
    intro _ t
    rw [run_bind_of_ok (run_bitUnset t hm)]
    rfl
  obtain ⟨k, rfl⟩ : ∃ k : ℕ, n = (k + 1 : ℕ) := ⟨n.toNat - 1, by omega⟩
  rw [deallocateFrame, run_bind_of_ok (run_forLoop_iterate hbody), cUInt64_natCast,
    Int.toNat_natCast, Frames.iterate_clearFrame]
  rfl

end Loops

/-! ## The search -/

section Search

variable {s : Frames} {n i c : ℕ}

theorem run_allocateBody {k : ℤ} (hi : i < numFrames) (hc : c ≤ i) (result : Option ℤ) :
    (allocateBody k i (c, result)).run s =
      if s.marked i then .ok (.yield ((0 : ℕ), result)) s
      else if c + 1 = k then
        .ok (.done (k, some (i - c : ℕ))) ((s.markFrame (i - c)).count (cUInt64 k))
      else .ok (.yield ((c + 1 : ℕ), result)) s := by
  have hvalue := run_getValue (n := cUInt64 i) s (by rw [toNat_cUInt64_frame hi]; exact hi)
  rw [toNat_cUInt64_frame hi] at hvalue
  rw [allocateBody, run_bind_of_ok hvalue]
  cases hmarked : s.marked i with
  | true => rfl
  | false =>
      simp only [Bool.false_eq_true, if_false, if_true]
      by_cases hfound : c + 1 = k
      · have hfirst : (i : ℤ) - k + 1 = (i - c : ℕ) := by omega
        have hmark := run_markFrames (s := s) (n := k) (by omega) hfirst (by omega)
        rw [if_pos hfound, if_pos hfound, run_bind_of_ok hmark, hfirst, hfound]
        rfl
      · rw [if_neg hfound, if_neg hfound]
        rfl

theorem run_allocateLoop {count : ℕ} (h : Scanned s.marked n i c) (hc : c < n)
    (hi : i + count = numFrames) :
    (∃ f : ℕ, FirstFree s.marked f n ∧ f + n ≤ numFrames ∧
        (forLoop (allocateBody n) i count (c, none)).run s =
          .ok ((n : ℤ), some (f : ℤ)) ((s.markFrame f).count (cUInt64 n))) ∨
      (∀ f, f + n ≤ numFrames → ¬ Free s.marked f n) ∧
        ∃ c' : ℕ, (forLoop (allocateBody n) i count (c, none)).run s = .ok ((c' : ℤ), none) s := by
  induction count generalizing i c with
  | zero =>
      right
      rw [← hi]
      exact ⟨h.notFound, c, rfl⟩
  | succ count ih =>
      have hbody := run_allocateBody (s := s) (k := n) (by omega) h.le none
      cases hmarked : s.marked i with
      | true =>
          simp only [hmarked, if_true] at hbody
          rw [run_forLoop_of_yield hbody]
          exact ih (h.reset (by omega) hmarked) (by omega) (by omega)
      | false =>
          simp only [hmarked, Bool.false_eq_true, if_false] at hbody
          by_cases hfound : c + 1 = n
          · have hle := h.le
            rw [if_pos (by omega)] at hbody
            rw [run_forLoop_of_done hbody]
            exact .inl ⟨i - c, h.found hmarked hfound, by omega, rfl⟩
          · rw [if_neg (by omega)] at hbody
            rw [run_forLoop_of_yield hbody]
            exact ih (h.count hmarked (by omega)) (by omega) (by omega)

theorem run_allocateLoop_of_nonpos {k : ℤ} (hk : k ≤ 0) {count : ℕ} (hc : c ≤ i)
    (hi : i + count = numFrames) :
    ∃ c' : ℕ, (forLoop (allocateBody k) i count (c, none)).run s = .ok ((c' : ℤ), none) s := by
  induction count generalizing i c with
  | zero => exact ⟨c, rfl⟩
  | succ count ih =>
      have hbody := run_allocateBody (s := s) (k := k) (by omega) hc none
      cases hmarked : s.marked i with
      | true =>
          simp only [hmarked, if_true] at hbody
          rw [run_forLoop_of_yield hbody]
          exact ih (by omega) (by omega)
      | false =>
          simp only [hmarked, Bool.false_eq_true, if_false] at hbody
          rw [if_neg (by omega)] at hbody
          rw [run_forLoop_of_yield hbody]
          exact ih (by omega) (by omega)

end Search

/-- `allocate_frame` returns the first of the first `n` consecutive frames whose
bits are clear, or `-1` if there are none, and then changes nothing. -/
theorem run_allocateFrame {s : Frames} {n : ℕ} (hn : 0 < n) :
    (∃ f : ℕ, FirstFree s.marked f n ∧ f + n ≤ numFrames ∧
        (allocateFrame n).run s = .ok (f : ℤ) ((s.markFrame f).count (cUInt64 n))) ∨
      (∀ f, f + n ≤ numFrames → ¬ Free s.marked f n) ∧ (allocateFrame n).run s = .ok (-1) s := by
  have hloop := run_allocateLoop (s := s) (.zero hn) hn (Nat.zero_add numFrames)
  rcases hloop with ⟨f, hfirst, hlt, hrun⟩ | ⟨hnone, c, hrun⟩
  · exact .inl ⟨f, hfirst, hlt, run_bind_of_ok hrun⟩
  · exact .inr ⟨hnone, run_bind_of_ok hrun⟩

theorem run_allocateFrame_of_nonpos {s : Frames} {n : ℤ} (hn : n ≤ 0) :
    (allocateFrame n).run s = .ok (-1) s := by
  obtain ⟨c, hrun⟩ := run_allocateLoop_of_nonpos (s := s) hn (Nat.le_refl 0)
    (Nat.zero_add numFrames)
  exact run_bind_of_ok hrun

end OsProjects.Memory
