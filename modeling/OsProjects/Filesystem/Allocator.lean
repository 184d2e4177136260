import OsProjects.Filesystem.Calls
import OsProjects.Library.Runs

/-!
# What the block allocator promises

The allocator searches all bits of the bitmap block, which has two for each
block of the device, and giving a block back does not change the bitmap.  The
theorems say on which bitmaps allocation is correct all the same, and that
giving back never is.
-/

namespace OsProjects.Filesystem

open Library.Program Library.Bytes Library.FirstFit Library.Runs

/-! ## Allocation -/

/-- Every block of the device that files may use is marked. -/
def World.DeviceFull (w : World) : Prop :=
  ∀ r, w.globals.firstAllocatable.toNat ≤ r → r ≤ w.globals.lastAllocatable.toNat →
    w.storage.marked r = true

/-- The allocator returns a block of the device, or `-1` exactly when there is
none left, and then leaves the disk as it is. -/
def AllocatesExactly (w : World) : Prop :=
  ∃ code u, bitmapAllocateBlock.run w = .ok code u ∧
    ((w.globals.firstAllocatable.toNat ≤ code ∧ code ≤ w.globals.lastAllocatable.toNat) ∨
      code = -1) ∧
    (code = -1 ↔ w.DeviceFull) ∧ (code = -1 → u.storage = w.storage)

section Allocate

variable {w : World} (hw : w.Formatted)
include hw

theorem allocatable_of_formatted : w.globals.firstAllocatable.toNat = 9 ∧
    w.globals.lastAllocatable.toNat = 16383 := by
  rw [hw.globals_eq]
  exact ⟨rfl, rfl⟩

theorem not_allocatesExactly_of_deviceFull (hfull : w.DeviceFull) {q : ℕ} (hq : 16383 < q)
    (hlt : q < bitmapBits) (hclear : w.storage.marked q = false) : ¬ AllocatesExactly w := by
  obtain ⟨hfirst, hlast⟩ := allocatable_of_formatted hw
  rintro ⟨code, u, hrun, -, hiff, -⟩
  cases hnext : nextFree 9 bitmapBits w.storage.marked with
  | none =>
      rw [nextFree_eq_none_iff.mp hnext q (by omega) hlt] at hclear
      cases hclear
  | some r =>
      rw [run_bitmapAllocateBlock_of_some hw hnext] at hrun
      cases hrun
      have hcode := hiff.mpr hfull
      omega

/-- The allocator is correct while the device has a free block, and when the
bits past the device are marked as well. -/
theorem allocatesExactly_iff :
    AllocatesExactly w ↔
      (∃ r, 9 ≤ r ∧ r ≤ 16383 ∧ w.storage.marked r = false) ∨
        ∀ r, 16383 < r → r < bitmapBits → w.storage.marked r = true := by
  obtain ⟨hfirst, hlast⟩ := allocatable_of_formatted hw
  constructor
  · intro hexact
    by_contra hneither
    rw [not_or] at hneither
    obtain ⟨hdevice, hpast⟩ := hneither
    push Not at hdevice hpast
    obtain ⟨q, hq, hlt, hclear⟩ := hpast
    refine not_allocatesExactly_of_deviceFull hw (fun r hr hr' ↦ ?_) hq hlt (by simpa using hclear)
      hexact
    rw [hfirst] at hr
    rw [hlast] at hr'
    simpa using hdevice r hr hr'
  · intro hroom
    refine ⟨_, _, run_bitmapAllocateBlock hw, ?_⟩
    rw [World.DeviceFull, hfirst, hlast]
    cases hnext : nextFree 9 bitmapBits w.storage.marked with
    | some r =>
        obtain ⟨hle, hlt, hclear, hleast⟩ := nextFree_eq_some_iff.mp hnext
        have hdevice : r ≤ 16383 := by
          by_contra hpast
          rcases hroom with ⟨q, hq, hq', hfree⟩ | hall
          · rw [hleast q hq (by omega)] at hfree
            cases hfree
          · rw [hall r (by omega) hlt] at hclear
            cases hclear
        rw [Disk.allocated_of_some hnext]
        refine ⟨.inl ⟨by omega, by omega⟩, ⟨by omega, fun hfull ↦ ?_⟩, by omega⟩
        rw [hfull r hle hdevice] at hclear
        cases hclear
    | none =>
        have hall := nextFree_eq_none_iff.mp hnext
        have hbits : 16383 < bitmapBits := by decide
        simp only [Disk.allocated, Disk.afterAllocate, hnext]
        exact ⟨.inr trivial, ⟨fun _ r hr hr' ↦ hall r hr (by omega), fun _ ↦ trivial⟩, fun _ ↦ rfl⟩

end Allocate

def freshDevice : World where
  storage := fun _ ↦ zeroedBlock
  globals := formattedGlobals
  stack := fun _ ↦ zeroedBlock
  frames := 0
  trace := []

theorem formatted_freshDevice : freshDevice.Formatted := rfl

theorem marked_freshDevice (r : ℕ) : freshDevice.storage.marked r = false := by
  have hblock : freshDevice.storage.block 8 = zeroedBlock := rfl
  rw [Disk.marked, hblock]
  simp [bitAt, byteAt, zeroedBlock]

theorem allocatesExactly_iff_freshDevice : AllocatesExactly freshDevice :=
  (allocatesExactly_iff formatted_freshDevice).mpr
    (.inl ⟨9, le_rfl, by decide, marked_freshDevice 9⟩)

/-- A device with all its blocks marked and no bit set past them. -/
def fullDevice : World where
  storage b := if b.val = 8 then fun i ↦ if i.val < 2048 then 255 else 0 else zeroedBlock
  globals := formattedGlobals
  stack := fun _ ↦ zeroedBlock
  frames := 0
  trace := []

theorem formatted_fullDevice : fullDevice.Formatted := rfl

theorem marked_fullDevice (r : ℕ) : fullDevice.storage.marked r = decide (r < 16384) := by
  have hblock : fullDevice.storage.block 8 = fun i ↦ if i.val < 2048 then 255 else 0 := rfl
  rw [Disk.marked, hblock, bitAt]
  have hbits : ∀ k < 8, (255 : UInt8).toNat.testBit k = true := by decide
  by_cases hr : r < 16384
  · have hin : r / 8 < blockSize := by
      simp only [blockSize]
      omega
    rw [byteAt_of_lt _ hin, if_pos (by simp only; omega), hbits _ (Nat.mod_lt r (by omega))]
    simp [hr]
  · simp only [hr, decide_false]
    by_cases hin : r / 8 < blockSize
    · rw [byteAt_of_lt _ hin, if_neg (by simp only; omega)]
      simp
    · rw [byteAt_of_le _ (by omega)]
      simp

theorem allocates_past_device :
    (∃ u, bitmapAllocateBlock.run fullDevice = .ok 16384 u) ∧ ¬ AllocatesExactly fullDevice := by
  have hnext : nextFree 9 bitmapBits fullDevice.storage.marked = some 16384 := by
    refine nextFree_eq_some_iff.mpr ⟨by decide, by decide, ?_, fun q _ hq ↦ ?_⟩
    · rw [marked_fullDevice]
      decide
    · rw [marked_fullDevice, decide_eq_true hq]
  refine ⟨⟨_, run_bitmapAllocateBlock_of_some formatted_fullDevice hnext⟩, ?_⟩
  refine not_allocatesExactly_of_deviceFull formatted_fullDevice (fun r _ hr ↦ ?_) (q := 16384)
    (by decide) (by decide) ?_
  · rw [(allocatable_of_formatted formatted_fullDevice).2] at hr
    rw [marked_fullDevice, decide_eq_true (by omega)]
  · rw [marked_fullDevice]
    decide

/-! ## Giving blocks back -/

/-- Giving back block `b` clears its bit and changes nothing else. -/
def FreesExactly (w : World) (b : UInt64) : Prop :=
  ∃ u, (bitmapDeallocateBlock b).run w = .ok () u ∧
    (∀ q, u.storage.marked q = (w.storage.marked q && decide (q ≠ b.toNat))) ∧
    ∀ k, (k < w.globals.bitmapFirstBlock.toNat ∨
        w.globals.bitmapFirstBlock.toNat + w.globals.bitmapNumberBlocks.toNat ≤ k) →
      u.storage.block k = w.storage.block k

/-- Calls of the allocator, with the set of blocks that are allocated. -/
inductive BitmapStep (s : World × Set ℕ) : Option UInt64 → World × Set ℕ → Prop
  | allocate {r : ℕ} {u : World} : bitmapAllocateBlock.run s.1 = .ok r u →
      BitmapStep s none (u, insert r s.2)
  | exhausted {u : World} : bitmapAllocateBlock.run s.1 = .ok (-1) u → BitmapStep s none (u, s.2)
  | deallocate {b : UInt64} {u : World} : b.toNat ∈ s.2 →
      (bitmapDeallocateBlock b).run s.1 = .ok () u → BitmapStep s (some b) (u, s.2 \ {b.toNat})

def AllocatedMarked (s : World × Set ℕ) : Prop :=
  s.1.Formatted ∧ ∀ r ∈ s.2, r < bitmapBits ∧ s.1.storage.marked r = true

section Deallocate

variable {w u : World} (hw : w.Formatted)
include hw

theorem marked_of_run_deallocate {b : UInt64} (hb : b.toNat < bitmapBits)
    (h : (bitmapDeallocateBlock b).run w = .ok () u) :
    u.Formatted ∧ u.storage.marked = w.storage.marked := by
  rw [run_bitmapDeallocateBlock hw hb] at h
  cases h
  exact ⟨hw, Disk.marked_set_of_ne _ _ (by decide)⟩

theorem nextFree_of_run_allocate {r : ℕ} (h : bitmapAllocateBlock.run w = .ok r u) :
    nextFree 9 bitmapBits w.storage.marked = some r := by
  rw [run_bitmapAllocateBlock hw] at h
  have hcode : w.storage.allocated = r := (EStateM.Result.ok.inj h).1
  have hle : 0 ≤ w.storage.allocated := by omega
  obtain ⟨q, hq, heq⟩ := Disk.nextFree_of_allocated hle
  obtain rfl : q = r := by omega
  exact hq

theorem marked_of_run_allocate {r : ℕ} (h : bitmapAllocateBlock.run w = .ok r u) :
    u.Formatted ∧ r < bitmapBits ∧ w.storage.marked r = false ∧
      u.storage.marked = mark w.storage.marked r := by
  have hnext := nextFree_of_run_allocate hw h
  rw [run_bitmapAllocateBlock_of_some hw hnext] at h
  cases h
  obtain ⟨-, hlt, hclear, -⟩ := nextFree_eq_some_iff.mp hnext
  exact ⟨hw, hlt, hclear, Disk.marked_markBlock _ hlt⟩

theorem not_freesExactly_of_marked {b : UInt64} (hb : b.toNat < bitmapBits)
    (hmarked : w.storage.marked b.toNat = true) : ¬ FreesExactly w b := by
  rintro ⟨u, hrun, hbits, -⟩
  have hcleared := hbits b.toNat
  rw [(marked_of_run_deallocate hw hb hrun).2, hmarked] at hcleared
  simp at hcleared

end Deallocate

theorem AllocatedMarked.step {s t : World × Set ℕ} (hs : AllocatedMarked s) {c : Option UInt64}
    (h : BitmapStep s c t) : AllocatedMarked t := by
  obtain ⟨hw, hlive⟩ := hs
  cases h with
  | @allocate r u hrun =>
      obtain ⟨hu, hlt, -, hmarked⟩ := marked_of_run_allocate hw hrun
      refine ⟨hu, fun q hq ↦ ?_⟩
      simp only [hmarked, mark_apply]
      rcases Set.mem_insert_iff.mp hq with rfl | hq
      · exact ⟨hlt, by simp⟩
      · exact ⟨(hlive q hq).1, by simp [(hlive q hq).2]⟩
  | @exhausted u hrun =>
      rw [run_bitmapAllocateBlock hw] at hrun
      cases hnext : nextFree 9 bitmapBits s.1.storage.marked with
      | some r =>
          rw [Disk.allocated_of_some hnext] at hrun
          have hcode := (EStateM.Result.ok.inj hrun).1
          omega
      | none =>
          have hdisk : s.1.storage.afterAllocate = s.1.storage := by
            rw [Disk.afterAllocate, hnext]
          rw [hdisk] at hrun
          obtain rfl := (EStateM.Result.ok.inj hrun).2
          exact ⟨hw, hlive⟩
  | @deallocate b u hmem hrun =>
      obtain ⟨hu, hmarked⟩ := marked_of_run_deallocate hw (hlive _ hmem).1 hrun
      refine ⟨hu, fun q hq ↦ ?_⟩
      simp only [hmarked]
      exact hlive q hq.1

/-- In every run in which only allocated blocks are given back, giving back an
allocated block is wrong, and giving back the block just allocated does not
restore the disk. -/
theorem deallocate_never_frees {w : World} (hw : w.Formatted) {live : Set ℕ}
    (hlive : ∀ r ∈ live, r < bitmapBits ∧ w.storage.marked r = true)
    {calls : List (Option UInt64)} {s : World × Set ℕ} (hrun : Run BitmapStep (w, live) calls s) :
    (∀ b : UInt64, b.toNat ∈ s.2 → ¬ FreesExactly s.1 b) ∧
      ∀ (b : UInt64) (u v : World), bitmapAllocateBlock.run s.1 = .ok b.toNat u →
        (bitmapDeallocateBlock b).run u = .ok () v → v.storage ≠ s.1.storage := by
  obtain ⟨hs, hmarked⟩ : AllocatedMarked s :=
    hrun.invariant ⟨hw, hlive⟩ fun t c u ht hstep ↦ ht.step hstep
  constructor
  · intro b hb
    exact not_freesExactly_of_marked hs (hmarked _ hb).1 (hmarked _ hb).2
  · intro b u v hallocate hdeallocate heq
    obtain ⟨hu, hlt, hclear, hset⟩ := marked_of_run_allocate hs hallocate
    have hkeep := (marked_of_run_deallocate hu hlt hdeallocate).2
    rw [heq, hset] at hkeep
    have hbit := congrFun hkeep b.toNat
    rw [hclear, mark_apply] at hbit
    simp at hbit

theorem run_allocate_freshDevice :
    ∃ u, bitmapAllocateBlock.run freshDevice = .ok (9 : ℕ) u := by
  have hnext : nextFree 9 bitmapBits freshDevice.storage.marked = some 9 :=
    nextFree_eq_some_iff.mpr ⟨le_rfl, by decide, marked_freshDevice 9, fun q hq hlt ↦ by omega⟩
  exact ⟨_, run_bitmapAllocateBlock_of_some formatted_freshDevice hnext⟩

theorem deallocate_never_frees_nine :
    ∃ u, bitmapAllocateBlock.run freshDevice = .ok (9 : ℕ) u ∧ ¬ FreesExactly u 9 := by
  obtain ⟨u, hrun⟩ := run_allocate_freshDevice
  have hstep : Run BitmapStep (freshDevice, ∅) ([] ++ [none]) (u, insert 9 ∅) :=
    .snoc .nil (.allocate hrun)
  exact ⟨u, hrun, (deallocate_never_frees formatted_freshDevice (by simp) hstep).1 9
    (Set.mem_insert 9 ∅)⟩

theorem deallocate_keeps_nine_marked :
    ∃ u v, bitmapAllocateBlock.run freshDevice = .ok (9 : ℕ) u ∧
      (bitmapDeallocateBlock 9).run u = .ok () v ∧ v.storage.marked 9 = true ∧
      ¬ FreesExactly u 9 := by
  obtain ⟨u, hrun⟩ := run_allocate_freshDevice
  obtain ⟨hu, hlt, -, hmarked⟩ := marked_of_run_allocate formatted_freshDevice hrun
  have hnine : u.storage.marked 9 = true := by
    rw [hmarked]
    simp
  have hfree := run_bitmapDeallocateBlock hu (b := 9) hlt
  have hkeep := (marked_of_run_deallocate hu (b := 9) hlt hfree).2
  exact ⟨u, _, hrun, hfree, by rw [hkeep, hnine], not_freesExactly_of_marked hu hlt hnine⟩

end OsProjects.Filesystem
