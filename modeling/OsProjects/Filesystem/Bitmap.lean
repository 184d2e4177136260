import OsProjects.Filesystem.Storage
import OsProjects.Library.FirstFit

/-!
# The block bitmap

The allocator of `bitmap.c` and its behaviour on a formatted device, where the
bitmap is the single block that follows the inode table: it is the first-fit
allocator over all the bits of that block from `first_allocatable` on.
-/

namespace OsProjects.Filesystem

open Library.Program Library.Bytes Library.FirstFit

/-! ## `bitmap.c` -/

def bitmapInit (numberInodeBlocks numberBitmapBlocks numberBlocks : UInt64) : FS Unit :=
  modify fun w ↦ { w with globals := { w.globals with
    bitmapFirstBlock := numberInodeBlocks
    bitmapNumberBlocks := numberBitmapBlocks
    firstAllocatable := numberInodeBlocks + numberBitmapBlocks
    lastAllocatable := numberBlocks - 1 } }

/-- The block number that the scan computes for bit `k` of byte `j` of the
`i`-th bitmap block. -/
def referencedBlock (i j k : ℕ) : ℕ := i * blockSize + j * 8 + k

def scanBlock (firstAllocatable : UInt64) (i : ℕ) (block : Block) : Option (ℕ × ℕ) :=
  (List.range' 0 blockSize).findSome? fun j ↦
    (List.range' 0 8).findSome? fun k ↦
      if firstAllocatable.toNat ≤ referencedBlock i j k ∧
          byteAt block j &&& (1 <<< UInt8.ofNat k) = 0 then
        some (j, k)
      else none

/-- The loop over the bitmap blocks `i, …, i + count - 1`. -/
def allocateFrom (g : Globals) : ℕ → ℕ → Block → FS ℤ
  | _, 0, _ => return -1
  | i, count + 1, block => do
      let (_, block) ← storageReadBlock (cUInt64 i + g.bitmapFirstBlock) block
      match scanBlock g.firstAllocatable i block with
      | some (j, k) =>
          let _ ← storageWriteBlock (cUInt64 i + g.bitmapFirstBlock) (setBit block j k)
          return referencedBlock i j k
      | none => allocateFrom g (i + 1) count block

def bitmapAllocateBlock : FS ℤ := do
  let w ← get
  let block ← automatic
  let result ← allocateFrom w.globals 0 w.globals.bitmapNumberBlocks.toNat block
  emit (.allocate result)
  return result

def bitmapDeallocateBlock (blockNumber : UInt64) : FS Unit := do
  let w ← get
  let diskBlockNumber := cInt (blockNumber.toNat / (blockSize * 8))
  let diskBlockOffset := blockNumber.toNat % (blockSize * 8)
  let diskBlockByte := diskBlockOffset / 8
  let diskBlockBit := diskBlockOffset % 8
  let block ← automatic
  let (_, block) ← storageReadBlock (w.globals.bitmapFirstBlock + cUInt64 diskBlockNumber) block
  let block := clearBit block diskBlockByte diskBlockBit
  -- the block is written back without the offset `bitmap_first_block` it was read with
  let _ ← storageWriteBlock (cUInt64 diskBlockNumber) block
  return ()

/-! ## The formatted layout -/

/-- What `format` leaves in the global variables: inodes in blocks `0` to `7`,
the bitmap in block `8`, files from block `9` on. -/
def formattedGlobals : Globals where
  inodesPerBlock := 128
  numberInodeBlocks := 8
  numberBitmapBlocks := 1
  bitmapFirstBlock := 8
  bitmapNumberBlocks := 1
  firstAllocatable := 9
  lastAllocatable := 16383

def World.Formatted (w : World) : Prop := w.globals = formattedGlobals

theorem World.Formatted.globals_eq {w : World} (h : w.Formatted) :
    w.globals = formattedGlobals := h

def Disk.marked (d : Disk) (r : ℕ) : Bool := bitAt (d.block 8) r

def Disk.markBlock (d : Disk) (r : ℕ) : Disk :=
  d.set 8 (setBit (d.block 8) (r / 8) (r % 8))

def bitmapBits : ℕ := blockSize * 8

namespace Disk

variable (d : Disk) {r : ℕ}

theorem marked_markBlock (hr : r < bitmapBits) : (d.markBlock r).marked = mark d.marked r := by
  have hbyte : r / 8 < blockSize := by
    simp only [bitmapBits, blockSize] at hr ⊢
    omega
  funext q
  rw [marked, markBlock, block_set_self d _ (by decide), bitAt_setBit _ q hbyte]
  rfl

theorem block_markBlock_of_ne {b : ℕ} (h : b ≠ 8) : (d.markBlock r).block b = d.block b :=
  block_set_of_ne d _ h

theorem byteAt_markBlock (hr : r < bitmapBits) {b o : ℕ} (h : b ≠ 8 ∨ o ≠ r / 8) :
    byteAt ((d.markBlock r).block b) o = byteAt (d.block b) o := by
  by_cases hb : b = 8
  · subst hb
    have hbyte : r / 8 < blockSize := by
      simp only [bitmapBits, blockSize] at hr ⊢
      omega
    rw [markBlock, block_set_self d _ (by decide), setBit, byteAt_mapByte _ _ o hbyte,
      if_neg (h.resolve_left fun hne ↦ hne rfl)]
  · rw [block_markBlock_of_ne d hb]

theorem marked_set_of_ne {b : ℕ} (data : Block) (h : b ≠ 8) :
    (d.set b data).marked = d.marked := by
  funext q
  rw [marked, block_set_of_ne d _ h.symm, marked]

end Disk

/-! ## The scan is first fit -/

theorem bitAt_row (block : Block) (j : ℕ) {k : ℕ} (hk : k < 8) :
    bitAt block (j * 8 + k) = (byteAt block j).toNat.testBit k := by
  rw [bitAt, show (j * 8 + k) / 8 = j by omega, show (j * 8 + k) % 8 = k by omega]

/-- A bit past the metadata that is clear stops the scan of the `i`-th block. -/
theorem scan_stops {first : UInt64} {i q : ℕ} {block : Block} (hq : first.toNat ≤ i * blockSize + q)
    (hclear : bitAt block q = false) :
    first.toNat ≤ referencedBlock i (q / 8) (q % 8) ∧
      byteAt block (q / 8) &&& (1 <<< UInt8.ofNat (q % 8)) = 0 := by
  have hk : q % 8 < 8 := Nat.mod_lt q (by omega)
  constructor
  · simp only [referencedBlock]
    omega
  · rw [and_mask_eq_zero_iff _ hk, ← bitAt_row _ _ hk, Nat.div_add_mod' q 8]
    exact hclear

theorem scanBlock_eq_some {first : UInt64} {i : ℕ} {block : Block} {j k : ℕ}
    (h : scanBlock first i block = some (j, k)) :
    k < 8 ∧
      nextFree (first.toNat - i * blockSize) bitmapBits (bitAt block) = some (j * 8 + k) := by
  obtain ⟨j', -, hj, hinner, hrows⟩ := findSome?_range'_eq_some_iff.mp h
  obtain ⟨k', -, hk, htest, hbits⟩ := findSome?_range'_eq_some_iff.mp hinner
  split at htest
  case isFalse => simp at htest
  case isTrue hhit =>
    obtain ⟨rfl, rfl⟩ : j' = j ∧ k' = k := by simpa using htest
    simp only [referencedBlock] at hhit
    refine ⟨hk, nextFree_eq_some_iff.mpr ⟨by omega, ?_, ?_, ?_⟩⟩
    · simp only [bitmapBits]
      omega
    · rw [bitAt_row block j' hk]
      exact (and_mask_eq_zero_iff _ hk).mp hhit.2
    · -- an earlier clear bit would have stopped one of the two loops
      intro q hfirst hlt
      by_contra hfree
      have hcond := @scan_stops first i q block (by omega) (Bool.eq_false_of_not_eq_true hfree)
      rcases Nat.lt_or_ge (q / 8) j' with hrow | hrow
      · have hnone := findSome?_range'_eq_none_iff.mp (hrows (q / 8) (by omega) hrow)
          (q % 8) (by omega) (by omega)
        rw [if_pos hcond] at hnone
        simp at hnone
      · have hsame : q / 8 = j' := by omega
        have hnone := hbits (q % 8) (by omega) (by omega)
        rw [if_pos (hsame ▸ hcond)] at hnone
        simp at hnone

theorem scanBlock_eq_none {first : UInt64} {i : ℕ} {block : Block}
    (h : scanBlock first i block = none) :
    nextFree (first.toNat - i * blockSize) bitmapBits (bitAt block) = none := by
  rw [nextFree_eq_none_iff]
  intro q hfirst hq
  have hrow := findSome?_range'_eq_none_iff.mp h (q / 8) (by omega)
    (by simp only [bitmapBits] at hq; omega)
  have hbit := findSome?_range'_eq_none_iff.mp hrow (q % 8) (by omega) (by omega)
  by_contra hfree
  rw [if_pos (scan_stops (by omega) (Bool.eq_false_of_not_eq_true hfree))] at hbit
  simp at hbit

/-! ## The allocator on a formatted device -/

variable {w : World}

theorem run_allocateFrom_of_formatted (block : Block) :
    (allocateFrom formattedGlobals 0 formattedGlobals.bitmapNumberBlocks.toNat block).run w =
      match scanBlock 9 0 (w.storage.block 8) with
      | some (j, k) =>
          .ok (referencedBlock 0 j k)
            (w.advance (w.storage.set 8 (setBit (w.storage.block 8) j k)) 0 [])
      | none => .ok (-1) w := by
  have hcount : formattedGlobals.bitmapNumberBlocks.toNat = 1 := rfl
  have hblock : cUInt64 (0 : ℕ) + formattedGlobals.bitmapFirstBlock = 8 := rfl
  have hfirst : formattedGlobals.firstAllocatable = 9 := rfl
  have hread := run_storageReadBlock (n := 8) block (w := w) (by decide)
  rw [hcount, allocateFrom, hblock, hfirst, run_bind_of_ok hread]
  simp only [show (8 : UInt64).toNat = 8 from rfl]
  cases scanBlock 9 0 (w.storage.block 8) with
  | none => rfl
  | some hit =>
      obtain ⟨j, k⟩ := hit
      simp only
      rw [run_bind_of_ok (run_storageWriteBlock 8 _ w)]
      rfl

namespace Disk

def allocated (d : Disk) : ℤ :=
  match nextFree 9 bitmapBits d.marked with
  | some r => r
  | none => -1

def afterAllocate (d : Disk) : Disk :=
  match nextFree 9 bitmapBits d.marked with
  | some r => d.markBlock r
  | none => d

theorem allocated_of_some {d : Disk} {r : ℕ} (h : nextFree 9 bitmapBits d.marked = some r) :
    d.allocated = r := by rw [allocated, h]

theorem afterAllocate_of_some {d : Disk} {r : ℕ}
    (h : nextFree 9 bitmapBits d.marked = some r) : d.afterAllocate = d.markBlock r := by
  rw [afterAllocate, h]

theorem nextFree_of_allocated {d : Disk} (h : 0 ≤ d.allocated) :
    ∃ r : ℕ, nextFree 9 bitmapBits d.marked = some r ∧ d.allocated = r := by
  cases hnext : nextFree 9 bitmapBits d.marked with
  | none => simp [allocated, hnext] at h
  | some r => exact ⟨r, rfl, allocated_of_some hnext⟩

end Disk

/-- `bitmap_allocate_block` hands out the least clear bit from block `9` on, or
returns `-1` when there is none. -/
theorem run_bitmapAllocateBlock (hw : w.Formatted) :
    bitmapAllocateBlock.run w = .ok w.storage.allocated
      (w.advance w.storage.afterAllocate 1 [.allocate w.storage.allocated]) := by
  have hloop := run_allocateFrom_of_formatted (w := w.advance w.storage 1 []) (w.stack w.frames)
  rw [bitmapAllocateBlock, run_bind_of_ok (EStateM.run_get w),
    run_bind_of_ok (run_automatic w), hw.globals_eq]
  rw [World.advance_storage] at hloop
  cases hscan : scanBlock 9 0 (w.storage.block 8) with
  | none =>
      have hnext : nextFree 9 bitmapBits w.storage.marked = none := scanBlock_eq_none hscan
      rw [hscan] at hloop
      rw [run_bind_of_ok hloop, run_bind_of_ok (run_emit _ _)]
      simp [Disk.allocated, Disk.afterAllocate, hnext]
  | some hit =>
      obtain ⟨j, k⟩ := hit
      obtain ⟨hk, hnext⟩ := scanBlock_eq_some hscan
      have hnext' : nextFree 9 bitmapBits w.storage.marked = some (j * 8 + k) := hnext
      have hdiv : (j * 8 + k) / 8 = j := by omega
      have hmod : (j * 8 + k) % 8 = k := by omega
      rw [hscan] at hloop
      rw [run_bind_of_ok hloop, run_bind_of_ok (run_emit _ _), Disk.allocated_of_some hnext',
        Disk.afterAllocate_of_some hnext']
      simp [Disk.markBlock, referencedBlock, hdiv, hmod]

theorem run_bitmapAllocateBlock_of_some (hw : w.Formatted) {r : ℕ}
    (h : nextFree 9 bitmapBits w.storage.marked = some r) :
    bitmapAllocateBlock.run w = .ok r (w.advance (w.storage.markBlock r) 1 [.allocate r]) := by
  rw [run_bitmapAllocateBlock hw, Disk.allocated_of_some h, Disk.afterAllocate_of_some h]

/-- `bitmap_deallocate_block` reads the bitmap block that holds the bit and
writes the changed copy to the block with its index in the bitmap. -/
theorem run_bitmapDeallocateBlock (hw : w.Formatted) {b : UInt64} (hb : b.toNat < bitmapBits) :
    (bitmapDeallocateBlock b).run w =
      .ok () (w.advance
        (w.storage.set 0 (clearBit (w.storage.block 8) (b.toNat / 8) (b.toNat % 8))) 1 []) := by
  have hzero : b.toNat / (blockSize * 8) = 0 := Nat.div_eq_of_lt hb
  have hoff : b.toNat % (blockSize * 8) = b.toNat := Nat.mod_eq_of_lt hb
  have hblock : formattedGlobals.bitmapFirstBlock + cUInt64 (cInt 0) = 8 := rfl
  have hread := run_storageReadBlock (n := 8) (w.stack w.frames)
    (w := w.advance w.storage 1 []) (by decide)
  rw [bitmapDeallocateBlock, run_bind_of_ok (EStateM.run_get w)]
  simp only
  rw [run_bind_of_ok (run_automatic w), hw.globals_eq, hzero, hoff,
    hblock, run_bind_of_ok hread, run_bind_of_ok (run_storageWriteBlock _ _ _), EStateM.run_pure]
  rfl

end OsProjects.Filesystem
