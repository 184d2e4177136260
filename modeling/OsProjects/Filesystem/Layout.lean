import OsProjects.Filesystem.Files

/-!
# The layout of a formatted disk

Typed views of the bytes of a disk: the inode table in blocks `0` to `7`, the
entries of a pointer block, and the bytes of all blocks as one memory.  Every
update made by `files.c` is described by what these views show after it.
-/

namespace OsProjects.Filesystem

open Library.Program Library.Bytes Library.FirstFit

/-- The fields of `inode_t` that the filesystem uses. -/
@[ext] structure Inode where
  used : Bool
  size : UInt64
  headPointerBlock : UInt64

def inodeAt (buf : Block) (offset : ℕ) : Inode where
  used := inodeFlagsUsed buf offset
  size := inodeSize buf offset
  headPointerBlock := inodeHeadPointerBlock buf offset

/-! ## Inodes in a buffer -/

theorem inodeAt_congr {b c : Block} {o : ℕ}
    (h : ∀ i, sizeofInode * o ≤ i → i < sizeofInode * o + sizeofInode → byteAt b i = byteAt c i) :
    inodeAt b o = inodeAt c o := by
  simp only [sizeofInode] at h
  have hflag : byteAt b (8 * (32 * o + 6) / 8) = byteAt c (8 * (32 * o + 6) / 8) :=
    h _ (by omega) (by omega)
  have hsize : readLE b (32 * o + 8) 8 = readLE c (32 * o + 8) 8 :=
    readLE_congr fun i hi hlt ↦ h i (by omega) (by omega)
  have hhead : readLE b (32 * o + 24) 8 = readLE c (32 * o + 24) 8 :=
    readLE_congr fun i hi hlt ↦ h i (by omega) (by omega)
  simp only [inodeAt, inodeFlagsUsed, inodeSize, inodeHeadPointerBlock, sizeofInode, bitAt,
    hflag, hsize, hhead]

theorem inodeAt_writeLE_of_ne (buf : Block) {o o' field : ℕ} (v : ℕ) (hfield : field + 8 ≤ 32)
    (h : o' ≠ o) : inodeAt (writeLE buf (sizeofInode * o + field) 8 v) o' = inodeAt buf o' := by
  apply inodeAt_congr
  intro i hi hlt
  apply byteAt_writeLE_of_disjoint
  simp only [sizeofInode] at *
  omega

theorem bitAt_writeLE_of_disjoint (buf : Block) {off k r : ℕ} (v : ℕ)
    (h : r / 8 < off ∨ off + k ≤ r / 8) : bitAt (writeLE buf off k v) r = bitAt buf r := by
  rw [bitAt, byteAt_writeLE_of_disjoint buf v h, bitAt]

theorem readLE_setBit_of_ne (buf : Block) {off k j : ℕ} (bit : ℕ) (hj : j < blockSize)
    (h : j < off ∨ off + k ≤ j) : readLE (setBit buf j bit) off k = readLE buf off k := by
  apply readLE_congr
  intro i hi hlt
  rw [setBit, byteAt_mapByte _ _ _ hj, if_neg (by omega)]

theorem inodeAt_setInodeSize (buf : Block) {o : ℕ} (size : UInt64) (ho : o < 128) (o' : ℕ) :
    inodeAt (setInodeSize buf o size) o' =
      if o' = o then { inodeAt buf o with size := size } else inodeAt buf o' := by
  split
  · rename_i heq
    subst heq
    apply Inode.ext
    · exact bitAt_writeLE_of_disjoint buf _ (by omega)
    · simp only [inodeAt, inodeSize, setInodeSize]
      rw [readLE_writeLE buf (by simp only [sizeofInode, blockSize]; omega) size.toNat_lt]
      simp
    · simp only [inodeAt, inodeHeadPointerBlock, setInodeSize]
      rw [readLE_writeLE_of_disjoint buf _ (by omega)]
  · rename_i hne
    exact inodeAt_writeLE_of_ne buf _ (by omega) hne

theorem inodeAt_setInodeHeadPointerBlock (buf : Block) {o : ℕ} (number : UInt64) (ho : o < 128)
    (o' : ℕ) :
    inodeAt (setInodeHeadPointerBlock buf o number) o' =
      if o' = o then { inodeAt buf o with headPointerBlock := number } else inodeAt buf o' := by
  split
  · rename_i heq
    subst heq
    apply Inode.ext
    · exact bitAt_writeLE_of_disjoint buf _ (by omega)
    · simp only [inodeAt, inodeSize, setInodeHeadPointerBlock]
      rw [readLE_writeLE_of_disjoint buf _ (by omega)]
    · simp only [inodeAt, inodeHeadPointerBlock, setInodeHeadPointerBlock]
      rw [readLE_writeLE buf (by simp only [sizeofInode, blockSize]; omega) number.toNat_lt]
      simp
  · rename_i hne
    exact inodeAt_writeLE_of_ne buf _ (by omega) hne

theorem inodeAt_setInodeFlagsUsed (buf : Block) {o : ℕ} (ho : o < 128) (o' : ℕ) :
    inodeAt (setInodeFlagsUsed buf o) o' =
      if o' = o then { inodeAt buf o with used := true } else inodeAt buf o' := by
  have hbyte : sizeofInode * o + 6 < blockSize := by
    simp only [sizeofInode, blockSize]
    omega
  split
  · rename_i heq
    subst heq
    apply Inode.ext
    · have hdiv : 8 * (sizeofInode * o' + 6) / 8 = sizeofInode * o' + 6 := by omega
      have hmod : 8 * (sizeofInode * o' + 6) % 8 = 0 := by omega
      have hbit := bitAt_setBit buf (r := 8 * (sizeofInode * o' + 6))
        (8 * (sizeofInode * o' + 6)) (by omega)
      rw [hdiv, hmod] at hbit
      simp [inodeAt, inodeFlagsUsed, setInodeFlagsUsed, hbit]
    · simp only [inodeAt, inodeSize, setInodeFlagsUsed]
      rw [readLE_setBit_of_ne buf 0 hbyte (by omega)]
    · simp only [inodeAt, inodeHeadPointerBlock, setInodeFlagsUsed]
      rw [readLE_setBit_of_ne buf 0 hbyte (by omega)]
  · rename_i hne
    apply inodeAt_congr
    intro i hi hlt
    rw [setInodeFlagsUsed, setBit, byteAt_mapByte _ _ _ hbyte, if_neg]
    simp only [sizeofInode] at *
    omega

/-! ## Entries of a pointer block -/

theorem entry_setEntry_self (pointers : Block) {i : ℕ} (number : UInt64) (h : i < 512) :
    entry (setEntry pointers i number) i = number := by
  rw [entry, setEntry,
    readLE_writeLE pointers (by simp only [blockSize]; omega) number.toNat_lt]
  simp

theorem entry_setEntry_of_ne (pointers : Block) {i j : ℕ} (number : UInt64) (h : j ≠ i) :
    entry (setEntry pointers i number) j = entry pointers j := by
  rw [entry, setEntry, readLE_writeLE_of_disjoint pointers _ (by omega), entry]

def setEntries (pointers : Block) : ℕ → List ℕ → Block
  | _, [] => pointers
  | i, r :: rs => setEntries (setEntry pointers i (cUInt64 r)) (i + 1) rs

theorem entry_setEntries_of_lt (pointers : Block) {i j : ℕ} (rs : List ℕ) (h : j < i) :
    entry (setEntries pointers i rs) j = entry pointers j := by
  induction rs generalizing pointers i with
  | nil => rfl
  | cons r rs ih =>
      rw [setEntries, ih _ (by omega), entry_setEntry_of_ne _ _ (by omega)]

theorem entry_setEntries_add (pointers : Block) {i k : ℕ} {rs : List ℕ}
    (hk : k < rs.length) (hi : i + rs.length ≤ 512) :
    entry (setEntries pointers i rs) (i + k) = cUInt64 (rs[k] : ℕ) := by
  induction rs generalizing pointers i k with
  | nil => simp at hk
  | cons r rs ih =>
      simp only [List.length_cons] at hi hk
      cases k with
      | zero =>
          change entry (setEntries (setEntry pointers i (cUInt64 r)) (i + 1) rs) i = cUInt64 r
          rw [entry_setEntries_of_lt _ _ (by omega), entry_setEntry_self _ _ (by omega)]
      | succ k =>
          rw [setEntries, show i + (k + 1) = i + 1 + k by omega, ih _ (by omega) (by omega)]
          rfl

theorem setEntries_append (pointers : Block) (i : ℕ) (xs ys : List ℕ) :
    setEntries pointers i (xs ++ ys) =
      setEntries (setEntries pointers i xs) (i + xs.length) ys := by
  induction xs generalizing pointers i with
  | nil => rfl
  | cons x xs ih =>
      rw [List.cons_append, setEntries, ih, setEntries, List.length_cons,
        show i + 1 + xs.length = i + (xs.length + 1) by omega]

/-! ## Views of a disk -/

namespace Disk

def inode (d : Disk) (n : ℕ) : Inode := inodeAt (d.block (n / 128)) (n % 128)

/-- The disk block number in entry `i` of the pointer block of inode `n`. -/
def dataBlock (d : Disk) (n i : ℕ) : ℕ :=
  (entry (d.block (d.inode n).headPointerBlock.toNat) i).toNat

def bytes (d : Disk) (a : ℕ × ℕ) : UInt8 := byteAt (d.block a.1) a.2

theorem ext_bytes {d e : Disk} (h : d.bytes = e.bytes) : d = e :=
  ext_block fun b _ ↦ buffer_ext fun o _ ↦ congrFun h (b, o)

variable (d : Disk)

theorem inode_set_of_ne {b n : ℕ} (data : Block) (h : n / 128 ≠ b) :
    (d.set b data).inode n = d.inode n := by
  rw [inode, block_set_of_ne d data h, inode]

theorem inode_set_self {n m : ℕ} (data : Block) (hn : n < maxFiles)
    (hsame : ∀ o', o' ≠ n % 128 → inodeAt data o' = inodeAt (d.block (n / 128)) o') :
    (d.set (n / 128) data).inode m =
      if m = n then inodeAt data (n % 128) else d.inode m := by
  have hblock : n / 128 < numBlocks := by
    simp only [maxFiles, numBlocks] at *
    omega
  split
  · rename_i hmn
    rw [inode, hmn, block_set_self d data hblock]
  · rename_i hmn
    by_cases hb : m / 128 = n / 128
    · rw [inode, hb, block_set_self d data hblock, hsame _ (by omega), inode, hb]
    · exact inode_set_of_ne d data hb

theorem inode_markBlock {n : ℕ} (r : ℕ) (hn : n < maxFiles) :
    (d.markBlock r).inode n = d.inode n := by
  apply inode_set_of_ne
  simp only [maxFiles] at hn
  omega

def markBlocks (d : Disk) (rs : List ℕ) : Disk := rs.foldl markBlock d

@[simp] theorem markBlocks_nil : d.markBlocks [] = d := rfl

@[simp] theorem markBlocks_cons (r : ℕ) (rs : List ℕ) :
    d.markBlocks (r :: rs) = (d.markBlock r).markBlocks rs := rfl

theorem block_markBlocks_of_ne (rs : List ℕ) {b : ℕ} (h : b ≠ 8) :
    (d.markBlocks rs).block b = d.block b := by
  induction rs generalizing d with
  | nil => rfl
  | cons r rs ih => rw [markBlocks_cons, ih, block_markBlock_of_ne d h]

theorem marked_markBlocks {rs : List ℕ} (h : ∀ r ∈ rs, r < bitmapBits) :
    (d.markBlocks rs).marked = markAll d.marked rs := by
  induction rs generalizing d with
  | nil => rfl
  | cons r rs ih =>
      rw [markBlocks_cons, ih _ fun q hq ↦ h q (List.mem_cons_of_mem _ hq),
        marked_markBlock d (h r List.mem_cons_self), markAll_cons]

theorem markBlocks_append (xs ys : List ℕ) :
    d.markBlocks (xs ++ ys) = (d.markBlocks xs).markBlocks ys := List.foldl_append

end Disk

end OsProjects.Filesystem
