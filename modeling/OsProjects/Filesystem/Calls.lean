import OsProjects.Filesystem.Growth

/-!
# What a call does to a consistent disk

One description for each of `format`, `ifile_read` and `ifile_write`.  Reads
and writes are described on consistent disks, for windows that end below the
limit of a pointer block and growth for which blocks are left.
-/

namespace OsProjects.Filesystem

open Library.Program Library.Bytes Library.FirstFit Library.ScatteredStore

/-! ## `format` -/

def Disk.zeroed (d : Disk) (start count : ℕ) : Disk := fun b ↦
  if start ≤ b.val ∧ b.val < start + count then zeroedBlock else d b

theorem run_writeZeroedBlocks (w : World) {start count : ℕ} (h : start + count ≤ numBlocks) :
    (writeZeroedBlocks start count).run w =
      .ok () (w.advance (w.storage.zeroed start count) 0 []) := by
  have hloop : Returns (writeZeroedBlocks start count) w fun _ u ↦
      u = w.advance (w.storage.zeroed start (start + count - start)) 0 [] := by
    refine Returns.forLoop (I := fun i _ u ↦
      u = w.advance (w.storage.zeroed start (i - start)) 0 []) ?_ ?_
    · have hnone : w.storage.zeroed start (start - start) = w.storage := by
        funext b
        rw [Disk.zeroed, if_neg (by omega)]
      rw [hnone]
      exact (World.advance_self w).symm
    · rintro i - u hi hlt rfl
      have hnat : (cUInt64 i).toNat = i :=
        toNat_cUInt64_natCast (by simp only [numBlocks] at h; omega)
      have hdisk : (w.storage.zeroed start (i - start)).set i zeroedBlock =
          w.storage.zeroed start (i + 1 - start) := by
        funext b
        simp only [Disk.set, Disk.zeroed]
        by_cases hb : b.val = i
        · rw [if_pos hb, if_pos (by omega)]
        · rw [if_neg hb]
          by_cases hin : start ≤ b.val ∧ b.val < start + (i - start)
          · rw [if_pos hin, if_pos (by omega)]
          · rw [if_neg hin, if_neg (by omega)]
      refine .bind_run (run_storageWriteBlock _ _ _) (.pure ⟨_, rfl, ?_⟩)
      simp only [World.advance_storage, World.advance_advance, hnat, hdisk, Nat.add_zero,
        List.append_nil]
  obtain ⟨_, u, hrun, rfl⟩ := hloop
  rw [hrun, Nat.add_sub_cancel_left]

/-- `format` zeroes the inode table and the bitmap and sets the global
variables, whatever the device and the variables contained. -/
theorem run_format (w : World) :
    format.run w =
      .ok () { w with storage := w.storage.zeroed 0 9, globals := formattedGlobals } := by
  have hinodes : divUp maxFiles (blockSize / sizeofInode) = 8 := rfl
  have hbitmap : divUp numBlocks (blockSize * 8) = 1 := rfl
  have hdisk : (w.storage.zeroed 0 8).zeroed 8 1 = w.storage.zeroed 0 9 := by
    funext b
    simp only [Disk.zeroed]
    by_cases hb : b.val < 8
    · rw [if_neg (by omega), if_pos (by omega), if_pos (by omega)]
    · by_cases hb' : b.val < 9
      · rw [if_pos (by omega), if_pos (by omega)]
      · rw [if_neg (by omega), if_neg (by omega), if_neg (by omega)]
  have hmodify : ∀ (f : World → World) (w : World), (modify f : FS Unit).run w = .ok () (f w) :=
    fun _ _ ↦ rfl
  rw [format, hinodes, hbitmap, run_bind_of_ok (hmodify _ _),
    run_bind_of_ok (run_writeZeroedBlocks _ (by decide)), run_bind_of_ok (hmodify _ _),
    run_bind_of_ok (run_writeZeroedBlocks _ (by decide)), bitmapInit, hmodify]
  simp only [World.advance, hdisk]
  rfl

theorem Disk.inode_zeroed (d : Disk) {n : ℕ} (hn : n < maxFiles) :
    ((d.zeroed 0 9).inode n).used = false := by
  have hblock : (d.zeroed 0 9).block (n / 128) = zeroedBlock := by
    simp only [maxFiles] at hn
    have hlt : n / 128 < numBlocks := by
      simp only [numBlocks]
      omega
    rw [Disk.block, dif_pos hlt, Disk.zeroed, if_pos (by simp only; omega)]
  rw [Disk.inode, hblock, inodeAt, inodeFlagsUsed]
  simp [bitAt, byteAt, zeroedBlock]

theorem Disk.marked_zeroed (d : Disk) (r : ℕ) : (d.zeroed 0 9).marked r = false := by
  have hblock : (d.zeroed 0 9).block 8 = zeroedBlock := by
    rw [Disk.block, dif_pos (by decide), Disk.zeroed, if_pos (by decide)]
  rw [Disk.marked, hblock]
  simp [bitAt, byteAt, zeroedBlock]

/-! ## `ifile_read` and `ifile_write` -/

namespace Disk

def fileByte (d : Disk) (n p : ℕ) : UInt8 :=
  d.bytes (locate (d.block (d.inode n).headPointerBlock.toNat) p)

/-- The disk with inode `n` grown by the blocks `rs` if it has less than
`newSize` bytes. -/
def resize (d : Disk) (n : ℕ) (newSize : UInt64) (rs : List ℕ) : Disk :=
  if (d.inode n).size < newSize then d.grow n newSize rs else d

end Disk

section Access

variable {w : World} {n howMany fromPos toPos : UInt64} {buffer : ℕ → UInt8}

theorem toNat_inodesPerBlock (hw : w.Formatted) :
    (n / cUInt64 w.globals.inodesPerBlock).toNat = n.toNat / 128 ∧
      (n % cUInt64 w.globals.inodesPerBlock).toNat = n.toNat % 128 := by
  have hper : cUInt64 w.globals.inodesPerBlock = 128 := by
    rw [hw.globals_eq]
    rfl
  rw [hper, UInt64.toNat_div, UInt64.toNat_mod]
  exact ⟨rfl, rfl⟩

theorem div_lt_numBlocks {n : ℕ} (hn : n < maxFiles) : n / 128 < numBlocks := by
  simp only [maxFiles, numBlocks] at *
  omega

/-- `ifile_read` compares the end of the window, computed modulo `2^64`, with the
number at the place of the size, and reads what the number at the place of the
pointer block leads to. -/
theorem run_ifileRead (hw : w.Formatted) (hn : n.toNat / 128 < numBlocks) (howMany fromPos : UInt64) :
    ∃ pointers, ((w.storage.inode n.toNat).headPointerBlock.toNat < numBlocks →
        pointers = w.storage.block (w.storage.inode n.toNat).headPointerBlock.toNat) ∧
      ∀ buffer, (ifileRead n buffer howMany fromPos).run w =
        if (w.storage.inode n.toNat).size < fromPos + howMany then
          .ok (-1, buffer) (w.advance w.storage 1 [])
        else (do
          let (_, buffer) ← pointersRead pointers buffer howMany fromPos
          return ((0 : ℤ), buffer)).run (w.advance w.storage 2 []) := by
  obtain ⟨hblock, hoffset⟩ := toNat_inodesPerBlock (n := n) hw
  have hread := run_storageReadBlock (n := n / cUInt64 w.globals.inodesPerBlock)
    (w.stack w.frames) (w := w.advance w.storage 1 []) (by rw [hblock]; exact hn)
  have hsize : inodeSize (w.storage.block (n.toNat / 128)) (n.toNat % 128) =
    (w.storage.inode n.toNat).size := rfl
  have hhead : inodeHeadPointerBlock (w.storage.block (n.toNat / 128)) (n.toNat % 128) =
    (w.storage.inode n.toNat).headPointerBlock := rfl
  obtain ⟨code, pointers, hpointers⟩ := run_storageReadBlock_state
    (w.storage.inode n.toNat).headPointerBlock
    (w.stack (w.frames + 1)) ((w.advance w.storage 1 []).advance w.storage 1 [])
  refine ⟨pointers, fun hlt ↦ ?_, fun buffer ↦ ?_⟩
  · rw [run_storageReadBlock _ hlt] at hpointers
    cases hpointers
    rfl
  · rw [ifileRead, run_bind_of_ok (EStateM.run_get w), run_bind_of_ok (run_automatic w),
      run_bind_of_ok hread]
    simp only [hblock, hoffset, World.advance_storage, hsize, hhead]
    split
    · rfl
    · rw [run_bind_of_ok (run_automatic _)]
      simp only [World.advance_storage]
      refine (run_bind_of_ok hpointers).trans ?_
      rw [World.advance_advance]
      rfl

/-- A read inside the file returns `0`, delivers the bytes of the file and
leaves the disk as it is. -/
theorem ifileRead_returns (hw : w.Formatted) (hd : w.storage.Consistent) (hn : n.toNat < maxFiles)
    (hused : (w.storage.inode n.toNat).used)
    (hend : fromPos.toNat + howMany.toNat ≤ (w.storage.inode n.toNat).size.toNat) :
    Returns (ifileRead n buffer howMany fromPos) w fun result u ↦
      result.1 = 0 ∧ w.Becomes w.storage u ∧
        result.2 = copyOver buffer 0 howMany.toNat
          fun i ↦ w.storage.fileByte n.toNat (fromPos.toNat + i) := by
  have hsize := hd.size_lt n.toNat hn hused
  have hlimit : fromPos.toNat + howMany.toNat < 512 * blockSize := by omega
  have haccept : ¬ (w.storage.inode n.toNat).size < fromPos + howMany := by
    rw [UInt64.lt_iff_toNat_lt, (window_arith hlimit).1]
    exact Nat.not_lt.mpr hend
  obtain ⟨pointers, hpointers, hrun⟩ :=
    run_ifileRead hw (div_lt_numBlocks hn) howMany fromPos
  obtain rfl := hpointers (hd.head_lt hn hused)
  have hcall := hrun buffer
  rw [if_neg haccept] at hcall
  refine .of_run_eq hcall (.bind (pointersRead_returns _ buffer hlimit fun i hi ↦
    (hd.entriesValid hn hused (Nat.div_le_div_right hend)).lt_numBlocks i hi) ?_)
  rintro ⟨code, buffer'⟩ u ⟨-, hu, hbuffer⟩
  exact .pure ⟨rfl, (World.Becomes.advance ..).trans hu, hbuffer⟩

/-- The second part of `ifile_write`: read the pointer block and write the data. -/
def writeData (offset : ℕ) (buffer : ℕ → UInt8) (howMany toPos : UInt64) (buf1 : Block) : FS ℤ := do
  let buf2 ← automatic
  let (_, buf2) ← storageReadBlock (inodeHeadPointerBlock buf1 offset) buf2
  let _ ← pointersWrite buf2 buffer howMany toPos
  return 0

theorem run_ifileWrite (hw : w.Formatted) (hn : n.toNat / 128 < numBlocks) (buffer : ℕ → UInt8)
    (howMany toPos : UInt64) :
    (ifileWrite n buffer howMany toPos).run w =
      (growIfNeeded (n / cUInt64 w.globals.inodesPerBlock) (w.storage.block (n.toNat / 128))
        (n.toNat % 128) (toPos + howMany) >>= writeData (n.toNat % 128) buffer howMany toPos).run
          (w.advance w.storage 1 []) := by
  obtain ⟨hblock, hoffset⟩ := toNat_inodesPerBlock (n := n) hw
  have hread := run_storageReadBlock (n := n / cUInt64 w.globals.inodesPerBlock)
    (w.stack w.frames) (w := w.advance w.storage 1 []) (by rw [hblock]; exact hn)
  rw [ifileWrite, run_bind_of_ok (EStateM.run_get w), run_bind_of_ok (run_automatic w),
    run_bind_of_ok hread]
  simp only [hblock, hoffset, World.advance_storage]
  rfl

end Access

theorem growIfNeeded_returns {w : World} (hw : w.Formatted) (hd : w.storage.Consistent) {n : ℕ}
    (hn : n < maxFiles) (hused : (w.storage.inode n).used) {number newSize : UInt64} {rs : List ℕ}
    (hnumber : number.toNat = n / 128) (hend : newSize.toNat < 512 * blockSize)
    (hrs : takeFree 9 bitmapBits (w.storage.growth n newSize.toNat) w.storage.marked = some rs) :
    Returns (growIfNeeded number (w.storage.block (n / 128)) (n % 128) newSize) w fun buf1 u ↦
      inodeHeadPointerBlock buf1 (n % 128) = (w.storage.inode n).headPointerBlock ∧
        w.Becomes (w.storage.resize n newSize rs) u := by
  have hoffset : n % 128 < 128 := Nat.mod_lt n (by omega)
  have hsize : inodeSize (w.storage.block (n / 128)) (n % 128) = (w.storage.inode n).size := rfl
  rw [growIfNeeded, Disk.resize, hsize]
  by_cases hgrows : (w.storage.inode n).size < newSize
  · rw [if_pos hgrows, if_pos hgrows]
    refine .bind (ifileGrow_returns hw (hd.head_lt hn hused) hgrows hend hrs) ?_
    rintro ⟨code, buf1⟩ u ⟨hbuf, hu⟩
    simp only at hbuf ⊢
    refine .bind_run (run_storageWriteBlock _ _ u) (.pure ⟨?_, ?_⟩)
    · have hinode := inodeAt_setInodeSize (w.storage.block (n / 128)) newSize hoffset (n % 128)
      rw [if_pos rfl] at hinode
      rw [hbuf]
      exact congrArg Inode.headPointerBlock hinode
    · rw [hu.storage, hnumber, hbuf]
      exact hu.advanced _ _ _
  · rw [if_neg hgrows, if_neg hgrows]
    exact .pure ⟨rfl, .refl w⟩

namespace Disk

variable {d : Disk} {n : ℕ} {newSize : UInt64} {rs : List ℕ}

section Resize

variable (hd : d.Consistent) (hn : n < maxFiles) (hused : (d.inode n).used)
include hd hn hused

theorem Consistent.resize (hend : newSize.toNat < 512 * blockSize)
    (hrs : takeFree 9 bitmapBits (d.growth n newSize.toNat) d.marked = some rs)
    (hdevice : ∀ r ∈ rs, r < numBlocks) : (d.resize n newSize rs).Consistent := by
  rw [Disk.resize]
  split
  · exact hd.grow hn hused hend hrs hdevice
  · exact hd

variable (newSize rs)

theorem inode_resize {m : ℕ} (hm : m < maxFiles) :
    (d.resize n newSize rs).inode m =
      if m = n then
        { d.inode n with size := if (d.inode n).size < newSize then newSize else (d.inode n).size }
      else d.inode m := by
  rw [Disk.resize]
  by_cases hgrows : (d.inode n).size < newSize
  · rw [if_pos hgrows, if_pos hgrows, inode_grow newSize rs hd hn hused hm]
  · rw [if_neg hgrows, if_neg hgrows]
    split
    · rename_i hmn
      rw [hmn]
    · rfl

theorem headPointerBlock_resize :
    ((d.resize n newSize rs).inode n).headPointerBlock = (d.inode n).headPointerBlock := by
  rw [inode_resize newSize rs hd hn hused hn, if_pos rfl]

theorem size_resize :
    ((d.resize n newSize rs).inode n).size.toNat = max (d.inode n).size.toNat newSize.toNat := by
  rw [inode_resize newSize rs hd hn hused hn, if_pos rfl]
  simp only [UInt64.lt_iff_toNat_lt]
  split
  · omega
  · omega

omit hd hn hused in
theorem growth_eq_zero (h : ¬ (d.inode n).size < newSize) : d.growth n newSize.toNat = 0 := by
  have hle := UInt64.lt_iff_toNat_lt.not.mp h
  rw [growth, Nat.sub_eq_zero_of_le (Nat.div_le_div_right (Nat.not_lt.mp hle))]

theorem marked_resize
    (hrs : takeFree 9 bitmapBits (d.growth n newSize.toNat) d.marked = some rs) :
    (d.resize n newSize rs).marked = markAll d.marked rs := by
  rw [resize]
  split
  · exact marked_grow newSize rs hd hn hused fun r hr ↦ (takeFree_mem hrs hr).2.1
  · rename_i hfits
    rw [growth_eq_zero newSize hfits, takeFree_zero, Option.some.injEq] at hrs
    rw [← hrs, markAll_nil]

theorem live_resize {s : Slot} (hs : d.Live s) : (d.resize n newSize rs).Live s := by
  have hsize := size_resize newSize rs hd hn hused
  cases s with
  | pointer m =>
      obtain ⟨hm, hm'⟩ := hs
      refine ⟨hm, ?_⟩
      rw [inode_resize newSize rs hd hn hused hm]
      split
      · exact hused
      · exact hm'
  | data m i =>
      obtain ⟨hm, hm', hi⟩ := hs
      by_cases hmn : m = n
      · subst hmn
        refine ⟨hm, ?_, ?_⟩
        · rw [inode_resize newSize rs hd hn hused hm, if_pos rfl]
          exact hm'
        · rw [hsize]
          exact hi.trans (Nat.div_le_div_right (le_max_left _ _))
      · refine ⟨hm, ?_, ?_⟩ <;> rwa [inode_resize newSize rs hd hn hused hm, if_neg hmn]

end Resize

end Disk

section Write

variable {w : World} {n howMany toPos : UInt64} {buffer : ℕ → UInt8}
variable (hw : w.Formatted) (hd : w.storage.Consistent) (hn : n.toNat < maxFiles)
  (hused : (w.storage.inode n.toNat).used)
include hw hd hn hused

/-- A write returns `0`; the disk afterwards is the resized one with the bytes
of the buffer stored at position `toPos` of the file. -/
theorem ifileWrite_returns {rs : List ℕ}
    (hend : toPos.toNat + howMany.toNat < 512 * blockSize)
    (hrs : takeFree 9 bitmapBits (w.storage.growth n.toNat (toPos.toNat + howMany.toNat))
      w.storage.marked = some rs)
    (hdevice : ∀ r ∈ rs, r < numBlocks) :
    Returns (ifileWrite n buffer howMany toPos) w fun code u ↦
      code = 0 ∧ ∃ e, w.Becomes e u ∧ e.bytes =
        store (w.storage.resize n.toNat (toPos + howMany) rs).bytes
          (locate ((w.storage.resize n.toNat (toPos + howMany) rs).block
            (w.storage.inode n.toNat).headPointerBlock.toNat))
          toPos.toNat howMany.toNat buffer := by
  have hhead := hd.head_lt hn hused
  have hsum := (window_arith hend).1
  obtain ⟨hblock, -⟩ := toNat_inodesPerBlock (n := n) hw
  rw [← hsum] at hrs
  have hend' : (toPos + howMany).toNat < 512 * blockSize := by rw [hsum]; exact hend
  have hresized := Disk.Consistent.resize hd hn hused hend' hrs hdevice
  have hinode := Disk.inode_resize (toPos + howMany) rs hd hn hused hn
  have hsize := Disk.size_resize (toPos + howMany) rs hd hn hused
  rw [if_pos rfl] at hinode
  refine .of_run_eq (run_ifileWrite hw (div_lt_numBlocks hn) buffer howMany toPos)
    (.bind (growIfNeeded_returns (w := w.advance w.storage 1 []) hw hd hn hused hblock
      hend' hrs) ?_)
  rintro buf1 u ⟨hpointer, hu⟩
  simp only [World.advance_storage] at hpointer hu
  rw [writeData, hpointer]
  refine .bind_run (run_automatic u) (.bind_run (run_storageReadBlock _ hhead) ?_)
  simp only [World.advance_storage, hu.storage]
  have hvalid : EntriesValid ((w.storage.resize n.toNat (toPos + howMany) rs).block
      (w.storage.inode n.toNat).headPointerBlock.toNat)
      ((toPos.toNat + howMany.toNat) / blockSize) := by
    have hlast : (toPos.toNat + howMany.toNat) / blockSize ≤
        ((w.storage.resize n.toNat (toPos + howMany) rs).inode n.toNat).size.toNat / blockSize := by
      rw [hsize]
      exact Nat.div_le_div_right (by omega)
    have hentries := hresized.entriesValid hn (by rw [hinode]; exact hused) hlast
    rwa [hinode] at hentries
  refine .bind (pointersWrite_returns _ hend hvalid) ?_
  rintro code v ⟨-, e', hv, hbytes⟩
  rw [World.advance_storage] at hbytes
  exact .pure ⟨rfl, e', ((World.Becomes.advance ..).trans (hu.advanced _ _ _)).trans hv, hbytes⟩

end Write

end OsProjects.Filesystem
