import OsProjects.Filesystem.Ownership

/-!
# Growing a file

While the allocator succeeds, `ifile_grow` takes one block for each entry past
the old last block, stores the entries in the pointer block and sets the size.
The taken blocks were free, so the grown disk stays consistent.
-/

namespace OsProjects.Filesystem

open Library.Program Library.Bytes Library.FirstFit

/-! ## The loop -/

theorem World.Becomes.formatted {w u : World} {d : Disk} (h : w.Becomes d u)
    (hw : w.Formatted) : u.Formatted := h.globals.trans hw

theorem run_growBody {w : World} (hw : w.Formatted) {r i : ℕ} (size : UInt64) (first : ℕ)
    (pointers : Block) (hr : nextFree 9 bitmapBits w.storage.marked = some r) (hi : i < 512) :
    (growBody size first i pointers).run w =
      .ok (.yield (setEntry pointers i (cUInt64 r)))
        (w.advance (w.storage.markBlock r) 1
          [.entry (growPosition size first i) i, .allocate r]) := by
  have hlt : r < 32768 := (nextFree_eq_some_iff.mp hr).2.1
  have hne : cUInt64 (r : ℤ) ≠ cUInt64 (-1) := by
    intro heq
    have hnat := congrArg UInt64.toNat heq
    rw [toNat_cUInt64_natCast (by omega), show (cUInt64 (-1)).toNat = 2 ^ 64 - 1 from rfl] at hnat
    omega
  rw [growBody, run_bind_of_ok (run_bitmapAllocateBlock_of_some hw hr), growStore,
    run_bind_of_ok (run_indexEntry_natCast _ hi)]
  simp only [entry_setEntry_self pointers _ hi, if_neg hne, World.advance_advance,
    World.advance_storage, EStateM.run_pure]
  rfl

theorem growLoop_returns {w : World} (hw : w.Formatted) (size : UInt64) (first : ℕ)
    (pointers : Block) {i count : ℕ} {rs : List ℕ}
    (hrs : takeFree 9 bitmapBits count w.storage.marked = some rs) (hi : i + count ≤ 512) :
    Returns (forLoop (growBody size first) i count pointers) w fun p u ↦
      p = setEntries pointers i rs ∧ w.Becomes (w.storage.markBlocks rs) u := by
  induction count generalizing w i pointers rs with
  | zero =>
      simp only [takeFree_zero, Option.some.injEq] at hrs
      subst hrs
      exact .pure ⟨rfl, .refl w⟩
  | succ count ih =>
      obtain ⟨r, rest, hr, hrest, rfl⟩ := takeFree_succ_eq_some_iff.mp hrs
      have hbody := run_growBody hw size first pointers hr (i := i) (by omega)
      have hmarked : (w.storage.markBlock r).marked = mark w.storage.marked r :=
        w.storage.marked_markBlock (nextFree_eq_some_iff.mp hr).2.1
      obtain ⟨p, u, hrun, hp, hu⟩ := ih (w := w.advance (w.storage.markBlock r) 1
        [.entry (growPosition size first i) i, .allocate r]) hw
        (setEntry pointers i (cUInt64 r)) (i := i + 1)
        (by rw [World.advance_storage, hmarked]; exact hrest) (by omega)
      exact ⟨p, u, by rw [run_forLoop_of_yield hbody, hrun], hp,
        (World.Becomes.advance ..).trans hu⟩

/-! ## The grown disk -/

namespace Disk

/-- How many blocks a file needs to grow to `newSize` bytes. -/
def growth (d : Disk) (n newSize : ℕ) : ℕ :=
  newSize / blockSize - (d.inode n).size.toNat / blockSize

def grow (d : Disk) (n : ℕ) (newSize : UInt64) (rs : List ℕ) : Disk :=
  ((d.markBlocks rs).set (d.inode n).headPointerBlock.toNat
    (setEntries (d.block (d.inode n).headPointerBlock.toNat)
      ((d.inode n).size.toNat / blockSize + 1) rs)).set (n / 128)
    (setInodeSize (d.block (n / 128)) (n % 128) newSize)

end Disk

def growBounds (size newSize : UInt64) : ℕ × ℕ :=
  ((cUInt64 (cInt (size.toNat / blockSize) + 1)).toNat,
    (cUInt64 (cInt (newSize.toNat / blockSize))).toNat)

theorem growBounds_eq {size newSize : UInt64} (hgrows : size < newSize)
    (hend : newSize.toNat < 512 * blockSize) :
    growBounds size newSize = (size.toNat / blockSize + 1, newSize.toNat / blockSize) := by
  have hlt := UInt64.lt_iff_toNat_lt.mp hgrows
  simp only [blockSize] at *
  rw [growBounds, blockSize, cInt_of_lt (by omega), cInt_of_lt (by omega),
    toNat_cUInt64_natCast (by omega)]
  exact congrArg (·, _) (toNat_cUInt64_natCast (n := size.toNat / (4 * 1024) + 1) (by omega))

/-- The loop of `ifile_grow` for inode `n` begins after the last block of the file. -/
theorem run_ifileGrow {w : World} {n : ℕ} {newSize : UInt64}
    (hgrows : (w.storage.inode n).size < newSize) (hend : newSize.toNat < 512 * blockSize) :
    ∃ pointers, ((w.storage.inode n).headPointerBlock.toNat < numBlocks →
        pointers = w.storage.block (w.storage.inode n).headPointerBlock.toNat) ∧
      (ifileGrow (w.storage.block (n / 128)) (n % 128) newSize).run w = (do
        let block ← forLoop (growBody (w.storage.inode n).size
          ((w.storage.inode n).size.toNat / blockSize + 1))
          ((w.storage.inode n).size.toNat / blockSize + 1)
          (w.storage.growth n newSize.toNat) pointers
        let _ ← storageWriteBlock (w.storage.inode n).headPointerBlock block
        return ((0 : ℤ), setInodeSize (w.storage.block (n / 128)) (n % 128) newSize)).run
          (w.advance w.storage 1 []) := by
  have hsize : inodeSize (w.storage.block (n / 128)) (n % 128) = (w.storage.inode n).size := rfl
  have hpointer : inodeHeadPointerBlock (w.storage.block (n / 128)) (n % 128) =
      (w.storage.inode n).headPointerBlock := rfl
  rw [ifileGrow, hsize, hpointer, Disk.growth]
  generalize (w.storage.inode n).size = size at *
  generalize (w.storage.inode n).headPointerBlock = head at *
  have hbounds := growBounds_eq hgrows hend
  simp only [growBounds, Prod.mk.injEq] at hbounds
  obtain ⟨code, pointers, hread⟩ := run_storageReadBlock_state head (w.stack w.frames)
    (w.advance w.storage 1 [])
  refine ⟨pointers, fun hhead ↦ ?_, ?_⟩
  · rw [run_storageReadBlock _ hhead] at hread
    cases hread
    rfl
  · rw [run_bind_of_ok (run_automatic w), run_bind_of_ok hread]
    simp only [hbounds.1, hbounds.2, Nat.add_sub_add_right]

/-- `ifile_grow` for inode `n`, with the inode block in the buffer, updates the
bitmap and the pointer block and sets the size in the buffer. -/
theorem ifileGrow_returns {w : World} (hw : w.Formatted) {n : ℕ} {newSize : UInt64}
    {rs : List ℕ} (hhead : (w.storage.inode n).headPointerBlock.toNat < numBlocks)
    (hgrows : (w.storage.inode n).size < newSize)
    (hend : newSize.toNat < 512 * blockSize)
    (hrs : takeFree 9 bitmapBits (w.storage.growth n newSize.toNat) w.storage.marked = some rs) :
    Returns (ifileGrow (w.storage.block (n / 128)) (n % 128) newSize) w fun result u ↦
      result.2 = setInodeSize (w.storage.block (n / 128)) (n % 128) newSize ∧
        w.Becomes ((w.storage.markBlocks rs).set (w.storage.inode n).headPointerBlock.toNat
          (setEntries (w.storage.block (w.storage.inode n).headPointerBlock.toNat)
            ((w.storage.inode n).size.toNat / blockSize + 1) rs)) u := by
  have hroom : (w.storage.inode n).size.toNat / blockSize + 1 +
      w.storage.growth n newSize.toNat ≤ 512 := by
    have hlt := UInt64.lt_iff_toNat_lt.mp hgrows
    simp only [Disk.growth, blockSize] at *
    omega
  obtain ⟨pointers, hpointers, hrun⟩ := run_ifileGrow hgrows hend
  obtain rfl := hpointers hhead
  refine .of_run_eq hrun ?_
  refine .bind (growLoop_returns (w := w.advance w.storage 1 []) hw _ _ _ hrs hroom) ?_
  rintro p u ⟨rfl, hu⟩
  refine .bind_run (run_storageWriteBlock _ _ u) (.pure ⟨rfl, ?_⟩)
  rw [hu.storage]
  exact (World.Becomes.advance w w.storage 1 []).trans (hu.advanced _ _ _)

/-! ## Views of the grown disk -/

namespace Disk

variable {d : Disk} {n : ℕ} (newSize : UInt64) (rs : List ℕ)

section Grow

variable (hd : d.Consistent) (hn : n < maxFiles) (hused : (d.inode n).used)
include hd hn hused

theorem inode_grow {m : ℕ} (hm : m < maxFiles) :
    (d.grow n newSize rs).inode m =
      if m = n then { d.inode n with size := newSize } else d.inode m := by
  have hhead := hd.le_head hn hused
  have hblock : ∀ k < maxFiles, ((d.markBlocks rs).set (d.inode n).headPointerBlock.toNat
      (setEntries (d.block (d.inode n).headPointerBlock.toNat)
        ((d.inode n).size.toNat / blockSize + 1) rs)).block (k / 128) = d.block (k / 128) := by
    intro k hk
    simp only [maxFiles] at hk
    rw [block_set_of_ne _ _ (by omega), block_markBlocks_of_ne _ _ (by omega)]
  have hoffset : n % 128 < 128 := Nat.mod_lt n (by omega)
  rw [grow, inode_set_self _ _ hn]
  · split
    · rw [inodeAt_setInodeSize _ _ hoffset, if_pos rfl, inode]
    · rw [inode, hblock m hm, inode]
  · intro o' ho'
    rw [inodeAt_setInodeSize _ _ hoffset, if_neg ho', hblock n hn]

omit hd hused in
theorem block_grow_of_ne {b : ℕ} (hb : 9 ≤ b) (hne : b ≠ (d.inode n).headPointerBlock.toNat) :
    (d.grow n newSize rs).block b = d.block b := by
  simp only [maxFiles] at hn
  rw [grow, block_set_of_ne _ _ (by omega), block_set_of_ne _ _ hne,
    block_markBlocks_of_ne _ _ (by omega)]

theorem block_grow_head :
    (d.grow n newSize rs).block (d.inode n).headPointerBlock.toNat =
      setEntries (d.block (d.inode n).headPointerBlock.toNat)
        ((d.inode n).size.toNat / blockSize + 1) rs := by
  have hle := hd.le_head hn hused
  have hlt := hd.head_lt hn hused
  simp only [maxFiles] at hn
  rw [grow, block_set_of_ne _ _ (by omega), block_set_self _ _ hlt]

theorem marked_grow (hrs : ∀ r ∈ rs, r < bitmapBits) :
    (d.grow n newSize rs).marked = markAll d.marked rs := by
  have hle := hd.le_head hn hused
  simp only [maxFiles] at hn
  rw [grow, marked_set_of_ne _ _ (by omega), marked_set_of_ne _ _ (by omega),
    marked_markBlocks _ hrs]

theorem blockOf_grow_of_live {s : Slot} (hs : d.Live s) :
    (d.grow n newSize rs).blockOf s = d.blockOf s := by
  have hinode : ∀ m < maxFiles, ((d.grow n newSize rs).inode m).headPointerBlock =
      (d.inode m).headPointerBlock := by
    intro m hm
    rw [inode_grow newSize rs hd hn hused hm]
    split
    · rename_i hmn
      rw [hmn]
    · rfl
  cases s with
  | pointer m => rw [blockOf, hinode m hs.1, blockOf]
  | data m i =>
      obtain ⟨hm, hm', hi⟩ := hs
      rw [blockOf, dataBlock, hinode m hm, blockOf, dataBlock]
      by_cases hmn : m = n
      · subst hmn
        rw [block_grow_head newSize rs hd hn hused, entry_setEntries_of_lt _ _ (by omega)]
      · rw [block_grow_of_ne newSize rs hn (hd.le_head hm hm')]
        intro heq
        have hslot := hd.slot_eq (s := .pointer m) (t := .pointer n) ⟨hm, hm'⟩ ⟨hn, hused⟩ heq
        exact hmn (by simpa using hslot)

theorem blockOf_grow_new {k : ℕ} (hk : k < rs.length)
    (hroom : (d.inode n).size.toNat / blockSize + 1 + rs.length ≤ 512)
    (hrs : ∀ r ∈ rs, r < bitmapBits) :
    (d.grow n newSize rs).blockOf (.data n ((d.inode n).size.toNat / blockSize + 1 + k)) =
      rs[k] := by
  have hlt := hrs rs[k] (List.getElem_mem hk)
  simp only [bitmapBits, blockSize] at hlt
  rw [blockOf, dataBlock, inode_grow newSize rs hd hn hused hn, if_pos rfl,
    block_grow_head newSize rs hd hn hused, entry_setEntries_add _ hk hroom,
    toNat_cUInt64_natCast (by omega)]

theorem live_grow {s : Slot} (hlen : rs.length = d.growth n newSize.toNat)
    (hs : (d.grow n newSize rs).Live s) :
    d.Live s ∨ ∃ k, k < rs.length ∧ s = .data n ((d.inode n).size.toNat / blockSize + 1 + k) := by
  cases s with
  | pointer m =>
      obtain ⟨hm, hm'⟩ := hs
      rw [inode_grow newSize rs hd hn hused hm] at hm'
      split at hm'
      · rename_i hmn
        exact .inl ⟨hm, hmn ▸ hm'⟩
      · exact .inl ⟨hm, hm'⟩
  | data m i =>
      obtain ⟨hm, hm', hi⟩ := hs
      rw [inode_grow newSize rs hd hn hused hm] at hm' hi
      split at hi
      · rename_i hmn
        subst hmn
        rcases Nat.lt_or_ge ((d.inode m).size.toNat / blockSize) i with hnew | hold
        · refine .inr ⟨i - ((d.inode m).size.toNat / blockSize + 1), ?_, ?_⟩
          · rw [hlen, growth]
            simp only at hi
            omega
          · congr 1
            omega
        · exact .inl ⟨hm, hused, hold⟩
      · rename_i hmn
        rw [if_neg hmn] at hm'
        exact .inl ⟨hm, hm', hi⟩

variable {newSize rs}

theorem Consistent.grow (hend : newSize.toNat < 512 * blockSize)
    (hrs : takeFree 9 bitmapBits (d.growth n newSize.toNat) d.marked = some rs)
    (hdevice : ∀ r ∈ rs, r < numBlocks) : (d.grow n newSize rs).Consistent := by
  have hlen := takeFree_length hrs
  have hbits : ∀ r ∈ rs, r < bitmapBits := fun r hr ↦ (takeFree_mem hrs hr).2.1
  have hmark := marked_grow newSize rs hd hn hused hbits
  have hroom : (d.inode n).size.toNat / blockSize + 1 + rs.length ≤ 512 := by
    have hold := hd.size_lt n hn hused
    rw [hlen, growth]
    simp only [blockSize] at *
    omega
  refine hd.extend ?_ ?_ ?_ ?_
  · intro m hm hm'
    rw [inode_grow newSize rs hd hn hused hm] at hm' ⊢
    split
    · exact hend
    · rename_i hmn
      rw [if_neg hmn] at hm'
      exact hd.size_lt m hm hm'
  · intro r hr
    rw [hmark, markAll_apply, hr, Bool.true_or]
  · intro s hs
    rcases live_grow newSize rs hd hn hused hlen hs with hold | ⟨k, hk, rfl⟩
    · exact .inl ⟨hold, blockOf_grow_of_live newSize rs hd hn hused hold⟩
    · have hblock := blockOf_grow_new newSize rs hd hn hused hk hroom hbits
      have hmem := List.getElem_mem hk
      obtain ⟨hle, -, hfree⟩ := takeFree_mem hrs hmem
      refine .inr ⟨by rw [hblock]; exact hle, by rw [hblock]; exact hdevice _ hmem,
        by rw [hblock]; exact hfree, ?_⟩
      rw [hblock, hmark, markAll_apply]
      simp
  · intro s t hs ht hfresh hfresh' heq
    rcases live_grow newSize rs hd hn hused hlen hs with hold | ⟨k, hk, rfl⟩
    · have hmarked := hd.marked_blockOf s hold
      rw [← blockOf_grow_of_live newSize rs hd hn hused hold,
        hfresh.free] at hmarked
      cases hmarked
    rcases live_grow newSize rs hd hn hused hlen ht with hold | ⟨l, hl, rfl⟩
    · have hmarked := hd.marked_blockOf t hold
      rw [← blockOf_grow_of_live newSize rs hd hn hused hold,
        hfresh'.free] at hmarked
      cases hmarked
    · rw [blockOf_grow_new newSize rs hd hn hused hk hroom hbits,
        blockOf_grow_new newSize rs hd hn hused hl hroom hbits] at heq
      rw [(takeFree_nodup hrs).getElem_inj_iff.mp heq]

end Grow

end Disk

end OsProjects.Filesystem
