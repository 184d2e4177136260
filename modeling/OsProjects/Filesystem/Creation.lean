import OsProjects.Filesystem.Calls

/-!
# Creating a file

`ifile_create` takes two blocks, one for the pointer block and one for the
first data block, and never looks at what the inode contained.  An inode that
was in use drops its blocks without giving them back to the bitmap.
-/

namespace OsProjects.Filesystem

open Library.Program Library.Bytes Library.FirstFit

theorem inodeHeadPointerBlock_setInodeHeadPointerBlock (buf : Block) {o : ℕ} (number : UInt64)
    (ho : o < 128) : inodeHeadPointerBlock (setInodeHeadPointerBlock buf o number) o = number := by
  have hinode := inodeAt_setInodeHeadPointerBlock buf number ho o
  rw [if_pos rfl] at hinode
  exact congrArg Inode.headPointerBlock hinode

namespace Disk

def claimInode (d : Disk) (n : ℕ) : Disk :=
  d.afterAllocate.set (n / 128) (setInodeHeadPointerBlock
    (setInodeFlagsUsed (setInodeSize (d.block (n / 128)) (n % 128) 0) (n % 128)) (n % 128)
    (cUInt64 d.allocated))

def create (d : Disk) (n : ℕ) : Disk :=
  (d.claimInode n).afterAllocate.set (cUInt64 d.allocated).toNat
    (setEntry zeroedBlock 0 (cUInt64 (d.claimInode n).allocated))

end Disk

section Run

variable {w : World} {n : UInt64} (hw : w.Formatted)
include hw

theorem run_ifileCreate_of_lt (hn : 8 < n.toNat) :
    (ifileCreate n).run w = .ok (-1) (w.advance w.storage 1 []) := by
  have hrefuse : w.globals.numberInodeBlocks < n := by
    rw [hw.globals_eq]
    exact UInt64.lt_iff_toNat_lt.mpr hn
  rw [ifileCreate, run_bind_of_ok (EStateM.run_get w), run_bind_of_ok (run_automatic w),
    if_pos hrefuse]
  rfl

/-- The other inode numbers are accepted, whatever the allocator returns. -/
theorem run_ifileCreate (hn : n.toNat ≤ 8) :
    (ifileCreate n).run w =
      .ok 0 (w.advance (w.storage.create n.toNat) 4
        [.allocate (w.storage.claimInode n.toNat).allocated, .allocate w.storage.allocated]) := by
  have haccept : ¬ w.globals.numberInodeBlocks < n := by
    rw [hw.globals_eq]
    exact fun h ↦ Nat.not_lt.mpr hn (UInt64.lt_iff_toNat_lt.mp h)
  obtain ⟨hblock, hoffset⟩ := toNat_inodesPerBlock (n := n) hw
  have hdiv : n.toNat / 128 < numBlocks := by
    simp only [numBlocks]
    omega
  rw [ifileCreate, run_bind_of_ok (EStateM.run_get w), run_bind_of_ok (run_automatic w),
    if_neg haccept]
  simp only [hoffset]
  rw [run_bind_of_ok (run_storageReadBlock _ (by rw [hblock]; exact hdiv))]
  simp only [hblock, World.advance_storage]
  rw [run_bind_of_ok (run_bitmapAllocateBlock (w := w.advance w.storage 1 []) hw)]
  simp only [World.advance_storage, World.advance_advance]
  rw [run_bind_of_ok (run_storageWriteBlock _ _ _), run_bind_of_ok (run_automatic _)]
  simp only [hblock, World.advance_storage, World.advance_advance]
  rw [inodeHeadPointerBlock_setInodeHeadPointerBlock _ _ (Nat.mod_lt _ (by omega)),
    ← Disk.claimInode]
  -- the block read here is overwritten by zeros before its first use
  obtain ⟨code, data, hread⟩ := run_storageReadBlock_state (cUInt64 w.storage.allocated)
    (w.stack (w.frames + 2))
    (w.advance (w.storage.claimInode n.toNat) 3 [.allocate w.storage.allocated])
  refine (run_bind_of_ok hread).trans ?_
  have hformatted : (w.advance (w.storage.claimInode n.toNat) 3
    [.allocate w.storage.allocated]).Formatted := hw
  rw [run_bind_of_ok (run_bitmapAllocateBlock hformatted),
    run_bind_of_ok (run_storageWriteBlock _ _ _)]
  simp only [World.advance_storage, World.advance_advance, EStateM.run_pure]
  rfl

end Run

/-! ## Views of the new disk -/

namespace Disk

variable {d : Disk} {n first second : ℕ}

structure Takes (d : Disk) (first second : ℕ) : Prop where
  taken : takeFree 9 bitmapBits 2 d.marked = some [first, second]
  first_lt : first < numBlocks
  second_lt : second < numBlocks

section Create

variable (hn : n < maxFiles) (htakes : d.Takes first second)
include htakes

theorem Takes.nextFree :
    nextFree 9 bitmapBits d.marked = some first ∧
      Library.FirstFit.nextFree 9 bitmapBits (mark d.marked first) = some second := by
  obtain ⟨r, rest, hr, hrest, hlist⟩ := takeFree_succ_eq_some_iff.mp htakes.taken
  obtain ⟨r', rest', hr', -, hlist'⟩ := takeFree_succ_eq_some_iff.mp hrest
  obtain ⟨rfl, rfl⟩ := List.cons_eq_cons.mp hlist
  obtain ⟨rfl, -⟩ := List.cons_eq_cons.mp hlist'
  exact ⟨hr, hr'⟩

theorem Takes.le_first : 9 ≤ first := (nextFree_eq_some_iff.mp htakes.nextFree.1).1

theorem Takes.toNat_first : (cUInt64 (first : ℤ)).toNat = first := by
  have hlt := htakes.first_lt
  simp only [numBlocks] at hlt
  exact toNat_cUInt64_natCast (by omega)

theorem Takes.toNat_second : (cUInt64 (second : ℤ)).toNat = second := by
  have hlt := htakes.second_lt
  simp only [numBlocks] at hlt
  exact toNat_cUInt64_natCast (by omega)

include hn

theorem marked_claimInode : (d.claimInode n).marked = mark d.marked first := by
  have hfirst := htakes.nextFree.1
  simp only [maxFiles] at hn
  rw [claimInode, afterAllocate_of_some hfirst, marked_set_of_ne _ _ (by omega),
    marked_markBlock _ (nextFree_eq_some_iff.mp hfirst).2.1]

theorem create_eq : d.create n =
    ((d.claimInode n).markBlock second).set first (setEntry zeroedBlock 0 (cUInt64 second)) := by
  have hnext := htakes.nextFree
  rw [← marked_claimInode hn htakes] at hnext
  rw [create, afterAllocate_of_some hnext.2, allocated_of_some hnext.1, allocated_of_some hnext.2,
    htakes.toNat_first]

theorem marked_create : (d.create n).marked = mark (mark d.marked first) second := by
  have hle := htakes.le_first
  rw [create_eq hn htakes, marked_set_of_ne _ _ (by omega),
    marked_markBlock _ (nextFree_eq_some_iff.mp htakes.nextFree.2).2.1,
    marked_claimInode hn htakes]

theorem block_create_of_ne {b : ℕ} (hb : 9 ≤ b) (hne : b ≠ first) :
    (d.create n).block b = d.block b := by
  simp only [maxFiles] at hn
  rw [create_eq hn htakes, block_set_of_ne _ _ hne, block_markBlock_of_ne _ (by omega), claimInode,
    block_set_of_ne _ _ (by omega), afterAllocate_of_some htakes.nextFree.1,
    block_markBlock_of_ne _ (by omega)]

theorem block_create_self :
    (d.create n).block first = setEntry zeroedBlock 0 (cUInt64 second) := by
  rw [create_eq hn htakes, block_set_self _ _ htakes.first_lt]

theorem inode_create {m : ℕ} (hm : m < maxFiles) :
    (d.create n).inode m =
      if m = n then { used := true, size := 0, headPointerBlock := cUInt64 first }
      else d.inode m := by
  have hle := htakes.le_first
  have hoffset : n % 128 < 128 := Nat.mod_lt n (by omega)
  rw [create_eq hn htakes, inode_set_of_ne _ _ (by simp only [maxFiles] at hm; omega),
    inode_markBlock _ _ hm, claimInode, afterAllocate_of_some htakes.nextFree.1,
    allocated_of_some htakes.nextFree.1, inode_set_self _ _ hn]
  · split
    · rw [inodeAt_setInodeHeadPointerBlock _ _ hoffset, if_pos rfl,
        inodeAt_setInodeFlagsUsed _ hoffset, if_pos rfl, inodeAt_setInodeSize _ _ hoffset,
        if_pos rfl]
    · exact inode_markBlock _ _ hm
  · intro o' ho'
    rw [inodeAt_setInodeHeadPointerBlock _ _ hoffset, if_neg ho',
      inodeAt_setInodeFlagsUsed _ hoffset, if_neg ho', inodeAt_setInodeSize _ _ hoffset,
      if_neg ho', block_markBlock_of_ne _ (by simp only [maxFiles] at hn; omega)]

theorem blockOf_create_pointer : (d.create n).blockOf (.pointer n) = first := by
  rw [blockOf, inode_create hn htakes hn, if_pos rfl, htakes.toNat_first]

theorem blockOf_create_data : (d.create n).blockOf (.data n 0) = second := by
  rw [blockOf, dataBlock, inode_create hn htakes hn, if_pos rfl, htakes.toNat_first,
    block_create_self hn htakes, entry_setEntry_self _ _ (by omega), htakes.toNat_second]

theorem live_create {s : Slot} : (d.create n).Live s ↔
    (s = .pointer n ∨ s = .data n 0) ∨ d.Live s ∧ s.file ≠ n := by
  cases s with
  | pointer m =>
      by_cases hmn : m = n
      · subst hmn
        simp [Live, hn, inode_create hn htakes hn]
      · constructor
        · rintro ⟨hm, hm'⟩
          rw [inode_create hn htakes hm, if_neg hmn] at hm'
          exact .inr ⟨⟨hm, hm'⟩, hmn⟩
        · rintro (hnew | ⟨⟨hm, hm'⟩, -⟩)
          · simp [hmn] at hnew
          · exact ⟨hm, by rw [inode_create hn htakes hm, if_neg hmn]; exact hm'⟩
  | data m i =>
      by_cases hmn : m = n
      · subst hmn
        simp [Live, hn, inode_create hn htakes hn, Slot.file]
      · constructor
        · rintro ⟨hm, hm', hi⟩
          rw [inode_create hn htakes hm, if_neg hmn] at hm' hi
          exact .inr ⟨⟨hm, hm', hi⟩, hmn⟩
        · rintro (hnew | ⟨⟨hm, hm', hi⟩, -⟩)
          · simp [hmn] at hnew
          · refine ⟨hm, ?_, ?_⟩ <;> rwa [inode_create hn htakes hm, if_neg hmn]

section Other

variable (hd : d.Consistent)
include hd

omit hn in
theorem blockOf_ne_first {s : Slot} (hs : d.Live s) : d.blockOf s ≠ first := by
  intro heq
  have hmarked := hd.marked_blockOf s hs
  rw [heq, (nextFree_eq_some_iff.mp htakes.nextFree.1).2.2.1] at hmarked
  cases hmarked

theorem blockOf_create_of_ne {s : Slot} (hs : d.Live s) (hne : s.file ≠ n) :
    (d.create n).blockOf s = d.blockOf s := by
  cases s <;> simp only [Slot.file] at hne
  case pointer m => rw [blockOf, inode_create hn htakes hs.1, if_neg hne, blockOf]
  case data m i =>
    rw [blockOf, dataBlock, inode_create hn htakes hs.1, if_neg hne,
      block_create_of_ne hn htakes (hd.le_head hs.1 hs.2.1), blockOf, dataBlock]
    exact blockOf_ne_first htakes hd (s := .pointer m) ⟨hs.1, hs.2.1⟩

/-- Creating a file keeps the ownership invariant, also on an inode in use. -/
theorem Consistent.create : (d.create n).Consistent := by
  obtain ⟨hfirst, hsecond⟩ := htakes.nextFree
  obtain ⟨hle, -, hfree, -⟩ := nextFree_eq_some_iff.mp hfirst
  obtain ⟨hle', -, hfree', -⟩ := nextFree_eq_some_iff.mp hsecond
  simp only [mark_apply, Bool.or_eq_false_iff, decide_eq_false_iff_not] at hfree'
  have hmarked := marked_create hn htakes
  have hpointer := blockOf_create_pointer hn htakes
  have hdata := blockOf_create_data hn htakes
  have hfresh : Fresh d (d.create n) (.pointer n) := by
    refine ⟨?_, ?_, ?_, ?_⟩ <;> rw [hpointer]
    · exact hle
    · exact htakes.first_lt
    · exact hfree
    · simp [hmarked]
  have hfresh' : Fresh d (d.create n) (.data n 0) := by
    refine ⟨?_, ?_, ?_, ?_⟩ <;> rw [hdata]
    · exact hle'
    · exact htakes.second_lt
    · exact hfree'.1
    · simp [hmarked]
  refine hd.extend ?_ ?_ ?_ ?_
  · intro m hm hm'
    rw [inode_create hn htakes hm] at hm' ⊢
    split
    · simp [blockSize]
    · rename_i hmn
      rw [if_neg hmn] at hm'
      exact hd.size_lt m hm hm'
  · intro r hr
    simp [hmarked, hr]
  · intro s hs
    rcases (live_create hn htakes).mp hs with (rfl | rfl) | ⟨hold, hne⟩
    · exact .inr hfresh
    · exact .inr hfresh'
    · exact .inl ⟨hold, blockOf_create_of_ne hn htakes hd hold hne⟩
  · intro s t hs ht hs' ht' heq
    have hnew : ∀ {u}, (d.create n).Live u → Fresh d (d.create n) u →
        u = .pointer n ∨ u = .data n 0 := by
      intro u hu hu'
      rcases (live_create hn htakes).mp hu with hu | ⟨hold, hne⟩
      · exact hu
      · have hold' := hd.marked_blockOf u hold
        rw [← blockOf_create_of_ne hn htakes hd hold hne, hu'.free] at hold'
        cases hold'
    rcases hnew hs hs' with rfl | rfl <;> rcases hnew ht ht' with rfl | rfl
    · rfl
    · rw [hpointer, hdata] at heq
      exact absurd heq.symm hfree'.2
    · rw [hpointer, hdata] at heq
      exact absurd heq hfree'.2
    · rfl

end Other

end Create

end Disk

end OsProjects.Filesystem
