import OsProjects.Filesystem.Indices

/-!
# What `ifile_create` promises

The number of the inode is compared with the number of blocks of the inode
table, and the results of the allocator are not looked at.  A file is created as
the comments say exactly for the first inode numbers while two blocks are free.
-/

namespace OsProjects.Filesystem

open Library.Program Library.Bytes Library.FirstFit

/-- The blocks of the device that files may use and that are not marked. -/
def Disk.free (d : Disk) : Finset ℕ := freeBelow 9 numBlocks d.marked

/-- Bytes of the inode table that are not bytes of inode `n`. -/
def OutsideInode (n b o : ℕ) : Prop :=
  b < 8 ∧ o < blockSize ∧
    (b ≠ n / 128 ∨ o < sizeofInode * (n % 128) ∨ sizeofInode * (n % 128) + sizeofInode ≤ o)

/-- Inode `n` of `e` is a new empty file, with two blocks that were free on `d`,
and nothing of the other inodes and files has changed. -/
structure Disk.NewFile (d e : Disk) (n : ℕ) : Prop where
  used : (e.inode n).used = true
  size : (e.inode n).size = 0
  head_free : (e.inode n).headPointerBlock.toNat ∈ d.free
  data_free : e.dataBlock n 0 ∈ d.free
  distinct : (e.inode n).headPointerBlock.toNat ≠ e.dataBlock n 0
  marked : e.marked =
    mark (mark d.marked (e.inode n).headPointerBlock.toNat) (e.dataBlock n 0)
  entries : ∀ i, 1 ≤ i → i < 512 → e.dataBlock n i = 0
  inodes : ∀ b o, OutsideInode n b o → byteAt (e.block b) o = byteAt (d.block b) o
  blocks : ∀ s, d.Live s → s.file ≠ n → e.block (d.blockOf s) = d.block (d.blockOf s)

/-- The call creates the file if there is such an inode and two blocks are free,
and otherwise returns `-1` and leaves the disk as it is. -/
def CreatesExactly (w : World) (n : UInt64) : Prop :=
  Returns (ifileCreate n) w fun code u ↦
    (n.toNat < maxFiles ∧ 2 ≤ w.storage.free.card →
      code = 0 ∧ w.storage.NewFile u.storage n.toNat) ∧
    (¬ (n.toNat < maxFiles ∧ 2 ≤ w.storage.free.card) → code = -1 ∧ u.storage = w.storage)

/-- The inode number is refused and should be, or it is accepted and two blocks
are free. -/
def CreateServed (w : World) (n : UInt64) : Prop :=
  maxFiles ≤ n.toNat ∨ (8 < n.toNat ∧ w.storage.free.card < 2) ∨
    (n.toNat ≤ 8 ∧ 2 ≤ w.storage.free.card)

/-- The blocks of the other files are blocks for files and marked. -/
def Disk.OthersMarked (d : Disk) (n : ℕ) : Prop :=
  ∀ s, d.Live s → s.file ≠ n → 9 ≤ d.blockOf s ∧ d.marked (d.blockOf s) = true

theorem Disk.Consistent.othersMarked {d : Disk} (h : d.Consistent) (n : ℕ) : d.OthersMarked n :=
  fun s hs _ ↦ ⟨h.le_blockOf s hs, h.marked_blockOf s hs⟩

/-! ## Free blocks -/

theorem Disk.exists_takes {d : Disk} (h : 2 ≤ d.free.card) : ∃ first second, d.Takes first second := by
  have hbits : numBlocks ≤ bitmapBits := by decide
  obtain ⟨rs, hrs, hdevice⟩ := takeFree_of_card_le hbits h
  obtain ⟨first, rest, -, hrest, rfl⟩ := takeFree_succ_eq_some_iff.mp hrs
  obtain ⟨second, last, -, hlast, rfl⟩ := takeFree_succ_eq_some_iff.mp hrest
  rw [takeFree_zero, Option.some.injEq] at hlast
  subst hlast
  exact ⟨first, second, hrs, hdevice first List.mem_cons_self,
    hdevice second (List.mem_cons_of_mem _ List.mem_cons_self)⟩

theorem Disk.Takes.mem_free {d : Disk} {first second : ℕ} (h : d.Takes first second) :
    first ∈ d.free ∧ second ∈ d.free ∧ first ≠ second := by
  obtain ⟨hfirst, hsecond⟩ := h.nextFree
  obtain ⟨hle, -, hfree, -⟩ := nextFree_eq_some_iff.mp hfirst
  obtain ⟨hle', -, hfree', -⟩ := nextFree_eq_some_iff.mp hsecond
  rw [mark_apply, Bool.or_eq_false_iff, decide_eq_false_iff_not] at hfree'
  exact ⟨mem_freeBelow.mpr ⟨hle, h.first_lt, hfree⟩,
    mem_freeBelow.mpr ⟨hle', h.second_lt, hfree'.1⟩, fun heq ↦ hfree'.2 heq.symm⟩

/-! ## The inode table -/

theorem byteAt_claimed (buf : Block) {o i : ℕ} (number : UInt64) (ho : o < 128)
    (hi : i < sizeofInode * o ∨ sizeofInode * o + sizeofInode ≤ i) :
    byteAt (setInodeHeadPointerBlock (setInodeFlagsUsed (setInodeSize buf o 0) o) o number) i =
      byteAt buf i := by
  have hbyte : sizeofInode * o + 6 < blockSize := by
    simp only [sizeofInode, blockSize]
    omega
  have hsize : sizeofInode = 32 := rfl
  rw [setInodeHeadPointerBlock, byteAt_writeLE_of_disjoint _ _ (by omega), setInodeFlagsUsed, setBit,
    byteAt_mapByte _ _ _ hbyte, if_neg (by omega), setInodeSize,
    byteAt_writeLE_of_disjoint _ _ (by omega)]

theorem entry_zeroedBlock (i : ℕ) : entry zeroedBlock i = 0 := by
  have hzero : readLE zeroedBlock (8 * i) 8 = 0 :=
    leValue_eq (by norm_num) fun k _ ↦ by simp [byteAt, zeroedBlock, leByte]
  rw [entry, hzero]
  rfl

section Create

variable {d : Disk} {n first second : ℕ} (hn : n < maxFiles) (htakes : d.Takes first second)
include hn htakes

theorem Disk.byteAt_create {b o : ℕ} (h : OutsideInode n b o) :
    byteAt ((d.create n).block b) o = byteAt (d.block b) o := by
  obtain ⟨hb, -, hout⟩ := h
  have hle := htakes.le_first
  have hmark : d.afterAllocate = d.markBlock first := Disk.afterAllocate_of_some htakes.nextFree.1
  have hinside : n / 128 < numBlocks := by
    simp only [maxFiles, numBlocks] at *
    omega
  rw [Disk.create_eq hn htakes, Disk.block_set_of_ne _ _ (by omega),
    Disk.block_markBlock_of_ne _ (by omega), Disk.claimInode, hmark]
  by_cases hblock : b = n / 128
  · rw [hblock, Disk.block_set_self _ _ hinside,
      byteAt_claimed _ _ (Nat.mod_lt n (by omega)) (hout.resolve_left fun hne ↦ hne hblock)]
  · rw [Disk.block_set_of_ne _ _ hblock, Disk.block_markBlock_of_ne _ (by omega)]

theorem Disk.newFile_create (hothers : d.OthersMarked n) : d.NewFile (d.create n) n := by
  obtain ⟨hfirst, hsecond, hne⟩ := htakes.mem_free
  have hinode := Disk.inode_create hn htakes hn
  rw [if_pos rfl] at hinode
  have hhead : ((d.create n).inode n).headPointerBlock.toNat = first :=
    Disk.blockOf_create_pointer hn htakes
  have hdata : (d.create n).dataBlock n 0 = second := Disk.blockOf_create_data hn htakes
  refine ⟨by rw [hinode], by rw [hinode], by rwa [hhead], by rwa [hdata], by rwa [hhead, hdata],
    by rw [hhead, hdata, Disk.marked_create hn htakes], fun i hi hlt ↦ ?_,
    fun b o ↦ Disk.byteAt_create hn htakes, fun s hs hfile ↦ ?_⟩
  · rw [Disk.dataBlock, hhead, Disk.block_create_self hn htakes,
      entry_setEntry_of_ne _ _ (by omega), entry_zeroedBlock]
    rfl
  · obtain ⟨hle, hmarked⟩ := hothers s hs hfile
    refine Disk.block_create_of_ne hn htakes hle fun heq ↦ ?_
    rw [heq, (mem_freeBelow.mp hfirst).2.2] at hmarked
    cases hmarked

end Create

/-! ## Whole calls -/

section Call

variable {w : World} {n : UInt64} (hw : w.Formatted)
include hw

theorem createServed_of_createsExactly (h : CreatesExactly w n) : CreateServed w n := by
  by_contra hnot
  rw [CreateServed, not_or, not_or] at hnot
  rcases Nat.lt_or_ge 8 n.toNat with hlarge | hsmall
  · obtain ⟨hcreate, -⟩ := h.of_eq (run_ifileCreate_of_lt hw hlarge)
    have hcode := (hcreate (by omega)).1
    omega
  · obtain ⟨-, hrefuse⟩ := h.of_eq (run_ifileCreate hw hsmall)
    have hcode := (hrefuse (by omega)).1
    omega

theorem createsExactly_of_createServed (hothers : w.storage.OthersMarked n.toNat)
    (h : CreateServed w n) : CreatesExactly w n := by
  rcases Nat.lt_or_ge 8 n.toNat with hlarge | hsmall
  · have hrefuse : ¬ (n.toNat < maxFiles ∧ 2 ≤ w.storage.free.card) := by
      rw [CreateServed] at h
      omega
    exact .of_run (run_ifileCreate_of_lt hw hlarge)
      ⟨fun hcreate ↦ absurd hcreate hrefuse, fun _ ↦ ⟨rfl, rfl⟩⟩
  · have hn : n.toNat < maxFiles := by
      simp only [maxFiles]
      omega
    have hroom : 2 ≤ w.storage.free.card := by
      rw [CreateServed] at h
      omega
    obtain ⟨first, second, htakes⟩ := Disk.exists_takes hroom
    exact .of_run (run_ifileCreate hw hsmall) ⟨fun _ ↦ ⟨rfl, Disk.newFile_create hn htakes hothers⟩,
      fun hrefuse ↦ absurd ⟨hn, hroom⟩ hrefuse⟩

end Call

/-- A call does what it promises only if its inode number is rightly refused, or
accepted with two blocks free; then it does so while the blocks of the other
files are marked, which they are in every run of creations and of writes to
created files below the limit of a pointer block. -/
theorem createsExactly_iff (n : UInt64) :
    (∀ w : World, Reachable w → (CreatesExactly w n → CreateServed w n) ∧
      (w.storage.OthersMarked n.toNat → CreateServed w n → CreatesExactly w n)) ∧
    ∀ {d : Disk} {g : Globals} {stack : ℕ → Block} {calls : List Call} {s : Session},
      Reaches d g stack calls s → (CreatesExactly s.world n ↔ CreateServed s.world n) := by
  refine ⟨fun w hw ↦ ⟨createServed_of_createsExactly hw.formatted,
    createsExactly_of_createServed hw.formatted⟩, fun h ↦ ?_⟩
  exact ⟨createServed_of_createsExactly h.valid.formatted,
    createsExactly_of_createServed h.valid.formatted (h.valid.consistent.othersMarked n.toNat)⟩

theorem two_le_free_freshDevice : 2 ≤ freshDevice.storage.free.card := by
  refine Finset.one_lt_card.mpr ⟨9, ?_, 10, ?_, by decide⟩
  · exact mem_freeBelow.mpr ⟨le_rfl, by decide, marked_freshDevice 9⟩
  · exact mem_freeBelow.mpr ⟨by decide, by decide, marked_freshDevice 10⟩

theorem createsExactly_iff_freshDevice : CreatesExactly freshDevice 0 :=
  ((createsExactly_iff 0).1 freshDevice reachable_freshDevice).2
    (consistent_freshDevice.othersMarked 0) (.inr (.inr ⟨by decide, two_le_free_freshDevice⟩))

/-- There is an inode 9 and there are free blocks, but the call returns `-1`. -/
theorem inode_nine_refused :
    Reachable freshDevice ∧ (9 : UInt64).toNat < maxFiles ∧ 2 ≤ freshDevice.storage.free.card ∧
      (∃ u, (ifileCreate 9).run freshDevice = .ok (-1) u) ∧ ¬ CreatesExactly freshDevice 9 := by
  have hrun := run_ifileCreate_of_lt (n := 9) formatted_freshDevice (by decide)
  refine ⟨reachable_freshDevice, by decide, two_le_free_freshDevice, ⟨_, hrun⟩, fun h ↦ ?_⟩
  have hcode := ((h.of_eq hrun).1 ⟨by decide, two_le_free_freshDevice⟩).1
  omega

end OsProjects.Filesystem
