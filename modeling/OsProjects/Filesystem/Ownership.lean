import OsProjects.Filesystem.DataBlocks

/-!
# Block ownership

A used inode of size `s` owns its pointer block and the data blocks in entries
`0` to `s / 4096` of it.  A disk is consistent when all owned blocks are
allocatable, marked in the bitmap and pairwise distinct.  The four structures
involved are updated one after the other by `files.c`, so the lemmas here say
which views of the disk consistency depends on.
-/

namespace OsProjects.Filesystem

open Library.Bytes Library.ScatteredStore

/-- A reference to a block from the inode table or from a pointer block. -/
inductive Slot
  | pointer (n : ℕ)
  | data (n i : ℕ)

def Slot.file : Slot → ℕ
  | .pointer n => n
  | .data n _ => n

namespace Disk

def Live (d : Disk) : Slot → Prop
  | .pointer n => n < maxFiles ∧ (d.inode n).used
  | .data n i => n < maxFiles ∧ (d.inode n).used ∧ i ≤ (d.inode n).size.toNat / blockSize

def blockOf (d : Disk) : Slot → ℕ
  | .pointer n => (d.inode n).headPointerBlock.toNat
  | .data n i => d.dataBlock n i

structure Consistent (d : Disk) : Prop where
  size_lt : ∀ n < maxFiles, (d.inode n).used → (d.inode n).size.toNat < 512 * blockSize
  le_blockOf : ∀ s, d.Live s → 9 ≤ d.blockOf s
  blockOf_lt : ∀ s, d.Live s → d.blockOf s < numBlocks
  marked_blockOf : ∀ s, d.Live s → d.marked (d.blockOf s) = true
  injOn_blockOf : Set.InjOn d.blockOf {s | d.Live s}

theorem consistent_of_unused {d : Disk} (h : ∀ n < maxFiles, (d.inode n).used = false) :
    d.Consistent := by
  have hdead : ∀ s, ¬ d.Live s := by
    rintro (n | ⟨n, i⟩) hlive
    · simp [Live, h n hlive.1] at hlive
    · simp [Live, h n hlive.1] at hlive
  refine ⟨fun n hn hused ↦ ?_, fun s hs ↦ (hdead s hs).elim, fun s hs ↦ (hdead s hs).elim,
    fun s hs ↦ (hdead s hs).elim, fun s hs ↦ (hdead s hs).elim⟩
  simp [h n hn] at hused

/-! ## What consistency depends on -/

/-- Two disks with the same inodes, the same bitmap and the same pointer
blocks of used inodes. -/
structure SameMetadata (d e : Disk) : Prop where
  inode : ∀ n < maxFiles, e.inode n = d.inode n
  marked : e.marked = d.marked
  pointers : ∀ n < maxFiles, (d.inode n).used →
    e.block (d.inode n).headPointerBlock.toNat = d.block (d.inode n).headPointerBlock.toNat

namespace SameMetadata

variable {d e : Disk} (h : SameMetadata d e)
include h

theorem live_iff (s : Slot) : e.Live s ↔ d.Live s := by
  cases s with
  | pointer n =>
      constructor
      · rintro ⟨hn, hused⟩
        exact ⟨hn, h.inode n hn ▸ hused⟩
      · rintro ⟨hn, hused⟩
        exact ⟨hn, (h.inode n hn).symm ▸ hused⟩
  | data n i =>
      constructor
      · rintro ⟨hn, hused, hi⟩
        rw [h.inode n hn] at hused hi
        exact ⟨hn, hused, hi⟩
      · rintro ⟨hn, hused, hi⟩
        rw [← h.inode n hn] at hused hi
        exact ⟨hn, hused, hi⟩

theorem blockOf_eq {s : Slot} (hs : d.Live s) : e.blockOf s = d.blockOf s := by
  cases s with
  | pointer n => rw [blockOf, h.inode n hs.1, blockOf]
  | data n i =>
      rw [blockOf, dataBlock, h.inode n hs.1, h.pointers n hs.1 hs.2.1, blockOf, dataBlock]

theorem consistent (hd : d.Consistent) : e.Consistent where
  size_lt n hn hused := by
    rw [h.inode n hn] at hused ⊢
    exact hd.size_lt n hn hused
  le_blockOf s hs := by
    have hs' := (h.live_iff s).mp hs
    rw [h.blockOf_eq hs']
    exact hd.le_blockOf s hs'
  blockOf_lt s hs := by
    have hs' := (h.live_iff s).mp hs
    rw [h.blockOf_eq hs']
    exact hd.blockOf_lt s hs'
  marked_blockOf s hs := by
    have hs' := (h.live_iff s).mp hs
    rw [h.blockOf_eq hs', h.marked]
    exact hd.marked_blockOf s hs'
  injOn_blockOf s hs t ht heq := by
    have hs' := (h.live_iff s).mp hs
    have ht' := (h.live_iff t).mp ht
    rw [h.blockOf_eq hs', h.blockOf_eq ht'] at heq
    exact hd.injOn_blockOf hs' ht' heq

end SameMetadata

/-! ## New blocks -/

structure Fresh (d e : Disk) (s : Slot) : Prop where
  le : 9 ≤ e.blockOf s
  lt : e.blockOf s < numBlocks
  free : d.marked (e.blockOf s) = false
  marked : e.marked (e.blockOf s) = true

/-- A disk on which every live slot is an old one with its old block or has a
block that was free before is consistent again. -/
theorem Consistent.extend {d e : Disk} (hd : d.Consistent)
    (hsize : ∀ n < maxFiles, (e.inode n).used → (e.inode n).size.toNat < 512 * blockSize)
    (hmarked : ∀ r, d.marked r = true → e.marked r = true)
    (hslot : ∀ s, e.Live s → d.Live s ∧ e.blockOf s = d.blockOf s ∨ Fresh d e s)
    (hinj : ∀ s t, e.Live s → e.Live t → Fresh d e s → Fresh d e t →
      e.blockOf s = e.blockOf t → s = t) : e.Consistent where
  size_lt := hsize
  le_blockOf s hs := by
    rcases hslot s hs with ⟨hold, heq⟩ | hfresh
    · rw [heq]
      exact hd.le_blockOf s hold
    · exact hfresh.le
  blockOf_lt s hs := by
    rcases hslot s hs with ⟨hold, heq⟩ | hfresh
    · rw [heq]
      exact hd.blockOf_lt s hold
    · exact hfresh.lt
  marked_blockOf s hs := by
    rcases hslot s hs with ⟨hold, heq⟩ | hfresh
    · rw [heq]
      exact hmarked _ (hd.marked_blockOf s hold)
    · exact hfresh.marked
  injOn_blockOf s hs t ht heq := by
    -- an old block is marked before, a fresh one is not
    rcases hslot s hs with ⟨hold, hs'⟩ | hfresh <;> rcases hslot t ht with ⟨hold', ht'⟩ | hfresh'
    · exact hd.injOn_blockOf hold hold' (by rw [← hs', ← ht', heq])
    · have hmark := hd.marked_blockOf s hold
      rw [← hs', heq, hfresh'.free] at hmark
      cases hmark
    · have hmark := hd.marked_blockOf t hold'
      rw [← ht', ← heq, hfresh.free] at hmark
      cases hmark
    · exact hinj s t hs ht hfresh hfresh' heq

/-! ## The pointer block of a used inode -/

theorem Consistent.slot_eq {d : Disk} (hd : d.Consistent) {s t : Slot} (hs : d.Live s)
    (ht : d.Live t) (h : d.blockOf s = d.blockOf t) : s = t := hd.injOn_blockOf hs ht h

namespace Consistent

variable {d : Disk} (hd : d.Consistent) {n : ℕ} (hn : n < maxFiles) (hused : (d.inode n).used)
include hd hn hused

theorem le_head : 9 ≤ (d.inode n).headPointerBlock.toNat :=
  hd.le_blockOf (.pointer n) ⟨hn, hused⟩

theorem head_lt : (d.inode n).headPointerBlock.toNat < numBlocks :=
  hd.blockOf_lt (.pointer n) ⟨hn, hused⟩

theorem entriesValid {last : ℕ} (hlast : last ≤ (d.inode n).size.toNat / blockSize) :
    EntriesValid (d.block (d.inode n).headPointerBlock.toNat) last where
  lt_numBlocks i hi := hd.blockOf_lt (.data n i) ⟨hn, hused, hi.trans hlast⟩
  injOn i hi j hj heq := by
    have hslot := hd.slot_eq (s := .data n i) (t := .data n j)
      ⟨hn, hused, (show i ≤ last from hi).trans hlast⟩
      ⟨hn, hused, (show j ≤ last from hj).trans hlast⟩ heq
    simpa using hslot

/-- The positions of a used file lie at different addresses. -/
theorem injOn_locate {pos len : ℕ} (hend : pos + len ≤ (d.inode n).size.toNat) :
    Set.InjOn (locate (d.block (d.inode n).headPointerBlock.toNat)) (Set.Ico pos (pos + len)) := by
  refine (hd.entriesValid hn hused (Nat.div_le_div_right hend)).injOn_locate ?_
  simp only [blockSize]
  omega

theorem dataBlock_ne_head {m i : ℕ} (hlive : d.Live (.data m i)) :
    d.blockOf (.data m i) ≠ (d.inode n).headPointerBlock.toNat := by
  intro heq
  have hslot := hd.slot_eq (t := .pointer n) hlive ⟨hn, hused⟩ heq
  cases hslot

end Consistent

/-! ## Stores into a file -/

theorem block_eq_of_store {d e : Disk} {pointers : Block} {pos len b : ℕ} {src : ℕ → UInt8}
    (he : e.bytes = store d.bytes (locate pointers) pos len src)
    (hb : ∀ i ≤ (pos + len) / blockSize, (entry pointers i).toNat ≠ b) : e.block b = d.block b := by
  apply buffer_ext
  intro o ho
  change e.bytes (b, o) = d.bytes (b, o)
  rw [he, store_of_forall_ne]
  intro p hp hlt heq
  have hdiv : p / blockSize ≤ (pos + len) / blockSize := Nat.div_le_div_right (by omega)
  exact hb _ hdiv (Prod.mk.inj heq).1

section Store

variable {d e : Disk} {n pos len : ℕ} {src : ℕ → UInt8}
variable (hd : d.Consistent) (hn : n < maxFiles) (hused : (d.inode n).used)
  (hend : pos + len ≤ (d.inode n).size.toNat)
  (he : e.bytes = store d.bytes
    (locate (d.block (d.inode n).headPointerBlock.toNat)) pos len src)
include hd hn hused hend he

theorem block_of_store_of_lt {b : ℕ} (hb : b < 9) : e.block b = d.block b := by
  apply block_eq_of_store he
  intro i hi heq
  have hle := hd.le_blockOf (.data n i) ⟨hn, hused, hi.trans (Nat.div_le_div_right hend)⟩
  simp only [blockOf, dataBlock] at hle
  omega

/-- A store into the owned blocks of one file changes no metadata. -/
theorem sameMetadata_of_store : SameMetadata d e := by
  refine ⟨fun m hm ↦ ?_, ?_, fun m hm hm' ↦ ?_⟩
  · simp only [maxFiles] at hm
    rw [inode, block_of_store_of_lt hd hn hused hend he (by omega), inode]
  · funext q
    rw [marked, block_of_store_of_lt hd hn hused hend he (by omega), marked]
  · apply block_eq_of_store he
    intro i hi heq
    have hlive : d.Live (.data n i) := ⟨hn, hused, hi.trans (Nat.div_le_div_right hend)⟩
    exact hd.dataBlock_ne_head hm hm' hlive heq

end Store

end Disk

end OsProjects.Filesystem
