import OsProjects.Filesystem.Allocator

/-!
# The flat view of a pointer block

`pointers_write` and `pointers_read` are a store into and a copy out of the
concatenation of the blocks a pointer block names, whatever the first, middle
and last blocks of the range are.
-/

namespace OsProjects.Filesystem

open Library.Program Library.Bytes Library.ScatteredStore

/-- The bytes of the blocks `entry[0], …, entry[count - 1]`, one after the other. -/
def Disk.concatenation (d : Disk) (pointers : Block) (count : ℕ) : List UInt8 :=
  (List.range count).flatMap fun i ↦ List.ofFn (d.block (entry pointers i).toNat)

/-- The first `count` entries are pairwise distinct blocks of the device. -/
structure Names (pointers : Block) (count : ℕ) : Prop where
  le : count ≤ 512
  lt_numBlocks : ∀ i < count, (entry pointers i).toNat < numBlocks
  distinct : ∀ i < count, ∀ j < count, i ≠ j → entry pointers i ≠ entry pointers j

section Flat

variable {pointers : Block} {count : ℕ}

theorem ofFn_block (d : Disk) (pointers : Block) (i : ℕ) :
    List.ofFn (d.block (entry pointers i).toNat) =
      (List.range blockSize).map fun j ↦ d.bytes (locate pointers (i * blockSize + j)) := by
  apply List.ext_getElem
  · simp
  · intro j hj _
    rw [List.length_ofFn] at hj
    have hdiv : (i * blockSize + j) / blockSize = i := by
      simp only [blockSize] at *
      omega
    have hmod : (i * blockSize + j) % blockSize = j := by
      simp only [blockSize] at *
      omega
    rw [List.getElem_ofFn, List.getElem_map, List.getElem_range, locate, hdiv, hmod, Disk.bytes,
      byteAt_of_lt _ hj]

theorem Disk.concatenation_eq_sequence (d : Disk) (pointers : Block) (count : ℕ) :
    d.concatenation pointers count = sequence d.bytes (locate pointers) (count * blockSize) := by
  rw [sequence_eq_flatMap, concatenation]
  simp only [ofFn_block]

theorem Names.entriesValid (h : Names pointers count) {last : ℕ} (hlast : last < count) :
    EntriesValid pointers last where
  lt_numBlocks i hi := h.lt_numBlocks i (by omega)
  injOn i hi j hj heq := by
    simp only [Set.mem_Iic] at hi hj
    by_contra hij
    exact h.distinct i (by omega) j (by omega) hij (UInt64.toNat_inj.mp heq)

theorem Names.injOn_locate (h : Names pointers count) :
    Set.InjOn (locate pointers) (Set.Ico 0 (count * blockSize)) := by
  cases count with
  | zero =>
      intro p hp
      have := hp.2
      omega
  | succ last =>
      have hinj : Set.InjOn (locate pointers) (Set.Ico 0 (0 + (last + 1) * blockSize)) :=
        (h.entriesValid (Nat.lt_succ_self last)).injOn_locate (by omega)
      rwa [Nat.zero_add] at hinj

/-- A byte of a block that no entry names is not one of the sequence. -/
theorem locate_ne_of_forall {b o p : ℕ} (hb : ∀ i < count, (entry pointers i).toNat ≠ b)
    (hp : p < count * blockSize) : locate pointers p ≠ (b, o) := by
  intro heq
  simp only [locate, Prod.mk.injEq] at heq
  refine hb (p / blockSize) ?_ heq.1
  apply Nat.div_lt_of_lt_mul
  rwa [Nat.mul_comm]

/-- A write replaces its window of the concatenation, and a read copies it. -/
theorem pointers_flat (h : Names pointers count) (w : World) (buffer : ℕ → UInt8)
    {offset length : UInt64} (hend : (offset.toNat + length.toNat) / blockSize < count) :
    (Returns (pointersWrite pointers buffer length offset) w fun code u ↦
      code = 0 ∧
        u.storage.concatenation pointers count =
          (w.storage.concatenation pointers count).take offset.toNat ++
            (List.range length.toNat).map buffer ++
              (w.storage.concatenation pointers count).drop (offset.toNat + length.toNat) ∧
        ∀ b, (∀ i < count, (entry pointers i).toNat ≠ b) →
          ∀ o, byteAt (u.storage.block b) o = byteAt (w.storage.block b) o) ∧
      Returns (pointersRead pointers buffer length offset) w fun result u ↦
        result.1 = 0 ∧ u.storage = w.storage ∧
          (List.range length.toNat).map result.2 =
            ((w.storage.concatenation pointers count).drop offset.toNat).take length.toNat ∧
          ∀ i, length.toNat ≤ i → result.2 i = buffer i := by
  have hle := h.le
  have hfit : offset.toNat + length.toNat ≤ count * blockSize := by
    simp only [blockSize] at *
    omega
  have hlimit : offset.toNat + length.toNat < 512 * blockSize := by
    simp only [blockSize] at *
    omega
  have hvalid := h.entriesValid hend
  constructor
  · refine (pointersWrite_returns w hlimit hvalid).mono ?_
    rintro code u ⟨hcode, d, hd, hbytes⟩
    rw [hd.storage]
    refine ⟨hcode, ?_, fun b hb o ↦ ?_⟩
    · rw [Disk.concatenation_eq_sequence, hbytes, sequence_store h.injOn_locate hfit,
        Disk.concatenation_eq_sequence]
    · have hbyte := congrFun hbytes (b, o)
      rw [store_of_forall_ne fun p _ hp ↦ locate_ne_of_forall hb (by omega)] at hbyte
      exact hbyte
  · refine (pointersRead_returns w buffer hlimit hvalid.lt_numBlocks).mono ?_
    rintro ⟨code, buffer'⟩ u ⟨hcode, hstate, rfl⟩
    refine ⟨hcode, hstate.storage, ?_, fun i hi ↦ ?_⟩
    · rw [Disk.concatenation_eq_sequence, slice_sequence hfit]
      refine List.map_congr_left fun i hi ↦ ?_
      have hi := List.mem_range.mp hi
      simp only [copyOver]
      rw [if_pos ⟨Nat.zero_le i, by omega⟩, Nat.sub_zero, fileBytes]
    · simp only [copyOver]
      rw [if_neg (by omega)]

end Flat

/-- A pointer block with the entries `0` and `1`. -/
def twoEntries : Block := fun i ↦ if i.val = 8 then 1 else 0

theorem names_twoEntries : Names twoEntries 2 where
  le := by decide
  lt_numBlocks := by decide
  distinct := by decide

theorem pointers_flat_twoEntries :
    Returns (pointersWrite twoEntries (fun _ ↦ 7) 200 4000) freshDevice fun code u ↦
      code = 0 ∧ u.storage.concatenation twoEntries 2 =
        (freshDevice.storage.concatenation twoEntries 2).take 4000 ++ (List.range 200).map (fun _ ↦ 7) ++
          (freshDevice.storage.concatenation twoEntries 2).drop 4200 :=
  (pointers_flat names_twoEntries freshDevice (fun _ ↦ 7) (by decide)).1.mono
    fun _ _ h ↦ ⟨h.1, h.2.1⟩

end OsProjects.Filesystem
