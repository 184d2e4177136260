import OsProjects.Filesystem.Layout
import OsProjects.Library.ScatteredStore

/-!
# Reading and writing through a pointer block

`pointers_write` and `pointers_read` treat the blocks named by a pointer block
as one flat sequence of bytes.  As long as the entries in play are distinct
blocks of the device, a write is one store into that sequence and a read one
copy out of it, wherever the block boundaries fall.
-/

namespace OsProjects.Filesystem

open Library.Program Library.Bytes Library.ScatteredStore

/-- Where byte `p` of the file described by a pointer block is on the disk. -/
def locate (pointers : Block) (p : ℕ) : ℕ × ℕ :=
  ((entry pointers (p / blockSize)).toNat, p % blockSize)

structure EntriesValid (pointers : Block) (last : ℕ) : Prop where
  lt_numBlocks : ∀ i ≤ last, (entry pointers i).toNat < numBlocks
  injOn : Set.InjOn (fun i ↦ (entry pointers i).toNat) (Set.Iic last)

theorem EntriesValid.injOn_locate {pointers : Block} {last pos len : ℕ}
    (h : EntriesValid pointers last) (hlast : pos + len ≤ (last + 1) * blockSize) :
    Set.InjOn (locate pointers) (Set.Ico pos (pos + len)) := by
  intro p hp q hq heq
  simp only [locate, Prod.mk.injEq] at heq
  have hpq : p / blockSize = q / blockSize := by
    refine h.injOn ?_ ?_ heq.1
    · apply Nat.lt_succ_iff.mp
      apply Nat.div_lt_of_lt_mul
      rw [Nat.mul_comm]
      exact hp.2.trans_le hlast
    · apply Nat.lt_succ_iff.mp
      apply Nat.div_lt_of_lt_mul
      rw [Nat.mul_comm]
      exact hq.2.trans_le hlast
  rw [← Nat.div_add_mod p blockSize, ← Nat.div_add_mod q blockSize, hpq, heq.2]

/-! ## Single steps -/

theorem run_indexEntry {position : ℕ} {index : ℤ} (w : World) (h : 0 ≤ index)
    (hlt : index < entriesPerBlock) :
    (indexEntry position index).run w =
      .ok index.toNat (w.advance w.storage 0 [.entry position index]) := by
  rw [indexEntry, run_bind_of_ok (run_emit _ w), if_pos ⟨h, hlt⟩]
  rfl

theorem run_indexEntry_natCast {position i : ℕ} (w : World) (h : i < 512) :
    (indexEntry position i).run w = .ok i (w.advance w.storage 0 [.entry position i]) :=
  run_indexEntry w (by omega) (by simp only [entriesPerBlock]; omega)

theorem run_updateBlock {number : UInt64} (block : Block) {offset howMany : ℕ}
    (buffer : ℕ → UInt8) (position : ℕ) (w : World) (hnumber : number.toNat < numBlocks)
    (hfit : offset + howMany ≤ blockSize) :
    (updateBlock number block offset buffer position howMany).run w =
      .ok (copyInto (w.storage.block number.toNat) offset howMany fun i ↦ buffer (position + i))
        (w.advance (w.storage.set number.toNat
          (copyInto (w.storage.block number.toNat) offset howMany
            fun i ↦ buffer (position + i))) 0 []) := by
  rw [updateBlock, run_bind_of_ok (run_storageReadBlock block hnumber)]
  simp only [memcpyToBlock, if_pos hfit]
  rw [pure_bind, run_bind_of_ok (run_storageWriteBlock _ _ _), EStateM.run_pure]

theorem bytes_set_copyInto (d : Disk) (pointers : Block) {i offset howMany : ℕ}
    (src : ℕ → UInt8) (hnumber : (entry pointers i).toNat < numBlocks)
    (hfit : offset + howMany ≤ blockSize) :
    (d.set (entry pointers i).toNat
        (copyInto (d.block (entry pointers i).toNat) offset howMany src)).bytes =
      store d.bytes (locate pointers) (i * blockSize + offset) howMany src := by
  have hloc : ∀ p, i * blockSize + offset ≤ p → p < i * blockSize + offset + howMany →
      locate pointers p = ((entry pointers i).toNat, p - i * blockSize) := by
    intro p hp hlt
    simp only [blockSize] at *
    have hdiv : p / (4 * 1024) = i := by omega
    have hmod : p % (4 * 1024) = p - i * (4 * 1024) := by omega
    simp only [locate, blockSize, hdiv, hmod]
  apply eq_store
  · intro p hp q hq heq
    have hp' := hloc p hp.1 hp.2
    have hq' := hloc q hq.1 hq.2
    rw [hp', hq', Prod.mk.injEq] at heq
    have h₁ := hp.1
    have h₂ := hq.1
    omega
  · intro p hp hlt
    rw [hloc p hp hlt, Disk.bytes, Disk.block_set_self _ _ hnumber,
      byteAt_copyInto _ _ _ _ (by omega), if_pos (by omega)]
    congr 1
    omega
  · intro a ha
    by_cases hblock : a.1 = (entry pointers i).toNat
    · rw [Disk.bytes, hblock, Disk.block_set_self _ _ hnumber, byteAt_copyInto_of_disjoint]
      · rw [Disk.bytes, hblock]
      · by_contra hin
        refine ha (i * blockSize + a.2) (by omega) (by omega) ?_
        rw [hloc _ (by omega) (by omega), ← hblock, Nat.add_sub_cancel_left]
    · rw [Disk.bytes, Disk.block_set_of_ne _ _ hblock, Disk.bytes]

variable {pointers : Block} {buffer : ℕ → UInt8} {howMany toPos fromPos : UInt64}

theorem updateBlock_returns {i offset len : ℕ} (block : Block) (buffer : ℕ → UInt8)
    (position : ℕ) (w : World) (hnumber : (entry pointers i).toNat < numBlocks)
    (hfit : offset + len ≤ blockSize) :
    Returns (updateBlock (entry pointers i) block offset buffer position len) w fun _ u ↦
      ∃ d, w.Becomes d u ∧ d.bytes =
        store w.storage.bytes (locate pointers) (i * blockSize + offset) len
          fun j ↦ buffer (position + j) :=
  .of_run (run_updateBlock block buffer position w hnumber hfit)
    ⟨_, .advance .., bytes_set_copyInto w.storage pointers _ hnumber hfit⟩

/-! ## `pointers_write` -/

/-- What the first `position` bytes of a write leave on the disk. -/
def Written (w : World) (pointers : Block) (pos : ℕ) (buffer : ℕ → UInt8) (position : ℕ)
    (u : World) : Prop :=
  ∃ d, w.Becomes d u ∧ d.bytes = store w.storage.bytes (locate pointers) pos position buffer

theorem Written.advance {w u : World} {pos position : ℕ}
    (h : Written w pointers pos buffer position u) (k : ℕ) (events : List Event) :
    Written w pointers pos buffer position (u.advance u.storage k events) := by
  obtain ⟨d, hd, hbytes⟩ := h
  exact ⟨u.storage, hd.advanced _ _ _, by rw [hd.storage, hbytes]⟩

theorem updateBlock_written {w u : World} {i offset len pos position : ℕ} (block : Block)
    (hnumber : (entry pointers i).toNat < numBlocks) (hfit : offset + len ≤ blockSize)
    (hposition : pos + position = i * blockSize + offset)
    (hinj : Set.InjOn (locate pointers) (Set.Ico pos (pos + (position + len))))
    (hu : Written w pointers pos buffer position u) :
    Returns (updateBlock (entry pointers i) block offset buffer position len) u fun _ v ↦
      Written w pointers pos buffer (position + len) v := by
  obtain ⟨d, hd, hbytes⟩ := hu
  refine (updateBlock_returns block buffer position u hnumber hfit).mono ?_
  rintro - v ⟨e, he, hstore⟩
  refine ⟨e, hd.trans he, ?_⟩
  rw [hstore, hd.storage, hbytes, ← hposition, store_append hinj]

theorem pointersWrite_loop {w u : World} {first count position : ℕ} (block : Block)
    (hvalid : EntriesValid pointers (first + count)) (hlast : first + count < 512)
    (hposition : toPos.toNat + position = (first + 1) * blockSize)
    (hu : Written w pointers toPos.toNat buffer position u) :
    Returns (forLoop (fun k acc ↦ pointersWriteBody pointers buffer toPos (first + 1 + k) acc) 0
        count (block, position)) u fun acc v ↦
      acc.2 = position + count * blockSize ∧
        Written w pointers toPos.toNat buffer (position + count * blockSize) v := by
  refine Returns.mono (Returns.forLoop (I := fun k acc v ↦ acc.2 = position + k * blockSize ∧
    Written w pointers toPos.toNat buffer (position + k * blockSize) v)
    ⟨by simp, by simpa using hu⟩ ?_) ?_
  case refine_2 =>
    intro acc v hv
    simpa only [Nat.zero_add] using hv
  rintro k ⟨block, position'⟩ v - hk ⟨hpos, hv⟩
  simp only at hpos
  subst hpos
  have hindex : (0 : ℤ) ≤ first + 1 + k ∧ (first + 1 + k : ℤ) < entriesPerBlock := by
    simp only [entriesPerBlock]
    omega
  have hnat : (first + 1 + k : ℤ).toNat = first + 1 + k := by omega
  refine .bind_run (run_indexEntry v hindex.1 hindex.2) ?_
  rw [hnat]
  refine .bind (updateBlock_written (i := first + 1 + k) block
    (hvalid.lt_numBlocks _ (by omega)) (by omega)
    (by rw [Nat.add_mul (first + 1) k]; omega)
    (hvalid.injOn_locate (by simp only [blockSize] at *; omega)) (hv.advance _ _)) ?_
  intro block' v' hv'
  refine .pure ⟨_, rfl, ?_, ?_⟩
  · simp only [Nat.add_mul]
    omega
  · rwa [Nat.add_mul k 1, Nat.one_mul, ← Nat.add_assoc]

/-- Blocks and offsets of the window `[pos, pos + len)` of a file below the
limit of one pointer block; the truncations to `int` are exact. -/
theorem window_arith {pos len : UInt64} (hend : pos.toNat + len.toNat < 512 * blockSize) :
    (pos + len).toNat = pos.toNat + len.toNat ∧
      cInt (pos.toNat / blockSize) = (pos.toNat / blockSize : ℕ) ∧
      cInt ((pos.toNat + len.toNat) / blockSize) = ((pos.toNat + len.toNat) / blockSize : ℕ) ∧
      pos.toNat / blockSize ≤ (pos.toNat + len.toNat) / blockSize ∧
      (pos.toNat + len.toNat) / blockSize < 512 := by
  simp only [blockSize] at *
  refine ⟨?_, cInt_of_lt (by omega), cInt_of_lt (by omega), by omega, by omega⟩
  rw [UInt64.toNat_add]
  omega

theorem intermediate_blocks {first last : ℕ} (h : first < last) :
    first * blockSize + blockSize ≤ last * blockSize ∧
      (last - 1 - first) * blockSize = last * blockSize - blockSize - first * blockSize := by
  constructor
  · calc
      first * blockSize + blockSize = (first + 1) * blockSize := by
        rw [Nat.add_mul, Nat.one_mul]
      _ ≤ last * blockSize := Nat.mul_le_mul_right _ h
  · rw [Nat.sub_mul, Nat.sub_mul, Nat.one_mul]

/-- `pointers_write` stores `howMany` bytes at position `toPos` of the file. -/
theorem pointersWrite_returns (w : World)
    (hend : toPos.toNat + howMany.toNat < 512 * blockSize)
    (hvalid : EntriesValid pointers ((toPos.toNat + howMany.toNat) / blockSize)) :
    Returns (pointersWrite pointers buffer howMany toPos) w fun code u ↦
      code = 0 ∧ Written w pointers toPos.toNat buffer howMany.toNat u := by
  obtain ⟨hsum, hfirst, hlast, hle, hlt⟩ := window_arith hend
  have hoffset := Nat.div_add_mod' toPos.toNat blockSize
  have htail := Nat.div_add_mod' (toPos.toNat + howMany.toNat) blockSize
  have hmod : toPos.toNat % blockSize < blockSize := Nat.mod_lt _ (by decide)
  have hmod' : (toPos.toNat + howMany.toNat) % blockSize < blockSize := Nat.mod_lt _ (by decide)
  rw [pointersWrite, hsum, hfirst, hlast]
  generalize toPos.toNat / blockSize = first at *
  generalize (toPos.toNat + howMany.toNat) / blockSize = last at *
  generalize toPos.toNat % blockSize = offset at *
  generalize (toPos.toNat + howMany.toNat) % blockSize = rest at *
  have hinj : Set.InjOn (locate pointers)
      (Set.Ico toPos.toNat (toPos.toNat + howMany.toNat)) :=
    hvalid.injOn_locate (by rw [Nat.add_mul]; omega)
  refine .bind_run (run_automatic w) (.bind_run (run_indexEntry_natCast _ (by omega)) ?_)
  simp only [World.advance_advance, World.advance_storage]
  obtain ⟨u, hu, hstart⟩ : ∃ u, w.advance w.storage (1 + 0) ([.entry toPos.toNat first] ++ []) = u ∧
      Written w pointers toPos.toNat buffer 0 u :=
    ⟨_, rfl, w.storage, .advance .., by simp⟩
  rw [hu]
  by_cases hsame : first = last
  · -- everything in one block
    subst hsame
    rw [if_pos rfl]
    refine .bind (updateBlock_written _ (hvalid.lt_numBlocks first hle) (by omega) (by omega)
      (by simpa using hinj) hstart) fun _ v hv ↦ .pure ⟨rfl, by simpa using hv⟩
  · have hcount : ((last : ℤ) - 1 - first).toNat = last - 1 - first := by omega
    have hpart : ∀ {len}, len ≤ howMany.toNat →
        Set.InjOn (locate pointers) (Set.Ico toPos.toNat (toPos.toNat + len)) :=
      fun h ↦ hinj.mono (Set.Ico_subset_Ico_right (by omega))
    obtain ⟨hroom, hblocks⟩ := intermediate_blocks (lt_of_le_of_ne hle hsame)
    rw [if_neg (by omega), hcount]
    refine .bind (updateBlock_written _ (hvalid.lt_numBlocks first hle) (by omega) (by omega)
      (hpart (by omega)) hstart) fun block v hv ↦ ?_
    rw [Nat.zero_add] at hv
    refine .bind (pointersWrite_loop block
      ⟨fun i hi ↦ hvalid.lt_numBlocks i (by omega),
        hvalid.injOn.mono (Set.Iic_subset_Iic.mpr (by omega))⟩ (by omega)
      (by rw [Nat.add_mul]; omega) hv) ?_
    rintro ⟨block', position⟩ v' ⟨hposition, hv'⟩
    simp only at hposition
    rw [← hposition] at hv'
    refine .bind_run (run_indexEntry_natCast _ hlt) (.bind (updateBlock_written block'
      (hvalid.lt_numBlocks last le_rfl) (by omega) (by omega) (hpart (by omega))
      (hv'.advance _ _)) fun _ u' hu' ↦ .pure ⟨rfl, ?_⟩)
    rwa [show position + rest = howMany.toNat by omega] at hu'

/-! ## `pointers_read` -/

def fileBytes (d : Disk) (pointers : Block) (pos : ℕ) : ℕ → UInt8 := fun i ↦
  d.bytes (locate pointers (pos + i))

/-- What the first `position` bytes of a read leave in the caller's buffer,
which contained `old`. -/
def Copied (w : World) (pointers : Block) (pos : ℕ) (old : ℕ → UInt8) (position : ℕ)
    (buffer : ℕ → UInt8) (u : World) : Prop :=
  w.Becomes w.storage u ∧ buffer = copyOver old 0 position (fileBytes w.storage pointers pos)

theorem Copied.advance {w u : World} {pos position : ℕ} {old : ℕ → UInt8}
    (h : Copied w pointers pos old position buffer u) (k : ℕ) (events : List Event) :
    Copied w pointers pos old position buffer (u.advance u.storage k events) := by
  refine ⟨?_, h.2⟩
  rw [h.1.storage]
  exact h.1.advanced _ _ _

theorem memcpyFromBlock_copied {w u : World} {i offset len pos position : ℕ}
    {old : ℕ → UInt8} (hfit : offset + len ≤ blockSize)
    (hposition : pos + position = i * blockSize + offset)
    (hu : Copied w pointers pos old position buffer u) :
    Returns (memcpyFromBlock buffer position (u.storage.block (entry pointers i).toNat) offset len)
      u fun buffer' v ↦ Copied w pointers pos old (position + len) buffer' v := by
  obtain ⟨hstorage, rfl⟩ := hu
  rw [memcpyFromBlock, if_pos hfit]
  refine .pure ⟨hstorage, ?_⟩
  rw [← copyOver_append, hstorage.storage]
  funext j
  simp only [copyOver]
  split
  · rename_i hj
    have hblock : (pos + (position + (j - position))) / blockSize = i := by
      simp only [blockSize] at *
      omega
    have hoffset : (pos + (position + (j - position))) % blockSize = offset + (j - position) := by
      simp only [blockSize] at *
      omega
    rw [fileBytes, locate, Disk.bytes, hblock, hoffset]
  · rfl

theorem pointersRead_loop {w u : World} {first count position : ℕ} {old : ℕ → UInt8}
    (block : Block) (hvalid : ∀ i ≤ first + count, (entry pointers i).toNat < numBlocks)
    (hlast : first + count < 512)
    (hposition : fromPos.toNat + position = (first + 1) * blockSize)
    (hu : Copied w pointers fromPos.toNat old position buffer u) :
    Returns (forLoop (fun k acc ↦ pointersReadBody pointers fromPos (first + 1 + k) acc) 0 count
        (block, buffer, position)) u fun acc v ↦
      acc.2.2 = position + count * blockSize ∧
        Copied w pointers fromPos.toNat old (position + count * blockSize) acc.2.1 v := by
  refine Returns.mono (Returns.forLoop (I := fun k acc v ↦ acc.2.2 = position + k * blockSize ∧
    Copied w pointers fromPos.toNat old (position + k * blockSize) acc.2.1 v)
    ⟨by simp, by simpa using hu⟩ ?_) ?_
  case refine_2 =>
    intro acc v hv
    simpa only [Nat.zero_add] using hv
  rintro k ⟨block, buffer', position'⟩ v - hk ⟨hpos, hv⟩
  simp only at hpos hv
  subst hpos
  have hindex : (0 : ℤ) ≤ first + 1 + k ∧ (first + 1 + k : ℤ) < entriesPerBlock := by
    simp only [entriesPerBlock]
    omega
  have hnat : (first + 1 + k : ℤ).toNat = first + 1 + k := by omega
  refine .bind_run (run_indexEntry v hindex.1 hindex.2) ?_
  rw [hnat]
  refine .bind_run (run_storageReadBlock block (hvalid _ (by omega))) ?_
  refine .bind (memcpyFromBlock_copied (i := first + 1 + k) (by omega)
    (by rw [Nat.add_mul (first + 1) k]; omega) (hv.advance _ _)) ?_
  intro buffer'' v' hv'
  refine .pure ⟨_, rfl, ?_, ?_⟩
  · simp only [Nat.add_mul]
    omega
  · rwa [Nat.add_mul k 1, Nat.one_mul, ← Nat.add_assoc]

/-- `pointers_read` copies `howMany` bytes from position `fromPos` of the file
to the buffer and changes nothing on the disk. -/
theorem pointersRead_returns (w : World) (old : ℕ → UInt8)
    (hend : fromPos.toNat + howMany.toNat < 512 * blockSize)
    (hvalid : ∀ i ≤ (fromPos.toNat + howMany.toNat) / blockSize,
      (entry pointers i).toNat < numBlocks) :
    Returns (pointersRead pointers old howMany fromPos) w fun result u ↦
      result.1 = 0 ∧ Copied w pointers fromPos.toNat old howMany.toNat result.2 u := by
  obtain ⟨hsum, hfirst, hlast, hle, hlt⟩ := window_arith hend
  have hoffset := Nat.div_add_mod' fromPos.toNat blockSize
  have htail := Nat.div_add_mod' (fromPos.toNat + howMany.toNat) blockSize
  have hmod : fromPos.toNat % blockSize < blockSize := Nat.mod_lt _ (by decide)
  have hmod' : (fromPos.toNat + howMany.toNat) % blockSize < blockSize := Nat.mod_lt _ (by decide)
  rw [pointersRead, hsum, hfirst, hlast]
  generalize fromPos.toNat / blockSize = first at *
  generalize (fromPos.toNat + howMany.toNat) / blockSize = last at *
  generalize fromPos.toNat % blockSize = offset at *
  generalize (fromPos.toNat + howMany.toNat) % blockSize = rest at *
  refine .bind_run (run_automatic w) (.bind_run (run_indexEntry_natCast _ (by omega)) ?_)
  simp only [World.advance_advance, World.advance_storage]
  obtain ⟨u, hu, hstart⟩ : ∃ u,
      w.advance w.storage (1 + 0) ([.entry fromPos.toNat first] ++ []) = u ∧
      Copied w pointers fromPos.toNat old 0 old u := by
    refine ⟨_, rfl, .advance .., ?_⟩
    funext j
    simp [copyOver]
  rw [hu]
  refine .bind_run (run_storageReadBlock _ (hvalid first hle)) ?_
  by_cases hsame : first = last
  · -- everything in one block
    subst hsame
    simp only [if_true]
    refine .bind (memcpyFromBlock_copied (by omega) (by omega) hstart)
      fun buffer v hv ↦ .pure ⟨rfl, by simpa using hv⟩
  · have hcount : ((last : ℤ) - 1 - first).toNat = last - 1 - first := by omega
    obtain ⟨hroom, hblocks⟩ := intermediate_blocks (lt_of_le_of_ne hle hsame)
    simp only
    rw [if_neg (by omega), hcount]
    refine .bind (memcpyFromBlock_copied (by omega) (by omega) hstart) fun buffer v hv ↦ ?_
    rw [Nat.zero_add] at hv
    refine .bind (pointersRead_loop _ (fun i hi ↦ hvalid i (by omega)) (by omega)
      (by rw [Nat.add_mul]; omega) hv) ?_
    rintro ⟨block', buffer', position⟩ v' ⟨hposition, hv'⟩
    dsimp only at hposition hv' ⊢
    rw [← hposition] at hv'
    refine .bind_run (run_indexEntry_natCast _ hlt)
      (.bind_run (run_storageReadBlock _ (hvalid last le_rfl))
        (.bind (memcpyFromBlock_copied (by omega) (by omega) (hv'.advance _ _))
          fun buffer'' u' hu' ↦ .pure ⟨rfl, ?_⟩))
    rwa [show position + rest = howMany.toNat by omega] at hu'

end OsProjects.Filesystem
