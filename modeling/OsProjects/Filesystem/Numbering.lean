import OsProjects.Filesystem.Allocator
import Mathlib.Order.Bounds.Basic

/-!
# The numbers of the blocks

On one bitmap block the allocator is a first fit, and the number it returns is
that of the bit it sets.  With several bitmap blocks it numbers bit `t` of the
`i`-th one `i * 4096 + t`, as if a block had as many bits as bytes, while the
deallocator divides by the number of bits.
-/

namespace OsProjects.Filesystem

open Library.Program Library.Bytes Library.FirstFit Library.Runs

/-! ## Bitmaps of any size -/

/-- `bitmap_init` has been called for bitmap blocks that lie on the device. -/
structure World.Initialized (numberInodeBlocks numberBitmapBlocks : UInt64) (w : World) : Prop where
  firstBlock : w.globals.bitmapFirstBlock = numberInodeBlocks
  numberBlocks : w.globals.bitmapNumberBlocks = numberBitmapBlocks
  allocatable : w.globals.firstAllocatable = numberInodeBlocks + numberBitmapBlocks
  onDevice : numberInodeBlocks.toNat + numberBitmapBlocks.toNat ≤ numBlocks

namespace World

variable (w : World)

def bitmapBlock (i : ℕ) : Block := w.storage.block (w.globals.bitmapFirstBlock.toNat + i)

def bitmapBit (i t : ℕ) : Bool := bitAt (w.bitmapBlock i) t

/-- The disk with bit `t` of the `i`-th bitmap block set. -/
def setBitmapBit (i t : ℕ) : Disk :=
  w.storage.set (w.globals.bitmapFirstBlock.toNat + i) (setBit (w.bitmapBlock i) (t / 8) (t % 8))

/-- The allocator may take bit `t` of the `i`-th bitmap block: it is clear, and
the number the allocator has for it is that of an allocatable block. -/
def Available (i t : ℕ) : Prop :=
  i < w.globals.bitmapNumberBlocks.toNat ∧ t < bitmapBits ∧
    w.globals.firstAllocatable.toNat ≤ i * blockSize + t ∧ w.bitmapBit i t = false

/-- The bit taken from the `i`-th bitmap block, if there is one. -/
def nextInBlock (i : ℕ) : Option ℕ :=
  nextFree (w.globals.firstAllocatable.toNat - i * blockSize) bitmapBits (w.bitmapBit i)

/-- The bit taken from the bitmap blocks `i, …, i + count - 1`, with its block. -/
def nextBit (i count : ℕ) : Option (ℕ × ℕ) :=
  (List.range' i count).findSome? fun j ↦ (w.nextInBlock j).map fun t ↦ (j, t)

end World

section Search

variable {numberInodeBlocks numberBitmapBlocks : UInt64} {w : World}

theorem World.Initialized.toNat_block (h : w.Initialized numberInodeBlocks numberBitmapBlocks) {i : ℕ}
    (hi : i < numberBitmapBlocks.toNat) :
    (cUInt64 i + w.globals.bitmapFirstBlock).toNat = w.globals.bitmapFirstBlock.toNat + i := by
  have hdevice := h.onDevice
  simp only [numBlocks] at hdevice
  rw [h.firstBlock, UInt64.toNat_add, toNat_cUInt64_natCast (by omega)]
  omega

theorem World.Initialized.block_lt (h : w.Initialized numberInodeBlocks numberBitmapBlocks) {i : ℕ}
    (hi : i < w.globals.bitmapNumberBlocks.toNat) :
    w.globals.bitmapFirstBlock.toNat + i < numBlocks := by
  have hdevice := h.onDevice
  rw [h.firstBlock]
  rw [h.numberBlocks] at hi
  omega

theorem scanBlock_cases (w : World) (i : ℕ) :
    (scanBlock w.globals.firstAllocatable i (w.bitmapBlock i) = none ∧ w.nextInBlock i = none) ∨
      ∃ t, scanBlock w.globals.firstAllocatable i (w.bitmapBlock i) = some (t / 8, t % 8) ∧
        w.nextInBlock i = some t := by
  cases hscan : scanBlock w.globals.firstAllocatable i (w.bitmapBlock i) with
  | none => exact .inl ⟨rfl, scanBlock_eq_none hscan⟩
  | some hit =>
      obtain ⟨j, k⟩ := hit
      obtain ⟨hk, hnext⟩ := scanBlock_eq_some hscan
      have hdiv : (j * 8 + k) / 8 = j := by omega
      have hmod : (j * 8 + k) % 8 = k := by omega
      exact .inr ⟨j * 8 + k, by rw [hdiv, hmod], hnext⟩

theorem World.Initialized.run_allocateFrom (h : w.Initialized numberInodeBlocks numberBitmapBlocks)
    {i count : ℕ} (hcount : i + count = numberBitmapBlocks.toNat) (block : Block) :
    (allocateFrom w.globals i count block).run w =
      match w.nextBit i count with
      | some (j, t) => .ok (j * blockSize + t : ℕ) (w.advance (w.setBitmapBit j t) 0 [])
      | none => .ok (-1) w := by
  induction count generalizing i block with
  | zero => rfl
  | succ count ih =>
      have hblock := h.toNat_block (i := i) (by omega)
      have hdevice := h.onDevice
      have hlt : (cUInt64 i + w.globals.bitmapFirstBlock).toNat < numBlocks := by
        rw [hblock, h.firstBlock]
        omega
      have hread := run_storageReadBlock block (w := w) hlt
      have hsame : w.storage.block (cUInt64 i + w.globals.bitmapFirstBlock).toNat =
          w.bitmapBlock i := by rw [hblock, bitmapBlock]
      rw [hsame] at hread
      rw [allocateFrom, run_bind_of_ok hread, nextBit, List.range'_succ, List.findSome?_cons]
      rcases scanBlock_cases w i with ⟨hscan, hnext⟩ | ⟨t, hscan, hnext⟩
      · simp only [hscan, hnext, Option.map_none]
        exact ih (by omega) _
      · simp only [hscan, hnext, Option.map_some]
        rw [run_bind_of_ok (run_storageWriteBlock _ _ w), hblock]
        have hnumber : referencedBlock i (t / 8) (t % 8) = i * blockSize + t := by
          simp only [referencedBlock]
          omega
        rw [hnumber]
        rfl

/-- The allocator of a bitmap with any number of blocks. -/
theorem World.Initialized.run_bitmapAllocateBlock
    (h : w.Initialized numberInodeBlocks numberBitmapBlocks) :
    ∃ k events, bitmapAllocateBlock.run w =
      match w.nextBit 0 w.globals.bitmapNumberBlocks.toNat with
      | some (i, t) => .ok (i * blockSize + t : ℕ) (w.advance (w.setBitmapBit i t) k events)
      | none => .ok (-1) (w.advance w.storage k events) := by
  have hadvanced : (w.advance w.storage 1 []).Initialized numberInodeBlocks numberBitmapBlocks :=
    ⟨h.firstBlock, h.numberBlocks, h.allocatable, h.onDevice⟩
  have hcount : 0 + w.globals.bitmapNumberBlocks.toNat = numberBitmapBlocks.toNat := by
    rw [h.numberBlocks, Nat.zero_add]
  have hloop := hadvanced.run_allocateFrom hcount (w.stack w.frames)
  have hnext : (w.advance w.storage 1 []).nextBit 0 w.globals.bitmapNumberBlocks.toNat =
      w.nextBit 0 w.globals.bitmapNumberBlocks.toNat := rfl
  rw [hnext] at hloop
  rw [bitmapAllocateBlock, run_bind_of_ok (EStateM.run_get w), run_bind_of_ok (run_automatic w)]
  cases hbit : w.nextBit 0 w.globals.bitmapNumberBlocks.toNat with
  | none =>
      rw [hbit] at hloop
      exact ⟨1, [.allocate (-1)], run_bind_of_ok hloop⟩
  | some hit =>
      rw [hbit] at hloop
      refine ⟨1, [.allocate (hit.1 * blockSize + hit.2 : ℕ)], (run_bind_of_ok hloop).trans ?_⟩
      rw [run_bind_of_ok (run_emit _ _)]
      simp only [advance_advance]
      rfl

theorem World.nextBit_eq_none_iff (w : World) :
    w.nextBit 0 w.globals.bitmapNumberBlocks.toNat = none ↔ ∀ i t, ¬ w.Available i t := by
  simp only [nextBit, findSome?_range'_eq_none_iff, Option.map_eq_none_iff, nextInBlock,
    nextFree_eq_none_iff, Available]
  constructor
  · rintro h i t ⟨hi, ht, hlo, hclear⟩
    rw [h i (Nat.zero_le i) (by omega) t (by omega) ht] at hclear
    cases hclear
  · intro h i _ hi t hlo ht
    by_contra hclear
    exact h i t ⟨by omega, ht, by omega, Bool.eq_false_of_not_eq_true hclear⟩

theorem World.available_of_nextBit {i t : ℕ}
    (h : w.nextBit 0 w.globals.bitmapNumberBlocks.toNat = some (i, t)) :
    w.Available i t ∧ ∀ j < i, ∀ q, ¬ w.Available j q := by
  obtain ⟨j, -, hj, hmap, hbefore⟩ := findSome?_range'_eq_some_iff.mp h
  obtain ⟨q, hq, heq⟩ := Option.map_eq_some_iff.mp hmap
  obtain ⟨rfl, rfl⟩ : j = i ∧ q = t := by simpa using heq
  obtain ⟨hlo, hlt, hclear, -⟩ := nextFree_eq_some_iff.mp hq
  refine ⟨⟨by omega, hlt, by omega, hclear⟩, ?_⟩
  rintro p hp r ⟨-, hr, hlo', hclear'⟩
  have hnone := Option.map_eq_none_iff.mp (hbefore p (Nat.zero_le p) hp)
  rw [nextFree_eq_none_iff.mp hnone r (by omega) hr] at hclear'
  cases hclear'

end Search

/-! ## The number of the bit -/

/-- A number the allocator returns is that of the bit it sets, as the deallocator
counts the bits. -/
def World.Numbered (w : World) : Prop :=
  ∀ (r : ℕ) (u : World), bitmapAllocateBlock.run w = .ok (r : ℤ) u →
    w.bitmapBit (r / bitmapBits) (r % bitmapBits) = false ∧
      u.storage = w.setBitmapBit (r / bitmapBits) (r % bitmapBits)

/-- The first bitmap block has a bit that may be taken, or no bitmap block has. -/
def World.FirstBlockServes (w : World) : Prop :=
  (∃ t, w.Available 0 t) ∨ ∀ i t, ¬ w.Available i t

section Numbering

variable {numberInodeBlocks numberBitmapBlocks : UInt64} {w u : World} {r : ℕ}

theorem World.bitmapBit_of_storage (hglobals : u.globals = w.globals) {i t j : ℕ}
    (hj : w.globals.bitmapFirstBlock.toNat + j < numBlocks) (ht : t < bitmapBits)
    (hstorage : u.storage = w.setBitmapBit i t) (q : ℕ) :
    u.bitmapBit j q = (w.bitmapBit j q || decide (j = i ∧ q = t)) := by
  have hbyte : t / 8 < blockSize := by
    simp only [bitmapBits] at ht
    omega
  rw [bitmapBit, bitmapBlock, hstorage, hglobals, setBitmapBit]
  by_cases hi : j = i
  · subst hi
    rw [Disk.block_set_self _ _ hj, bitAt_setBit _ q hbyte, bitmapBit]
    simp
  · rw [Disk.block_set_of_ne _ _ (by omega), bitmapBit, bitmapBlock]
    simp [hi]

theorem World.Initialized.cases_of_run (h : w.Initialized numberInodeBlocks numberBitmapBlocks)
    (hrun : bitmapAllocateBlock.run w = .ok (r : ℤ) u) :
    u.globals = w.globals ∧ ∃ i t, w.nextBit 0 w.globals.bitmapNumberBlocks.toNat = some (i, t) ∧
      r = i * blockSize + t ∧ u.storage = w.setBitmapBit i t := by
  obtain ⟨k, events, hspec⟩ := h.run_bitmapAllocateBlock
  rw [hspec] at hrun
  cases hnext : w.nextBit 0 w.globals.bitmapNumberBlocks.toNat with
  | none =>
      rw [hnext] at hrun
      have hcode := (EStateM.Result.ok.inj hrun).1
      omega
  | some hit =>
      rw [hnext] at hrun
      obtain ⟨hcode, rfl⟩ := EStateM.Result.ok.inj hrun
      exact ⟨rfl, hit.1, hit.2, rfl, by omega, rfl⟩

theorem World.Initialized.run_of_nextBit (h : w.Initialized numberInodeBlocks numberBitmapBlocks)
    {i t : ℕ} (hnext : w.nextBit 0 w.globals.bitmapNumberBlocks.toNat = some (i, t)) :
    ∃ u, bitmapAllocateBlock.run w = .ok ((i * blockSize + t : ℕ) : ℤ) u ∧
      u.globals = w.globals ∧ u.storage = w.setBitmapBit i t := by
  obtain ⟨k, events, hrun⟩ := h.run_bitmapAllocateBlock
  rw [hnext] at hrun
  exact ⟨_, hrun, rfl, rfl⟩

theorem World.Initialized.of_run (h : w.Initialized numberInodeBlocks numberBitmapBlocks)
    (hrun : bitmapAllocateBlock.run w = .ok (r : ℤ) u) :
    u.Initialized numberInodeBlocks numberBitmapBlocks := by
  obtain ⟨hglobals, -⟩ := h.cases_of_run hrun
  exact ⟨hglobals ▸ h.firstBlock, hglobals ▸ h.numberBlocks, hglobals ▸ h.allocatable, h.onDevice⟩

theorem World.FirstBlockServes.eq_zero (h : w.FirstBlockServes) {i t : ℕ}
    (hnext : w.nextBit 0 w.globals.bitmapNumberBlocks.toNat = some (i, t)) : i = 0 := by
  obtain ⟨havailable, hbefore⟩ := World.available_of_nextBit hnext
  rcases h with ⟨q, hq⟩ | hnone
  · by_contra hi
    exact hbefore 0 (by omega) q hq
  · exact (hnone i t havailable).elim

/-- The numbers agree exactly if the bit is one of the first bitmap block. -/
theorem World.Initialized.numbered_iff (h : w.Initialized numberInodeBlocks numberBitmapBlocks) :
    w.Numbered ↔ w.FirstBlockServes := by
  have hbits : bitmapBits = 32768 := rfl
  have hsize : blockSize = 4096 := rfl
  constructor
  · intro hnumbered
    cases hnext : w.nextBit 0 w.globals.bitmapNumberBlocks.toNat with
    | none => exact .inr (w.nextBit_eq_none_iff.mp hnext)
    | some hit =>
        obtain ⟨i, t⟩ := hit
        obtain ⟨havailable, -⟩ := World.available_of_nextBit hnext
        obtain ⟨hi, ht, -, hclear⟩ := id havailable
        obtain ⟨u, hrun, hglobals, hset⟩ := h.run_of_nextBit hnext
        obtain ⟨-, hstorage⟩ := hnumbered _ u hrun
        have hblock := h.block_lt hi
        have hmod := Nat.mod_lt (i * blockSize + t) (show 0 < bitmapBits by omega)
        -- the bit set is bit `t` of block `i`, and it is the one the number stands for
        have hbit := World.bitmapBit_of_storage hglobals hblock ht hset t
        rw [World.bitmapBit_of_storage hglobals hblock hmod hstorage t, hclear] at hbit
        obtain ⟨hindex, hoffset⟩ : i = (i * blockSize + t) / bitmapBits ∧
            t = (i * blockSize + t) % bitmapBits := by simpa using hbit
        rw [hbits, hsize] at hindex hoffset
        obtain rfl : i = 0 := by omega
        exact .inl ⟨t, havailable⟩
  · intro hserves r u hrun
    obtain ⟨-, i, t, hnext, rfl, hstorage⟩ := h.cases_of_run hrun
    obtain rfl := hserves.eq_zero hnext
    obtain ⟨⟨-, ht, -, hclear⟩, -⟩ := World.available_of_nextBit hnext
    rw [Nat.zero_mul, Nat.zero_add, Nat.div_eq_of_lt ht, Nat.mod_eq_of_lt ht]
    exact ⟨hclear, hstorage⟩

/-- An allocation from the first bitmap block takes its least free bit. -/
theorem World.Initialized.nextFree_of_run (h : w.Initialized numberInodeBlocks numberBitmapBlocks)
    (hserves : w.FirstBlockServes) (hrun : bitmapAllocateBlock.run w = .ok (r : ℤ) u) :
    nextFree (numberInodeBlocks + numberBitmapBlocks).toNat bitmapBits (w.bitmapBit 0) = some r ∧
      u.bitmapBit 0 = mark (w.bitmapBit 0) r := by
  obtain ⟨hglobals, i, t, hnext, rfl, hstorage⟩ := h.cases_of_run hrun
  obtain rfl := hserves.eq_zero hnext
  obtain ⟨⟨hi, ht, -⟩, -⟩ := World.available_of_nextBit hnext
  obtain ⟨j, -, -, hmap, -⟩ := findSome?_range'_eq_some_iff.mp hnext
  obtain ⟨q, hq, heq⟩ := Option.map_eq_some_iff.mp hmap
  obtain ⟨rfl, rfl⟩ : j = 0 ∧ q = t := by simpa using heq
  rw [World.nextInBlock, h.allocatable] at hq
  simp only [Nat.zero_mul, Nat.zero_add, Nat.sub_zero] at hq ⊢
  refine ⟨hq, funext fun p ↦ ?_⟩
  rw [World.bitmapBit_of_storage hglobals (h.block_lt hi) ht hstorage p]
  simp

end Numbering

theorem initialized_of_bitmapInit {numberInodeBlocks numberBitmapBlocks numberBlocks : UInt64}
    (hdevice : numberInodeBlocks.toNat + numberBitmapBlocks.toNat ≤ numBlocks) {v w : World}
    (hinit : (bitmapInit numberInodeBlocks numberBitmapBlocks numberBlocks).run v = .ok () w) :
    w.Initialized numberInodeBlocks numberBitmapBlocks := by
  cases hinit
  exact ⟨rfl, rfl, rfl, hdevice⟩

/-- For a bitmap of any size, with any content, the number returned is that of
the bit set exactly if the bit is one of the first bitmap block, and in a run of
such allocations no number is returned twice. -/
theorem numbering_agrees_iff {numberInodeBlocks numberBitmapBlocks numberBlocks : UInt64}
    (hdevice : numberInodeBlocks.toNat + numberBitmapBlocks.toNat ≤ numBlocks) {v w : World}
    (hinit : (bitmapInit numberInodeBlocks numberBitmapBlocks numberBlocks).run v = .ok () w)
    {rs : List ℕ} {s : World}
    (hrun : Run (fun s (r : ℕ) t ↦ bitmapAllocateBlock.run s = .ok (r : ℤ) t ∧ s.FirstBlockServes)
      w rs s) :
    (s.Numbered ↔ s.FirstBlockServes) ∧ rs.Pairwise (· < ·) ∧ rs.Nodup := by
  obtain ⟨hs, hpairs, -⟩ := @pairwise_of_run _ _ _ (fun s : World ↦ s.bitmapBit 0) _
    (World.Initialized numberInodeBlocks numberBitmapBlocks)
    (fun s r t hs hstep ↦ ⟨hs.of_run hstep.1, hs.nextFree_of_run hstep.2 hstep.1⟩) _ _ _
    (initialized_of_bitmapInit hdevice hinit) hrun
  exact ⟨hs.numbered_iff, hpairs, hpairs.imp Nat.ne_of_lt⟩

/-- A device with two bitmap blocks, of which the first has one clear bit. -/
def twoBlockDevice : World where
  storage b := if b.val = 8 then fun i ↦ if i.val = 512 then 254 else 255 else zeroedBlock
  globals := { formattedGlobals with bitmapNumberBlocks := 2, firstAllocatable := 10 }
  stack := fun _ ↦ zeroedBlock
  frames := 0
  trace := []

theorem run_bitmapInit_twoBlockDevice :
    (bitmapInit 8 2 16384).run twoBlockDevice = .ok () twoBlockDevice := rfl

theorem initialized_twoBlockDevice : twoBlockDevice.Initialized 8 2 :=
  initialized_of_bitmapInit (by decide) run_bitmapInit_twoBlockDevice

theorem bitmapBit_twoBlockDevice {q : ℕ} (hq : q < bitmapBits) :
    twoBlockDevice.bitmapBit 0 q = decide (q ≠ 4096) := by
  have hbyte : q / 8 < blockSize := by
    simp only [bitmapBits] at hq
    omega
  have hblock : twoBlockDevice.bitmapBlock 0 = fun i ↦ if i.val = 512 then 254 else 255 := rfl
  have hset : ∀ k < 8, (255 : UInt8).toNat.testBit k = true := by decide
  have hone : ∀ k < 8, (254 : UInt8).toNat.testBit k = decide (k ≠ 0) := by decide
  rw [World.bitmapBit, hblock, bitAt, byteAt_of_lt _ hbyte]
  by_cases h : q / 8 = 512
  · rw [if_pos h, hone _ (Nat.mod_lt q (by omega))]
    exact decide_eq_decide.mpr (by omega)
  · rw [if_neg h, hset _ (Nat.mod_lt q (by omega)), eq_comm, decide_eq_true_iff]
    omega

theorem available_twoBlockDevice : twoBlockDevice.Available 0 4096 :=
  ⟨by decide, by decide, by decide, bitmapBit_twoBlockDevice (by decide)⟩

theorem nextFree_twoBlockDevice :
    nextFree 10 bitmapBits (twoBlockDevice.bitmapBit 0) = some 4096 := by
  refine nextFree_eq_some_iff.mpr ⟨by decide, by decide, bitmapBit_twoBlockDevice (by decide), ?_⟩
  intro q _ hq
  rw [bitmapBit_twoBlockDevice (hq.trans (by decide)), decide_eq_true_iff]
  omega

theorem run_allocate_twoBlockDevice :
    ∃ u, bitmapAllocateBlock.run twoBlockDevice = .ok (4096 : ℕ) u ∧ u.Initialized 8 2 ∧
      u.globals = twoBlockDevice.globals ∧ u.storage = twoBlockDevice.setBitmapBit 0 4096 := by
  have hnext : twoBlockDevice.nextBit 0 2 = some (0, 4096) :=
    findSome?_range'_eq_some_iff.mpr ⟨0, le_rfl, by decide,
      congrArg (Option.map (Prod.mk 0)) nextFree_twoBlockDevice, fun j _ hj ↦ by omega⟩
  obtain ⟨u, hrun, hglobals, hstorage⟩ := initialized_twoBlockDevice.run_of_nextBit hnext
  exact ⟨u, hrun, initialized_twoBlockDevice.of_run hrun, hglobals, hstorage⟩

theorem numbering_agrees_iff_twoBlockDevice :
    ∃ u, bitmapAllocateBlock.run twoBlockDevice = .ok (4096 : ℕ) u ∧
      (u.Numbered ↔ u.FirstBlockServes) := by
  obtain ⟨u, hrun, -⟩ := run_allocate_twoBlockDevice
  exact ⟨u, hrun, (numbering_agrees_iff (by decide) run_bitmapInit_twoBlockDevice
    (.snoc .nil ⟨hrun, .inl ⟨4096, available_twoBlockDevice⟩⟩)).1⟩

/-- Number 4096 is returned for bit 4096 of the first bitmap block and for bit 0
of the second one. -/
theorem number_returned_twice :
    ∃ u v, bitmapAllocateBlock.run twoBlockDevice = .ok (4096 : ℕ) u ∧
      bitmapAllocateBlock.run u = .ok (4096 : ℕ) v ∧ ¬ u.Numbered := by
  obtain ⟨u, hrun, hu, hglobals, hstorage⟩ := run_allocate_twoBlockDevice
  have hzero : ∀ q < bitmapBits, u.bitmapBit 0 q = true := by
    intro q hq
    rw [World.bitmapBit_of_storage hglobals (by decide) (by decide) hstorage,
      bitmapBit_twoBlockDevice hq]
    by_cases h : q = 4096
    · simp [h]
    · simp [h]
  have hone : u.bitmapBit 1 0 = false := by
    rw [World.bitmapBit_of_storage hglobals (by decide) (by decide) hstorage]
    rfl
  have hnone : u.nextInBlock 0 = none := nextFree_eq_none_iff.mpr fun q _ hq ↦ hzero q hq
  have havailable : u.Available 1 0 := ⟨by rw [hglobals]; decide, by decide, by rw [hglobals]; decide, hone⟩
  have hsome : u.nextInBlock 1 = some 0 := by
    refine nextFree_eq_some_iff.mpr ⟨?_, by decide, hone, fun q _ hq ↦ by omega⟩
    rw [hglobals]
    decide
  have hnext : u.nextBit 0 u.globals.bitmapNumberBlocks.toNat = some (1, 0) := by
    rw [hglobals]
    refine findSome?_range'_eq_some_iff.mpr ⟨1, by decide, by decide, ?_, fun j _ hj ↦ ?_⟩
    · rw [hsome]
      rfl
    · obtain rfl : j = 0 := by omega
      rw [hnone]
      rfl
  obtain ⟨v, hrun', -⟩ := hu.run_of_nextBit hnext
  refine ⟨u, v, hrun, hrun', fun hnumbered ↦ ?_⟩
  rcases hu.numbered_iff.mp hnumbered with ⟨t, -, ht, -, hclear⟩ | hall
  · rw [hzero t ht] at hclear
    cases hclear
  · exact hall 1 0 havailable

/-! ## The formatted device -/

/-- On a formatted device the allocator returns the least clear bit from
`first_allocatable` on and sets it, or returns `-1` if there is none, and changes
nothing else; the numbers of successive allocations increase. -/
theorem formatted_first_fit {w : World} (hw : w.Formatted) :
    (∃ code u, bitmapAllocateBlock.run w = .ok code u ∧
      ((∃ r : ℕ, code = r ∧
          IsLeast {q | w.globals.firstAllocatable.toNat ≤ q ∧ q < bitmapBits ∧
            w.storage.marked q = false} r ∧
          u.storage.marked = mark w.storage.marked r ∧
          ∀ b o, b ≠ w.globals.bitmapFirstBlock.toNat ∨ o ≠ r / 8 →
            byteAt (u.storage.block b) o = byteAt (w.storage.block b) o) ∨
        (code = -1 ∧ u.storage = w.storage ∧ ∀ q, w.globals.firstAllocatable.toNat ≤ q →
          q < bitmapBits → w.storage.marked q = true))) ∧
      ∀ (rs : List ℕ) (s : World),
        Run (fun s (r : ℕ) t ↦ bitmapAllocateBlock.run s = .ok (r : ℤ) t) w rs s →
          rs.Pairwise (· < ·) ∧ rs.Nodup := by
  have hfirst : w.globals.firstAllocatable.toNat = 9 := (allocatable_of_formatted hw).1
  have hblock : w.globals.bitmapFirstBlock.toNat = 8 := by
    rw [hw.globals_eq]
    rfl
  refine ⟨?_, fun rs s hrun ↦ ?_⟩
  · rw [hfirst, hblock]
    refine ⟨_, _, run_bitmapAllocateBlock hw, ?_⟩
    cases hnext : nextFree 9 bitmapBits w.storage.marked with
    | none =>
        refine .inr ⟨?_, ?_, nextFree_eq_none_iff.mp hnext⟩
        · rw [Disk.allocated, hnext]
        · rw [World.advance_storage, Disk.afterAllocate, hnext]
    | some r =>
        obtain ⟨hlo, hlt, hclear, hleast⟩ := nextFree_eq_some_iff.mp hnext
        rw [Disk.allocated_of_some hnext, Disk.afterAllocate_of_some hnext]
        refine .inl ⟨r, rfl, ⟨⟨hlo, hlt, hclear⟩, fun q hq ↦ ?_⟩, Disk.marked_markBlock _ hlt, ?_⟩
        · by_contra hlt'
          have htaken := hleast q hq.1 (by omega)
          rw [hq.2.2] at htaken
          cases htaken
        · intro b o hbo
          exact Disk.byteAt_markBlock w.storage hlt hbo
  · obtain ⟨-, hpairs, -⟩ := @pairwise_of_run 9 bitmapBits _ (fun s : World ↦ s.storage.marked) _
      World.Formatted (fun s r t hs hstep ↦ by
        obtain ⟨ht, -, -, hmarked⟩ := marked_of_run_allocate hs hstep
        exact ⟨ht, nextFree_of_run_allocate hs hstep, hmarked⟩) _ _ _ hw hrun
    exact ⟨hpairs, hpairs.imp Nat.ne_of_lt⟩

/-- Of the blocks of the device 9 and 11 are in use. -/
def twoInUse : World :=
  { freshDevice with storage := fun b i ↦ if b.val = 8 ∧ i.val = 1 then 0b1010 else 0 }

theorem formatted_first_fit_twoInUse : ∃ t u, bitmapAllocateBlock.run twoInUse = .ok 10 t ∧
    IsLeast {q | 9 ≤ q ∧ q < bitmapBits ∧ twoInUse.storage.marked q = false} 10 ∧
    t.storage.marked = mark twoInUse.storage.marked 10 ∧
    bitmapAllocateBlock.run t = .ok 12 u ∧ [10, 12].Pairwise (· < ·) := by
  have hw : twoInUse.Formatted := rfl
  have hfirst : nextFree 9 bitmapBits twoInUse.storage.marked = some 10 := by
    refine nextFree_eq_some_iff.mpr ⟨by decide, by decide, by decide, fun q hq hlt ↦ ?_⟩
    obtain rfl : q = 9 := by omega
    decide
  have hrun := run_bitmapAllocateBlock_of_some hw hfirst
  obtain ⟨⟨code, t, ht, hcases⟩, hruns⟩ := formatted_first_fit hw
  rw [hrun] at ht
  cases ht
  obtain ⟨r, hr, hleast, hmarked, -⟩ | ⟨hrefused, -⟩ := hcases
  · obtain rfl : 10 = r := Int.ofNat.inj hr
    have hsecond : nextFree 9 bitmapBits (twoInUse.storage.markBlock 10).marked = some 12 := by
      rw [Disk.marked_markBlock _ (by decide)]
      refine nextFree_eq_some_iff.mpr ⟨by decide, by decide, by decide, fun q hq hlt ↦ ?_⟩
      obtain rfl | rfl | rfl : q = 9 ∨ q = 10 ∨ q = 11 := by omega
      all_goals decide
    have hrun' := run_bitmapAllocateBlock_of_some (marked_of_run_allocate hw hrun).1 hsecond
    exact ⟨_, _, hrun, hleast, hmarked, hrun', (hruns [10, 12] _ (.snoc (.snoc .nil hrun) hrun')).1⟩
  · cases hrefused

end OsProjects.Filesystem
