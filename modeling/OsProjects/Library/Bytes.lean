import Mathlib.Data.Nat.Bitwise
import Mathlib.Tactic.Positivity
import Mathlib.Tactic.Ring
import Mathlib.Tactic.IntervalCases

/-!
# Fixed-size buffers of bytes

Buffers are functions on `Fin n`, read through the total accessor `byteAt`.
Three views of a buffer are developed: windows overwritten by a copy,
little-endian numbers, and single bits.  Each update has one law for what it
changes and one for what it leaves alone.
-/

namespace OsProjects.Library.Bytes

abbrev Buffer (n : ℕ) := Fin n → UInt8

variable {n : ℕ}

def byteAt (b : Buffer n) (i : ℕ) : UInt8 :=
  if h : i < n then b ⟨i, h⟩ else 0

theorem byteAt_of_lt (b : Buffer n) {i : ℕ} (h : i < n) : byteAt b i = b ⟨i, h⟩ := by
  simp [byteAt, h]

theorem byteAt_of_le (b : Buffer n) {i : ℕ} (h : n ≤ i) : byteAt b i = 0 := by
  simp [byteAt, h]

theorem buffer_ext {b c : Buffer n} (h : ∀ i < n, byteAt b i = byteAt c i) : b = c := by
  funext i
  have hi := h i.val i.isLt
  rwa [byteAt_of_lt b i.isLt, byteAt_of_lt c i.isLt] at hi

/-! ## Windows -/

/-- Overwrite the window `[off, off + len)` of a buffer with the bytes of `src`. -/
def copyInto (dst : Buffer n) (off len : ℕ) (src : ℕ → UInt8) : Buffer n := fun i ↦
  if off ≤ i.val ∧ i.val < off + len then src (i.val - off) else dst i

theorem byteAt_copyInto (dst : Buffer n) (off len : ℕ) (src : ℕ → UInt8) {i : ℕ} (hi : i < n) :
    byteAt (copyInto dst off len src) i =
      if off ≤ i ∧ i < off + len then src (i - off) else byteAt dst i := by
  rw [byteAt_of_lt _ hi, byteAt_of_lt _ hi]
  rfl

theorem byteAt_copyInto_of_disjoint (dst : Buffer n) {off len i : ℕ} (src : ℕ → UInt8)
    (h : i < off ∨ off + len ≤ i) : byteAt (copyInto dst off len src) i = byteAt dst i := by
  by_cases hi : i < n
  · rw [byteAt_copyInto dst off len src hi, if_neg (by omega)]
  · rw [byteAt_of_le _ (by omega), byteAt_of_le _ (by omega)]

@[simp] theorem copyInto_copyInto_self (dst : Buffer n) (off len : ℕ) (src src' : ℕ → UInt8) :
    copyInto (copyInto dst off len src) off len src' = copyInto dst off len src' := by
  funext i
  simp only [copyInto]
  split <;> rfl

/-- Overwrite the window `[off, off + len)` of an unbounded memory. -/
def copyOver (dst : ℕ → UInt8) (off len : ℕ) (src : ℕ → UInt8) : ℕ → UInt8 := fun i ↦
  if off ≤ i ∧ i < off + len then src (i - off) else dst i

theorem copyOver_append (dst : ℕ → UInt8) (len more : ℕ) (src : ℕ → UInt8) :
    copyOver (copyOver dst 0 len src) len more (fun i ↦ src (len + i)) =
      copyOver dst 0 (len + more) src := by
  funext i
  simp only [copyOver]
  split
  · rw [if_pos (by omega)]
    congr 1
    omega
  · split
    · rw [if_pos (by omega)]
    · rw [if_neg (by omega)]

/-! ## Little-endian numbers -/

/-- The number whose `k` little-endian bytes are `f 0, …, f (k - 1)`. -/
def leValue (f : ℕ → UInt8) : ℕ → ℕ
  | 0 => 0
  | k + 1 => leValue f k + 256 ^ k * (f k).toNat

def leByte (v i : ℕ) : UInt8 := UInt8.ofNat (v / 256 ^ i)

theorem leValue_congr {f g : ℕ → UInt8} {k : ℕ} (h : ∀ i < k, f i = g i) :
    leValue f k = leValue g k := by
  induction k with
  | zero => rfl
  | succ k ih =>
      rw [leValue, leValue, ih fun i hi ↦ h i (by omega), h k (by omega)]

theorem leValue_leByte (v k : ℕ) : leValue (leByte v) k = v % 256 ^ k := by
  induction k with
  | zero => simp [leValue, Nat.mod_one]
  | succ k ih =>
      rw [leValue, ih, leByte, Nat.mod_pow_succ]
      simp

theorem leValue_eq {f : ℕ → UInt8} {v k : ℕ} (hv : v < 256 ^ k) (h : ∀ i < k, f i = leByte v i) :
    leValue f k = v := by
  rw [leValue_congr h, leValue_leByte, Nat.mod_eq_of_lt hv]

theorem leValue_lt (f : ℕ → UInt8) (k : ℕ) : leValue f k < 256 ^ k := by
  induction k with
  | zero => simp [leValue]
  | succ k ih =>
      have hbyte : 256 ^ k * (f k).toNat ≤ 256 ^ k * 255 :=
        Nat.mul_le_mul_left _ (by have := (f k).toNat_lt; omega)
      rw [leValue, Nat.pow_succ]
      omega

theorem leValue_add (f : ℕ → UInt8) (j k : ℕ) :
    leValue f (j + k) = leValue f j + 256 ^ j * leValue (fun i ↦ f (j + i)) k := by
  induction k with
  | zero => simp [leValue]
  | succ k ih =>
      rw [← Nat.add_assoc, leValue, ih, leValue, Nat.pow_add]
      ring

theorem leByte_div (v j i : ℕ) : leByte (v / 256 ^ j) i = leByte v (j + i) := by
  rw [leByte, leByte, Nat.div_div_eq_div_mul, Nat.pow_add]

theorem leByte_eq_zero {v i : ℕ} (h : v < 256 ^ i) : leByte v i = 0 := by
  rw [leByte, Nat.div_eq_of_lt h]
  rfl

theorem leByte_mul_add (v j i : ℕ) : leByte (v * 256 ^ j) (j + i) = leByte v i := by
  rw [← leByte_div, Nat.mul_div_cancel _ (by positivity)]

theorem leByte_mul_of_lt (v : ℕ) {j i : ℕ} (h : i < j) : leByte (v * 256 ^ j) i = 0 := by
  have hpow : v * 256 ^ j / 256 ^ i = 256 * (v * 256 ^ (j - i - 1)) := by
    rw [show j = i + (j - i - 1) + 1 by omega, Nat.pow_succ, Nat.pow_add,
      show i + (j - i - 1) + 1 - i - 1 = j - i - 1 by omega]
    apply Nat.div_eq_of_eq_mul_right (by positivity)
    ring
  rw [leByte, hpow]
  apply UInt8.toNat_inj.mp
  simp

def readLE (b : Buffer n) (off k : ℕ) : ℕ := leValue (fun i ↦ byteAt b (off + i)) k

def writeLE (b : Buffer n) (off k v : ℕ) : Buffer n := copyInto b off k (leByte v)

theorem readLE_congr {b c : Buffer n} {off k : ℕ}
    (h : ∀ i, off ≤ i → i < off + k → byteAt b i = byteAt c i) :
    readLE b off k = readLE c off k :=
  leValue_congr fun i hi ↦ h (off + i) (by omega) (by omega)

theorem readLE_writeLE (b : Buffer n) {off k v : ℕ} (hn : off + k ≤ n) (hv : v < 256 ^ k) :
    readLE (writeLE b off k v) off k = v := by
  have hbytes : readLE (writeLE b off k v) off k = leValue (leByte v) k := by
    apply leValue_congr
    intro i hi
    rw [writeLE, byteAt_copyInto _ _ _ _ (by omega), if_pos (by omega)]
    simp
  rw [hbytes, leValue_leByte, Nat.mod_eq_of_lt hv]

theorem readLE_writeLE_of_disjoint (b : Buffer n) {off k off' k' : ℕ} (v : ℕ)
    (h : off' + k' ≤ off ∨ off + k ≤ off') :
    readLE (writeLE b off k v) off' k' = readLE b off' k' := by
  apply readLE_congr
  intro i hi hlt
  exact byteAt_copyInto_of_disjoint b (leByte v) (by omega)

theorem byteAt_writeLE_of_disjoint (b : Buffer n) {off k i : ℕ} (v : ℕ)
    (h : i < off ∨ off + k ≤ i) : byteAt (writeLE b off k v) i = byteAt b i :=
  byteAt_copyInto_of_disjoint b (leByte v) h

/-! ## Single bits -/

/-- Bit `r` of a buffer: bit `r % 8` of byte `r / 8`. -/
def bitAt (b : Buffer n) (r : ℕ) : Bool := (byteAt b (r / 8)).toNat.testBit (r % 8)

def mapByte (b : Buffer n) (j : ℕ) (f : UInt8 → UInt8) : Buffer n := fun i ↦
  if i.val = j then f (b i) else b i

/-- `b[j] |= (1 << k)` -/
def setBit (b : Buffer n) (j k : ℕ) : Buffer n :=
  mapByte b j fun x ↦ x ||| (1 <<< UInt8.ofNat k)

/-- `b[j] &= ~(1 << k)` -/
def clearBit (b : Buffer n) (j k : ℕ) : Buffer n :=
  mapByte b j fun x ↦ x &&& ~~~(1 <<< UInt8.ofNat k)

theorem toNat_one_shiftLeft {k : ℕ} (hk : k < 8) :
    ((1 : UInt8) <<< UInt8.ofNat k).toNat = 2 ^ k := by
  interval_cases k <;> rfl

theorem testBit_or_mask (x : UInt8) {k q : ℕ} (hk : k < 8) :
    (x ||| (1 <<< UInt8.ofNat k)).toNat.testBit q = (x.toNat.testBit q || decide (k = q)) := by
  rw [UInt8.toNat_or, Nat.testBit_or, toNat_one_shiftLeft hk, Nat.testBit_two_pow]

theorem testBit_and_not_mask (x : UInt8) {k q : ℕ} (hk : k < 8) :
    (x &&& ~~~(1 <<< UInt8.ofNat k)).toNat.testBit q =
      (x.toNat.testBit q && !decide (k = q)) := by
  have hmask : (~~~((1 : UInt8) <<< UInt8.ofNat k)).toNat = 2 ^ 8 - (2 ^ k + 1) := by
    interval_cases k <;> rfl
  have hpow : 2 ^ k < 2 ^ 8 := Nat.pow_lt_pow_right (by omega) hk
  rw [UInt8.toNat_and, Nat.testBit_and, hmask, Nat.testBit_two_pow_sub_succ hpow,
    Nat.testBit_two_pow]
  by_cases hq : q < 8
  · simp [hq]
  · have hx : x.toNat.testBit q = false := by
      apply Nat.testBit_lt_two_pow
      calc x.toNat < 2 ^ 8 := x.toNat_lt
        _ ≤ 2 ^ q := Nat.pow_le_pow_right (by omega) (by omega)
    simp [hx]

theorem and_mask_eq_zero_iff (x : UInt8) {k : ℕ} (hk : k < 8) :
    x &&& (1 <<< UInt8.ofNat k) = 0 ↔ x.toNat.testBit k = false := by
  rw [← UInt8.toNat_inj, UInt8.toNat_and, toNat_one_shiftLeft hk, Nat.and_two_pow]
  cases x.toNat.testBit k <;> simp

theorem byteAt_mapByte (b : Buffer n) {j : ℕ} (f : UInt8 → UInt8) (i : ℕ) (hj : j < n) :
    byteAt (mapByte b j f) i = if i = j then f (byteAt b j) else byteAt b i := by
  by_cases hi : i < n
  · rw [byteAt_of_lt _ hi, byteAt_of_lt _ hi, byteAt_of_lt _ hj, mapByte]
    by_cases hij : i = j
    · subst hij
      simp
    · simp [hij]
  · rw [if_neg (by omega), byteAt_of_le _ (by omega), byteAt_of_le _ (by omega)]

/-- A byte operation that acts on bit `r % 8` of byte `r / 8` only, by `g`,
acts on bit `r` of the buffer only. -/
theorem bitAt_mapByte (b : Buffer n) {r : ℕ} (q : ℕ) (hr : r / 8 < n)
    {f : UInt8 → UInt8} {g : Bool → Bool → Bool}
    (hf : ∀ (x : UInt8) (k : ℕ),
      (f x).toNat.testBit k = g (x.toNat.testBit k) (decide (r % 8 = k)))
    (hg : ∀ old, g old false = old) :
    bitAt (mapByte b (r / 8) f) q = g (bitAt b q) (decide (q = r)) := by
  rw [bitAt, byteAt_mapByte b f (q / 8) hr]
  by_cases hbyte : q / 8 = r / 8
  · rw [if_pos hbyte, hf, bitAt, hbyte]
    congr 1
    exact decide_eq_decide.mpr (by omega)
  · have hne : q ≠ r := fun h ↦ hbyte (by rw [h])
    rw [if_neg hbyte, decide_eq_false hne, hg, bitAt]

theorem mapByte_mapByte (b : Buffer n) (j : ℕ) {f : UInt8 → UInt8} (hf : ∀ x, f (f x) = f x) :
    mapByte (mapByte b j f) j f = mapByte b j f := by
  funext i
  by_cases hi : i.val = j
  · simp [mapByte, hi, hf]
  · simp [mapByte, hi]

@[simp] theorem setBit_setBit (b : Buffer n) (j k : ℕ) :
    setBit (setBit b j k) j k = setBit b j k :=
  mapByte_mapByte b j fun x ↦ by rw [UInt8.or_assoc, UInt8.or_self]

@[simp] theorem clearBit_clearBit (b : Buffer n) (j k : ℕ) :
    clearBit (clearBit b j k) j k = clearBit b j k :=
  mapByte_mapByte b j fun x ↦ by rw [UInt8.and_assoc, UInt8.and_self]

theorem bitAt_setBit (b : Buffer n) {r : ℕ} (q : ℕ) (hr : r / 8 < n) :
    bitAt (setBit b (r / 8) (r % 8)) q = (bitAt b q || decide (q = r)) :=
  bitAt_mapByte b q hr (fun x _ ↦ testBit_or_mask x (Nat.mod_lt r (by omega))) Bool.or_false

theorem bitAt_clearBit (b : Buffer n) {r : ℕ} (q : ℕ) (hr : r / 8 < n) :
    bitAt (clearBit b (r / 8) (r % 8)) q = (bitAt b q && !decide (q = r)) :=
  bitAt_mapByte (g := fun old hit ↦ old && !hit) b q hr
    (fun x _ ↦ testBit_and_not_mask x (Nat.mod_lt r (by omega))) (by simp)

theorem eq_zero_of_bitAt {b : Buffer n} (h : ∀ r < n * 8, bitAt b r = false) : b = fun _ ↦ 0 := by
  refine buffer_ext fun j hj ↦ ?_
  rw [byteAt_of_lt (fun _ ↦ 0) hj]
  apply UInt8.toNat_inj.mp
  apply Nat.eq_of_testBit_eq
  intro k
  rw [UInt8.toNat_zero, Nat.zero_testBit]
  by_cases hk : k < 8
  · have hbit := h (j * 8 + k) (by omega)
    rwa [bitAt, show (j * 8 + k) / 8 = j by omega, show (j * 8 + k) % 8 = k by omega] at hbit
  · apply Nat.testBit_lt_two_pow
    calc (byteAt b j).toNat < 2 ^ 8 := (byteAt b j).toNat_lt
      _ ≤ 2 ^ k := Nat.pow_le_pow_right (by omega) (by omega)

end OsProjects.Library.Bytes
