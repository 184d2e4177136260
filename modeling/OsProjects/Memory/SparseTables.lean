import OsProjects.Memory.Mappings

/-!
# Sparse tables

Tables of which any two entries are at least eight bytes apart.  Where no entry
begins, a table reads as zero or as parts of the entries next to that place,
which lead to no table if the memory is placed well enough.
-/

namespace OsProjects.Memory

open Library.Program Library.Bytes

/-- Frame `n` has the words `entry` at the bytes where they are and zeros
elsewhere, and no two words overlap. -/
structure Sparse (m : Buffer memorySize) (n : ℕ) (entry : ℕ → Option ℕ) : Prop where
  apart : ∀ i v j w, entry i = some v → entry j = some w → i ≠ j → i + 8 ≤ j ∨ j + 8 ≤ i
  bounds : ∀ i w, entry i = some w → i < 512 ∧ w < 2 ^ 64
  word : ∀ i w, entry i = some w → ∀ k < 8, byteAt m (n * 4096 + (i + k)) = leByte w k
  zero : ∀ j < 4096, (∀ i w, entry i = some w → j < i ∨ i + 8 ≤ j) → byteAt m (n * 4096 + j) = 0

/-- What is read at byte `d`, where no entry begins. -/
inductive Shifted (entry : ℕ → Option ℕ) (d : ℕ) : ℕ → Prop
  | zero : Shifted entry d 0
  | below {k w : ℕ} (hk : 1 ≤ k) (hlt : k < 8) (hw : entry (d - k) = some w) :
      Shifted entry d (w / 256 ^ k)
  | above {k w : ℕ} (hk : 1 ≤ k) (hlt : k < 8) (hw : entry (d + k) = some w) :
      Shifted entry d (w * 256 ^ k % 2 ^ 64)
  | between {j k v w : ℕ} (hj : 1 ≤ j) (hjlt : j < 8) (hk : 1 ≤ k) (hklt : k < 8)
      (hjk : 8 ≤ j + k) (hv : entry (d - j) = some v) (hw : entry (d + k) = some w) :
      Shifted entry d (v / 256 ^ j + w * 256 ^ k % 2 ^ 64)

/-! ## Reading -/

section Sparse

variable {m m' : Buffer memorySize} {n d : ℕ} {entry : ℕ → Option ℕ}

theorem Sparse.eq_of_near (h : Sparse m n entry) {i v j w : ℕ} (hi : entry i = some v)
    (hj : entry j = some w) (hnear : i < j + 8 ∧ j < i + 8) : i = j := by
  by_contra hne
  have hapart := h.apart i v j w hi hj hne
  omega

theorem Sparse.congr (h : Sparse m n entry) (hagree : Agree m m' n) : Sparse m' n entry where
  apart := h.apart
  bounds := h.bounds
  word i w hw k hk := by
    have hi := (h.bounds i w hw).1
    rw [hagree (i + k) (by omega)]
    exact h.word i w hw k hk
  zero j hj hnone := (hagree j hj).trans (h.zero j hj hnone)

theorem Blank.sparse (h : Blank m n) : Sparse m n fun _ ↦ none where
  apart _ _ _ _ hi := by cases hi
  bounds _ _ hi := by cases hi
  word _ _ hi := by cases hi
  zero j hj _ := h j hj

theorem Sparse.readLE (h : Sparse m n entry) {i w : ℕ} (hw : entry i = some w) :
    readLE m (n * 4096 + i) 8 = w := by
  refine leValue_eq (h.bounds i w hw).2 fun k hk ↦ ?_
  rw [Nat.add_assoc]
  exact h.word i w hw k hk

/-- The words and their places are all that a sparse table is made of. -/
theorem Sparse.agree (h : Sparse m n entry) (h' : Sparse m' n entry) : Agree m m' n := by
  intro j hj
  by_cases hin : ∃ i w, entry i = some w ∧ i ≤ j ∧ j < i + 8
  · obtain ⟨i, w, hw, hle, hlt⟩ := hin
    obtain ⟨k, rfl⟩ := Nat.exists_eq_add_of_le hle
    rw [h.word i w hw k (by omega), h'.word i w hw k (by omega)]
  · have hout : ∀ i w, entry i = some w → j < i ∨ i + 8 ≤ j := by
      intro i w hw
      by_contra! hlt
      exact hin ⟨i, w, hw, hlt⟩
    rw [h.zero j hj hout, h'.zero j hj hout]

/-- Between `d` and `d + l` there are the last bytes of an entry that begins
before `d`, or zeros. -/
theorem Sparse.leValue_below (h : Sparse m n entry) (hd : d < 512) (hnone : entry d = none) {l : ℕ}
    (hl : l ≤ 8) (hfree : ∀ k, 1 ≤ k → k < l → entry (d + k) = none) :
    (∀ k, 1 ≤ k → k < 8 → k ≤ d → entry (d - k) = none) ∧
        leValue (fun i ↦ byteAt m (n * 4096 + d + i)) l = 0 ∨
      ∃ j v, 1 ≤ j ∧ j < 8 ∧ j ≤ d ∧ entry (d - j) = some v ∧
        (8 ≤ j + l → leValue (fun i ↦ byteAt m (n * 4096 + d + i)) l = v / 256 ^ j) := by
  -- an entry over one of these bytes begins before `d`
  have hcover : ∀ r < l, ∀ i w, entry i = some w → i ≤ d + r → d + r < i + 8 → i < d := by
    intro r hr i w hw hle hlt
    by_contra hge
    have hne : i ≠ d := by
      rintro rfl
      rw [hnone] at hw
      cases hw
    have hfree' := hfree (i - d) (by omega) (by omega)
    rw [show d + (i - d) = i by omega, hw] at hfree'
    cases hfree'
  by_cases hbelow : ∀ k, 1 ≤ k → k < 8 → k ≤ d → entry (d - k) = none
  · refine .inl ⟨hbelow, leValue_eq (by positivity) fun r hr ↦ ?_⟩
    rw [Nat.add_assoc, leByte_eq_zero (by positivity)]
    refine h.zero (d + r) (by omega) fun i w hw ↦ ?_
    by_contra! hin
    have hlt := hcover r hr i w hw hin.1 hin.2
    have hnone' := hbelow (d - i) (by omega) (by omega) (by omega)
    rw [show d - (d - i) = i by omega, hw] at hnone'
    cases hnone'
  · push Not at hbelow
    obtain ⟨j, hj, hjlt, hjd, hne⟩ := hbelow
    obtain ⟨v, hv⟩ := Option.ne_none_iff_exists'.mp hne
    have hv64 := (h.bounds _ v hv).2
    refine .inr ⟨j, v, hj, hjlt, hjd, hv, fun hjl ↦ ?_⟩
    have hpow : v < 256 ^ (j + l) := hv64.trans_le <| by
      calc 2 ^ 64 = 256 ^ 8 := by norm_num
        _ ≤ 256 ^ (j + l) := Nat.pow_le_pow_right (by omega) hjl
    have hquot : v / 256 ^ j < 256 ^ l := by
      rw [Nat.pow_add] at hpow
      exact Nat.div_lt_of_lt_mul hpow
    refine leValue_eq hquot fun r hr ↦ ?_
    rw [Nat.add_assoc, leByte_div]
    by_cases hin : j + r < 8
    · have hbyte := h.word (d - j) v hv (j + r) hin
      rwa [show d - j + (j + r) = d + r by omega] at hbyte
    · have hzero : v < 256 ^ (j + r) := hv64.trans_le <| by
        calc 2 ^ 64 = 256 ^ 8 := by norm_num
          _ ≤ 256 ^ (j + r) := Nat.pow_le_pow_right (by omega) (by omega)
      rw [leByte_eq_zero hzero]
      refine h.zero (d + r) (by omega) fun i w hw ↦ ?_
      by_contra! hin'
      have hlt := hcover r hr i w hw hin'.1 hin'.2
      have hsame := h.eq_of_near hw hv (by omega)
      omega

theorem Sparse.shifted (h : Sparse m n entry) (hd : d < 512) (hnone : entry d = none) :
    Shifted entry d (Library.Bytes.readLE m (n * 4096 + d) 8) := by
  rw [Library.Bytes.readLE]
  by_cases habove : ∃ k, 1 ≤ k ∧ k < 8 ∧ entry (d + k) ≠ none
  · obtain ⟨k, hk, hklt, hne⟩ := habove
    obtain ⟨w, hw⟩ := Option.ne_none_iff_exists'.mp hne
    have hfree : ∀ j, 1 ≤ j → j < k → entry (d + j) = none := by
      intro j hj hjk
      by_contra hsome
      obtain ⟨v, hv⟩ := Option.ne_none_iff_exists'.mp hsome
      have hsame := h.eq_of_near hv hw (by omega)
      omega
    have hhigh : leValue (fun i ↦ byteAt m (n * 4096 + d + (k + i))) (8 - k) = w % 256 ^ (8 - k) := by
      rw [← leValue_leByte]
      refine leValue_congr fun i hi ↦ ?_
      have hbyte := h.word (d + k) w hw i (by omega)
      rwa [show n * 4096 + (d + k + i) = n * 4096 + d + (k + i) by omega] at hbyte
    have hsplit := leValue_add (fun i ↦ byteAt m (n * 4096 + d + i)) k (8 - k)
    rw [Nat.add_sub_cancel' hklt.le, hhigh, ← Nat.mul_mod_mul_left, ← Nat.pow_add,
      Nat.add_sub_cancel' hklt.le, Nat.mul_comm (256 ^ k) w] at hsplit
    rw [hsplit]
    rcases h.leValue_below hd hnone hklt.le hfree with ⟨-, hlow⟩ | ⟨j, v, hj, hjlt, hjd, hv, hlow⟩
    · rw [hlow, Nat.zero_add]
      exact .above hk hklt hw
    · have hapart := h.apart _ v _ w hv hw (by omega)
      rw [hlow (by omega)]
      exact .between hj hjlt hk hklt (by omega) hv hw
  · have hfree : ∀ k, 1 ≤ k → k < 8 → entry (d + k) = none := by
      intro k hk hlt
      by_contra hsome
      exact habove ⟨k, hk, hlt, hsome⟩
    rcases h.leValue_below hd hnone le_rfl hfree with ⟨-, hlow⟩ | ⟨j, v, hj, hjlt, hjd, hv, hlow⟩
    · rw [hlow]
      exact .zero
    · rw [hlow (by omega)]
      exact .below hj hjlt hv

/-- One byte further on there are the upper bytes of an entry. -/
theorem Sparse.readLE_next (h : Sparse m n entry) {i w : ℕ} (hw : entry i = some w) :
    ∃ c, Library.Bytes.readLE m (n * 4096 + (i + 1)) 8 = w / 256 + 2 ^ 56 * c := by
  have hbound := (h.bounds i w hw).2
  have hlow : leValue (fun k ↦ byteAt m (n * 4096 + (i + 1) + k)) 7 = w / 256 := by
    refine leValue_eq (by omega) fun k hk ↦ ?_
    have hbyte := h.word i w hw (1 + k) (by omega)
    rw [← leByte_div, pow_one] at hbyte
    rwa [show n * 4096 + (i + 1) + k = n * 4096 + (i + (1 + k)) by omega]
  refine ⟨leValue (fun k ↦ byteAt m (n * 4096 + (i + 1) + (7 + k))) 1, ?_⟩
  rw [Library.Bytes.readLE, leValue_add _ 7 1, hlow, show 256 ^ 7 = 2 ^ 56 by norm_num]

/-- Where no entry begins a table does not read as a mapping, if no entry does
so a few bytes early. -/
theorem Sparse.flags_ne_one (h : Sparse m n entry) (hd : d < 512) (hnone : entry d = none)
    (hwords : ∀ i w, entry i = some w → w < 2 ^ 56)
    (hquiet : ∀ k w, 1 ≤ k → k ≤ 6 → entry (d + k) = some w → w / 2 ^ (55 - 8 * k) % 2 ^ 9 ≠ 1) :
    (Entry.ofWord (Library.Bytes.readLE m (n * 4096 + d) 8)).flags.toNat ≠ 1 := by
  have hflags : ∀ x, (Entry.ofWord x).flags.toNat = x / 2 ^ 55 % 2 ^ 9 := fun x ↦
    BitVec.toNat_ofNat _ 9
  have hhigh : ∀ v k w, 1 ≤ k → k < 8 → v < 256 ^ k → v < 2 ^ 55 → entry (d + k) = some w →
      (v + w * 256 ^ k % 2 ^ 64) / 2 ^ 55 % 2 ^ 9 ≠ 1 := by
    intro v k w hk hlt hv hv55 hw
    by_cases hk6 : k ≤ 6
    · have hquiet' := hquiet k w hk hk6 hw
      interval_cases k <;> omega
    · obtain rfl : k = 7 := by omega
      omega
  rw [hflags]
  have hshifted := h.shifted hd hnone
  generalize Library.Bytes.readLE m (n * 4096 + d) 8 = x at hshifted
  cases hshifted with
  | zero => decide
  | @below k w hk hlt hw =>
      have hquot : w / 256 ^ k ≤ w / 256 ^ 1 := Nat.div_le_div_left (Nat.pow_le_pow_right (by omega) hk)
        (by positivity)
      have hbound := hwords _ w hw
      rw [Nat.div_eq_of_lt (show w / 256 ^ k < 2 ^ 55 by omega)]
      decide
  | @above k w hk hlt hw =>
      have hzero := hhigh 0 k w hk hlt (by positivity) (by positivity) hw
      rwa [Nat.zero_add] at hzero
  | @between j k v w hj hjlt hk hklt hjk hv hw =>
      have hbound := hwords _ v hv
      have hlow : v / 256 ^ j < 256 ^ k := by
        refine Nat.div_lt_of_lt_mul (hbound.trans_le ?_)
        calc 2 ^ 56 ≤ 256 ^ 8 := by norm_num
          _ ≤ 256 ^ (j + k) := Nat.pow_le_pow_right (by omega) hjk
          _ = 256 ^ j * 256 ^ k := Nat.pow_add ..
      have hquot : v / 256 ^ j ≤ v / 256 ^ 1 := Nat.div_le_div_left (Nat.pow_le_pow_right (by omega) hj)
        (by positivity)
      exact hhigh _ k w hk hklt hlow (by omega) hw

/-! ## Writing -/

/-- A place for an entry: no other entry is within eight bytes of it. -/
def Gap (entry : ℕ → Option ℕ) (d : ℕ) : Prop :=
  ∀ i, entry i ≠ none → i = d ∨ i + 8 ≤ d ∨ d + 8 ≤ i

theorem Sparse.readLE_of_gap (h : Sparse m n entry) (hd : d < 512) (hgap : Gap entry d)
    (hfree : entry d = none ∨ entry d = some 0) : Library.Bytes.readLE m (n * 4096 + d) 8 = 0 := by
  rcases hfree with hnone | hzero
  · refine leValue_eq (by positivity) fun k hk ↦ ?_
    rw [Nat.add_assoc, leByte_eq_zero (by positivity)]
    refine h.zero (d + k) (by omega) fun i w hw ↦ ?_
    have hi := hgap i (by rw [hw]; exact Option.some_ne_none w)
    have hne : i ≠ d := by
      rintro rfl
      rw [hnone] at hw
      cases hw
    omega
  · exact h.readLE hzero

theorem Sparse.writeLE (h : Sparse m n entry) (hn : n < numFrames) (hd : d < 512)
    (hgap : Gap entry d) {w : ℕ} (hw : w < 2 ^ 64) :
    Sparse (writeLE m (n * 4096 + d) 8 w) n (Function.update entry d (some w)) := by
  have hbound := frame_bound hn
  have hold : ∀ i v, Function.update entry d (some w) i = some v → i ≠ d → entry i = some v ∧
      (i + 8 ≤ d ∨ d + 8 ≤ i) := by
    intro i v hi hne
    rw [Function.update_of_ne hne] at hi
    exact ⟨hi, (hgap i (by rw [hi]; exact Option.some_ne_none v)).resolve_left hne⟩
  refine ⟨fun i v j u hi hj hne ↦ ?_, fun i v hi ↦ ?_, fun i v hi k hk ↦ ?_, fun j hj hnone ↦ ?_⟩
  · by_cases hid : i = d
    · obtain ⟨-, hapart⟩ := hold j u hj fun hjd ↦ hne (hid.trans hjd.symm)
      omega
    · obtain ⟨hi', hapart⟩ := hold i v hi hid
      by_cases hjd : j = d
      · omega
      · exact h.apart i v j u hi' (hold j u hj hjd).1 hne
  · by_cases hid : i = d
    · subst hid
      rw [Function.update_self] at hi
      exact ⟨hd, Option.some.inj hi ▸ hw⟩
    · exact h.bounds i v (hold i v hi hid).1
  · by_cases hid : i = d
    · subst hid
      rw [Function.update_self] at hi
      cases hi
      rw [Library.Bytes.writeLE, byteAt_copyInto _ _ _ _ (by omega), if_pos (by omega)]
      congr 1
      omega
    · obtain ⟨hi', hapart⟩ := hold i v hi hid
      rw [byteAt_writeLE_of_disjoint _ _ (by omega)]
      exact h.word i v hi' k hk
  · have hout := hnone d w (Function.update_self ..)
    rw [byteAt_writeLE_of_disjoint _ _ (by omega)]
    refine h.zero j hj fun i v hi ↦ ?_
    by_cases hid : i = d
    · exact hid ▸ hout
    · exact hnone i v (by rwa [Function.update_of_ne hid])

end Sparse

/-! ## Tables of tables -/

/-- The memory is well placed also for two entries next to each other. -/
structure Isolated (base : ℕ) : Prop extends WellPlaced base where
  mixed : ∀ n < numFrames, ∀ n' < numFrames, ∀ j k, 1 ≤ j → j < 8 → 1 ≤ k → k < 8 → 8 ≤ j + k →
    Stray base ((frameAddress base n / 256 ^ j + frameAddress base n' * 256 ^ k) % 2 ^ 52)

theorem isolated_two_pow : Isolated (2 ^ 32) := by
  refine ⟨wellPlaced_two_pow, fun n hn n' hn' j k hj hjlt hk hklt hjk ↦ ?_⟩
  have hsize : memorySize = 4194304 := by decide
  have hframes : n < 1024 := hn
  have hframes' : n' < 1024 := hn'
  simp only [Stray, frameAddress]
  interval_cases j <;> interval_cases k <;> omega

/-- The entries are the addresses of frames. -/
def Leading (base : ℕ) (entry : ℕ → Option ℕ) : Prop :=
  ∀ i w, entry i = some w → ∃ n < numFrames, w = frameAddress base n

theorem Shifted.stray {base d w : ℕ} {entry : ℕ → Option ℕ} (hbase : Isolated base)
    (hentry : Leading base entry) (h : Shifted entry d w) : Stray base (w % 2 ^ 52) := by
  cases h with
  | zero => exact .inl rfl
  | @below k v hk hlt hw =>
      obtain ⟨n, hn, rfl⟩ := hentry _ _ hw
      have hstray := (hbase.stray n hn k hk hlt).1
      have hdiv := Nat.div_le_self (frameAddress base n) (256 ^ k)
      have hbound := hbase.toWellPlaced.frameAddress_lt hn
      rwa [Nat.mod_eq_of_lt (by omega)]
  | @above k v hk hlt hw =>
      obtain ⟨n, hn, rfl⟩ := hentry _ _ hw
      rw [Nat.mod_mod_of_dvd _ (by norm_num)]
      exact (hbase.stray n hn k hk hlt).2
  | @between j k u v hj hjlt hk hklt hjk hv hw =>
      obtain ⟨n, hn, rfl⟩ := hentry _ _ hv
      obtain ⟨n', hn', rfl⟩ := hentry _ _ hw
      have hmixed := hbase.mixed n hn n' hn' j k hj hjlt hk hklt hjk
      rwa [Nat.add_mod, Nat.mod_mod_of_dvd _ (show 2 ^ 52 ∣ 2 ^ 64 by norm_num), ← Nat.add_mod]

end OsProjects.Memory
