import OsProjects.Library.Runs
import Mathlib.Data.Finset.Card
import Mathlib.Order.Interval.Finset.Nat
import Mathlib.Data.List.Nodup
import Mathlib.Tactic.Common

/-!
# First-fit allocation of numbers

An allocator over the numbers `[lo, hi)` hands out the least number not yet
taken and marks it.  The set of taken numbers is a Boolean function, so that a
bitmap instantiates it directly.  The main facts concern a series of
allocations: it can be cut anywhere, and it stays below every bound under which
enough numbers are free.  In a run in which every step takes the least free
number, the numbers taken increase.
-/

namespace OsProjects.Library.FirstFit

theorem findSome?_range'_eq_some_iff {α : Type} {f : ℕ → Option α} {start count : ℕ} {a : α} :
    (List.range' start count).findSome? f = some a ↔
      ∃ i, start ≤ i ∧ i < start + count ∧ f i = some a ∧
        ∀ j, start ≤ j → j < i → f j = none := by
  induction count generalizing start with
  | zero =>
      simp only [List.range'_zero, List.findSome?_nil, reduceCtorEq, false_iff]
      rintro ⟨i, hi, hlt, -⟩
      omega
  | succ count ih =>
      rw [List.range'_succ, List.findSome?_cons]
      cases hf : f start with
      | some b =>
          constructor
          · intro h
            exact ⟨start, by omega, by omega, by rw [hf]; exact h, fun j hj hlt ↦ by omega⟩
          · rintro ⟨i, hi, -, hfi, hbefore⟩
            rcases Nat.lt_or_ge start i with hlt | hge
            · simp [hbefore start (by omega) hlt] at hf
            · obtain rfl : i = start := by omega
              rw [← hfi, hf]
      | none =>
          rw [ih]
          constructor
          · rintro ⟨i, hi, hlt, hfi, hbefore⟩
            refine ⟨i, by omega, by omega, hfi, fun j hj hji ↦ ?_⟩
            rcases Nat.eq_or_lt_of_le hj with rfl | hstart
            · exact hf
            · exact hbefore j (by omega) hji
          · rintro ⟨i, hi, hlt, hfi, hbefore⟩
            have hne : i ≠ start := by
              rintro rfl
              simp [hf] at hfi
            exact ⟨i, by omega, by omega, hfi, fun j hj hji ↦ hbefore j (by omega) hji⟩

theorem findSome?_range'_eq_none_iff {α : Type} {f : ℕ → Option α} {start count : ℕ} :
    (List.range' start count).findSome? f = none ↔
      ∀ i, start ≤ i → i < start + count → f i = none := by
  simp only [List.findSome?_eq_none_iff, List.mem_range'_1]
  constructor
  · intro h i hi hlt
    exact h i ⟨hi, hlt⟩
  · intro h i hi
    exact h i hi.1 hi.2

variable (lo hi : ℕ)

/-- The least number of `[lo, hi)` that is not taken. -/
def nextFree (taken : ℕ → Bool) : Option ℕ :=
  (List.range' lo (hi - lo)).find? fun r ↦ !taken r

def mark (taken : ℕ → Bool) (r : ℕ) : ℕ → Bool := fun q ↦ taken q || decide (q = r)

/-- The numbers handed out by `count` allocations in a row, if none of them fails. -/
def takeFree : ℕ → (ℕ → Bool) → Option (List ℕ)
  | 0, _ => some []
  | count + 1, taken =>
      match nextFree lo hi taken with
      | none => none
      | some r => (takeFree count (mark taken r)).map (r :: ·)

def markAll (taken : ℕ → Bool) (rs : List ℕ) : ℕ → Bool := rs.foldl mark taken

variable {lo hi} {taken : ℕ → Bool}

theorem nextFree_eq_some_iff {r : ℕ} :
    nextFree lo hi taken = some r ↔
      lo ≤ r ∧ r < hi ∧ taken r = false ∧ ∀ q, lo ≤ q → q < r → taken q = true := by
  rw [nextFree, List.find?_range'_eq_some, List.mem_range'_1]
  simp only [Bool.not_eq_true', Bool.not_not]
  constructor
  · rintro ⟨hfree, ⟨hlo, hhi⟩, hleast⟩
    exact ⟨hlo, by omega, hfree, hleast⟩
  · rintro ⟨hlo, hhi, hfree, hleast⟩
    exact ⟨hfree, ⟨hlo, by omega⟩, hleast⟩

theorem nextFree_eq_none_iff :
    nextFree lo hi taken = none ↔ ∀ q, lo ≤ q → q < hi → taken q = true := by
  simp only [nextFree, List.find?_eq_none, List.mem_range'_1]
  constructor
  · intro h q hlo hhi
    simpa using h q ⟨hlo, by omega⟩
  · intro h q hq
    simpa using h q hq.1 (by omega)

@[simp] theorem mark_apply (r q : ℕ) : mark taken r q = (taken q || decide (q = r)) := rfl

@[simp] theorem takeFree_zero : takeFree lo hi 0 taken = some [] := rfl

theorem takeFree_succ_eq_some_iff {count : ℕ} {rs : List ℕ} :
    takeFree lo hi (count + 1) taken = some rs ↔
      ∃ r rest, nextFree lo hi taken = some r ∧
        takeFree lo hi count (mark taken r) = some rest ∧ rs = r :: rest := by
  rw [takeFree]
  cases nextFree lo hi taken with
  | none => simp
  | some r =>
      simp only [Option.map_eq_some_iff, Option.some.injEq]
      constructor
      · rintro ⟨rest, hrest, rfl⟩
        exact ⟨r, rest, rfl, hrest, rfl⟩
      · rintro ⟨_, rest, rfl, hrest, rfl⟩
        exact ⟨rest, hrest, rfl⟩

@[simp] theorem markAll_nil : markAll taken [] = taken := rfl

@[simp] theorem markAll_cons (r : ℕ) (rs : List ℕ) :
    markAll taken (r :: rs) = markAll (mark taken r) rs := rfl

theorem markAll_apply (rs : List ℕ) (q : ℕ) :
    markAll taken rs q = (taken q || decide (q ∈ rs)) := by
  induction rs generalizing taken with
  | nil => simp
  | cons r rs ih =>
      rw [markAll_cons, ih, mark_apply]
      simp [Bool.or_assoc]

theorem takeFree_length {count : ℕ} {rs : List ℕ} (h : takeFree lo hi count taken = some rs) :
    rs.length = count := by
  induction count generalizing taken rs with
  | zero =>
      simp only [takeFree_zero, Option.some.injEq] at h
      simp [← h]
  | succ count ih =>
      obtain ⟨r, rest, -, hrest, rfl⟩ := takeFree_succ_eq_some_iff.mp h
      simp [ih hrest]

theorem takeFree_mem {count : ℕ} {rs : List ℕ} (h : takeFree lo hi count taken = some rs)
    {r : ℕ} (hr : r ∈ rs) : lo ≤ r ∧ r < hi ∧ taken r = false := by
  induction count generalizing taken rs with
  | zero =>
      simp only [takeFree_zero, Option.some.injEq] at h
      simp [← h] at hr
  | succ count ih =>
      obtain ⟨first, rest, hfirst, hrest, rfl⟩ := takeFree_succ_eq_some_iff.mp h
      rcases List.mem_cons.mp hr with rfl | hmem
      · obtain ⟨hlo, hhi, hfree, -⟩ := nextFree_eq_some_iff.mp hfirst
        exact ⟨hlo, hhi, hfree⟩
      · obtain ⟨hlo, hhi, hfree⟩ := ih hrest hmem
        simp only [mark_apply, Bool.or_eq_false_iff] at hfree
        exact ⟨hlo, hhi, hfree.1⟩

theorem takeFree_nodup {count : ℕ} {rs : List ℕ} (h : takeFree lo hi count taken = some rs) :
    rs.Nodup := by
  induction count generalizing taken rs with
  | zero =>
      simp only [takeFree_zero, Option.some.injEq] at h
      simp [← h]
  | succ count ih =>
      obtain ⟨r, rest, -, hrest, rfl⟩ := takeFree_succ_eq_some_iff.mp h
      refine List.nodup_cons.mpr ⟨fun hmem ↦ ?_, ih hrest⟩
      have hfree := (takeFree_mem hrest hmem).2.2
      simp at hfree

theorem takeFree_add {first second : ℕ} {xs ys : List ℕ}
    (hxs : takeFree lo hi first taken = some xs)
    (hys : takeFree lo hi second (markAll taken xs) = some ys) :
    takeFree lo hi (first + second) taken = some (xs ++ ys) := by
  induction first generalizing taken xs with
  | zero =>
      simp only [takeFree_zero, Option.some.injEq] at hxs
      subst hxs
      simpa using hys
  | succ first ih =>
      obtain ⟨r, rest, hr, hrest, rfl⟩ := takeFree_succ_eq_some_iff.mp hxs
      rw [Nat.add_right_comm]
      exact takeFree_succ_eq_some_iff.mpr ⟨r, rest ++ ys, hr, ih hrest hys, rfl⟩

theorem takeFree_split {first second : ℕ} {rs : List ℕ}
    (h : takeFree lo hi (first + second) taken = some rs) :
    ∃ xs ys, takeFree lo hi first taken = some xs ∧
      takeFree lo hi second (markAll taken xs) = some ys ∧ rs = xs ++ ys := by
  induction first generalizing taken rs with
  | zero => exact ⟨[], rs, rfl, by simpa using h, rfl⟩
  | succ first ih =>
      rw [Nat.add_right_comm] at h
      obtain ⟨r, rest, hr, hrest, rfl⟩ := takeFree_succ_eq_some_iff.mp h
      obtain ⟨xs, ys, hxs, hys, rfl⟩ := ih hrest
      exact ⟨r :: xs, ys, takeFree_succ_eq_some_iff.mpr ⟨r, xs, hr, hxs, rfl⟩, hys, rfl⟩

/-! ## Runs -/

section Runs

variable {σ : Type*} {bits : σ → ℕ → Bool} {step : σ → ℕ → σ → Prop} {I : σ → Prop}

/-- After a run everything up to the last number taken is taken, so that the next
one is greater. -/
theorem pairwise_of_run
    (hstep : ∀ s r t, I s → step s r t →
      I t ∧ nextFree lo hi (bits s) = some r ∧ bits t = mark (bits s) r)
    {s t : σ} {rs : List ℕ} (hs : I s) (h : Runs.Run step s rs t) :
    I t ∧ rs.Pairwise (· < ·) ∧ ∀ r ∈ rs, ∀ q, lo ≤ q → q ≤ r → bits t q = true := by
  induction h with
  | nil => exact ⟨hs, .nil, fun r hr ↦ absurd hr List.not_mem_nil⟩
  | @snoc rs t u r _ hlast ih =>
      obtain ⟨ht, hpairs, hbelow⟩ := ih
      obtain ⟨hu, hnext, hbits⟩ := hstep t r u ht hlast
      obtain ⟨hlo, -, hfree, hleast⟩ := nextFree_eq_some_iff.mp hnext
      refine ⟨hu, List.pairwise_append.mpr ⟨hpairs, List.pairwise_singleton _ _, ?_⟩, ?_⟩
      · intro q hq r' hr'
        obtain rfl := List.mem_singleton.mp hr'
        by_contra hle
        rw [hbelow q hq r' hlo (by omega)] at hfree
        cases hfree
      · intro q hq p hlo' hle
        rw [hbits, mark_apply, Bool.or_eq_true, decide_eq_true_iff]
        rcases List.mem_append.mp hq with hq | hq
        · exact .inl (hbelow q hq p hlo' hle)
        · obtain rfl := List.mem_singleton.mp hq
          rcases Nat.eq_or_lt_of_le hle with rfl | hlt
          · exact .inr rfl
          · exact .inl (hleast p hlo' hlt)

end Runs

/-! ## Room -/

def freeBelow (lo mid : ℕ) (taken : ℕ → Bool) : Finset ℕ :=
  (Finset.Ico lo mid).filter fun r ↦ taken r = false

theorem mem_freeBelow {mid r : ℕ} :
    r ∈ freeBelow lo mid taken ↔ lo ≤ r ∧ r < mid ∧ taken r = false := by
  simp [freeBelow, and_assoc]

theorem freeBelow_mark {mid r : ℕ} :
    freeBelow lo mid (mark taken r) = (freeBelow lo mid taken).erase r := by
  ext q
  simp only [mem_freeBelow, Finset.mem_erase, mark_apply, Bool.or_eq_false_iff,
    decide_eq_false_iff_not]
  tauto

theorem nextFree_of_freeBelow_nonempty {mid : ℕ} (hmid : mid ≤ hi)
    (h : (freeBelow lo mid taken).Nonempty) :
    ∃ r, nextFree lo hi taken = some r ∧ r ∈ freeBelow lo mid taken := by
  obtain ⟨q, hq⟩ := h
  obtain ⟨hlo, hlt, hfree⟩ := mem_freeBelow.mp hq
  cases hnext : nextFree lo hi taken with
  | none =>
      have htaken := nextFree_eq_none_iff.mp hnext q hlo (by omega)
      simp [htaken] at hfree
  | some r =>
      obtain ⟨hrlo, -, hrfree, hleast⟩ := nextFree_eq_some_iff.mp hnext
      have hrq : r ≤ q := by
        by_contra hcontra
        simp [hleast q hlo (by omega)] at hfree
      exact ⟨r, rfl, mem_freeBelow.mpr ⟨hrlo, by omega, hrfree⟩⟩

/-- With enough free numbers below `mid`, a whole series stays below `mid`. -/
theorem takeFree_of_card_le {mid count : ℕ} (hmid : mid ≤ hi)
    (h : count ≤ (freeBelow lo mid taken).card) :
    ∃ rs, takeFree lo hi count taken = some rs ∧ ∀ r ∈ rs, r < mid := by
  induction count generalizing taken with
  | zero => exact ⟨[], rfl, by simp⟩
  | succ count ih =>
      have hne : (freeBelow lo mid taken).Nonempty := Finset.card_pos.mp (by omega)
      obtain ⟨r, hr, hmem⟩ := nextFree_of_freeBelow_nonempty hmid hne
      have hcard : count ≤ (freeBelow lo mid (mark taken r)).card := by
        rw [freeBelow_mark, Finset.card_erase_of_mem hmem]
        omega
      obtain ⟨rest, hrest, hbelow⟩ := ih hcard
      refine ⟨r :: rest, takeFree_succ_eq_some_iff.mpr ⟨r, rest, hr, hrest, rfl⟩, ?_⟩
      intro q hq
      rcases List.mem_cons.mp hq with rfl | hq
      · exact (mem_freeBelow.mp hmem).2.1
      · exact hbelow q hq

/-! ## Initial segments -/

/-- The numbers from `lo` on that are taken are those below `k`. -/
def TakenBelow (lo k : ℕ) (taken : ℕ → Bool) : Prop :=
  ∀ r, lo ≤ r → (taken r = true ↔ r < k)

namespace TakenBelow

variable {k count mid : ℕ} (h : TakenBelow lo k taken)
include h

theorem eq_of_nextFree (hlo : lo ≤ k) {r : ℕ} (hr : nextFree lo hi taken = some r) : r = k := by
  obtain ⟨hle, -, hfree, hleast⟩ := nextFree_eq_some_iff.mp hr
  have hge : ¬ r < k := fun hlt ↦ by
    rw [(h r hle).mpr hlt] at hfree
    cases hfree
  have hnot : ¬ k < r := fun hlt ↦ lt_irrefl k ((h k hlo).mp (hleast k hlo hlt))
  omega

theorem nextFree (hlo : lo ≤ k) (hhi : k < hi) : nextFree lo hi taken = some k := by
  refine nextFree_eq_some_iff.mpr ⟨hlo, hhi, ?_, fun q hq hqk ↦ (h q hq).mpr hqk⟩
  rw [← Bool.not_eq_true, h k hlo]
  exact lt_irrefl k

theorem mark : TakenBelow lo (k + 1) (mark taken k) := by
  intro r hr
  rw [mark_apply, Bool.or_eq_true, h r hr, decide_eq_true_eq]
  omega

omit h in
/-- A series of allocations takes the numbers that follow. -/
theorem eq_of_takeFree (h : TakenBelow lo k taken) (hlo : lo ≤ k) {rs : List ℕ}
    (hrs : takeFree lo hi count taken = some rs) : rs = List.range' k count := by
  induction count generalizing k taken rs with
  | zero =>
      cases hrs
      rfl
  | succ count ih =>
      obtain ⟨r, rest, hr, hrest, rfl⟩ := takeFree_succ_eq_some_iff.mp hrs
      obtain rfl := h.eq_of_nextFree hlo hr
      rw [ih h.mark (by omega) hrest, List.range'_succ]

omit h in
theorem markAll (h : TakenBelow lo k taken) :
    TakenBelow lo (k + count) (markAll taken (List.range' k count)) := by
  induction count generalizing k taken with
  | zero => exact h
  | succ count ih =>
      have hrest := ih h.mark
      rwa [Nat.add_right_comm, Nat.add_assoc] at hrest

theorem card_freeBelow (hlo : lo ≤ k) : (freeBelow lo mid taken).card = mid - k := by
  have hfree : freeBelow lo mid taken = Finset.Ico k mid := by
    ext r
    rw [mem_freeBelow, Finset.mem_Ico]
    constructor
    · rintro ⟨hr, hlt, hnot⟩
      rw [← Bool.not_eq_true, h r hr] at hnot
      exact ⟨by omega, hlt⟩
    · rintro ⟨hr, hlt⟩
      refine ⟨by omega, hlt, ?_⟩
      rw [← Bool.not_eq_true, h r (by omega)]
      omega
  rw [hfree, Nat.card_Ico]

/-- Where the segment ends is determined by the numbers taken. -/
theorem unique (hlo : lo ≤ k) (h' : TakenBelow lo mid taken) (hlo' : lo ≤ mid) : k = mid := by
  have hmid : ¬ mid < k := fun hlt ↦ lt_irrefl mid ((h' mid hlo').mp ((h mid hlo').mpr hlt))
  have hk : ¬ k < mid := fun hlt ↦ lt_irrefl k ((h k hlo).mp ((h' k hlo).mpr hlt))
  omega

end TakenBelow

end OsProjects.Library.FirstFit
