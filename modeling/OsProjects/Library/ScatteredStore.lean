import Mathlib.Data.Set.Function
import Mathlib.Order.Interval.Set.Basic
import Mathlib.Tactic.Common

/-!
# Flat sequences stored at scattered addresses

A sequence of values lives in a memory at the addresses `loc 0, loc 1, …`.
`store` overwrites a window of the sequence.  While `loc` is injective on the
positions in play, the store is exactly the update of that window: it can be
read back, it touches no other address, and it can be cut into consecutive
stores.
-/

namespace OsProjects.Library.ScatteredStore

variable {A V : Type*} {m : A → V} {loc : ℕ → A} {pos len : ℕ} {src : ℕ → V}

/-- Store `src 0, …, src (len - 1)` at positions `pos, …, pos + len - 1`. -/
noncomputable def store (m : A → V) (loc : ℕ → A) (pos len : ℕ) (src : ℕ → V) : A → V := fun a ↦
  open Classical in
  if h : ∃ p, pos ≤ p ∧ p < pos + len ∧ loc p = a then src (h.choose - pos) else m a

theorem store_loc (hinj : Set.InjOn loc (Set.Ico pos (pos + len))) {p : ℕ}
    (hp : pos ≤ p) (hlt : p < pos + len) : store m loc pos len src (loc p) = src (p - pos) := by
  have h : ∃ q, pos ≤ q ∧ q < pos + len ∧ loc q = loc p := ⟨p, hp, hlt, rfl⟩
  have hq := h.choose_spec
  have heq : h.choose = p := hinj ⟨hq.1, hq.2.1⟩ ⟨hp, hlt⟩ hq.2.2
  rw [store, dif_pos h, heq]

theorem store_of_forall_ne {a : A} (h : ∀ p, pos ≤ p → p < pos + len → loc p ≠ a) :
    store m loc pos len src a = m a := by
  rw [store, dif_neg]
  rintro ⟨p, hp, hlt, heq⟩
  exact h p hp hlt heq

theorem eq_store (hinj : Set.InjOn loc (Set.Ico pos (pos + len))) {m' : A → V}
    (hhit : ∀ p, pos ≤ p → p < pos + len → m' (loc p) = src (p - pos))
    (hmiss : ∀ a, (∀ p, pos ≤ p → p < pos + len → loc p ≠ a) → m' a = m a) :
    m' = store m loc pos len src := by
  funext a
  by_cases h : ∃ p, pos ≤ p ∧ p < pos + len ∧ loc p = a
  · obtain ⟨p, hp, hlt, rfl⟩ := h
    rw [hhit p hp hlt, store_loc hinj hp hlt]
  · have hne : ∀ p, pos ≤ p → p < pos + len → loc p ≠ a :=
      fun p hp hlt heq ↦ h ⟨p, hp, hlt, heq⟩
    rw [hmiss a hne, store_of_forall_ne hne]

@[simp] theorem store_zero : store m loc pos 0 src = m := by
  funext a
  exact store_of_forall_ne fun p hp hlt ↦ by omega

theorem store_append {more : ℕ} (hinj : Set.InjOn loc (Set.Ico pos (pos + (len + more)))) :
    store (store m loc pos len src) loc (pos + len) more (fun i ↦ src (len + i)) =
      store m loc pos (len + more) src := by
  have hfirst : Set.InjOn loc (Set.Ico pos (pos + len)) :=
    hinj.mono (Set.Ico_subset_Ico_right (by omega))
  have hsecond : Set.InjOn loc (Set.Ico (pos + len) (pos + len + more)) :=
    hinj.mono (Set.Ico_subset_Ico (by omega) (by omega))
  apply eq_store hinj
  · intro p hp hlt
    rcases Nat.lt_or_ge p (pos + len) with hin | hout
    · rw [store_of_forall_ne, store_loc hfirst hp hin]
      intro q hq hqlt heq
      have := hinj ⟨by omega, by omega⟩ ⟨hp, hlt⟩ heq
      omega
    · rw [store_loc hsecond hout (by omega)]
      congr 1
      omega
  · intro a ha
    rw [store_of_forall_ne fun p hp hlt ↦ ha p (by omega) (by omega),
      store_of_forall_ne fun p hp hlt ↦ ha p hp (by omega)]

theorem store_congr {loc' : ℕ → A} {src' : ℕ → V}
    (hinj : Set.InjOn loc (Set.Ico pos (pos + len)))
    (hloc : ∀ p, pos ≤ p → p < pos + len → loc' p = loc p)
    (hsrc : ∀ i < len, src' i = src i) :
    store m loc' pos len src' = store m loc pos len src := by
  have hinj' : Set.InjOn loc' (Set.Ico pos (pos + len)) := by
    intro p hp q hq heq
    rw [hloc p hp.1 hp.2, hloc q hq.1 hq.2] at heq
    exact hinj hp hq heq
  apply eq_store hinj
  · intro p hp hlt
    rw [← hloc p hp hlt, store_loc hinj' hp hlt, hsrc (p - pos) (by omega)]
  · intro a ha
    exact store_of_forall_ne fun p hp hlt ↦ hloc p hp hlt ▸ ha p hp hlt

theorem store_same (hinj : Set.InjOn loc (Set.Ico pos (pos + len)))
    (hsrc : ∀ i < len, src i = m (loc (pos + i))) : store m loc pos len src = m := by
  symm
  apply eq_store hinj
  · intro p hp hlt
    rw [hsrc (p - pos) (by omega), Nat.add_sub_cancel' hp]
  · intro a _
    rfl

section Two

variable {loc' : ℕ → A} {pos' len' : ℕ} {src' : ℕ → V}

/-- A store hides an earlier one into a part of its window. -/
theorem store_covered (hinj : Set.InjOn loc (Set.Ico pos' (pos' + len'))) (hpos : pos' ≤ pos)
    (hend : pos + len ≤ pos' + len') :
    store (store m loc pos len src) loc pos' len' src' = store m loc pos' len' src' := by
  apply eq_store hinj
  · intro p hp hlt
    exact store_loc hinj hp hlt
  · intro a ha
    rw [store_of_forall_ne ha,
      store_of_forall_ne fun p hp hlt ↦ ha p (hpos.trans hp) (hlt.trans_le hend)]

theorem store_comm (hinj : Set.InjOn loc (Set.Ico pos (pos + len)))
    (hinj' : Set.InjOn loc' (Set.Ico pos' (pos' + len')))
    (hne : ∀ p, pos ≤ p → p < pos + len → ∀ q, pos' ≤ q → q < pos' + len' → loc p ≠ loc' q) :
    store (store m loc pos len src) loc' pos' len' src' =
      store (store m loc' pos' len' src') loc pos len src := by
  apply eq_store hinj
  · intro p hp hlt
    rw [store_of_forall_ne fun q hq hlt' ↦ (hne p hp hlt q hq hlt').symm, store_loc hinj hp hlt]
  · intro a ha
    by_cases h : ∃ q, pos' ≤ q ∧ q < pos' + len' ∧ loc' q = a
    · obtain ⟨q, hq, hlt, rfl⟩ := h
      rw [store_loc hinj' hq hlt, store_loc hinj' hq hlt]
    · have hmiss : ∀ q, pos' ≤ q → q < pos' + len' → loc' q ≠ a :=
        fun q hq hlt heq ↦ h ⟨q, hq, hlt, heq⟩
      rw [store_of_forall_ne hmiss, store_of_forall_ne ha, store_of_forall_ne hmiss]

end Two

/-! ## The sequence as a list -/

/-- The first `n` values of the sequence. -/
def sequence (m : A → V) (loc : ℕ → A) (n : ℕ) : List V := (List.range n).map fun p ↦ m (loc p)

variable {n : ℕ}

@[simp] theorem length_sequence : (sequence m loc n).length = n := by
  simp [sequence]

@[simp] theorem getElem_sequence {p : ℕ} (hp : p < (sequence m loc n).length) :
    (sequence m loc n)[p] = m (loc p) := by
  simp [sequence]

/-- A store replaces its window of the sequence and nothing else of it. -/
theorem sequence_store (hinj : Set.InjOn loc (Set.Ico 0 n)) (hfit : pos + len ≤ n) :
    sequence (store m loc pos len src) loc n =
      (sequence m loc n).take pos ++ (List.range len).map src ++
        (sequence m loc n).drop (pos + len) := by
  have hwindow : Set.InjOn loc (Set.Ico pos (pos + len)) :=
    hinj.mono (Set.Ico_subset_Ico (Nat.zero_le pos) hfit)
  apply List.ext_getElem
  · simp only [length_sequence, List.length_append, List.length_take, List.length_map,
      List.length_range, List.length_drop]
    omega
  · intro p hp hp'
    rw [length_sequence] at hp
    simp only [getElem_sequence, List.getElem_append, List.length_append, List.length_take,
      length_sequence, List.length_map, List.length_range, List.getElem_take, List.getElem_drop,
      List.getElem_map, List.getElem_range]
    by_cases hbefore : p < pos
    · rw [store_of_forall_ne, dif_pos (by omega), dif_pos (by omega)]
      intro q hq hlt heq
      have := hinj ⟨Nat.zero_le q, by omega⟩ ⟨Nat.zero_le p, hp⟩ heq
      omega
    · by_cases hin : p < pos + len
      · rw [store_loc hwindow (by omega) hin, dif_pos (by omega), dif_neg (by omega)]
        congr 1
        omega
      · rw [store_of_forall_ne, dif_neg (by omega)]
        · congr 2
          omega
        · intro q hq hlt heq
          have := hinj ⟨Nat.zero_le q, by omega⟩ ⟨Nat.zero_le p, hp⟩ heq
          omega

theorem slice_sequence (hfit : pos + len ≤ n) :
    ((sequence m loc n).drop pos).take len = (List.range len).map fun i ↦ m (loc (pos + i)) := by
  apply List.ext_getElem
  · simp only [List.length_take, List.length_drop, length_sequence, List.length_map,
      List.length_range]
    omega
  · intro i _ _
    simp

/-- A sequence is the concatenation of its blocks. -/
theorem sequence_eq_flatMap (k count : ℕ) :
    sequence m loc (count * k) =
      (List.range count).flatMap fun i ↦ (List.range k).map fun j ↦ m (loc (i * k + j)) := by
  induction count with
  | zero => simp [sequence]
  | succ count ih =>
      rw [List.range_succ, List.flatMap_append, ← ih, List.flatMap_singleton, Nat.succ_mul, sequence,
        List.range_add, List.map_append, List.map_map]
      rfl

end OsProjects.Library.ScatteredStore
