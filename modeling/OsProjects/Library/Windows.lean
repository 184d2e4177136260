import Mathlib.Data.Nat.Notation
import Mathlib.Tactic.Common

/-!
# Searching for a window of free numbers

A counter that is reset at every taken number finds the first window of
`n` consecutive free numbers: before each step it holds the length of the free
stretch that ends there, cut short by the beginning of the search.
-/

namespace OsProjects.Library.Windows

variable {taken : ℕ → Bool} {n i c : ℕ}

def Free (taken : ℕ → Bool) (f n : ℕ) : Prop := ∀ q, f ≤ q → q < f + n → taken q = false

/-- `f` begins the first free window of length `n`. -/
def FirstFree (taken : ℕ → Bool) (f n : ℕ) : Prop :=
  Free taken f n ∧ ∀ g < f, ¬ Free taken g n

/-- After the numbers below `i` have been looked at, the counter is `c` and no
free window of length `n` has been met. -/
structure Scanned (taken : ℕ → Bool) (n i c : ℕ) : Prop where
  le : c ≤ i
  free : Free taken (i - c) c
  maximal : c < i → taken (i - c - 1) = true
  notFound : ∀ f, f + n ≤ i → ¬ Free taken f n

theorem not_free_of_taken {f q : ℕ} (h : taken q = true) (hf : f ≤ q) (hq : q < f + n) :
    ¬ Free taken f n := by
  intro hfree
  rw [hfree q hf hq] at h
  cases h

theorem Free.succ {f : ℕ} (h : Free taken f n) (hnext : taken (f + n) = false) :
    Free taken f (n + 1) := by
  intro q hf hq
  rcases Nat.lt_or_ge q (f + n) with hlt | hge
  · exact h q hf hlt
  · obtain rfl : q = f + n := by omega
    exact hnext

namespace Scanned

theorem zero (hn : 0 < n) : Scanned taken n 0 0 where
  le := Nat.le_refl 0
  free q hq hlt := by omega
  maximal h := by omega
  notFound f hf := by omega

theorem reset (h : Scanned taken n i c) (hn : 0 < n) (htaken : taken i = true) :
    Scanned taken n (i + 1) 0 where
  le := Nat.zero_le _
  free q hq hlt := by omega
  maximal _ := htaken
  notFound f hf := by
    rcases Nat.lt_or_ge i (f + n) with hlt | hge
    · exact not_free_of_taken htaken (by omega) hlt
    · exact h.notFound f hge

variable (h : Scanned taken n i c) (hfree : taken i = false)
include h hfree

theorem free_succ : Free taken (i - c) (c + 1) := by
  have hle := h.le
  apply h.free.succ
  rwa [Nat.sub_add_cancel hle]

theorem count (hn : c + 1 < n) : Scanned taken n (i + 1) (c + 1) where
  le := Nat.succ_le_succ h.le
  free := by
    rw [Nat.add_sub_add_right]
    exact h.free_succ hfree
  maximal hlt := by
    rw [Nat.add_sub_add_right]
    exact h.maximal (by omega)
  notFound f hf := by
    rcases Nat.lt_or_ge i (f + n) with hlt | hge
    · -- the window reaches back over the number that last reset the counter
      exact not_free_of_taken (h.maximal (by omega)) (by omega) (by omega)
    · exact h.notFound f hge

theorem found (hn : c + 1 = n) : FirstFree taken (i - c) n := by
  have hle := h.le
  constructor
  · rw [← hn]
    exact h.free_succ hfree
  · intro g hg
    exact h.notFound g (by omega)

end Scanned

end OsProjects.Library.Windows
