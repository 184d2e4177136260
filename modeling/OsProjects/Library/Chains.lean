import Mathlib.Data.List.Nodup
import Mathlib.Tactic.Common

/-!
# Chains of pointers

A field of the nodes of a linked structure is a function `succ` from addresses
to pointers, `none` being the null pointer.  A chain is what following the
field visits on its way to the null pointer.  It is determined by its start,
contains no address twice, and depends on the field at its own addresses only.
-/

namespace OsProjects.Library.Chains

variable {α : Type*} {succ succ' : α → Option α} {p : Option α} {as bs : List α} {a b : α}

/-- Following `succ` from `p` visits `as` and then reaches the null pointer. -/
def Chain (succ : α → Option α) : Option α → List α → Prop
  | p, [] => p = none
  | p, a :: as => p = some a ∧ Chain succ (succ a) as

@[simp] theorem chain_nil : Chain succ p [] ↔ p = none := Iff.rfl

@[simp] theorem chain_cons : Chain succ p (a :: as) ↔ p = some a ∧ Chain succ (succ a) as := Iff.rfl

theorem Chain.unique (h : Chain succ p as) (h' : Chain succ p bs) : as = bs := by
  induction as generalizing p bs with
  | nil =>
      cases bs with
      | nil => rfl
      | cons b bs => simp_all
  | cons a as ih =>
      cases bs with
      | nil => simp_all
      | cons b bs =>
          obtain rfl : a = b := Option.some.inj (h.1.symm.trans h'.1)
          rw [ih h.2 h'.2]

theorem Chain.congr (h : Chain succ p as) (hsame : ∀ a ∈ as, succ' a = succ a) :
    Chain succ' p as := by
  induction as generalizing p with
  | nil => exact h
  | cons a as ih =>
      refine ⟨h.1, ?_⟩
      rw [hsame a List.mem_cons_self]
      exact ih h.2 fun b hb ↦ hsame b (List.mem_cons_of_mem a hb)

theorem Chain.of_append (h : Chain succ p (as ++ a :: bs)) : Chain succ (some a) (a :: bs) := by
  induction as generalizing p with
  | nil => exact ⟨rfl, h.2⟩
  | cons c as ih => exact ih h.2

theorem Chain.nodup (h : Chain succ p as) : as.Nodup := by
  induction as generalizing p with
  | nil => exact List.nodup_nil
  | cons a as ih =>
      refine List.nodup_cons.mpr ⟨fun hmem ↦ ?_, ih h.2⟩
      -- the rest of the chain would be as long as the whole
      obtain ⟨front, rest, rfl⟩ := List.append_of_mem hmem
      have hagain := h.2.of_append
      have hsame := congrArg List.length (h.2.unique hagain.2)
      rw [List.length_append, List.length_cons] at hsame
      omega

theorem Chain.cons (h : Chain succ p as) (hnew : a ∉ as) (ha : succ' a = p)
    (hsame : ∀ b ∈ as, b ≠ a → succ' b = succ b) : Chain succ' (some a) (a :: as) := by
  refine ⟨rfl, ?_⟩
  rw [ha]
  exact h.congr fun b hb ↦ hsame b hb fun heq ↦ hnew (heq ▸ hb)

theorem Chain.snoc (h : Chain succ p (as ++ [b])) (hnew : a ∉ as ++ [b]) (ha : succ' a = none)
    (hb : succ' b = some a) (hsame : ∀ c, c ≠ a → c ≠ b → succ' c = succ c) :
    Chain succ' p (as ++ [b, a]) := by
  have hnodup := h.nodup
  induction as generalizing p with
  | nil =>
      obtain ⟨hstart, -⟩ := h
      exact ⟨hstart, hb, ha⟩
  | cons c as ih =>
      rw [List.cons_append, List.nodup_cons] at hnodup
      rw [List.cons_append, List.mem_cons, not_or] at hnew
      have hne : c ≠ b := by
        rintro rfl
        exact hnodup.1 (List.mem_append_right as List.mem_cons_self)
      refine ⟨h.1, ?_⟩
      rw [hsame c (Ne.symm hnew.1) hne]
      exact ih h.2 hnew.2 hnodup.2

theorem Chain.start_eq (h : Chain succ p as) : p = as.head? := by
  cases as with
  | nil => exact h
  | cons a as => exact h.1

theorem Chain.succ_eq (h : Chain succ p (as ++ a :: bs)) : succ a = bs.head? :=
  h.of_append.2.start_eq

/-- An address is taken out of a chain by writing what follows it into the address
before it, or into the start of the chain. -/
theorem Chain.remove (h : Chain succ p (as ++ a :: bs))
    (hlast : ∀ c, as.getLast? = some c → succ' c = succ a)
    (hsame : ∀ c ∈ as ++ bs, as.getLast? ≠ some c → succ' c = succ c) :
    Chain succ' (if as = [] then succ a else p) (as ++ bs) := by
  induction as generalizing p with
  | nil => exact h.2.congr fun c hc ↦ hsame c hc nofun
  | cons c as ih =>
      have hnodup := h.nodup
      simp only [List.cons_append, List.nodup_cons, List.mem_append, List.mem_cons,
        not_or] at hnodup
      refine ⟨h.1, ?_⟩
      cases as with
      | nil =>
          rw [hlast c rfl]
          apply h.2.2.congr
          intro d hd
          apply hsame d (List.mem_append_right [c] hd)
          rintro ⟨⟩
          exact hnodup.1.2.2 hd
      | cons d as =>
          have hc : succ' c = succ c := by
            apply hsame c List.mem_cons_self
            intro hmem
            rw [List.getLast?_cons_cons] at hmem
            exact hnodup.1.1 (List.mem_of_getLast? hmem)
          rw [hc]
          apply ih h.2
          · intro e he
            exact hlast e (by rwa [List.getLast?_cons_cons])
          · intro e he hne
            exact hsame e (List.mem_cons_of_mem c he) (by rwa [List.getLast?_cons_cons])

end OsProjects.Library.Chains
