import OsProjects.Lists.Sequence

/-!
# What the list functions return

`ll_search_comparison` and `ll_search_predicate` look for a node for which a function
returns 1.  All answers of the functions of `ll_double.c` are determined by the sequence of
data: they are the node or the data that the sequence has at that place.
-/

namespace OsProjects.Lists

open Library.Chains Library.Runs

variable {ρ : Type}

/-! ## `ll_double.c` -/

/-- The loop of `ll_search_predicate`, which is not left when `fuel` iterations are over. -/
def searchPredicateFrom (list : LinkedList ρ) (predicate : ρ → ℤ) :
    ℕ → Option Addr → Option (Option Addr)
  | 0, _ => none
  | _ + 1, none => some none
  | fuel + 1, some temporary =>
      if predicate (list.node temporary).data = 1 then
        some (some temporary)
      else
        searchPredicateFrom list predicate fuel (list.node temporary).next

def llSearchPredicate (list : LinkedList ρ) (predicate : ρ → ℤ) (fuel : ℕ) :
    Option (Option Addr) :=
  searchPredicateFrom list predicate fuel list.head

/-- The loop of `ll_search_comparison` is that of `ll_search_predicate`. -/
def llSearchComparison (list : LinkedList ρ) (data : ρ) (compare : ρ → ρ → ℤ) (fuel : ℕ) :
    Option (Option Addr) :=
  searchPredicateFrom list (compare data) fuel list.head

/-! ## Searches -/

section Search

variable {list : LinkedList ρ} {as : List Addr} {p : Option Addr} {xs : List ρ} {fuel : ℕ}

theorem searchPredicateFrom_eq (list : LinkedList ρ) (predicate : ρ → ℤ)
    (h : Chain (fun a ↦ (list.node a).next) p as) (hfuel : as.length < fuel) :
    searchPredicateFrom list predicate fuel p =
      some (as.find? fun a ↦ predicate (list.node a).data = 1) := by
  induction as generalizing p fuel with
  | nil =>
      obtain rfl : p = none := h
      obtain ⟨fuel, rfl⟩ := Nat.exists_eq_succ_of_ne_zero hfuel.ne'
      rfl
  | cons a as ih =>
      obtain ⟨rfl, hnext⟩ := h
      obtain ⟨fuel, rfl⟩ := Nat.exists_eq_succ_of_ne_zero (Nat.zero_lt_of_lt hfuel).ne'
      rw [searchPredicateFrom]
      by_cases hdata : predicate (list.node a).data = 1
      · rw [if_pos hdata, List.find?_cons_of_pos (by simpa using hdata)]
      · rw [if_neg hdata, List.find?_cons_of_neg (by simpa using hdata)]
        exact ih hnext (Nat.lt_of_succ_lt_succ hfuel)

/-- Looking for equal data with a comparison is looking for the data. -/
theorem LinkedList.Linked.llSearchComparison_eq [DecidableEq ρ] (h : list.Linked as) (data : ρ)
    (hfuel : as.length < fuel) :
    llSearchComparison list data (fun x y ↦ if x = y then 1 else 0) fuel = llSearch list data fuel := by
  rw [h.llSearch_eq data hfuel, llSearchComparison, searchPredicateFrom_eq list _ h.next hfuel]
  congr 2
  funext a
  by_cases hdata : data = (list.node a).data <;> simp [hdata]

theorem LinkedList.Holds.llRemove_fst [DecidableEq ρ] (h : list.Holds as xs) (data : ρ)
    (hfuel : as.length < fuel) :
    (llRemove list data fuel).map Prod.fst = some (if data ∈ xs then some data else none) := by
  rw [llRemove, h.linked.llSearch_eq data hfuel]
  cases hfind : as.find? fun a ↦ data = (list.node a).data with
  | none =>
      rw [if_neg (h.find?_eq_none hfind)]
      rfl
  | some a =>
      have hdata : data = (list.node a).data := by simpa using List.find?_some hfind
      have hmem : data ∈ xs := by
        rw [← h.data, hdata]
        exact List.mem_map_of_mem (List.mem_of_find?_eq_some hfind)
      rw [if_pos hmem]
      rfl

theorem LinkedList.Linked.llRemoveHead_fst (h : list.Linked as) :
    (llRemoveHead list).1 = as.head? := by
  rw [← h.head_eq, llRemoveHead]
  cases list.head with
  | none => rfl
  | some a => simp only; split <;> rfl

theorem LinkedList.Linked.llRemoveTail_fst (h : list.Linked as) :
    (llRemoveTail list).1 = as.getLast? := by
  rw [← h.tail_eq, llRemoveTail]
  cases list.tail with
  | none => rfl
  | some a => simp only; split <;> rfl

end Search

/-- After every sequence of calls the next one answers with the node at its place in the
sequence of data: the first or the last one, or the first for which the function that is
passed returns 1. -/
theorem list_answers_exact [DecidableEq ρ] {list : LinkedList ρ} {calls : List (Call ρ)}
    {s : Session ρ} (h : Run Step (start list) calls s) :
    ∃ as, s.list.Holds as (Call.applyAll calls) ∧
      (llRemoveHead s.list).1 = as.head? ∧ (llRemoveTail s.list).1 = as.getLast? ∧
      ∀ fuel, as.length < fuel →
        (∀ predicate, llSearchPredicate s.list predicate fuel =
          some (as.find? fun a ↦ predicate (s.list.node a).data = 1)) ∧
        (∀ data compare, llSearchComparison s.list data compare fuel =
          some (as.find? fun a ↦ compare data (s.list.node a).data = 1)) ∧
        ∀ data, llSearchComparison s.list data (fun x y ↦ if x = y then 1 else 0) fuel =
            llSearch s.list data fuel ∧
          (llRemove s.list data fuel).map Prod.fst =
            some (if data ∈ Call.applyAll calls then some data else none) := by
  obtain ⟨as, hholds, -⟩ := represents_of_run h
  have hlinked := hholds.linked
  refine ⟨as, hholds, hlinked.llRemoveHead_fst, hlinked.llRemoveTail_fst, fun fuel hfuel ↦
    ⟨fun predicate ↦ ?_, fun data compare ↦ ?_, fun data ↦ ⟨?_, ?_⟩⟩⟩
  · exact searchPredicateFrom_eq s.list predicate hlinked.next hfuel
  · exact searchPredicateFrom_eq s.list (compare data) hlinked.next hfuel
  · exact hlinked.llSearchComparison_eq data hfuel
  · exact hholds.llRemove_fst data hfuel

/-- The first node is passed over, for which the predicate returns 2. -/
theorem list_answers_exact_two : ∃ s,
    Run Step (start emptyList) [.insertTail (some 1) 7, .insertTail (some 2) 8] s ∧
      llSearchPredicate s.list (fun x ↦ 9 - x) 3 = some (some 2) := by
  have hinsert : Step (start emptyList) (.insertTail (some 1) 7) _ :=
    .insertTail fun a _ ↦ Set.notMem_empty a
  have hrun := Run.nil.snoc hinsert |>.snoc (@Step.insertTail _ _ _ (some 2) 8 fun a ha ↦ by
    obtain rfl : 2 = a := Option.some.inj ha
    simp [start])
  obtain ⟨as, hholds, -, -, hsearch⟩ := list_answers_exact hrun
  obtain rfl : as = [1, 2] := hholds.linked.next.unique ⟨rfl, rfl, rfl⟩
  exact ⟨_, hrun, (hsearch 3 (by decide)).1 _⟩

end OsProjects.Lists
