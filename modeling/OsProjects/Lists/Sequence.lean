import OsProjects.Library.Runs
import OsProjects.Lists.Operations
import Mathlib.Data.Set.Basic

/-!
# Lists as sequences

Through every sequence of calls a list initialised by `ll_init` stays well
formed and holds the sequence of data that the calls describe.
-/

namespace OsProjects.Lists

open Library.Chains Library.Runs

variable {ρ : Type}

/-! ## Contents -/

namespace LinkedList

/-- The nodes `as` form the list, along `next` from `head` and along `prev` from
`tail`, and hold the data `xs`. -/
structure Holds (list : LinkedList ρ) (as : List Addr) (xs : List ρ) : Prop where
  linked : list.Linked as
  data : as.map (fun a ↦ (list.node a).data) = xs

variable {list : LinkedList ρ} {as bs : List Addr} {a : Addr} {xs : List ρ} {data : ρ}

theorem map_data_of_new {list' : LinkedList ρ} (hnew : a ∉ as)
    (hdata : ∀ c, (list'.node c).data = if c = a then data else (list.node c).data) :
    as.map (fun c ↦ (list'.node c).data) = as.map fun c ↦ (list.node c).data := by
  apply List.map_congr_left
  intro c hc
  rw [hdata, if_neg]
  rintro rfl
  exact hnew hc

theorem Holds.insertHead (h : list.Holds as xs) (hnew : a ∉ as) :
    (llInsertHead list (some a) data).2.Holds (a :: as) (data :: xs) := by
  have hdata (c : Addr) : ((llInsertHead list (some a) data).2.node c).data =
      if c = a then data else (list.node c).data := data_llInsertHead (h.linked.head_ne hnew)
  refine ⟨h.linked.insertHead hnew, ?_⟩
  rw [List.map_cons, map_data_of_new hnew hdata, hdata, if_pos rfl, h.data]

theorem Holds.insertTail (h : list.Holds as xs) (hnew : a ∉ as) :
    (llInsertTail list (some a) data).2.Holds (as ++ [a]) (xs ++ [data]) := by
  have hdata (c : Addr) : ((llInsertTail list (some a) data).2.node c).data =
      if c = a then data else (list.node c).data := h.linked.data_insertTail hnew
  refine ⟨h.linked.insertTail hnew, ?_⟩
  rw [List.map_append, List.map_singleton, map_data_of_new hnew hdata, hdata, if_pos rfl, h.data]

theorem Holds.unlink (h : list.Holds (as ++ a :: bs) xs) :
    (unlink list a).Holds (as ++ bs) ((as ++ bs).map fun c ↦ (list.node c).data) := by
  refine ⟨h.linked.unlink, ?_⟩
  apply List.map_congr_left
  intro c _
  exact data_unlink

theorem Holds.removeHead (h : list.Holds as xs) :
    (llRemoveHead list).2.Holds as.tail xs.tail := by
  cases as with
  | nil =>
      rw [llRemoveHead_nil h.linked, ← h.data]
      exact ⟨h.linked, rfl⟩
  | cons a as =>
      have hfront : list.Holds ([] ++ a :: as) xs := h
      rw [h.linked.llRemoveHead_eq, ← h.data]
      exact hfront.unlink

theorem Holds.llRemoveHead_eq_none (h : list.Holds as xs) :
    (llRemoveHead list).1 = none ↔ xs = [] := by
  rw [← h.data, List.map_eq_nil_iff]
  cases as with
  | nil => simp [llRemoveHead_nil h.linked]
  | cons a as => simp [h.linked.llRemoveHead_eq]

theorem Holds.removeTail (h : list.Holds as xs) :
    (llRemoveTail list).2.Holds as.dropLast xs.dropLast := by
  rcases List.eq_nil_or_concat as with rfl | ⟨as, a, rfl⟩
  · rw [llRemoveTail_nil h.linked, ← h.data]
    exact ⟨h.linked, rfl⟩
  · rw [List.concat_eq_append] at *
    have hunlink := h.unlink
    rw [h.linked.llRemoveTail_eq, ← h.data]
    simpa using hunlink

theorem Holds.find?_eq_none [DecidableEq ρ] (h : list.Holds as xs)
    (hfind : as.find? (fun a ↦ data = (list.node a).data) = none) : data ∉ xs := by
  rw [← h.data]
  intro hmem
  obtain ⟨a, ha, hdata⟩ := List.mem_map.mp hmem
  rw [List.find?_eq_none] at hfind
  apply hfind a ha
  simp [hdata]

/-- `ll_remove` comes to its end and takes out the first node with the data. -/
theorem Holds.remove [DecidableEq ρ] (h : list.Holds as xs) (data : ρ) {fuel : ℕ}
    (hfuel : as.length < fuel) : ∃ result list' bs,
      llRemove list data fuel = some (result, list') ∧ list'.Holds bs (xs.erase data) ∧
        bs ⊆ as := by
  have hsearch := h.linked.llSearch_eq data hfuel
  rw [llRemove, hsearch]
  cases hfind : as.find? fun a ↦ data = (list.node a).data with
  | none =>
      refine ⟨none, list, as, rfl, ?_, List.Subset.refl as⟩
      rwa [List.erase_of_not_mem (h.find?_eq_none hfind)]
  | some a =>
      obtain ⟨hdata, front, rest, rfl, hfront⟩ := List.find?_eq_some_iff_append.mp hfind
      refine ⟨some data, Lists.unlink list a, front ++ rest, rfl, ?_, ?_⟩
      · have hnot : data ∉ front.map fun c ↦ (list.node c).data := by
          intro hmem
          obtain ⟨c, hc, hcdata⟩ := List.mem_map.mp hmem
          have hne := hfront c hc
          simp [hcdata] at hne
        have herase : xs.erase data = (front ++ rest).map fun c ↦ (list.node c).data := by
          rw [← h.data, List.map_append, List.map_cons, List.erase_append_right _ hnot,
            ← of_decide_eq_true hdata, List.erase_cons_head, List.map_append]
        rw [herase]
        exact h.unlink
      · intro c hc
        simp only [List.mem_append, List.mem_cons] at hc ⊢
        tauto

end LinkedList

/-! ## Calls -/

variable [DecidableEq ρ]

/-- A call of a function of `ll_double.c`; insertions with the result of `malloc`. -/
inductive Call (ρ : Type)
  | insertHead (newNode : Option Addr) (data : ρ)
  | insertTail (newNode : Option Addr) (data : ρ)
  | remove (data : ρ)
  | removeHead
  | removeTail

/-- What a call does to the sequence of data. -/
def Call.apply : Call ρ → List ρ → List ρ
  | .insertHead none _, xs => xs
  | .insertHead (some _) data, xs => data :: xs
  | .insertTail none _, xs => xs
  | .insertTail (some _) data, xs => xs ++ [data]
  | .remove data, xs => xs.erase data
  | .removeHead, xs => xs.tail
  | .removeTail, xs => xs.dropLast

def Call.applyAll (calls : List (Call ρ)) : List ρ := calls.foldl (fun xs call ↦ call.apply xs) []

theorem Call.applyAll_concat (calls : List (Call ρ)) (call : Call ρ) :
    applyAll (calls ++ [call]) = call.apply (applyAll calls) := by
  simp [applyAll]

structure Session (ρ : Type) where
  list : LinkedList ρ
  allocated : Set Addr

/-- The calls with fresh nodes.  The loop of `ll_remove` has come to its end. -/
inductive Step (s : Session ρ) : Call ρ → Session ρ → Prop
  | insertHead {newNode : Option Addr} {data : ρ} : (∀ a ∈ newNode, a ∉ s.allocated) →
      Step s (.insertHead newNode data)
        ⟨(llInsertHead s.list newNode data).2, s.allocated ∪ {a | newNode = some a}⟩
  | insertTail {newNode : Option Addr} {data : ρ} : (∀ a ∈ newNode, a ∉ s.allocated) →
      Step s (.insertTail newNode data)
        ⟨(llInsertTail s.list newNode data).2, s.allocated ∪ {a | newNode = some a}⟩
  | remove {data : ρ} {fuel : ℕ} {result : Option ρ} {list : LinkedList ρ} :
      llRemove s.list data fuel = some (result, list) →
      Step s (.remove data) ⟨list, s.allocated⟩
  | removeHead : Step s .removeHead ⟨(llRemoveHead s.list).2, s.allocated⟩
  | removeTail : Step s .removeTail ⟨(llRemoveTail s.list).2, s.allocated⟩

/-- The memory may contain anything when `ll_init` is called. -/
def start (list : LinkedList ρ) : Session ρ := ⟨llInit list, ∅⟩

/-- The list holds the data `xs` in nodes that have been allocated. -/
def Session.Represents (s : Session ρ) (xs : List ρ) : Prop :=
  ∃ as, s.list.Holds as xs ∧ ∀ a ∈ as, a ∈ s.allocated

variable {s t : Session ρ} {xs : List ρ} {list : LinkedList ρ} {calls : List (Call ρ)}

theorem llRemove_mono {data : ρ} {fuel fuel' : ℕ} {r : Option ρ × LinkedList ρ}
    (hle : fuel ≤ fuel') (h : llRemove list data fuel = some r) :
    llRemove list data fuel' = some r := by
  obtain ⟨found, hsearch, hr⟩ := Option.map_eq_some_iff.mp h
  exact Option.map_eq_some_iff.mpr ⟨found, LinkedList.searchFrom_mono hle hsearch, hr⟩

theorem Session.Represents.step {call : Call ρ} (h : s.Represents xs) (hstep : Step s call t) :
    t.Represents (call.apply xs) := by
  obtain ⟨as, hholds, hallocated⟩ := h
  cases hstep with
  | @insertHead newNode data hnew =>
      cases newNode with
      | none => exact ⟨as, hholds, fun a ha ↦ .inl (hallocated a ha)⟩
      | some b =>
          refine ⟨b :: as, hholds.insertHead fun hb ↦ hnew b rfl (hallocated b hb), ?_⟩
          intro a ha
          rcases List.mem_cons.mp ha with rfl | ha
          · exact .inr rfl
          · exact .inl (hallocated a ha)
  | @insertTail newNode data hnew =>
      cases newNode with
      | none => exact ⟨as, hholds, fun a ha ↦ .inl (hallocated a ha)⟩
      | some b =>
          refine ⟨as ++ [b], hholds.insertTail fun hb ↦ hnew b rfl (hallocated b hb), ?_⟩
          intro a ha
          rcases List.mem_append.mp ha with ha | ha
          · exact .inl (hallocated a ha)
          · exact .inr (congrArg some (List.mem_singleton.mp ha).symm)
  | @remove data fuel result list hremove =>
      obtain ⟨result', list', bs, hrun, hholds', hsub⟩ :=
        hholds.remove data (Nat.lt_succ_of_le (Nat.le_max_right fuel as.length))
      have hsame := llRemove_mono (Nat.le_succ_of_le (Nat.le_max_left fuel as.length)) hremove
      rw [hrun] at hsame
      cases hsame
      exact ⟨bs, hholds', fun a ha ↦ hallocated a (hsub ha)⟩
  | removeHead =>
      exact ⟨as.tail, hholds.removeHead, fun a ha ↦ hallocated a (List.mem_of_mem_tail ha)⟩
  | removeTail =>
      exact ⟨as.dropLast, hholds.removeTail, fun a ha ↦ hallocated a (List.dropLast_subset as ha)⟩

theorem represents_of_run (h : Run Step (start list) calls s) :
    s.Represents (Call.applyAll calls) := by
  induction h with
  | nil => exact ⟨[], ⟨LinkedList.linked_llInit, rfl⟩, by simp⟩
  | snoc _ hstep ih =>
      rw [Call.applyAll_concat]
      exact ih.step hstep

/-- The list refines a sequence: it is well formed, holds the data that the calls
describe, and searches come to their end at the first node with the data. -/
theorem list_refines_sequence (h : Run Step (start list) calls s) :
    ∃ as, s.list.Holds as (Call.applyAll calls) ∧ as.Nodup ∧
      s.list.head = as.head? ∧ s.list.tail = as.getLast? ∧
      ∀ data fuel, as.length < fuel →
        llSearch s.list data fuel = some (as.find? fun a ↦ data = (s.list.node a).data) ∧
        (llSearch s.list data fuel = some none ↔ data ∉ Call.applyAll calls) ∧
        (llRemove s.list data fuel).isSome := by
  obtain ⟨as, hholds, -⟩ := represents_of_run h
  have hlinked := hholds.linked
  refine ⟨as, hholds, hlinked.next.nodup, hlinked.head_eq, hlinked.tail_eq, ?_⟩
  intro data fuel hfuel
  have hsearch := hlinked.llSearch_eq data hfuel
  refine ⟨hsearch, ?_, ?_⟩
  · rw [hsearch, Option.some_inj]
    constructor
    · exact hholds.find?_eq_none
    · intro hmem
      rw [List.find?_eq_none]
      intro a ha hdata
      apply hmem
      rw [← hholds.data, of_decide_eq_true hdata]
      exact List.mem_map_of_mem ha
  · rw [llRemove, hsearch]
    rfl

def emptyList : LinkedList ℕ := ⟨none, none, fun _ ↦ ⟨0, none, none⟩⟩

theorem list_refines_sequence_remove : ∃ s as,
    Run Step (start emptyList) [.insertHead (some 1) 7, .insertTail (some 2) 8, .insertTail none 9,
      .insertHead (some 3) 6, .remove 7] s ∧ s.list.Holds as [6, 8] ∧ as.Nodup ∧
      s.list.head = as.head? ∧ s.list.tail = as.getLast? := by
  have hfirst : Step (start emptyList) (.insertHead (some 1) 7) _ :=
    .insertHead fun a _ ↦ Set.notMem_empty a
  have hsecond := Run.nil.snoc hfirst |>.snoc (@Step.insertTail _ _ _ (some 2) 8 (by simp [start]))
  have hthird := hsecond.snoc (@Step.insertTail _ _ _ none 9 nofun)
  have hfull := hthird.snoc (@Step.insertHead _ _ _ (some 3) 6 (by simp [start]))
  have hrun := hfull.snoc (@Step.remove _ _ _ 7 5 _ _ rfl)
  obtain ⟨as, hholds, hnodup, hhead, htail, -⟩ := list_refines_sequence hrun
  exact ⟨_, as, hrun, hholds, hnodup, hhead, htail⟩

end OsProjects.Lists
