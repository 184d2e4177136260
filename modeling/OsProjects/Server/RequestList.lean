import OsProjects.Library.Chains
import OsProjects.Library.Runs
import Mathlib.Data.List.Infix
import Mathlib.Data.List.ReduceOption

/-!
# The list of requests

The doubly linked list of `ll_double.c` in which the thread pool keeps its
requests.  `ll_insert_head` links a node at both ends, `ll_remove_tail` cuts
the list at the wrong link: it resets `prev` of the new tail instead of `next`.
-/

namespace OsProjects.Server

open Library.Chains Library.Runs

/-! ## `ll_double.c` -/

abbrev Addr := ℕ

structure Node (ρ : Type) where
  data : ρ
  prev : Option Addr
  next : Option Addr

/-- `struct List` and the heap with its nodes. -/
structure RequestList (ρ : Type) where
  head : Option Addr
  tail : Option Addr
  node : Addr → Node ρ

variable {ρ : Type}

namespace RequestList

def setNode (list : RequestList ρ) (a : Addr) (x : Node ρ) : RequestList ρ :=
  { list with node := Function.update list.node a x }

def setPrev (list : RequestList ρ) (a : Addr) (p : Option Addr) : RequestList ρ :=
  list.setNode a { list.node a with prev := p }

def setNext (list : RequestList ρ) (a : Addr) (p : Option Addr) : RequestList ρ :=
  list.setNode a { list.node a with next := p }

end RequestList

def llInit (list : RequestList ρ) : RequestList ρ := { list with head := none, tail := none }

/-- `ll_insert_head`, with the address that `malloc` returned. -/
def llInsertHead (list : RequestList ρ) (newNode : Addr) (data : ρ) : RequestList ρ :=
  let list := list.setNode newNode ⟨data, none, none⟩
  match list.head with
  | none => { list with head := some newNode, tail := some newNode }
  | some head =>
      let list := list.setPrev head (some newNode)
      let list := list.setNext newNode (some head)
      { list with head := some newNode }

def llRemoveTail (list : RequestList ρ) : Option Addr × RequestList ρ :=
  match list.tail with
  | none => (none, list)
  | some result =>
      let list := { list with tail := (list.node result).prev }
      match list.tail with
      | some tail => (some result, list.setPrev tail none)
      | none => (some result, llInit list)

/-! ## Links -/

namespace RequestList

/-- Following `prev` from `tail` visits `as`, and `head` is the last of them. -/
structure Linked (list : RequestList ρ) (as : List Addr) : Prop where
  prev : Chain (fun a ↦ (list.node a).prev) list.tail as
  head : list.head = as.getLast?

/-- Following `next` from `head` and `prev` from `tail` visits the same nodes in
opposite orders. -/
def WellFormed (list : RequestList ρ) : Prop :=
  ∃ as, Chain (fun a ↦ (list.node a).next) list.head as.reverse ∧
    Chain (fun a ↦ (list.node a).prev) list.tail as

variable {list : RequestList ρ} {as : List Addr} {a b newNode : Addr} {data : ρ}

@[simp] theorem node_setNode (x : Node ρ) : (list.setNode a x).node a = x := by
  simp [setNode]

theorem node_setNode_of_ne (x : Node ρ) (h : b ≠ a) : (list.setNode a x).node b = list.node b := by
  simp [setNode, h]

theorem data_setPrev (p : Option Addr) (c : Addr) :
    ((list.setPrev a p).node c).data = (list.node c).data := by
  by_cases hc : c = a
  · rw [hc, setPrev, node_setNode]
  · rw [setPrev, node_setNode_of_ne _ hc]

theorem next_setPrev (p : Option Addr) (c : Addr) :
    ((list.setPrev a p).node c).next = (list.node c).next := by
  by_cases hc : c = a
  · rw [hc, setPrev, node_setNode]
  · rw [setPrev, node_setNode_of_ne _ hc]

theorem llInsertHead_of_none (h : list.head = none) : llInsertHead list newNode data =
    { list.setNode newNode ⟨data, none, none⟩ with head := some newNode, tail := some newNode } := by
  simp only [llInsertHead, setNode, h]

theorem llInsertHead_of_some (h : list.head = some b) : llInsertHead list newNode data =
    { ((list.setNode newNode ⟨data, none, none⟩).setPrev b (some newNode)).setNext newNode (some b)
      with head := some newNode } := by
  simp only [llInsertHead, setNode, h]

theorem node_llInsertHead (data : ρ) (h : list.head = some b) (hne : b ≠ newNode) (c : Addr) :
    (llInsertHead list newNode data).node c =
      if c = newNode then ⟨data, none, some b⟩
      else if c = b then { list.node b with prev := some newNode } else list.node c := by
  rw [llInsertHead_of_some h]
  simp only [setPrev, setNext, node_setNode_of_ne _ hne, node_setNode_of_ne _ hne.symm,
    node_setNode]
  by_cases hc : c = newNode
  · subst hc
    rw [node_setNode, if_pos rfl]
  · rw [node_setNode_of_ne _ hc, if_neg hc]
    by_cases hcb : c = b
    · subst hcb
      rw [node_setNode, if_pos rfl]
    · rw [node_setNode_of_ne _ hcb, node_setNode_of_ne _ hc, if_neg hcb]

theorem Linked.head_cases (h : list.Linked as) (hnew : newNode ∉ as) :
    (as = [] ∧ list.head = none) ∨
      ∃ bs b, as = bs ++ [b] ∧ list.head = some b ∧ b ≠ newNode := by
  rcases List.eq_nil_or_concat as with rfl | ⟨bs, b, rfl⟩
  · exact .inl ⟨rfl, h.head⟩
  · rw [List.concat_eq_append] at *
    refine .inr ⟨bs, b, rfl, by rw [h.head, List.getLast?_concat], ?_⟩
    rintro rfl
    exact hnew (List.mem_append_right bs List.mem_cons_self)

theorem Linked.insert (h : list.Linked as) (hnew : newNode ∉ as) :
    (llInsertHead list newNode data).Linked (as ++ [newNode]) := by
  rcases h.head_cases hnew with ⟨rfl, hhead⟩ | ⟨bs, b, rfl, hhead, hne⟩
  · rw [llInsertHead_of_none hhead]
    exact ⟨⟨rfl, by simp⟩, rfl⟩
  · have hnode := node_llInsertHead data hhead hne
    have htail : (llInsertHead list newNode data).tail = list.tail := by
      rw [llInsertHead_of_some hhead]
      rfl
    rw [List.append_assoc]
    refine ⟨?_, ?_⟩
    · rw [htail]
      refine h.prev.snoc hnew ?_ ?_ fun c hc hcb ↦ ?_
      · rw [hnode, if_pos rfl]
      · rw [hnode, if_neg hne, if_pos rfl]
      · rw [hnode, if_neg hc, if_neg hcb]
    · rw [llInsertHead_of_some hhead]
      simp

theorem Linked.data_insert (h : list.Linked as) (hnew : newNode ∉ as) (c : Addr) :
    ((llInsertHead list newNode data).node c).data =
      if c = newNode then data else (list.node c).data := by
  rcases h.head_cases hnew with ⟨rfl, hhead⟩ | ⟨bs, b, rfl, hhead, hne⟩
  · rw [llInsertHead_of_none hhead]
    by_cases hc : c = newNode
    · subst hc
      rw [if_pos rfl, node_setNode]
    · rw [if_neg hc, node_setNode_of_ne _ hc]
  · rw [node_llInsertHead data hhead hne]
    by_cases hc : c = newNode
    · rw [if_pos hc, if_pos hc]
    · rw [if_neg hc, if_neg hc]
      by_cases hcb : c = b
      · rw [if_pos hcb, hcb]
      · rw [if_neg hcb]

theorem Linked.map_data_insert (h : list.Linked as) (hnew : newNode ∉ as) :
    (as ++ [newNode]).map (fun a ↦ ((llInsertHead list newNode data).node a).data) =
      as.map (fun a ↦ (list.node a).data) ++ [data] := by
  rw [List.map_append, List.map_singleton, h.data_insert hnew, if_pos rfl]
  congr 1
  refine List.map_congr_left fun a ha ↦ ?_
  rw [h.data_insert hnew, if_neg]
  rintro rfl
  exact hnew ha

theorem Linked.next_insert (h : list.Linked as) (hnew : newNode ∉ as)
    (hnext : Chain (fun a ↦ (list.node a).next) list.head as.reverse) :
    Chain (fun a ↦ ((llInsertHead list newNode data).node a).next)
      (llInsertHead list newNode data).head (as ++ [newNode]).reverse := by
  rw [List.reverse_append, List.reverse_singleton, List.singleton_append]
  rcases h.head_cases hnew with ⟨rfl, hhead⟩ | ⟨bs, b, rfl, hhead, hne⟩
  · rw [llInsertHead_of_none hhead]
    exact ⟨rfl, by simp⟩
  · have hnode := node_llInsertHead data hhead hne
    have hhead' : (llInsertHead list newNode data).head = some newNode := by
      rw [llInsertHead_of_some hhead]
    rw [hhead']
    refine hnext.cons (fun hmem ↦ hnew (List.mem_reverse.mp hmem)) ?_ fun c _ hc ↦ ?_
    · rw [hnode, if_pos rfl, hhead]
    · rw [hnode, if_neg hc]
      by_cases hcb : c = b
      · rw [if_pos hcb, hcb]
      · rw [if_neg hcb]

/-! ## Removal -/

theorem llRemoveTail_nil (h : list.Linked []) : llRemoveTail list = (none, list) := by
  have htail : list.tail = none := h.prev
  rw [llRemoveTail, htail]

theorem llRemoveTail_singleton (h : list.Linked [a]) :
    llRemoveTail list = (some a, llInit list) := by
  obtain ⟨htail, hprev⟩ := h.prev
  have hprev' : (list.node a).prev = none := hprev
  simp only [llRemoveTail, htail, hprev']
  rfl

theorem llRemoveTail_cons_cons (h : list.Linked (a :: b :: as)) :
    llRemoveTail list = (some a, { list.setPrev b none with tail := some b }) := by
  obtain ⟨htail, hprev, -⟩ := h.prev
  have hprev' : (list.node a).prev = some b := hprev
  simp only [llRemoveTail, htail, hprev']
  rfl

theorem linked_llInit : (llInit list).Linked [] := ⟨rfl, rfl⟩

theorem prev_llRemoveTail (h : list.Linked (a :: b :: as)) :
    Chain (fun c ↦ ((llRemoveTail list).2.node c).prev) (llRemoveTail list).2.tail [b] := by
  rw [llRemoveTail_cons_cons h]
  refine ⟨rfl, ?_⟩
  simp [setPrev]

theorem linked_llRemoveTail_pair (h : list.Linked [a, b]) :
    (llRemoveTail list).2.Linked [b] := by
  refine ⟨prev_llRemoveTail h, ?_⟩
  rw [llRemoveTail_cons_cons h]
  exact h.head

theorem data_llRemoveTail (c : Addr) :
    ((llRemoveTail list).2.node c).data = (list.node c).data := by
  simp only [llRemoveTail]
  cases list.tail with
  | none => rfl
  | some result =>
      cases hprev : (list.node result).prev with
      | none => simp only [hprev, llInit]
      | some tail =>
          simp only [hprev]
          exact data_setPrev none c

end RequestList

end OsProjects.Server
