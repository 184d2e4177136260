import OsProjects.Library.Chains
import Mathlib.Data.List.Basic

/-!
# Doubly linked lists

The doubly linked list of `ll_double.c` in the thread and memory projects.  Its
functions are symmetric: what they do at the tail is the mirror image of what
they do at the head, and every removal takes a node out of both chains.
-/

namespace OsProjects.Lists

open Library.Chains

/-! ## `ll_double.c` -/

abbrev Addr := ℕ

structure Node (ρ : Type) where
  data : ρ
  prev : Option Addr
  next : Option Addr

/-- `struct list` and the heap with its nodes. -/
@[ext] structure LinkedList (ρ : Type) where
  head : Option Addr
  tail : Option Addr
  node : Addr → Node ρ

variable {ρ : Type}

namespace LinkedList

def setNode (list : LinkedList ρ) (a : Addr) (x : Node ρ) : LinkedList ρ :=
  { list with node := Function.update list.node a x }

def setPrev (list : LinkedList ρ) (a : Addr) (p : Option Addr) : LinkedList ρ :=
  list.setNode a { list.node a with prev := p }

def setNext (list : LinkedList ρ) (a : Addr) (p : Option Addr) : LinkedList ρ :=
  list.setNode a { list.node a with next := p }

end LinkedList

def llInit (list : LinkedList ρ) : LinkedList ρ := { list with head := none, tail := none }

/-- `ll_insert_head`, with the result of `malloc`. -/
def llInsertHead (list : LinkedList ρ) (newNode : Option Addr) (data : ρ) :
    Option Addr × LinkedList ρ :=
  match newNode with
  | none => (none, list)
  | some a =>
      let list := list.setNode a ⟨data, none, list.head⟩
      let list := match list.head with
        | some head => list.setPrev head (some a)
        | none => list
      let list := { list with head := some a }
      let list := match list.tail with
        | none => { list with tail := some a }
        | some _ => list
      (some a, list)

/-- `ll_insert_tail`, with the result of `malloc`. -/
def llInsertTail (list : LinkedList ρ) (newNode : Option Addr) (data : ρ) :
    Option Addr × LinkedList ρ :=
  match newNode with
  | none => (none, list)
  | some a =>
      let list := list.setNode a ⟨data, list.tail, none⟩
      let list := match list.tail with
        | some tail => list.setNext tail (some a)
        | none => list
      let list := { list with tail := some a }
      let list := match list.head with
        | none => { list with head := some a }
        | some _ => list
      (some a, list)

/-- The loop of `ll_search`, which is not left when `fuel` iterations are over. -/
def searchFrom [DecidableEq ρ] (list : LinkedList ρ) (data : ρ) :
    ℕ → Option Addr → Option (Option Addr)
  | 0, _ => none
  | _ + 1, none => some none
  | fuel + 1, some temporary =>
      if data = (list.node temporary).data then
        some (some temporary)
      else
        searchFrom list data fuel (list.node temporary).next

def llSearch [DecidableEq ρ] (list : LinkedList ρ) (data : ρ) (fuel : ℕ) :
    Option (Option Addr) :=
  searchFrom list data fuel list.head

/-- What `ll_remove` does with the node it has found. -/
def unlink (list : LinkedList ρ) (temporary : Addr) : LinkedList ρ :=
  let list := match (list.node temporary).prev with
    | some prev => list.setNext prev (list.node temporary).next
    | none => { list with head := (list.node temporary).next }
  match (list.node temporary).next with
  | some next => list.setPrev next (list.node temporary).prev
  | none => { list with tail := (list.node temporary).prev }

def llRemove [DecidableEq ρ] (list : LinkedList ρ) (data : ρ) (fuel : ℕ) :
    Option (Option ρ × LinkedList ρ) :=
  (llSearch list data fuel).map fun
    | none => (none, list)
    | some temporary => (some data, unlink list temporary)

def llRemoveHead (list : LinkedList ρ) : Option Addr × LinkedList ρ :=
  match list.head with
  | none => (none, list)
  | some result =>
      let list := { list with head := (list.node result).next }
      match list.head with
      | some head => (some result, list.setPrev head none)
      | none => (some result, { list with tail := none })

def llRemoveTail (list : LinkedList ρ) : Option Addr × LinkedList ρ :=
  match list.tail with
  | none => (none, list)
  | some result =>
      let list := { list with tail := (list.node result).prev }
      match list.tail with
      | some tail => (some result, list.setNext tail none)
      | none => (some result, { list with head := none })

namespace LinkedList

variable {list list' : LinkedList ρ} {as bs : List Addr} {a b c : Addr} {data : ρ}

/-! ## Shape -/

/-- Following `next` from `head` visits `as`, and following `prev` from `tail`
visits the same nodes in the opposite order. -/
structure Linked (list : LinkedList ρ) (as : List Addr) : Prop where
  next : Chain (fun a ↦ (list.node a).next) list.head as
  prev : Chain (fun a ↦ (list.node a).prev) list.tail as.reverse

theorem linked_llInit : (llInit list).Linked [] := ⟨rfl, rfl⟩

theorem Linked.head_eq (h : list.Linked as) : list.head = as.head? := h.next.start_eq

theorem Linked.tail_eq (h : list.Linked as) : list.tail = as.getLast? := by
  rw [h.prev.start_eq, List.head?_reverse]

theorem Linked.next_eq (h : list.Linked (as ++ a :: bs)) : (list.node a).next = bs.head? :=
  h.next.succ_eq

theorem Linked.prev_eq (h : list.Linked (as ++ a :: bs)) : (list.node a).prev = as.getLast? := by
  have hprev := h.prev
  rw [List.reverse_append, List.reverse_cons, List.append_assoc, List.singleton_append] at hprev
  rw [← List.head?_reverse]
  exact hprev.succ_eq

theorem Linked.unique (h : list.Linked as) (h' : list.Linked bs) : as = bs := h.next.unique h'.next

/-- The list with a field of the data for the data. -/
def map {σ : Type} (f : ρ → σ) (list : LinkedList ρ) : LinkedList σ where
  head := list.head
  tail := list.tail
  node a := ⟨f (list.node a).data, (list.node a).prev, (list.node a).next⟩

theorem Linked.map {σ : Type} (f : ρ → σ) (h : list.Linked as) : (list.map f).Linked as :=
  ⟨h.next, h.prev⟩

def setData (list : LinkedList ρ) (a : Addr) (data : ρ) : LinkedList ρ :=
  list.setNode a { list.node a with data := data }

theorem node_setData : (list.setData a data).node c =
    if c = a then { list.node a with data := data } else list.node c := by
  by_cases hc : c = a
  · simp [setData, setNode, hc]
  · simp [setData, setNode, hc]

theorem Linked.setData (h : list.Linked as) : (list.setData a data).Linked as := by
  constructor
  · apply h.next.congr
    intro c _
    rw [node_setData]
    split
    · simp [*]
    · rfl
  · apply h.prev.congr
    intro c _
    rw [node_setData]
    split
    · simp [*]
    · rfl

/-! ## Symmetry -/

def mirror (list : LinkedList ρ) : LinkedList ρ where
  head := list.tail
  tail := list.head
  node a := ⟨(list.node a).data, (list.node a).next, (list.node a).prev⟩

@[simp] theorem mirror_mirror : list.mirror.mirror = list := rfl

theorem linked_mirror : list.mirror.Linked as ↔ list.Linked as.reverse := by
  constructor
  · intro h
    refine ⟨h.prev, ?_⟩
    rw [List.reverse_reverse]
    exact h.next
  · intro h
    have hprev := h.prev
    rw [List.reverse_reverse] at hprev
    exact ⟨hprev, h.next⟩

theorem mirror_setNode (x : Node ρ) : (list.setNode a x).mirror =
    list.mirror.setNode a ⟨x.data, x.next, x.prev⟩ := by
  simp only [mirror, setNode, mk.injEq, true_and]
  funext c
  by_cases hc : c = a
  · simp [hc]
  · simp [hc]

theorem mirror_setPrev (p : Option Addr) :
    (list.setPrev a p).mirror = list.mirror.setNext a p := mirror_setNode _

end LinkedList

end OsProjects.Lists
