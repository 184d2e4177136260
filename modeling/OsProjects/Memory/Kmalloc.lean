import OsProjects.Library.Bytes
import OsProjects.Library.Program
import OsProjects.Library.Runs

/-!
# The heap

`kmalloc` and `kfree` of `kmalloc.c` over a memory of bytes.  The nodes of the
list of pages are in that memory too, since `try_fit_data` takes a node for the
page it leads to.  What `try_fit_data` returns is the address of a variable of
its own.
-/

namespace OsProjects.Memory

open Library.Program Library.Bytes Library.Runs

/-- The memory, the pages obtained from `palloc`, the nodes obtained from
`malloc`, and `linked_list`, where `0` is `NULL`. -/
structure Heap where
  bytes : ℕ → UInt8
  pages : List UInt64
  nodes : List UInt64
  head : UInt64
  tail : UInt64

/-- Why a call does not return: an access outside the pages and nodes, or loops
that have not been left. -/
inductive HeapStop
  | outside (address : UInt64)
  | running
  deriving DecidableEq

abbrev HM := EStateM HeapStop Heap

namespace Heap

/-- The objects in the memory, by address and size. -/
def objects (s : Heap) : List (ℕ × ℕ) :=
  s.pages.map (fun p ↦ (p.toNat, 4096)) ++ s.nodes.map (fun n ↦ (n.toNat, 24))

/-- The eight bytes at `a` lie in an object. -/
def Accessible (s : Heap) (a : UInt64) : Prop :=
  ∃ o ∈ s.objects, o.1 ≤ a.toNat ∧ a.toNat + 8 ≤ o.1 + o.2

instance (s : Heap) (a : UInt64) : Decidable (s.Accessible a) :=
  inferInstanceAs (Decidable (∃ o ∈ s.objects, _))

def word (s : Heap) (a : UInt64) : UInt64 :=
  UInt64.ofNat (leValue (fun i ↦ s.bytes (a.toNat + i)) 8)

def write (s : Heap) (a v : UInt64) : Heap :=
  { s with bytes := copyOver s.bytes a.toNat 8 (leByte v.toNat) }

end Heap

def load (a : UInt64) : HM UInt64 := do
  let s ← get
  if s.Accessible a then
    return s.word a
  else
    throw (.outside a)

def store (a v : UInt64) : HM Unit := do
  let s ← get
  if s.Accessible a then
    set (s.write a v)
  else
    throw (.outside a)

/-- The results of `palloc(1)` and `malloc(sizeof(struct node))` in a call of
`kmalloc`, and the address of the variable `header` of `try_fit_data`. -/
structure Surroundings where
  page : UInt64
  node : UInt64
  header : UInt64

section Calls

variable (env : Surroundings)

def pallocPage : HM UInt64 := do
  modify fun s ↦ { s with pages := env.page :: s.pages }
  return env.page

def mallocNode : HM UInt64 := do
  modify fun s ↦ { s with nodes := if env.node = 0 then s.nodes else env.node :: s.nodes }
  return env.node

/-- The assignment to `list->tail->next`, if there is a tail. -/
def linkTail (newNode : UInt64) : HM Unit := do
  let tail := (← get).tail
  if tail ≠ 0 then
    store (tail + 16) newNode

def llInsertTail (data : UInt64) : HM UInt64 := do
  let newNode ← mallocNode env
  if newNode = 0 then
    return newNode
  else
    store newNode data
    store (newNode + 8) (← get).tail
    store (newNode + 16) 0
    linkTail newNode
    modify fun s ↦ { s with tail := newNode, head := if s.head = 0 then newNode else s.head }
    return newNode

/-! ## `kmalloc.c` -/

def blockInit : HM UInt64 := do
  let b ← pallocPage env
  store b (b + 8)
  store (b + 8) (4096 - 3 * 8)
  store (b + 16) 0
  return b

/-- One iteration of the loop of `try_fit_data`, on `pred` and `freeList`. -/
def tryFitBody (size : UInt64) : UInt64 × UInt64 → HM (UInt64 × UInt64 ⊕ UInt64)
  | (pred, freeList) => do
      if freeList ≠ 0 then
        if (← load freeList) > size - 2 * 8 then
          let newFree := freeList + (size - 2 * 8)
          store newFree ((← load freeList) - (size - 2 * 8))
          store (newFree + 8) (← load (freeList + 8))
          store freeList size
          store (freeList + 8) 0xc0dec0de
          store pred newFree
          -- not what `header` points to
          return .inr env.header
        else
          return .inl (freeList + 8, ← load (freeList + 8))
      else
        return .inr 0

def tryFitData (size page : UInt64) (fuel : ℕ) : HM UInt64 := do
  let freeList ← load page
  whileLoop .running (tryFitBody env size) fuel (page, freeList)

/-- One iteration of the loop of `kmalloc` over the nodes of the list. -/
def kmallocBody (size : UInt64) (fuel : ℕ) (current : UInt64) : HM (UInt64 ⊕ Option UInt64) := do
  if current ≠ 0 then
    let p ← tryFitData env size current fuel
    if p ≠ 0 then
      return .inr (some p)
    else
      return .inl (← load (current + 16))
  else
    return .inr none

def kmalloc (size : UInt64) (fuel : ℕ) : HM UInt64 := do
  match ← whileLoop .running (kmallocBody env size fuel) fuel (← get).head with
  | some p => return p
  | none =>
      let current ← llInsertTail env (← blockInit env)
      tryFitData env size current fuel

end Calls

/-- One iteration of the loop of `kfree`. -/
def kfreeBody (block beg : UInt64) : HM (UInt64 ⊕ Unit) := do
  if (← load (beg + 8)) < block then
    let beg ← load (beg + 8)
    if beg + 8 * (← load beg) + 8 * (2 * 8) = block then
      store beg ((← load beg) + ((← load block) + 2 * 8))
    else
      store (block + 8) (← load (beg + 8))
      store (beg + 8) block
    return .inl beg
  else
    return .inr ()

/-- `kfree(address)`, where `memory` is at `base` and the parameter at `slot`. -/
def kfree (base slot address : UInt64) (fuel : ℕ) : HM Unit :=
  let frame := ((address.toNat : ℤ) - base.toNat).tdiv 4096
  let beg := cUInt64 (base.toNat + frame * 4096)
  let block := slot - 8 * (2 * 8)
  whileLoop .running (kfreeBody block) fuel beg

/-! ## What the heap is to do -/

def Apart (o o' : ℕ × ℕ) : Prop := o.1 + o.2 ≤ o'.1 ∨ o'.1 + o'.2 ≤ o.1

/-- What a call of `kmalloc` brings into the memory. -/
def Surroundings.objects (env : Surroundings) : List (ℕ × ℕ) :=
  [(env.page.toNat, 4096), (env.header.toNat, 8)] ++
    if env.node = 0 then [] else [(env.node.toNat, 24)]

/-- The page, the node and the variable overlap neither each other nor what is
in the memory.  Nothing is at the first addresses. -/
structure Surroundings.Fresh (env : Surroundings) (s : Heap) : Prop where
  apart : env.objects.Pairwise Apart
  new : ∀ o ∈ env.objects, ∀ o' ∈ s.objects, Apart o o'
  bounds : ∀ o ∈ env.objects, 4096 ≤ o.1 ∧ o.1 + o.2 ≤ 2 ^ 64

/-- A free chunk of one of the pages, as `kmalloc` finds them. -/
inductive Heap.Free (s : Heap) : UInt64 → Prop
  | first {node : UInt64} (hnode : node ∈ s.nodes) (hne : s.word node ≠ 0) : Free s (s.word node)
  | next {a : UInt64} (h : Free s a) (hne : s.word (a + 8) ≠ 0) : Free s (s.word (a + 8))

structure Heap.Provides (s : Heap) (live : List (UInt64 × UInt64)) (a size : UInt64) : Prop where
  start : ∃ p ∈ s.pages, p.toNat ≤ a.toNat ∧ a.toNat < p.toNat + 4096
  inPages : ∀ i < size.toNat, ∃ p ∈ s.pages,
    p.toNat ≤ a.toNat + i ∧ a.toNat + i < p.toNat + 4096
  apart : ∀ c ∈ live, Apart (a.toNat, size.toNat) (c.1.toNat, c.2.toNat)
  pageHeaders : ∀ p ∈ s.pages, Apart (a.toNat, size.toNat) (p.toNat, 8)
  freeHeaders : ∀ f, s.Free f → Apart (a.toNat, size.toNat) (f.toNat, 16)

/-- A heap and its chunks, by address and size. -/
structure HeapState where
  heap : Heap
  live : List (UInt64 × UInt64)

def HeapState.init (bytes : ℕ → UInt8) : HeapState := ⟨⟨bytes, [], [], 0, 0⟩, []⟩

inductive HeapCall
  | kmalloc (size : UInt64)
  | kfree (address : UInt64)

inductive HeapStep (base : UInt64) (s : HeapState) : HeapCall → HeapState → Prop
  | kmalloc {env : Surroundings} {size a : UInt64} {fuel : ℕ} {t : Heap}
      (hfresh : env.Fresh s.heap) (hrun : (kmalloc env size fuel).run s.heap = .ok a t) :
      HeapStep base s (.kmalloc size) ⟨t, if a = 0 then s.live else (a, size) :: s.live⟩
  | kfree {slot address size : UInt64} {fuel : ℕ} {t : Heap} (hlive : (address, size) ∈ s.live)
      (hrun : (kfree base slot address fuel).run s.heap = .ok () t) :
      HeapStep base s (.kfree address) ⟨t, s.live.erase (address, size)⟩

/-- The call returns, and gives `size` bytes or `NULL`, which is always accepted
here. -/
def Allocates (env : Surroundings) (size : UInt64) (fuel : ℕ) (s : HeapState) : Prop :=
  ∃ a t, (kmalloc env size fuel).run s.heap = .ok a t ∧ (a = 0 ∨ t.Provides s.live a size)

end OsProjects.Memory
