import OsProjects.Memory.Frame

/-!
# Address translation

The page table of `translation.c`: four levels of tables, one frame each.  An
index is added to the address of a table as a number of bytes, although an
entry has eight of them.
-/

namespace OsProjects.Memory

open Library.Program Library.Bytes

def memorySize : ℕ := numFrames * 4096

/-- The physical memory with its allocator, and `table_root`, where `0` is `NULL`. -/
structure Machine where
  frames : Frames
  memory : Buffer memorySize
  tableRoot : ℕ

abbrev VM := EStateM Fault Machine

/-- `struct entry_t_` -/
structure Entry where
  address : BitVec 52
  unused : BitVec 3
  flags : BitVec 9

/-- The bit-fields of an entry, from the lowest bit of its eight bytes on. -/
def Entry.ofWord (w : ℕ) : Entry where
  address := .ofNat 52 w
  unused := .ofNat 3 (w / 2 ^ 52)
  flags := .ofNat 9 (w / 2 ^ 55)

def Entry.toWord (e : Entry) : ℕ :=
  e.address.toNat + 2 ^ 52 * e.unused.toNat + 2 ^ 55 * e.flags.toNat

/-! ## The memory -/

def liftFrames {α : Type} (x : FM α) : VM α := fun s ↦
  match x.run s.frames with
  | .ok a t => .ok a { s with frames := t }
  | .error e t => .error e { s with frames := t }

section Code

/- The address of the array `memory`. -/
variable (base : ℕ)

/-- The place in the memory of the `count` bytes at an address. -/
def locate (address : ℤ) (count : ℕ) : VM ℕ :=
  if base ≤ address ∧ address + count ≤ base + memorySize then
    return (address - base).toNat
  else
    throw (.outOfBounds memorySize (address - base))

def loadEntry (pointer : ℕ) : VM Entry := do
  let off ← locate base pointer 8
  return .ofWord (readLE (← get).memory off 8)

def storeEntry (pointer : ℕ) (e : Entry) : VM Unit := do
  let off ← locate base pointer 8
  modify fun s ↦ { s with memory := writeLE s.memory off 8 e.toWord }

def setAddress (pointer : ℕ) (address : ℕ) : VM Unit := do
  let e ← loadEntry base pointer
  storeEntry base pointer { e with address := .ofNat 52 address }

def setFlags (pointer : ℕ) (flags : ℕ) : VM Unit := do
  let e ← loadEntry base pointer
  storeEntry base pointer { e with flags := .ofNat 9 flags }

/-! ## `translation.c` -/

def makeNode : VM ℕ := do
  let frame ← liftFrames (allocateFrame 1)
  let node : ℤ := base + frame * 4096
  let off ← locate base node 4096
  modify fun s ↦ { s with memory := copyInto s.memory off 4096 fun _ ↦ 0 }
  return node.toNat

/-- The function that `vm_map` calls for its tables, taken to be `make_node`. -/
def newNode : VM ℕ := makeNode base

/-- The address of the table an entry of `vm_map` leads to, which is created if
there is none. -/
def child (pointer : ℕ) : VM ℕ := do
  if (← loadEntry base pointer).address = 0 then
    setAddress base pointer (← newNode base)
  return (← loadEntry base pointer).address.toNat

/-- One iteration of `vm_map`; the accumulator holds `page` and the result once
it is known. -/
def mapBody (frame : UInt64) (i : ℕ) (acc : UInt64 × Option ℤ) :
    VM (ForInStep (UInt64 × Option ℤ)) := do
  let page := acc.1 + UInt64.ofNat i
  let a := (page &&& 0x1FF).toNat
  let b := (page >>> 9 &&& 0x1FF).toNat
  let c := (page >>> 18 &&& 0x1FF).toNat
  let d := (page >>> 27 &&& 0x1FF).toNat
  let firstPointer := (← get).tableRoot + a
  let secondPointer := (← child base firstPointer) + b
  let thirdPointer := (← child base secondPointer) + c
  let fourthPointer := (← child base thirdPointer) + d
  if (← loadEntry base fourthPointer).address = 0 then
    setAddress base fourthPointer frame.toNat
    setFlags base fourthPointer 1
    return .yield (page, none)
  else
    return .done (page, some 0)

/-- `vm_map`, which does not use its argument `flags`. -/
def vmMap (page frame : UInt64) (number : ℤ) (_flags : UInt16) : VM ℤ := do
  if page = 0 then
    return 0
  if (← get).tableRoot = 0 then
    let node ← makeNode base
    modify fun s ↦ { s with tableRoot := node }
  let (_, result) ← forLoop (mapBody base frame) 0 number.toNat (page, none)
  match result with
  | some r => return r
  | none => return 1

def vmFind (page : UInt64) : VM (Option ℕ) := do
  let a := (page &&& 0x1FF).toNat
  let b := (page >>> 9 &&& 0x1FF).toNat
  let c := (page >>> 18 &&& 0x1FF).toNat
  let d := (page >>> 27 &&& 0x1FF).toNat
  if page = 0 then
    return none
  let firstPointer := (← get).tableRoot + a
  let first ← loadEntry base firstPointer
  if first.address = 0 then
    return none
  let secondPointer := first.address.toNat + b
  let second ← loadEntry base secondPointer
  if second.address = 0 then
    return none
  let thirdPointer := second.address.toNat + c
  let third ← loadEntry base thirdPointer
  if third.address = 0 then
    return none
  let fourthPointer := third.address.toNat + d
  if (← loadEntry base fourthPointer).flags = 1 then
    return some fourthPointer
  else
    return none

/-- One iteration of `vm_unmap`; a page that is not found is looked at all the
same, at `NULL`. -/
def unmapBody (i : ℕ) (acc : UInt64 × Option ℤ) : VM (ForInStep (UInt64 × Option ℤ)) := do
  let page := acc.1 + UInt64.ofNat i
  let lastPointer := (← vmFind base page).getD 0
  if (← loadEntry base lastPointer).flags = 1 then
    setFlags base lastPointer 0
    return .done (page, some 1)
  else
    return .yield (page, none)

def vmUnmap (page : UInt64) (number : ℤ) : VM ℤ := do
  if page = 0 then
    return 0
  let (_, result) ← forLoop (unmapBody base) 0 number.toNat (page, none)
  match result with
  | some r => return r
  | none => return 0

def vmTranslate (virtualAddress : UInt64) : VM UInt64 := do
  match ← vmFind base (virtualAddress >>> 12) with
  | none => return 0xFFFFFFFFFFFFFFFF
  | some physicalPageNumber =>
      let e ← loadEntry base physicalPageNumber
      return UInt64.ofNat e.address.toNat <<< 12 ||| (virtualAddress &&& 0xFFF)

end Code

end OsProjects.Memory
