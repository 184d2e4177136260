import OsProjects.Library.Bytes
import OsProjects.Library.Program

/-!
# The emulated block device

The device of `storage.c`, together with the state shared by the functions of
the filesystem: the device, the global variables of `files.c` and `bitmap.c`,
and what the C text leaves open, namely the content of automatic buffers before
they are written.  A trace records the numbers returned by the allocator and
the accesses to pointer blocks; no function reads it.
-/

namespace OsProjects.Filesystem

open Library.Program Library.Bytes

def blockSize : ℕ := 4 * 1024

def numBlocks : ℕ := 16 * 1024

abbrev Block := Buffer blockSize

/-- The array `storage`, block by block: byte `o` of block `b` is
`storage[b * blockSize + o]`. -/
abbrev Disk := Fin numBlocks → Block

inductive Event
  | allocate (result : ℤ)
  /-- `entry[index]` of a pointer block was accessed for byte `position` of a file. -/
  | entry (position : ℕ) (index : ℤ)
  deriving DecidableEq

/-- The global variables of `files.c` and `bitmap.c`. -/
structure Globals where
  inodesPerBlock : ℤ
  numberInodeBlocks : UInt64
  numberBitmapBlocks : UInt64
  bitmapFirstBlock : UInt64
  bitmapNumberBlocks : UInt64
  firstAllocatable : UInt64
  lastAllocatable : UInt64

structure World where
  storage : Disk
  globals : Globals
  stack : ℕ → Block
  frames : ℕ
  /-- The recorded events, the newest first. -/
  trace : List Event

abbrev FS := EStateM Fault World

/-! ## Blocks of a disk -/

namespace Disk

/-- Block `b` of a disk, all zero beyond the device. -/
def block (d : Disk) (b : ℕ) : Block :=
  if h : b < numBlocks then d ⟨b, h⟩ else fun _ ↦ 0

def set (d : Disk) (b : ℕ) (data : Block) : Disk := fun i ↦
  if i.val = b then data else d i

theorem block_set_self (d : Disk) {b : ℕ} (data : Block) (h : b < numBlocks) :
    (d.set b data).block b = data := by
  simp [block, set, h]

theorem block_set_of_ne (d : Disk) {b c : ℕ} (data : Block) (h : c ≠ b) :
    (d.set b data).block c = d.block c := by
  unfold block
  split
  · simp [set, h]
  · rfl

theorem ext_block {d e : Disk} (h : ∀ b < numBlocks, d.block b = e.block b) : d = e := by
  funext i
  have hi := h i.val i.isLt
  simpa only [block, i.isLt, dif_pos] using hi

theorem set_of_le (d : Disk) {b : ℕ} (data : Block) (h : numBlocks ≤ b) : d.set b data = d := by
  funext i
  simp only [set]
  rw [if_neg (by omega)]

end Disk

/-! ## The state after a step -/

def World.advance (w : World) (d : Disk) (k : ℕ) (events : List Event) : World :=
  { w with storage := d, frames := w.frames + k, trace := events ++ w.trace }

namespace World

variable (w : World) (d : Disk) (k : ℕ) (events : List Event)

@[simp] theorem advance_storage : (w.advance d k events).storage = d := rfl

@[simp] theorem advance_globals : (w.advance d k events).globals = w.globals := rfl

@[simp] theorem advance_trace : (w.advance d k events).trace = events ++ w.trace := rfl

@[simp] theorem advance_advance (d' : Disk) (k' : ℕ) (events' : List Event) :
    (w.advance d k events).advance d' k' events' =
      w.advance d' (k + k') (events' ++ events) := by
  simp [advance, Nat.add_assoc]

@[simp] theorem advance_self : w.advance w.storage 0 [] = w := rfl

end World

/-- `u` is `w` with the disk `d`, up to declared buffers and recorded events. -/
def World.Becomes (w : World) (d : Disk) (u : World) : Prop :=
  ∃ k events, u = w.advance d k events

namespace World.Becomes

variable {w u v : World} {d e : Disk}

theorem advance (w : World) (d : Disk) (k : ℕ) (events : List Event) :
    w.Becomes d (w.advance d k events) := ⟨k, events, rfl⟩

theorem refl (w : World) : w.Becomes w.storage w := ⟨0, [], rfl⟩

theorem storage (h : w.Becomes d u) : u.storage = d := by
  obtain ⟨k, events, rfl⟩ := h
  rfl

theorem globals (h : w.Becomes d u) : u.globals = w.globals := by
  obtain ⟨k, events, rfl⟩ := h
  rfl

theorem trans (h : w.Becomes d u) (h' : u.Becomes e v) : w.Becomes e v := by
  obtain ⟨k, events, rfl⟩ := h
  obtain ⟨k', events', rfl⟩ := h'
  exact ⟨k + k', events' ++ events, World.advance_advance ..⟩

theorem advanced (h : w.Becomes d u) (e : Disk) (k : ℕ) (events : List Event) :
    w.Becomes e (u.advance e k events) := h.trans (advance u e k events)

end World.Becomes

/-- Declaration of an automatic buffer, whose content is indeterminate. -/
def automatic : FS Block := do
  let w ← get
  set { w with frames := w.frames + 1 }
  return w.stack w.frames

def emit (event : Event) : FS Unit :=
  modify fun w ↦ { w with trace := event :: w.trace }

theorem run_automatic (w : World) :
    automatic.run w = .ok (w.stack w.frames) (w.advance w.storage 1 []) := rfl

theorem run_emit (event : Event) (w : World) :
    (emit event).run w = .ok () (w.advance w.storage 0 [event]) := rfl

/-! ## `storage.c` -/

/-- Read a block into the buffer `data`, which keeps its content on failure. -/
def storageReadBlock (blockNumber : UInt64) (data : Block) : FS (ℤ × Block) := do
  if numBlocks ≤ blockNumber.toNat then
    return (-1, data)
  else
    let w ← get
    return (0, w.storage.block blockNumber.toNat)

def storageWriteBlock (blockNumber : UInt64) (data : Block) : FS ℤ := do
  if numBlocks ≤ blockNumber.toNat then
    return -1
  else
    modify fun w ↦ { w with storage := w.storage.set blockNumber.toNat data }
    return 0

theorem run_storageReadBlock {n : UInt64} (data : Block) {w : World}
    (h : n.toNat < numBlocks) :
    (storageReadBlock n data).run w = .ok (0, w.storage.block n.toNat) w := by
  rw [storageReadBlock, if_neg (by omega)]
  rfl

theorem run_storageReadBlock_state (n : UInt64) (data : Block) (w : World) :
    ∃ code block, (storageReadBlock n data).run w = .ok (code, block) w := by
  by_cases h : numBlocks ≤ n.toNat
  · exact ⟨-1, data, by rw [storageReadBlock, if_pos h]; rfl⟩
  · exact ⟨0, _, run_storageReadBlock data (by omega)⟩

theorem run_storageWriteBlock (n : UInt64) (data : Block) (w : World) :
    (storageWriteBlock n data).run w =
      .ok (if n.toNat < numBlocks then 0 else -1)
        (w.advance (w.storage.set n.toNat data) 0 []) := by
  by_cases h : numBlocks ≤ n.toNat
  · rw [storageWriteBlock, if_pos h, if_neg (by omega), Disk.set_of_le _ _ h]
    rfl
  · rw [storageWriteBlock, if_neg h, if_pos (by omega)]
    rfl

end OsProjects.Filesystem
