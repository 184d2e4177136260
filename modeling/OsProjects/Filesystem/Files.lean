import OsProjects.Filesystem.Bitmap

/-!
# Files

The functions of `files.c`.  Inodes and pointer blocks are views of the bytes
of a block, as in the C code, which reads one block as the other without a
check.  A pointer block has 512 entries, and an access outside them stops the
run with a fault, as does a `memcpy` past the end of a block.
-/

namespace OsProjects.Filesystem

open Library.Program Library.Bytes

def maxFiles : ℕ := 1024

/-! ## `inode_t` -/

def sizeofInode : ℕ := 32

/-- `buf[offset].flags_used`, the lowest bit of the 16-bit word at byte 6. -/
def inodeFlagsUsed (buf : Block) (offset : ℕ) : Bool := bitAt buf (8 * (sizeofInode * offset + 6))

def setInodeFlagsUsed (buf : Block) (offset : ℕ) : Block := setBit buf (sizeofInode * offset + 6) 0

def inodeSize (buf : Block) (offset : ℕ) : UInt64 :=
  UInt64.ofNat (readLE buf (sizeofInode * offset + 8) 8)

def setInodeSize (buf : Block) (offset : ℕ) (size : UInt64) : Block :=
  writeLE buf (sizeofInode * offset + 8) 8 size.toNat

def inodeHeadPointerBlock (buf : Block) (offset : ℕ) : UInt64 :=
  UInt64.ofNat (readLE buf (sizeofInode * offset + 24) 8)

def setInodeHeadPointerBlock (buf : Block) (offset : ℕ) (number : UInt64) : Block :=
  writeLE buf (sizeofInode * offset + 24) 8 number.toNat

/-! ## `pointer_block_t` -/

def entriesPerBlock : ℕ := 512

def entry (pointers : Block) (i : ℕ) : UInt64 := UInt64.ofNat (readLE pointers (8 * i) 8)

def setEntry (pointers : Block) (i : ℕ) (number : UInt64) : Block :=
  writeLE pointers (8 * i) 8 number.toNat

/-- The access `entry[index]` for byte `position` of a file. -/
def indexEntry (position : ℕ) (index : ℤ) : FS ℕ := do
  emit (.entry position index)
  if 0 ≤ index ∧ index < entriesPerBlock then
    return index.toNat
  else
    throw (.outOfBounds entriesPerBlock index)

/-! ## `memset` and `memcpy` on blocks -/

def zeroedBlock : Block := fun _ ↦ 0

/-- `memcpy(block + offset, buffer + position, howMany)` -/
def memcpyToBlock (block : Block) (offset : ℕ) (buffer : ℕ → UInt8) (position howMany : ℕ) :
    FS Block :=
  if offset + howMany ≤ blockSize then
    return copyInto block offset howMany fun i ↦ buffer (position + i)
  else
    throw (.outOfBounds blockSize (offset + howMany - 1))

/-- `memcpy(buffer + position, block + offset, howMany)` -/
def memcpyFromBlock (buffer : ℕ → UInt8) (position : ℕ) (block : Block) (offset howMany : ℕ) :
    FS (ℕ → UInt8) :=
  if offset + howMany ≤ blockSize then
    return copyOver buffer position howMany fun i ↦ byteAt block (offset + i)
  else
    throw (.outOfBounds blockSize (offset + howMany - 1))

/-! ## Formatting -/

def divUp (a b : ℕ) : ℕ := if a % b = 0 then a / b else a / b + 1

def writeZeroedBlocks (start count : ℕ) : FS Unit :=
  forLoop (fun i _ ↦ do
    let _ ← storageWriteBlock (cUInt64 i) zeroedBlock
    return .yield ()) start count ()

def format : FS Unit := do
  let inodesPerBlock := blockSize / sizeofInode
  let numberInodeBlocks := divUp maxFiles inodesPerBlock
  modify fun w ↦ { w with globals := { w.globals with
    inodesPerBlock := inodesPerBlock
    numberInodeBlocks := UInt64.ofNat numberInodeBlocks } }
  writeZeroedBlocks 0 numberInodeBlocks
  let numberBitmapBlocks := divUp numBlocks (blockSize * 8)
  modify fun w ↦ { w with globals := { w.globals with
    numberBitmapBlocks := UInt64.ofNat numberBitmapBlocks } }
  writeZeroedBlocks numberInodeBlocks numberBitmapBlocks
  bitmapInit (UInt64.ofNat numberInodeBlocks) (UInt64.ofNat numberBitmapBlocks)
    (UInt64.ofNat numBlocks)

/-! ## Creating and growing files -/

def ifileCreate (inodeNumber : UInt64) : FS ℤ := do
  let w ← get
  let buf1 ← automatic
  if w.globals.numberInodeBlocks < inodeNumber then
    return -1
  else
    let currentBlock := inodeNumber / cUInt64 w.globals.inodesPerBlock
    let offset := (inodeNumber % cUInt64 w.globals.inodesPerBlock).toNat
    let (_, buf1) ← storageReadBlock currentBlock buf1
    let buf1 := setInodeFlagsUsed (setInodeSize buf1 offset 0) offset
    let number ← bitmapAllocateBlock
    let buf1 := setInodeHeadPointerBlock buf1 offset (cUInt64 number)
    let _ ← storageWriteBlock currentBlock buf1
    let buf2 ← automatic
    let _ ← storageReadBlock (inodeHeadPointerBlock buf1 offset) buf2
    let number ← bitmapAllocateBlock
    let buf2 := setEntry zeroedBlock 0 (cUInt64 number)
    let _ ← storageWriteBlock (inodeHeadPointerBlock buf1 offset) buf2
    return 0

/-- The file position that entry `i` serves while a file of `size` bytes grows
by the entries from `first` on. -/
def growPosition (size : UInt64) (first i : ℕ) : ℕ := size.toNat + (i + 1 - first) * blockSize

/-- One iteration, for `j = i - k`, of the loop that gives back the blocks
taken before the allocation for entry `i` failed. -/
def rollbackBody (size : UInt64) (first i k : ℕ) (pointers : Block) :
    FS (ForInStep Block) := do
  let j := UInt64.ofNat i - UInt64.ofNat k
  -- the block number passed here is the index of an entry, not its content
  bitmapDeallocateBlock j
  let index ← indexEntry (growPosition size first j.toNat) j.toNat
  return .yield (setEntry pointers index (cUInt64 (-1)))

/-- `pointers->entry[i] = number`, and the loop over `j` when the allocator
failed. -/
def growStore (size : UInt64) (first i : ℕ) (pointers : Block) (number : ℤ) :
    FS (ForInStep Block) := do
  let index ← indexEntry (growPosition size first i) i
  let pointers := setEntry pointers index (cUInt64 number)
  if entry pointers index = cUInt64 (-1) then
    -- with `first = 0` the condition `j >= first` never fails and `j` wraps around
    let pointers ← forLoop (rollbackBody size first i) 0
      (if first = 0 then i + 2 else i + 1 - first) pointers
    return .done pointers
  else
    return .yield pointers

/-- One iteration of the loop that takes a block for entry `i`. -/
def growBody (size : UInt64) (first i : ℕ) (pointers : Block) : FS (ForInStep Block) := do
  let number ← bitmapAllocateBlock
  growStore size first i pointers number

/-- `ifile_grow(&buf1[offset], newSize)`, with the updated buffer. -/
def ifileGrow (buf1 : Block) (offset : ℕ) (newSize : UInt64) : FS (ℤ × Block) := do
  let size := inodeSize buf1 offset
  let currentBlockNumber := cInt (size.toNat / blockSize)
  let lastBlockNumber := cInt (newSize.toNat / blockSize)
  let block ← automatic
  let (_, block) ← storageReadBlock (inodeHeadPointerBlock buf1 offset) block
  let first := (cUInt64 (currentBlockNumber + 1)).toNat
  let last := (cUInt64 lastBlockNumber).toNat
  let block ← forLoop (growBody size first) first (last + 1 - first) block
  let _ ← storageWriteBlock (inodeHeadPointerBlock buf1 offset) block
  return (0, setInodeSize buf1 offset newSize)

/-! ## Reading -/

/-- The iteration of `pointers_read` for the intermediate block `i`; the
accumulator holds the variables `block`, `buffer` and `position`. -/
def pointersReadBody (pointers : Block) (fromPos : UInt64) (i : ℤ)
    (acc : Block × (ℕ → UInt8) × ℕ) : FS (ForInStep (Block × (ℕ → UInt8) × ℕ)) := do
  let (block, buffer, position) := acc
  let index ← indexEntry (fromPos.toNat + position) i
  let (_, block) ← storageReadBlock (entry pointers index) block
  let buffer ← memcpyFromBlock buffer position block 0 blockSize
  return .yield (block, buffer, position + blockSize)

def pointersRead (pointers : Block) (buffer : ℕ → UInt8) (howMany fromPos : UInt64) :
    FS (ℤ × (ℕ → UInt8)) := do
  let firstBlockNumber := cInt (fromPos.toNat / blockSize)
  let firstBlockOffset := fromPos.toNat % blockSize
  let lastBlockNumber := cInt ((fromPos + howMany).toNat / blockSize)
  let lastBlockOffset := (fromPos + howMany).toNat % blockSize
  let block ← automatic
  let index ← indexEntry fromPos.toNat firstBlockNumber
  let (_, block) ← storageReadBlock (entry pointers index) block
  if firstBlockNumber = lastBlockNumber then
    let buffer ← memcpyFromBlock buffer 0 block firstBlockOffset howMany.toNat
    return (0, buffer)
  else
    let buffer ← memcpyFromBlock buffer 0 block firstBlockOffset (blockSize - firstBlockOffset)
    let (block, buffer, position) ←
      forLoop (fun k acc ↦ pointersReadBody pointers fromPos (firstBlockNumber + 1 + k) acc)
        0 (lastBlockNumber - 1 - firstBlockNumber).toNat
        (block, buffer, blockSize - firstBlockOffset)
    let index ← indexEntry (fromPos.toNat + howMany.toNat) lastBlockNumber
    let (_, block) ← storageReadBlock (entry pointers index) block
    let buffer ← memcpyFromBlock buffer position block 0 lastBlockOffset
    return (0, buffer)

/-- `ifile_read`, with the content of the caller's buffer afterwards. -/
def ifileRead (inodeNumber : UInt64) (buffer : ℕ → UInt8) (howMany fromPos : UInt64) :
    FS (ℤ × (ℕ → UInt8)) := do
  let w ← get
  let buf1 ← automatic
  let currentBlock := inodeNumber / cUInt64 w.globals.inodesPerBlock
  let offset := (inodeNumber % cUInt64 w.globals.inodesPerBlock).toNat
  let (_, buf1) ← storageReadBlock currentBlock buf1
  if inodeSize buf1 offset < fromPos + howMany then
    return (-1, buffer)
  else
    let buf2 ← automatic
    let (_, buf2) ← storageReadBlock (inodeHeadPointerBlock buf1 offset) buf2
    let (_, buffer) ← pointersRead buf2 buffer howMany fromPos
    return (0, buffer)

/-! ## Writing -/

/-- Update a window of block `number`: read it, copy `howMany` bytes of
`buffer` from `position` on over it, and write it back. -/
def updateBlock (number : UInt64) (block : Block) (offset : ℕ) (buffer : ℕ → UInt8)
    (position howMany : ℕ) : FS Block := do
  let (_, block) ← storageReadBlock number block
  let block ← memcpyToBlock block offset buffer position howMany
  let _ ← storageWriteBlock number block
  return block

/-- The iteration of `pointers_write` for the intermediate block `i`; the
accumulator holds the variables `block` and `position`. -/
def pointersWriteBody (pointers : Block) (buffer : ℕ → UInt8) (toPos : UInt64) (i : ℤ)
    (acc : Block × ℕ) : FS (ForInStep (Block × ℕ)) := do
  let (block, position) := acc
  let index ← indexEntry (toPos.toNat + position) i
  let block ← updateBlock (entry pointers index) block 0 buffer position blockSize
  return .yield (block, position + blockSize)

def pointersWrite (pointers : Block) (buffer : ℕ → UInt8) (howMany toPos : UInt64) : FS ℤ := do
  let firstBlockNumber := cInt (toPos.toNat / blockSize)
  let firstBlockOffset := toPos.toNat % blockSize
  let lastBlockNumber := cInt ((toPos + howMany).toNat / blockSize)
  let lastBlockOffset := (toPos + howMany).toNat % blockSize
  let block ← automatic
  let index ← indexEntry toPos.toNat firstBlockNumber
  if firstBlockNumber = lastBlockNumber then
    let _ ← updateBlock (entry pointers index) block firstBlockOffset buffer 0 howMany.toNat
    return 0
  else
    let block ← updateBlock (entry pointers index) block firstBlockOffset buffer 0
      (blockSize - firstBlockOffset)
    let (block, position) ←
      forLoop (fun k acc ↦ pointersWriteBody pointers buffer toPos (firstBlockNumber + 1 + k) acc)
        0 (lastBlockNumber - 1 - firstBlockNumber).toNat
        (block, blockSize - firstBlockOffset)
    let index ← indexEntry (toPos.toNat + howMany.toNat) lastBlockNumber
    let _ ← updateBlock (entry pointers index) block 0 buffer position lastBlockOffset
    return 0

/-- The first part of `ifile_write`: when the write ends past the end of the
file, grow the file and write the inode back. -/
def growIfNeeded (currentBlock : UInt64) (buf1 : Block) (offset : ℕ) (newSize : UInt64) :
    FS Block :=
  if inodeSize buf1 offset < newSize then do
    let (_, buf1) ← ifileGrow buf1 offset newSize
    let _ ← storageWriteBlock currentBlock buf1
    return buf1
  else
    return buf1

def ifileWrite (inodeNumber : UInt64) (buffer : ℕ → UInt8) (howMany toPos : UInt64) : FS ℤ := do
  let w ← get
  let buf1 ← automatic
  let currentBlock := inodeNumber / cUInt64 w.globals.inodesPerBlock
  let offset := (inodeNumber % cUInt64 w.globals.inodesPerBlock).toNat
  let (_, buf1) ← storageReadBlock currentBlock buf1
  let buf1 ← growIfNeeded currentBlock buf1 offset (toPos + howMany)
  let buf2 ← automatic
  let (_, buf2) ← storageReadBlock (inodeHeadPointerBlock buf1 offset) buf2
  let _ ← pointersWrite buf2 buffer howMany toPos
  return 0

end OsProjects.Filesystem
