import OsProjects.Filesystem.Allocations

/-!
# File contents under the operations

The bytes of a file are those of its live data blocks.  Creating a file and
growing a file leave the bytes of all other slots as they are, and a store into
one file changes the bytes of its window only.
-/

namespace OsProjects.Filesystem

open Library.Bytes Library.FirstFit Library.ScatteredStore

namespace Disk

variable {d e : Disk} {n m p : ℕ}

theorem fileByte_eq (d : Disk) (n p : ℕ) :
    d.fileByte n p = byteAt (d.block (d.blockOf (.data n (p / blockSize)))) (p % blockSize) := rfl

theorem fileByte_create {first second : ℕ} (hd : d.Consistent) (hn : n < maxFiles)
    (htakes : d.Takes first second) (hlive : d.Live (.data m (p / blockSize))) (hne : m ≠ n) :
    (d.create n).fileByte m p = d.fileByte m p := by
  rw [fileByte_eq, fileByte_eq, blockOf_create_of_ne hn htakes hd hlive hne,
    block_create_of_ne hn htakes (hd.le_blockOf _ hlive) (blockOf_ne_first htakes hd hlive)]

theorem fileByte_resize {newSize : UInt64} {rs : List ℕ} (hd : d.Consistent) (hn : n < maxFiles)
    (hused : (d.inode n).used) (hlive : d.Live (.data m (p / blockSize))) :
    (d.resize n newSize rs).fileByte m p = d.fileByte m p := by
  rw [resize]
  split
  · have hhead := hd.dataBlock_ne_head hn hused hlive
    rw [fileByte_eq, fileByte_eq, blockOf_grow_of_live newSize rs hd hn hused hlive,
      block_grow_of_ne newSize rs hn (hd.le_blockOf _ hlive) hhead]
  · rfl

theorem fileByte_store {pos len : ℕ} {src : ℕ → UInt8} (hd : d.Consistent) (hn : n < maxFiles)
    (hused : (d.inode n).used) (hend : pos + len ≤ (d.inode n).size.toNat)
    (he : e.bytes = store d.bytes (locate (d.block (d.inode n).headPointerBlock.toNat)) pos len src)
    (hlive : d.Live (.data m (p / blockSize))) :
    e.fileByte m p = if m = n ∧ pos ≤ p ∧ p < pos + len then src (p - pos)
      else d.fileByte m p := by
  have hsame := sameMetadata_of_store hd hn hused hend he
  have hwindow : ∀ q, q < pos + len → d.Live (.data n (q / blockSize)) :=
    fun q hq ↦ ⟨hn, hused, Nat.div_le_div_right (by omega)⟩
  have hinj := hd.injOn_locate hn hused hend
  have haddress : e.fileByte m p =
      e.bytes (d.blockOf (.data m (p / blockSize)), p % blockSize) := by
    rw [fileByte_eq, hsame.blockOf_eq hlive, bytes]
  rw [haddress, he]
  split
  · rename_i hin
    obtain ⟨rfl, hp, hlt⟩ := hin
    exact store_loc hinj hp hlt
  · rename_i hout
    rw [store_of_forall_ne]
    · rfl
    · intro q hq hlt heq
      obtain ⟨hblock, hoffset⟩ := Prod.mk.inj heq
      have hslot := hd.slot_eq (hwindow q hlt) hlive hblock
      obtain ⟨hnm, hquotient⟩ : n = m ∧ q / blockSize = p / blockSize := by simpa using hslot
      have hqp : q = p := by
        rw [← Nat.div_add_mod q blockSize, hquotient, hoffset, Nat.div_add_mod]
      exact hout ⟨hnm.symm, by omega, by omega⟩

/-! ## The disk after a write -/

/-- `e` is `d` after a write of `howMany` bytes at `toPos` to the file of inode
`n` for which the blocks `rs` were taken. -/
structure AfterWrite (d e : Disk) (n : ℕ) (howMany toPos : UInt64) (buffer : ℕ → UInt8)
    (rs : List ℕ) : Prop where
  taken : takeFree 9 bitmapBits (d.growth n (toPos + howMany).toNat) d.marked = some rs
  lt_numBlocks : ∀ r ∈ rs, r < numBlocks
  bytes : e.bytes = store (d.resize n (toPos + howMany) rs).bytes
    (locate ((d.resize n (toPos + howMany) rs).block (d.inode n).headPointerBlock.toNat))
    toPos.toNat howMany.toNat buffer

namespace AfterWrite

variable {howMany toPos : UInt64} {buffer : ℕ → UInt8} {rs : List ℕ}
variable (h : d.AfterWrite e n howMany toPos buffer rs) (hd : d.Consistent) (hn : n < maxFiles)
  (hused : (d.inode n).used) (hend : toPos.toNat + howMany.toNat < 512 * blockSize)
include h hd hn hused hend

theorem consistent_resize : (d.resize n (toPos + howMany) rs).Consistent :=
  hd.resize hn hused (by rw [(window_arith hend).1]; exact hend) h.taken h.lt_numBlocks

omit h hend in
theorem used_resize : ((d.resize n (toPos + howMany) rs).inode n).used := by
  rw [inode_resize _ rs hd hn hused hn, if_pos rfl]
  exact hused

omit h in
theorem le_size_resize :
    toPos.toNat + howMany.toNat ≤ ((d.resize n (toPos + howMany) rs).inode n).size.toNat := by
  rw [size_resize _ rs hd hn hused, (window_arith hend).1]
  exact le_max_right _ _

omit hend in
theorem bytes_eq : e.bytes = store (d.resize n (toPos + howMany) rs).bytes
    (locate ((d.resize n (toPos + howMany) rs).block
      ((d.resize n (toPos + howMany) rs).inode n).headPointerBlock.toNat))
    toPos.toNat howMany.toNat buffer := by
  rw [headPointerBlock_resize _ rs hd hn hused]
  exact h.bytes

theorem sameMetadata : SameMetadata (d.resize n (toPos + howMany) rs) e :=
  sameMetadata_of_store (h.consistent_resize hd hn hused hend) hn (used_resize hd hn hused)
    (le_size_resize hd hn hused hend) (h.bytes_eq hd hn hused)

theorem consistent : e.Consistent :=
  (h.sameMetadata hd hn hused hend).consistent (h.consistent_resize hd hn hused hend)

theorem inode_of_ne {m : ℕ} (hm : m < maxFiles) (hne : m ≠ n) : e.inode m = d.inode m := by
  rw [(h.sameMetadata hd hn hused hend).inode m hm, inode_resize _ rs hd hn hused hm, if_neg hne]

theorem used : (e.inode n).used := by
  rw [(h.sameMetadata hd hn hused hend).inode n hn]
  exact used_resize hd hn hused

theorem size :
    (e.inode n).size.toNat = max (d.inode n).size.toNat (toPos.toNat + howMany.toNat) := by
  rw [(h.sameMetadata hd hn hused hend).inode n hn, size_resize _ rs hd hn hused,
    (window_arith hend).1]

theorem marked : e.marked = markAll d.marked rs := by
  rw [(h.sameMetadata hd hn hused hend).marked, marked_resize _ _ hd hn hused h.taken]

theorem fileByte_self {p : ℕ} (hp : toPos.toNat ≤ p) (hlt : p < toPos.toNat + howMany.toNat) :
    e.fileByte n p = buffer (p - toPos.toNat) := by
  have hle : toPos.toNat + howMany.toNat ≤
      ((d.resize n (toPos + howMany) rs).inode n).size.toNat := le_size_resize hd hn hused hend
  have hlive : (d.resize n (toPos + howMany) rs).Live (.data n (p / blockSize)) :=
    ⟨hn, used_resize hd hn hused, Nat.div_le_div_right (by omega)⟩
  rw [fileByte_store (h.consistent_resize hd hn hused hend) hn (used_resize hd hn hused) hle
    (h.bytes_eq hd hn hused) hlive, if_pos ⟨rfl, hp, hlt⟩]

theorem fileByte_of_not {m p : ℕ} (hlive : d.Live (.data m (p / blockSize)))
    (hout : ¬ (m = n ∧ toPos.toNat ≤ p ∧ p < toPos.toNat + howMany.toNat)) :
    e.fileByte m p = d.fileByte m p := by
  have hlive' := live_resize (toPos + howMany) rs hd hn hused hlive
  rw [fileByte_store (h.consistent_resize hd hn hused hend) hn (used_resize hd hn hused)
    (le_size_resize hd hn hused hend) (h.bytes_eq hd hn hused) hlive', if_neg hout,
    fileByte_resize hd hn hused hlive]

end AfterWrite

end Disk

end OsProjects.Filesystem
