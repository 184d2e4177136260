import OsProjects.Filesystem.Accounting
import OsProjects.Filesystem.Allocator

/-!
# Calls that should be refused

The comments in `files.h` announce `-1` for a call that fails.  `ifile_read`
refuses windows past the end of the file and nothing else, and `ifile_write`
refuses nothing: it ignores the results of the functions it calls.
-/

namespace OsProjects.Filesystem

open Library.Program Library.Bytes Library.FirstFit

/-! ## Reachable states -/

/-- What `format` and any calls after it lead to. -/
inductive Reachable : World → Prop
  | format {d : Disk} {g : Globals} {stack : ℕ → Block} {w : World} :
      EStateM.run OsProjects.Filesystem.format (boot d g stack) = .ok () w → Reachable w
  | create {w u : World} {n : UInt64} {code : ℤ} :
      Reachable w → (ifileCreate n).run w = .ok code u → Reachable u
  | read {w u : World} {n howMany fromPos : UInt64} {buffer : ℕ → UInt8} {r : ℤ × (ℕ → UInt8)} :
      Reachable w → (ifileRead n buffer howMany fromPos).run w = .ok r u → Reachable u
  | write {w u : World} {n howMany toPos : UInt64} {buffer : ℕ → UInt8} {code : ℤ} :
      Reachable w → (ifileWrite n buffer howMany toPos).run w = .ok code u → Reachable u

theorem formatted_of_records {α : Type} {x : FS α} (hx : Records (fun _ ↦ True) x) {w u : World}
    {a : α} (hw : w.Formatted) (h : x.run w = .ok a u) : u.Formatted := by
  have hglobals := (hx w).1.1
  rw [h] at hglobals
  exact hglobals.trans hw

theorem Reachable.formatted {w : World} (h : Reachable w) : w.Formatted := by
  induction h with
  | format hrun =>
      rw [run_format] at hrun
      cases hrun
      rfl
  | create _ hrun ih => exact formatted_of_records (ifileCreate_records fun _ ↦ trivial) ih hrun
  | read _ hrun ih => exact formatted_of_records (ifileRead_records fun _ _ _ ↦ trivial) ih hrun
  | write _ hrun ih =>
      exact formatted_of_records (ifileWrite_records (fun _ ↦ trivial) (fun _ _ _ _ _ ↦ trivial)
        fun _ _ _ ↦ trivial) ih hrun

theorem Reaches.reachable {d : Disk} {g : Globals} {stack : ℕ → Block} {calls : List Call}
    {s : Session} (h : Reaches d g stack calls s) : Reachable s.world := by
  obtain ⟨w, hformat, hrun⟩ := h
  refine hrun.invariant (P := fun s ↦ Reachable s.world) (.format hformat) ?_
  rintro t c u ht (⟨hrun, -⟩ | ⟨hrun, -, -⟩ | ⟨-, -, hrun, -⟩)
  · exact ht.create hrun
  · exact ht.create hrun
  · exact ht.write hrun

/-! ## Results -/

theorem ifileWrite_code {w u : World} {n howMany toPos : UInt64} {buffer : ℕ → UInt8} {code : ℤ}
    (h : (ifileWrite n buffer howMany toPos).run w = .ok code u) : code = 0 := by
  obtain ⟨w₁, _, -, h⟩ := run_bind_eq_ok_iff.mp h
  obtain ⟨buf, _, -, h⟩ := run_bind_eq_ok_iff.mp h
  obtain ⟨⟨_, buf1⟩, _, -, h⟩ := run_bind_eq_ok_iff.mp h
  obtain ⟨buf1, _, -, h⟩ := run_bind_eq_ok_iff.mp h
  obtain ⟨buf, _, -, h⟩ := run_bind_eq_ok_iff.mp h
  obtain ⟨⟨_, buf2⟩, _, -, h⟩ := run_bind_eq_ok_iff.mp h
  obtain ⟨_, _, -, h⟩ := run_bind_eq_ok_iff.mp h
  cases h
  rfl

/-- The end of the window is computed modulo `2^64`. -/
theorem ifileRead_refuses_iff {w : World} (hw : w.Formatted) {n howMany fromPos : UInt64}
    {buffer : ℕ → UInt8} (hn : n.toNat / 128 < numBlocks) :
    (∃ buffer' u, (ifileRead n buffer howMany fromPos).run w = .ok (-1, buffer') u) ↔
      (w.storage.inode n.toNat).size < fromPos + howMany := by
  obtain ⟨pointers, -, hrun⟩ := run_ifileRead hw hn howMany fromPos
  rw [hrun buffer]
  split
  · rename_i hrefuse
    exact ⟨fun _ ↦ hrefuse, fun _ ↦ ⟨_, _, rfl⟩⟩
  · rename_i haccept
    refine ⟨?_, fun hrefuse ↦ absurd hrefuse haccept⟩
    rintro ⟨buffer', u, hcall⟩
    obtain ⟨⟨_, buffer''⟩, _, -, hreturn⟩ := run_bind_eq_ok_iff.mp hcall
    cases hreturn

/-! ## Access through an inode that is not a file -/

/-- Reads and writes through inode `n` return `-1`, and writes change nothing. -/
def RefusesAccess (w : World) (n howMany pos : UInt64) (buffer : ℕ → UInt8) : Prop :=
  (∃ buffer' u, (ifileRead n buffer howMany pos).run w = .ok (-1, buffer') u) ∧
    ∃ u, (ifileWrite n buffer howMany pos).run w = .ok (-1) u ∧ u.storage = w.storage

def World.IsNoFile (w : World) (n : UInt64) : Prop :=
  maxFiles ≤ n.toNat ∨ (w.storage.inode n.toNat).used = false

/-- Access through an inode that is not a file is never refused: the write
returns `0` if it returns at all.  The read depends on the size only. -/
theorem access_never_refused {w : World} (hw : Reachable w) {n : UInt64} (_hn : w.IsNoFile n)
    (howMany pos : UInt64) (buffer : ℕ → UInt8) :
    ¬ RefusesAccess w n howMany pos buffer ∧
      (n.toNat / 128 < numBlocks →
        ((∃ buffer' u, (ifileRead n buffer howMany pos).run w = .ok (-1, buffer') u) ↔
          (w.storage.inode n.toNat).size < pos + howMany)) := by
  constructor
  · rintro ⟨-, u, hwrite, -⟩
    have hcode := ifileWrite_code hwrite
    omega
  · exact ifileRead_refuses_iff hw.formatted

theorem reachable_freshDevice : Reachable freshDevice := by
  have hzero : Disk.zeroed (fun _ ↦ zeroedBlock) 0 9 = fun _ ↦ zeroedBlock := by
    funext b
    rw [Disk.zeroed, ite_self]
  have hformat : EStateM.run OsProjects.Filesystem.format
      (boot (fun _ ↦ zeroedBlock) formattedGlobals fun _ ↦ zeroedBlock) = .ok () freshDevice := by
    rw [run_format]
    simp only [boot, hzero]
    rfl
  exact .format hformat

theorem access_never_refused_five : ¬ RefusesAccess freshDevice 5 1 0 fun _ ↦ 65 :=
  (access_never_refused reachable_freshDevice (.inr (by decide)) 1 0 fun _ ↦ 65).1

theorem unused_inode_written :
    Reachable freshDevice ∧ freshDevice.IsNoFile 5 ∧
      (Returns (ifileWrite 5 (fun _ ↦ 65) 1 0) freshDevice fun code u ↦
        (decide (code = 0 ∧ (u.storage.inode 5).size = 1)) = true) ∧
      ¬ RefusesAccess freshDevice 5 1 0 fun _ ↦ 65 := by
  refine ⟨reachable_freshDevice, .inr (by decide), returnsWith_iff.mp (by decide +kernel), ?_⟩
  rintro ⟨-, u, hwrite, -⟩
  have hcode := ifileWrite_code hwrite
  omega

/-! ## Writes for which there is no space -/

def Disk.BlocksMarked (d : Disk) : Prop := ∀ s, d.Live s → d.marked (d.blockOf s) = true

/-- A write through inode `n` returns `-1` and leaves the inodes, the bitmap,
the pointer block and all file contents as they are. -/
def RejectsWrite (w : World) (n howMany toPos : UInt64) (buffer : ℕ → UInt8) : Prop :=
  ∃ u, (ifileWrite n buffer howMany toPos).run w = .ok (-1) u ∧
    (∀ m < maxFiles, u.storage.inode m = w.storage.inode m) ∧
    u.storage.marked = w.storage.marked ∧
    u.storage.block (w.storage.inode n.toNat).headPointerBlock.toNat =
      w.storage.block (w.storage.inode n.toNat).headPointerBlock.toNat ∧
    ∀ m p, m < maxFiles → (w.storage.inode m).used → p < (w.storage.inode m).size.toNat →
      u.storage.fileByte m p = w.storage.fileByte m p

/-- A write that runs out of space is never rejected: if it returns, it returns `0`. -/
theorem write_without_space_never_rejected {w : World} (_hw : w.Formatted)
    (_hmarked : w.storage.BlocksMarked) (n howMany toPos : UInt64) (_hn : n.toNat < maxFiles)
    (_hused : (w.storage.inode n.toNat).used)
    (_hend : toPos.toNat + howMany.toNat < 512 * blockSize)
    (_hspace : takeFree 9 bitmapBits (w.storage.growth n.toNat (toPos.toNat + howMany.toNat))
      w.storage.marked = none) (buffer : ℕ → UInt8) :
    ¬ RejectsWrite w n howMany toPos buffer ∧
      ∀ code u, (ifileWrite n buffer howMany toPos).run w = .ok code u → code = 0 := by
  refine ⟨?_, fun code u hrun ↦ ifileWrite_code hrun⟩
  rintro ⟨u, hwrite, -⟩
  have hcode := ifileWrite_code hwrite
  omega

def exhaustedDevice : World :=
  { freshDevice with storage := (freshDevice.storage.create 0).set 8 fun _ ↦ 255 }

theorem formatted_exhaustedDevice : exhaustedDevice.Formatted := rfl

theorem marked_exhaustedDevice {r : ℕ} (hr : r < bitmapBits) :
    exhaustedDevice.storage.marked r = true := by
  have hblock : exhaustedDevice.storage.block 8 = fun _ ↦ 255 :=
    Disk.block_set_self _ _ (by decide)
  have hbits : ∀ k < 8, (255 : UInt8).toNat.testBit k = true := by decide
  have hbyte : r / 8 < blockSize := by
    simp only [bitmapBits] at hr
    omega
  rw [Disk.marked, hblock, bitAt, byteAt_of_lt _ hbyte, hbits _ (Nat.mod_lt r (by omega))]

theorem takes_freshDevice : freshDevice.storage.Takes 9 10 :=
  takes_of_marked le_rfl (by decide) fun r hr ↦ by simp [marked_freshDevice, hr]

theorem consistent_freshDevice : freshDevice.storage.Consistent := by
  have hzero : Disk.zeroed freshDevice.storage 0 9 = freshDevice.storage := by
    funext b
    rw [Disk.zeroed]
    exact ite_self zeroedBlock
  refine Disk.consistent_of_unused fun n hn ↦ ?_
  rw [← hzero]
  exact Disk.inode_zeroed freshDevice.storage hn

theorem inode_exhaustedDevice {m : ℕ} (hm : m < maxFiles) :
    exhaustedDevice.storage.inode m = (freshDevice.storage.create 0).inode m := by
  simp only [maxFiles] at hm
  exact Disk.inode_set_of_ne _ _ (by omega)

theorem blocksMarked_exhaustedDevice : exhaustedDevice.storage.BlocksMarked := by
  have hd := Disk.Consistent.create (n := 0) (by decide) takes_freshDevice consistent_freshDevice
  intro s hs
  have hold : (freshDevice.storage.create 0).Live s ∧
      exhaustedDevice.storage.blockOf s = (freshDevice.storage.create 0).blockOf s := by
    cases s with
    | pointer m =>
        obtain ⟨hm, hused⟩ := hs
        rw [inode_exhaustedDevice hm] at hused
        exact ⟨⟨hm, hused⟩, by rw [Disk.blockOf, inode_exhaustedDevice hm, Disk.blockOf]⟩
    | data m i =>
        obtain ⟨hm, hused, hi⟩ := hs
        rw [inode_exhaustedDevice hm] at hused hi
        refine ⟨⟨hm, hused, hi⟩, ?_⟩
        have hhead := hd.le_head hm hused
        rw [Disk.blockOf, Disk.dataBlock, inode_exhaustedDevice hm]
        exact congrArg (fun b ↦ (entry b i).toNat) (Disk.block_set_of_ne _ _ (by omega))
  obtain ⟨hlive, hblock⟩ := hold
  rw [hblock]
  exact marked_exhaustedDevice (lt_of_lt_of_le (hd.blockOf_lt s hlive) (by decide))

theorem inode_zero_exhaustedDevice : exhaustedDevice.storage.inode 0 = ⟨true, 0, 9⟩ := by
  rw [inode_exhaustedDevice (by decide),
    Disk.inode_create (by decide) takes_freshDevice (by decide), if_pos rfl]
  rfl

theorem takeFree_exhaustedDevice :
    takeFree 9 bitmapBits (exhaustedDevice.storage.growth 0 4096)
      exhaustedDevice.storage.marked = none := by
  have hgrowth : exhaustedDevice.storage.growth 0 4096 = 1 := by
    rw [Disk.growth, inode_zero_exhaustedDevice]
    rfl
  have hfull : nextFree 9 bitmapBits exhaustedDevice.storage.marked = none :=
    nextFree_eq_none_iff.mpr fun q _ hq ↦ marked_exhaustedDevice hq
  cases htake : takeFree 9 bitmapBits 1 exhaustedDevice.storage.marked with
  | none => rw [hgrowth, htake]
  | some rs =>
      obtain ⟨r, rest, hr, -, -⟩ := takeFree_succ_eq_some_iff.mp htake
      rw [hfull] at hr
      cases hr

theorem write_without_space_never_rejected_exhausted :
    ¬ RejectsWrite exhaustedDevice 0 4096 0 fun _ ↦ 65 :=
  (write_without_space_never_rejected formatted_exhaustedDevice blocksMarked_exhaustedDevice
    0 4096 0 (by decide)
    (by rw [UInt64.toNat_zero, inode_zero_exhaustedDevice]) (by decide)
    takeFree_exhaustedDevice fun _ ↦ 65).1

theorem exhausted_write_accepted :
    exhaustedDevice.Formatted ∧ exhaustedDevice.storage.BlocksMarked ∧
      (exhaustedDevice.storage.inode 0).used = true ∧
      takeFree 9 bitmapBits (exhaustedDevice.storage.growth 0 4096)
        exhaustedDevice.storage.marked = none ∧
      ¬ RejectsWrite exhaustedDevice 0 4096 0 fun _ ↦ 65 := by
  refine ⟨formatted_exhaustedDevice, blocksMarked_exhaustedDevice,
    by rw [inode_zero_exhaustedDevice], takeFree_exhaustedDevice, ?_⟩
  rintro ⟨u, hwrite, -⟩
  have hcode := ifileWrite_code hwrite
  omega

end OsProjects.Filesystem
