import OsProjects.Filesystem.Events

/-!
# Valid allocations

The functions of `files.c` never look at the numbers that the allocator
returns.  A call whose allocations are all numbers of blocks of the device
behaves as described for consistent disks; in any other call the invalid
number stays in the trace.
-/

namespace OsProjects.Filesystem

open Library.Program Library.Bytes Library.FirstFit

/-- Every number that the allocator returned is a block of the device. -/
def World.ValidAllocations (w : World) : Prop :=
  ∀ r, Event.allocate r ∈ w.trace → 0 ≤ r ∧ r < numBlocks

theorem not_validAllocations_of_records {α : Type} {x : FS α} (hx : Records (fun _ ↦ True) x)
    {w : World} (hw : ¬ w.ValidAllocations) : ¬ (finalState (x.run w)).ValidAllocations := by
  intro hvalid
  exact hw fun r hr ↦ hvalid r ((hx w).1.mem_trace hr)

theorem not_validAllocations_bind {α β : Type} {x : FS α} {f : α → FS β} {w : World}
    (hf : ∀ a, Records (fun _ ↦ True) (f a))
    (hx : ¬ (finalState (x.run w)).ValidAllocations) :
    ¬ (finalState ((x >>= f).run w)).ValidAllocations :=
  finalState_bind (P := fun u : World ↦ ¬ u.ValidAllocations) hx
    fun a _ _ ht ↦ not_validAllocations_of_records (hf a) ht

/-- An event other than a call of the allocator. -/
def Event.IsAccess (e : Event) : Prop := ∀ r, e ≠ .allocate r

theorem validAllocations_iff_of_records {α : Type} {x : FS α} (hx : Records Event.IsAccess x)
    (w : World) : (finalState (x.run w)).ValidAllocations ↔ w.ValidAllocations := by
  constructor
  · intro hvalid r hr
    exact hvalid r ((hx w).1.mem_trace hr)
  · intro hvalid r hr
    obtain ⟨-, events, htrace, haccess⟩ := (hx w).1
    rw [htrace] at hr
    rcases List.mem_append.mp hr with hr | hr
    · exact absurd rfl (haccess _ hr r)
    · exact hvalid r hr

theorem validAllocations_bind_iff {α β : Type} {x : FS α} {f : α → FS β} {w : World}
    (hf : ∀ a, Records Event.IsAccess (f a)) :
    (finalState ((x >>= f).run w)).ValidAllocations ↔ (finalState (x.run w)).ValidAllocations := by
  cases h : x.run w with
  | ok a u =>
      rw [run_bind_of_ok h]
      exact validAllocations_iff_of_records (hf a) u
  | error e u => rw [run_bind_of_error h, finalState_error, finalState_error]

/-! ## Growing and writing -/

/-- The next `count` allocations return blocks of the device. -/
def Disk.Supplies (d : Disk) (count : ℕ) : Prop :=
  ∃ rs, takeFree 9 bitmapBits count d.marked = some rs ∧ ∀ r ∈ rs, r < numBlocks

theorem Disk.supplies_zero (d : Disk) : d.Supplies 0 := ⟨[], rfl, by simp⟩

theorem Disk.supplies_succ_iff {d : Disk} {count : ℕ} :
    d.Supplies (count + 1) ↔ ∃ r, nextFree 9 bitmapBits d.marked = some r ∧ r < numBlocks ∧
      (d.markBlock r).Supplies count := by
  constructor
  · rintro ⟨rs, hrs, hdevice⟩
    obtain ⟨r, rest, hr, hrest, rfl⟩ := takeFree_succ_eq_some_iff.mp hrs
    rw [← d.marked_markBlock (nextFree_eq_some_iff.mp hr).2.1] at hrest
    exact ⟨r, hr, hdevice r List.mem_cons_self, rest, hrest,
      fun q hq ↦ hdevice q (List.mem_cons_of_mem r hq)⟩
  · rintro ⟨r, hr, hlt, rest, hrest, hdevice⟩
    rw [d.marked_markBlock (nextFree_eq_some_iff.mp hr).2.1] at hrest
    refine ⟨r :: rest, takeFree_succ_eq_some_iff.mpr ⟨r, rest, hr, hrest, rfl⟩, fun q hq ↦ ?_⟩
    rcases List.mem_cons.mp hq with rfl | hq
    · exact hlt
    · exact hdevice q hq

section Grow

variable {w : World} (hw : w.Formatted)
include hw

theorem not_validAllocations_allocate
    (h : ¬ ∃ r, nextFree 9 bitmapBits w.storage.marked = some r ∧ r < numBlocks) :
    ¬ (finalState (bitmapAllocateBlock.run w)).ValidAllocations := by
  rw [run_bitmapAllocateBlock hw]
  intro hvalid
  obtain ⟨hle, hlt⟩ := hvalid w.storage.allocated (by simp)
  obtain ⟨r, hr, heq⟩ := Disk.nextFree_of_allocated hle
  exact h ⟨r, hr, by omega⟩

theorem validAllocations_growLoop_iff {size : UInt64} {first i count : ℕ} {pointers : Block}
    (hfirst : first ≤ i) (hlast : i + count ≤ 512) :
    (finalState ((forLoop (growBody size first) i count pointers).run w)).ValidAllocations ↔
      w.ValidAllocations ∧ w.storage.Supplies count := by
  induction count generalizing w i pointers with
  | zero => exact (and_iff_left w.storage.supplies_zero).symm
  | succ count ih =>
      rw [Disk.supplies_succ_iff]
      by_cases hnext : ∃ r, nextFree 9 bitmapBits w.storage.marked = some r ∧ r < numBlocks
      · obtain ⟨r, hr, hlt⟩ := hnext
        have hstep : (w.advance (w.storage.markBlock r) 1
            [.entry (growPosition size first i) i, .allocate r]).ValidAllocations ↔
            w.ValidAllocations := by
          simp only [World.ValidAllocations, World.advance_trace, List.cons_append,
            List.nil_append, List.mem_cons, Event.allocate.injEq, reduceCtorEq, false_or,
            forall_eq_or_imp]
          exact and_iff_right ⟨by omega, by omega⟩
        rw [run_forLoop_of_yield (run_growBody hw size first pointers hr (by omega)),
          ih (w := w.advance _ 1 _) hw (by omega) (by omega), hstep, World.advance_storage]
        simp [hr, hlt]
      · -- whatever happens to the number, it has been recorded
        refine iff_of_false (not_validAllocations_bind (fun next ↦ ?_) (not_validAllocations_bind
          (fun number ↦ growStore_records (fun _ _ _ ↦ trivial) hfirst le_rfl)
          (not_validAllocations_allocate hw hnext))) ?_
        · cases next with
          | done pointers => exact .pure trivial
          | yield pointers =>
              refine .forLoop (I := fun _ _ ↦ True) trivial fun j pointers hj _ _ ↦ ?_
              exact (growBody_records (fun _ ↦ trivial) (fun _ _ _ ↦ trivial)
                (show first ≤ j by omega) le_rfl).mono fun _ _ _ _ ↦ trivial
        · rintro ⟨-, r, hr, hlt, -⟩
          exact hnext ⟨r, hr, hlt⟩

theorem validAllocations_ifileGrow_iff {n : ℕ} {newSize : UInt64}
    (hgrows : (w.storage.inode n).size < newSize) (hend : newSize.toNat < 512 * blockSize) :
    (finalState ((ifileGrow (w.storage.block (n / 128)) (n % 128) newSize).run
      w)).ValidAllocations ↔
      w.ValidAllocations ∧ w.storage.Supplies (w.storage.growth n newSize.toNat) := by
  obtain ⟨pointers, -, hrun⟩ := run_ifileGrow hgrows hend
  rw [hrun, validAllocations_bind_iff fun _ ↦ .bind storageWriteBlock_records fun _ _ ↦
    .pure trivial]
  refine validAllocations_growLoop_iff (w := w.advance w.storage 1 []) hw le_rfl ?_
  have hlt := UInt64.lt_iff_toNat_lt.mp hgrows
  simp only [Disk.growth, blockSize] at *
  omega

/-- A write takes blocks of the device only, or its trace shows that it did not. -/
theorem validAllocations_ifileWrite_iff {n howMany toPos : UInt64} {buffer : ℕ → UInt8}
    (hn : n.toNat < maxFiles) (hend : toPos.toNat + howMany.toNat < 512 * blockSize) :
    (finalState ((ifileWrite n buffer howMany toPos).run w)).ValidAllocations ↔
      w.ValidAllocations ∧
        w.storage.Supplies (w.storage.growth n.toNat (toPos.toNat + howMany.toNat)) := by
  have hsize : inodeSize (w.storage.block (n.toNat / 128)) (n.toNat % 128) =
    (w.storage.inode n.toNat).size := rfl
  have hsum := (window_arith hend).1
  rw [← hsum] at hend ⊢
  rw [run_ifileWrite hw (div_lt_numBlocks hn), validAllocations_bind_iff fun _ ↦
    writeData_records fun _ _ _ _ ↦ Event.noConfusion, growIfNeeded, hsize]
  split
  · rename_i hgrows
    rw [validAllocations_bind_iff fun _ ↦ .bind storageWriteBlock_records fun _ _ ↦ .pure trivial]
    exact validAllocations_ifileGrow_iff (w := w.advance w.storage 1 []) hw hgrows hend
  · rename_i hfits
    rw [Disk.growth_eq_zero _ hfits]
    exact (and_iff_left w.storage.supplies_zero).symm

end Grow

/-! ## Creation -/

theorem takes_of_validAllocations {w : World} (hw : w.Formatted) {n : UInt64} (hn : n.toNat ≤ 8)
    (hvalid : (finalState ((ifileCreate n).run w)).ValidAllocations) :
    ∃ first second, w.storage.Takes first second := by
  rw [run_ifileCreate hw hn] at hvalid
  obtain ⟨hle, hlt⟩ := hvalid w.storage.allocated (by simp)
  obtain ⟨hle', hlt'⟩ := hvalid (w.storage.claimInode n.toNat).allocated (by simp)
  obtain ⟨first, hfirst, heq⟩ := Disk.nextFree_of_allocated hle
  obtain ⟨second, hsecond, heq'⟩ := Disk.nextFree_of_allocated hle'
  have hmarked : (w.storage.claimInode n.toNat).marked = mark w.storage.marked first := by
    rw [Disk.claimInode, Disk.afterAllocate_of_some hfirst, Disk.marked_set_of_ne _ _ (by omega),
      Disk.marked_markBlock _ (nextFree_eq_some_iff.mp hfirst).2.1]
  rw [hmarked] at hsecond
  refine ⟨first, second, ?_, by omega, by omega⟩
  exact takeFree_succ_eq_some_iff.mpr ⟨first, [second], hfirst,
    takeFree_succ_eq_some_iff.mpr ⟨second, [], hsecond, rfl, rfl⟩, rfl⟩

end OsProjects.Filesystem
