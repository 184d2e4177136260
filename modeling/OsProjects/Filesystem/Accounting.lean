import Mathlib.Data.Set.Card
import Mathlib.Order.CompletePartialOrder
import OsProjects.Filesystem.Placement

/-!
# Where the blocks are

Nothing in `files.c` gives a block of a file back.  A block that is marked in
the bitmap therefore belongs to a used inode or was dropped by an inode that was
created a second time.
-/

namespace OsProjects.Filesystem

open Library.Program Library.Bytes Library.FirstFit Library.Runs

namespace Disk

variable {d e : Disk} {n : ℕ}

def owned (d : Disk) : Set ℕ := d.blockOf '' {s | d.Live s}

/-! ## Owned blocks under the operations -/

theorem SameMetadata.owned_eq (h : SameMetadata d e) : e.owned = d.owned := by
  ext r
  constructor
  · rintro ⟨s, hs, rfl⟩
    have hs' := (h.live_iff s).mp hs
    exact ⟨s, hs', (h.blockOf_eq hs').symm⟩
  · rintro ⟨s, hs, rfl⟩
    exact ⟨s, (h.live_iff s).mpr hs, h.blockOf_eq hs⟩

theorem owned_resize {newSize : UInt64} {rs : List ℕ} (hd : d.Consistent) (hn : n < maxFiles)
    (hused : (d.inode n).used) (hend : newSize.toNat < 512 * blockSize)
    (hrs : takeFree 9 bitmapBits (d.growth n newSize.toNat) d.marked = some rs) :
    (d.resize n newSize rs).owned = d.owned ∪ {r | r ∈ rs} := by
  have hlen := takeFree_length hrs
  rw [resize]
  by_cases hgrows : (d.inode n).size < newSize
  · rw [if_pos hgrows]
    have hlt := UInt64.lt_iff_toNat_lt.mp hgrows
    have hroom : (d.inode n).size.toNat / blockSize + 1 + rs.length ≤ 512 := by
      rw [hlen, growth]
      simp only [blockSize] at *
      omega
    have hbits : ∀ r ∈ rs, r < bitmapBits := fun r hr ↦ (takeFree_mem hrs hr).2.1
    ext r
    constructor
    · rintro ⟨s, hs, rfl⟩
      rcases live_grow newSize rs hd hn hused hlen hs with hold | ⟨k, hk, rfl⟩
      · exact .inl ⟨s, hold, (blockOf_grow_of_live newSize rs hd hn hused hold).symm⟩
      · rw [blockOf_grow_new newSize rs hd hn hused hk hroom hbits]
        exact .inr (List.getElem_mem hk)
    · rintro (⟨s, hs, rfl⟩ | hr)
      · have hlive := live_resize newSize rs hd hn hused hs
        rw [resize, if_pos hgrows] at hlive
        exact ⟨s, hlive, blockOf_grow_of_live newSize rs hd hn hused hs⟩
      · obtain ⟨k, hk, rfl⟩ := List.getElem_of_mem hr
        refine ⟨_, ?_, blockOf_grow_new newSize rs hd hn hused hk hroom hbits⟩
        refine ⟨hn, ?_, ?_⟩ <;> rw [inode_grow newSize rs hd hn hused hn, if_pos rfl]
        · exact hused
        · rw [hlen, growth] at hk
          simp only
          omega
  · rw [growth_eq_zero newSize hgrows, takeFree_zero, Option.some.injEq] at hrs
    rw [if_neg hgrows, ← hrs]
    simp

theorem AfterWrite.owned_eq {howMany toPos : UInt64} {buffer : ℕ → UInt8} {rs : List ℕ}
    (h : d.AfterWrite e n howMany toPos buffer rs) (hd : d.Consistent) (hn : n < maxFiles)
    (hused : (d.inode n).used) (hend : toPos.toNat + howMany.toNat < 512 * blockSize) :
    e.owned = d.owned ∪ {r | r ∈ rs} := by
  rw [(h.sameMetadata hd hn hused hend).owned_eq]
  exact owned_resize hd hn hused (by rw [(window_arith hend).1]; exact hend) h.taken

theorem mem_owned_create {first second r : ℕ} (hd : d.Consistent) (hn : n < maxFiles)
    (htakes : d.Takes first second) :
    r ∈ (d.create n).owned ↔ r = first ∨ r = second ∨ r ∈ d.owned ∧ r ∉ d.blocksOf n := by
  have hpointer := blockOf_create_pointer hn htakes
  have hdata := blockOf_create_data hn htakes
  constructor
  · rintro ⟨s, hs, rfl⟩
    rcases (live_create hn htakes).mp hs with (rfl | rfl) | ⟨hold, hne⟩
    · exact .inl hpointer
    · exact .inr (.inl hdata)
    · rw [blockOf_create_of_ne hn htakes hd hold hne]
      refine .inr (.inr ⟨⟨s, hold, rfl⟩, ?_⟩)
      rintro ⟨t, ⟨ht, hfile⟩, heq⟩
      rw [hd.slot_eq ht hold heq] at hfile
      exact hne hfile
  · rintro (rfl | rfl | ⟨⟨s, hs, rfl⟩, hout⟩)
    · exact ⟨.pointer n, (live_create hn htakes).mpr (.inl (.inl rfl)), hpointer⟩
    · exact ⟨.data n 0, (live_create hn htakes).mpr (.inl (.inr rfl)), hdata⟩
    · have hne : s.file ≠ n := fun hfile ↦ hout ⟨s, ⟨hs, hfile⟩, rfl⟩
      exact ⟨s, (live_create hn htakes).mpr (.inr ⟨hs, hne⟩),
        blockOf_create_of_ne hn htakes hd hs hne⟩

theorem blocksOf_subset_owned : d.blocksOf n ⊆ d.owned := by
  rintro _ ⟨s, ⟨hs, -⟩, rfl⟩
  exact ⟨s, hs, rfl⟩

theorem marked_of_mem_owned (hd : d.Consistent) {r : ℕ} (hr : r ∈ d.owned) :
    9 ≤ r ∧ d.marked r = true := by
  obtain ⟨s, hs, rfl⟩ := hr
  exact ⟨hd.le_blockOf s hs, hd.marked_blockOf s hs⟩

end Disk

/-! ## The accounting invariant -/

/-- A marked block is owned or abandoned, and not both. -/
structure Session.Accounted (s : Session) : Prop where
  mem_iff : ∀ r, (9 ≤ r ∧ s.world.storage.marked r = true) ↔
    r ∈ s.world.storage.owned ∨ r ∈ s.abandoned
  not_both : ∀ r ∈ s.world.storage.owned, r ∉ s.abandoned

theorem accounted_of_format {w : World} {d : Disk} {g : Globals} {stack : ℕ → Block}
    (h : format.run (boot d g stack) = .ok () w) :
    Session.Accounted ⟨w, fun _ ↦ none, ∅⟩ := by
  have hs := valid_of_format h
  rw [run_format] at h
  cases h
  have hunowned : ∀ r, r ∉ (d.zeroed 0 9).owned := by
    intro r hr
    have hmarked := (Disk.marked_of_mem_owned hs.consistent hr).2
    rw [Disk.marked_zeroed] at hmarked
    cases hmarked
  refine ⟨fun r ↦ ?_, fun r hr ↦ (hunowned r hr).elim⟩
  constructor
  · rintro ⟨-, hmarked⟩
    rw [boot, Disk.marked_zeroed] at hmarked
    cases hmarked
  · rintro (hr | hr)
    · exact (hunowned r hr).elim
    · exact hr.elim

section Steps

variable {s : Session} (hs : s.Valid) (ha : s.Accounted)

omit hs in
include ha in
theorem Session.Accounted.of_free {r : ℕ} (h : s.world.storage.marked r = false) :
    r ∉ s.world.storage.owned ∧ r ∉ s.abandoned := by
  constructor <;> intro hmem
  · have hmarked := ((ha.mem_iff r).mpr (.inl hmem)).2
    rw [h] at hmarked
    cases hmarked
  · have hmarked := ((ha.mem_iff r).mpr (.inr hmem)).2
    rw [h] at hmarked
    cases hmarked

include hs ha

theorem Session.Accounted.create {n : UInt64} {u : World}
    (hrun : (ifileCreate n).run s.world = .ok 0 u) (hvalid : u.ValidAllocations)
    (files : UInt64 → Option File) :
    Session.Accounted ⟨u, files, s.abandoned ∪ s.world.storage.blocksOf n.toNat⟩ := by
  have hd := hs.consistent
  obtain ⟨hn, -, hstorage, first, second, htakes⟩ := hs.run_create hrun hvalid
  obtain ⟨hfirst, hsecond⟩ := htakes.nextFree
  obtain ⟨hle, -, hfree, -⟩ := nextFree_eq_some_iff.mp hfirst
  obtain ⟨hle', -, hfree', -⟩ := nextFree_eq_some_iff.mp hsecond
  rw [mark_apply, Bool.or_eq_false_iff] at hfree'
  have hmarked : ∀ r, u.storage.marked r = true ↔
      s.world.storage.marked r = true ∨ r = first ∨ r = second := by
    intro r
    rw [hstorage, Disk.marked_create hn htakes]
    simp [or_assoc]
  have hmem : ∀ r, r ∈ u.storage.owned ↔ r = first ∨ r = second ∨
      r ∈ s.world.storage.owned ∧ r ∉ s.world.storage.blocksOf n.toNat := by
    intro r
    rw [hstorage]
    exact Disk.mem_owned_create hd hn htakes
  refine ⟨fun r ↦ ?_, fun r hr ↦ ?_⟩
  · simp only [hmarked, hmem, Set.mem_union]
    constructor
    · rintro ⟨hr, hold | rfl | rfl⟩
      · rcases (ha.mem_iff r).mp ⟨hr, hold⟩ with howned | habandoned
        · by_cases hn : r ∈ s.world.storage.blocksOf n.toNat
          · exact .inr (.inr hn)
          · exact .inl (.inr (.inr ⟨howned, hn⟩))
        · exact .inr (.inl habandoned)
      · exact .inl (.inl rfl)
      · exact .inl (.inr (.inl rfl))
    · rintro ((rfl | rfl | ⟨howned, -⟩) | habandoned | hn)
      · exact ⟨hle, .inr (.inl rfl)⟩
      · exact ⟨hle', .inr (.inr rfl)⟩
      · obtain ⟨hr, hold⟩ := (ha.mem_iff r).mpr (.inl howned)
        exact ⟨hr, .inl hold⟩
      · obtain ⟨hr, hold⟩ := (ha.mem_iff r).mpr (.inr habandoned)
        exact ⟨hr, .inl hold⟩
      · obtain ⟨hr, hold⟩ := (ha.mem_iff r).mpr (.inl (Disk.blocksOf_subset_owned hn))
        exact ⟨hr, .inl hold⟩
  · -- new blocks were free, old blocks belong to other inodes
    rintro (habandoned | hblocks)
    · rcases (hmem r).mp hr with rfl | rfl | ⟨howned, -⟩
      · exact (ha.of_free hfree).2 habandoned
      · exact (ha.of_free hfree'.1).2 habandoned
      · exact ha.not_both r howned habandoned
    · rcases (hmem r).mp hr with rfl | rfl | ⟨-, hout⟩
      · exact (ha.of_free hfree).1 (Disk.blocksOf_subset_owned hblocks)
      · exact (ha.of_free hfree'.1).1 (Disk.blocksOf_subset_owned hblocks)
      · exact hout hblocks

theorem Session.Accounted.write {n howMany toPos : UInt64} {buffer : ℕ → UInt8} {f : File}
    {code : ℤ} {u : World} (hf : s.files n = some f)
    (hend : toPos.toNat + howMany.toNat < 512 * blockSize)
    (hrun : (ifileWrite n buffer howMany toPos).run s.world = .ok code u)
    (hvalid : u.ValidAllocations) (files : UInt64 → Option File) :
    Session.Accounted ⟨u, files, s.abandoned⟩ := by
  have hd := hs.consistent
  have hn := hs.lt_maxFiles n f hf
  have hused := hs.used n f hf
  obtain ⟨-, rs, hwrite⟩ := hs.run_write hf hend hrun hvalid
  have howned := hwrite.owned_eq hd hn hused hend
  have hmarked := hwrite.marked hd hn hused hend
  refine ⟨fun r ↦ ?_, fun r hr ↦ ?_⟩
  · simp only [howned, hmarked, markAll_apply, Bool.or_eq_true, decide_eq_true_eq, Set.mem_union,
      Set.mem_ofPred_eq]
    constructor
    · rintro ⟨hr, hold | hnew⟩
      · rcases (ha.mem_iff r).mp ⟨hr, hold⟩ with howned | habandoned
        · exact .inl (.inl howned)
        · exact .inr habandoned
      · exact .inl (.inr hnew)
    · rintro ((howned | hnew) | habandoned)
      · obtain ⟨hr, hold⟩ := (ha.mem_iff r).mpr (.inl howned)
        exact ⟨hr, .inl hold⟩
      · exact ⟨(takeFree_mem hwrite.taken hnew).1, .inr hnew⟩
      · obtain ⟨hr, hold⟩ := (ha.mem_iff r).mpr (.inr habandoned)
        exact ⟨hr, .inl hold⟩
  · simp only [howned] at hr
    rcases hr with howned | hnew
    · exact ha.not_both r howned
    · exact (ha.of_free (takeFree_mem hwrite.taken hnew).2.2).2

theorem Session.Accounted.step {t : Session} {c : Call} (h : Step s c t) : t.Accounted := by
  cases h with
  | create hrun hvalid => exact ha.create hs hrun hvalid _
  | refuse hrun hcode hvalid =>
      rw [eq_advance_of_run_create hs.formatted hrun hcode]
      exact ⟨ha.mem_iff, ha.not_both⟩
  | write hf hend hrun hvalid => exact ha.write hs hf hend hrun hvalid _

end Steps

section Reaches

variable {d : Disk} {g : Globals} {stack : ℕ → Block} {calls : List Call} {s : Session}

theorem Reaches.accounted (h : Reaches d g stack calls s) : s.Accounted := by
  obtain ⟨w, hformat, hrun⟩ := h
  refine (hrun.invariant (P := fun s ↦ s.Valid ∧ s.Accounted)
    ⟨valid_of_format hformat, accounted_of_format hformat⟩ ?_).2
  rintro t c u ⟨ht, ha⟩ hstep
  exact ⟨ht.step hstep, ha.step ht hstep⟩

/-- An abandoned block belonged to an inode when a call of the session created
that inode again. -/
theorem Reaches.abandoned (h : Reaches d g stack calls s) {r : ℕ} (hr : r ∈ s.abandoned) :
    ∃ before n after t, calls = before ++ .create n :: after ∧ Reaches d g stack before t ∧
      r ∈ t.world.storage.blocksOf n.toNat := by
  obtain ⟨w, hformat, hrun⟩ := h
  induction hrun with
  | nil => exact hr.elim
  | @snoc l t u c hrun hlast ih =>
      have hold : r ∈ t.abandoned → ∃ before n after t', l ++ [c] = before ++ .create n :: after ∧
          Reaches d g stack before t' ∧ r ∈ t'.world.storage.blocksOf n.toNat := by
        intro hmem
        obtain ⟨before, n, after, t', rfl, hreaches, hblock⟩ := ih hmem
        exact ⟨before, n, after ++ [c], t', by simp, hreaches, hblock⟩
      cases hlast with
      | @create n v hcreate hvalid =>
          rcases hr with hmem | hblock
          · exact hold hmem
          · exact ⟨l, n, [], t, rfl, ⟨w, hformat, hrun⟩, hblock⟩
      | refuse => exact hold hr
      | write => exact hold hr

theorem finite_marked (e : Disk) : {r | e.marked r = true}.Finite := by
  refine (Set.finite_Iio bitmapBits).subset fun r hr ↦ ?_
  by_contra hlarge
  have hbyte : blockSize ≤ r / 8 := by
    simp only [Set.mem_Iio, bitmapBits] at hlarge
    omega
  rw [Set.mem_ofPred_eq, Disk.marked, bitAt, byteAt_of_le _ hbyte] at hr
  simp at hr

/-- Every block marked from the first allocatable one on is owned by a used
inode, or an inode dropped it when it was created again. -/
theorem session_blocks_accounted (h : Reaches d g stack calls s) :
    {r | s.world.globals.firstAllocatable.toNat ≤ r ∧ s.world.storage.marked r = true} =
        s.world.storage.owned ∪ s.abandoned ∧
      Disjoint s.world.storage.owned s.abandoned ∧
      {r | s.world.globals.firstAllocatable.toNat ≤ r ∧ s.world.storage.marked r = true}.ncard =
        s.world.storage.owned.ncard + s.abandoned.ncard ∧
      ∀ r ∈ s.abandoned, ∃ before n after t, calls = before ++ .create n :: after ∧
        Reaches d g stack before t ∧ r ∈ t.world.storage.blocksOf n.toNat := by
  have ha := h.accounted
  have hfirst : s.world.globals.firstAllocatable.toNat = 9 := by
    rw [h.valid.formatted.globals_eq]
    rfl
  have hunion : {r | 9 ≤ r ∧ s.world.storage.marked r = true} =
      s.world.storage.owned ∪ s.abandoned := Set.ext ha.mem_iff
  have hdisjoint : Disjoint s.world.storage.owned s.abandoned :=
    Set.disjoint_left.mpr ha.not_both
  have hfinite : (s.world.storage.owned ∪ s.abandoned).Finite := by
    rw [← hunion]
    exact (finite_marked s.world.storage).subset fun r hr ↦ hr.2
  rw [hfirst, hunion]
  refine ⟨rfl, hdisjoint, ?_, fun r hr ↦ h.abandoned hr⟩
  exact Set.ncard_union_eq hdisjoint (hfinite.subset Set.subset_union_left)
    (hfinite.subset Set.subset_union_right)

end Reaches

/-- A file that has grown into a second block is created again, and its blocks are abandoned. -/
theorem session_blocks_accounted_grown :
    ∃ s, Reaches (fun _ ↦ zeroedBlock) formattedGlobals (fun _ ↦ zeroedBlock)
        [.create 0, .write 0 (fun _ ↦ 65) 4096 0, .create 0] s ∧
      9 ∈ s.abandoned ∧ 11 ∈ s.abandoned ∧
      {r | s.world.globals.firstAllocatable.toNat ≤ r ∧ s.world.storage.marked r = true} =
        s.world.storage.owned ∪ s.abandoned ∧
      Disjoint s.world.storage.owned s.abandoned := by
  obtain ⟨u, hu, hnext, hplan⟩ : ∃ u, Plan.after [.create 0, .write 0 (fun _ ↦ 65) 4096 0] = some u ∧
      u.next = 12 ∧ u.files 0 = some ⟨4096, 9, [10, 11]⟩ := ⟨_, rfl, rfl, rfl⟩
  obtain ⟨s, hs⟩ := exists_reaches (fun _ ↦ zeroedBlock) formattedGlobals (fun _ ↦ zeroedBlock) hu
    (by rw [hnext]; decide)
  obtain ⟨v, hv, -, hfollows⟩ := hs.follows
  obtain rfl : u = v := Option.some.inj (hu.symm.trans hv)
  obtain ⟨f, hf, hplaced⟩ := Option.map_eq_some_iff.mp ((hfollows.placed 0).trans hplan)
  have hn := hs.valid.lt_maxFiles 0 f hf
  have hused := hs.valid.used 0 f hf
  have hsize : (s.world.storage.inode 0).size.toNat = 4096 := congrArg Placement.size hplaced
  have hpointer : s.world.storage.blockOf (.pointer 0) = 9 := congrArg Placement.pointers hplaced
  have hdata : s.world.storage.blockOf (.data 0 1) = 11 := by
    have hblocks := congrArg Placement.data hplaced
    have hboth : s.world.storage.blockOf (.data 0 0) = 10 ∧
        s.world.storage.blockOf (.data 0 1) = 11 := by
      simpa [Disk.placement, hsize, blockSize, List.range_succ] using hblocks
    exact hboth.2
  have htakes := takes_of_marked hfollows.le_next (by rw [hnext]; decide) hfollows.marked
  obtain ⟨t, -, -, habandoned, ht⟩ := hs.create (n := 0) (by decide) htakes
  obtain ⟨hmarked, hdisjoint, -⟩ := session_blocks_accounted ht
  refine ⟨t, ht, ?_, ?_, hmarked, hdisjoint⟩ <;> rw [habandoned]
  · exact .inr ⟨.pointer 0, ⟨⟨hn, hused⟩, rfl⟩, hpointer⟩
  · refine .inr ⟨.data 0 1, ⟨⟨hn, hused, ?_⟩, rfl⟩, hdata⟩
    exact hsize ▸ Nat.le_refl 1

/-- Creating inode `0` twice leaves block `9` marked, and no inode owns it. -/
theorem session_loses_blocks :
    ∃ s, Reaches (fun _ ↦ zeroedBlock) formattedGlobals (fun _ ↦ zeroedBlock)
        [.create 0, .create 0] s ∧
      s.world.globals.firstAllocatable.toNat ≤ 9 ∧ s.world.storage.marked 9 = true ∧
      9 ∉ s.world.storage.owned := by
  obtain ⟨s, hcreate, hf, hpointer, hmarked⟩ :=
    reaches_create_zero (fun _ ↦ zeroedBlock) formattedGlobals (fun _ ↦ zeroedBlock)
  obtain ⟨t, -, -, habandoned, hagain⟩ := hcreate.create (n := 0) (by decide)
    (takes_of_marked (k := 11) (by decide) (by decide) hmarked)
  have hs := hcreate.valid
  have hmem : 9 ∈ t.abandoned := by
    rw [habandoned]
    exact .inr ⟨.pointer 0, ⟨⟨hs.lt_maxFiles 0 _ hf, hs.used 0 _ hf⟩, rfl⟩, hpointer⟩
  have ha := hagain.accounted
  refine ⟨t, hagain, ?_, ((ha.mem_iff 9).mpr (.inr hmem)).2, fun h ↦ ha.not_both 9 h hmem⟩
  rw [hagain.valid.formatted.globals_eq]
  decide

end OsProjects.Filesystem
