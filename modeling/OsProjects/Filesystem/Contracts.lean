import OsProjects.Filesystem.Splitting

/-!
# The contract of the filesystem

What a program that formats a device, creates files and writes to them can rely
on: the device stores the files of the session, the blocks of different files
are distinct, and the way in which data is cut into writes does not matter.
-/

namespace OsProjects.Filesystem

open Library.Program Library.Bytes Library.FirstFit

variable {d : Disk} {g : Globals} {stack : ℕ → Block} {calls : List Call} {s : Session}

/-- The filesystem refines a map from inode numbers to files: sizes are stored,
reads deliver what was written, and writes return `0`. -/
theorem session_refines_files (h : Reaches d g stack calls s) {n : UInt64} {f : File}
    (hf : s.files n = some f) :
    (s.world.storage.inode n.toNat).size.toNat = f.size ∧
      (∀ buffer (howMany fromPos : UInt64), fromPos.toNat + howMany.toNat ≤ f.size →
        Returns (ifileRead n buffer howMany fromPos) s.world fun result u ↦
          result.1 = 0 ∧ u.storage = s.world.storage ∧
            ∀ i < howMany.toNat, ∀ v, f.byte (fromPos.toNat + i) = some v → result.2 i = v) ∧
      ∀ buffer (howMany toPos : UInt64), toPos.toNat + howMany.toNat < 512 * blockSize →
        (finalState ((ifileWrite n buffer howMany toPos).run s.world)).ValidAllocations →
        Returns (ifileWrite n buffer howMany toPos) s.world fun code _ ↦ code = 0 := by
  have hs := h.valid
  refine ⟨hs.size n f hf, fun buffer howMany fromPos hend ↦ ?_, fun buffer howMany toPos hend ↦
    hs.write_returns hf hend⟩
  rw [← hs.size n f hf] at hend
  refine (ifileRead_returns hs.formatted hs.consistent (hs.lt_maxFiles n f hf) (hs.used n f hf)
    hend).mono ?_
  rintro ⟨code, buffer'⟩ u ⟨hcode, hu, rfl⟩
  refine ⟨hcode, hu.storage, fun i hi v hv ↦ ?_⟩
  simp only [copyOver]
  rw [if_pos ⟨Nat.zero_le i, by omega⟩]
  exact hs.byte n f _ v hf hv

theorem session_refines_files_one_byte :
    ∃ (s : Session) (f : File), s.files 0 = some f ∧ f.byte 0 = some 65 ∧
      Returns (ifileRead 0 (fun _ ↦ 0) 1 0) s.world fun result _ ↦
        result.1 = 0 ∧ result.2 0 = 65 := by
  obtain ⟨s, hcreate, hf, -⟩ :=
    reaches_create_zero (fun _ ↦ zeroedBlock) formattedGlobals (fun _ ↦ zeroedBlock)
  have hgrowth : s.world.storage.growth 0 1 = 0 := by
    rw [Disk.growth, Nat.div_eq_of_lt (by decide), Nat.zero_sub]
  obtain ⟨t, -, hfiles, hwrite⟩ := hcreate.write (fun _ ↦ 65) hf (show (0 : UInt64).toNat +
    (1 : UInt64).toNat < 512 * blockSize by decide) (hgrowth.le.trans (Nat.zero_le _))
  have hwritten : t.files 0 = some (File.empty.write 0 1 fun _ ↦ 65) := by
    rw [hfiles]
    exact Function.update_self ..
  refine ⟨t, _, hwritten, rfl, ?_⟩
  refine ((session_refines_files hwrite hwritten).2.1 _ 1 0 (by decide)).mono ?_
  rintro result u ⟨hcode, -, hbyte⟩
  exact ⟨hcode, hbyte 0 (by decide) 65 rfl⟩

/-- All blocks of used inodes are allocatable blocks of the device, marked in the
bitmap and pairwise distinct. -/
theorem session_blocks_distinct (h : Reaches d g stack calls s) :
    (∀ slot, s.world.storage.Live slot →
      s.world.globals.firstAllocatable.toNat ≤ s.world.storage.blockOf slot ∧
        s.world.storage.blockOf slot < numBlocks ∧
        s.world.storage.marked (s.world.storage.blockOf slot) = true) ∧
      Set.InjOn s.world.storage.blockOf {slot | s.world.storage.Live slot} := by
  have hs := h.valid
  have hfirst : s.world.globals.firstAllocatable.toNat = 9 := by
    rw [hs.formatted.globals_eq]
    rfl
  refine ⟨fun slot hslot ↦ ?_, hs.consistent.injOn_blockOf⟩
  rw [hfirst]
  exact ⟨hs.consistent.le_blockOf slot hslot, hs.consistent.blockOf_lt slot hslot,
    hs.consistent.marked_blockOf slot hslot⟩

theorem session_blocks_distinct_create_zero :
    ∃ s, Reaches (fun _ ↦ zeroedBlock) formattedGlobals (fun _ ↦ zeroedBlock) [.create 0] s ∧
      Set.InjOn s.world.storage.blockOf {slot | s.world.storage.Live slot} := by
  obtain ⟨s, hcreate, -⟩ :=
    reaches_create_zero (fun _ ↦ zeroedBlock) formattedGlobals (fun _ ↦ zeroedBlock)
  exact ⟨_, hcreate, (session_blocks_distinct hcreate).2⟩

/-- A write and its two parts, one after the other, leave the same disk. -/
theorem session_write_append (h : Reaches d g stack calls s) {n : UInt64} {f : File}
    (hf : s.files n = some f) {toPos len more : UInt64} {buffer buffer₁ buffer₂ : ℕ → UInt8}
    (hend : toPos.toNat + len.toNat + more.toNat < 512 * blockSize)
    (hbuffer₁ : ∀ i < len.toNat, buffer i = buffer₁ i)
    (hbuffer₂ : ∀ i < more.toNat, buffer (len.toNat + i) = buffer₂ i)
    (hroom : s.world.storage.growth n.toNat (toPos.toNat + len.toNat + more.toNat) ≤
      (freeBelow 9 numBlocks s.world.storage.marked).card) :
    ∃ u v v', (ifileWrite n buffer (len + more) toPos).run s.world = .ok 0 u ∧
      (ifileWrite n buffer₁ len toPos).run s.world = .ok 0 v ∧
      (ifileWrite n buffer₂ more (toPos + len)).run v = .ok 0 v' ∧ v'.storage = u.storage := by
  have hs := h.valid
  have hn := hs.lt_maxFiles n f hf
  have hused := hs.used n f hf
  have hsum : (toPos + len).toNat = toPos.toNat + len.toNat := (window_arith (by omega)).1
  have hlen : (len + more).toNat = len.toNat + more.toNat := by
    rw [UInt64.toNat_add]
    simp only [blockSize] at hend
    omega
  have hhalf : toPos.toNat + len.toNat < 512 * blockSize := by omega
  have hwhole : toPos.toNat + (len + more).toNat < 512 * blockSize := by
    rw [hlen]
    omega
  rw [Nat.add_assoc, ← hlen] at hroom
  -- the whole write
  obtain ⟨t, hu, -, hreaches⟩ := h.write buffer hf hwhole hroom
  obtain ⟨-, rs, hafter⟩ := hs.run_write hf hwhole hu hreaches.validAllocations
  -- its first part needs less room
  have hroom₁ : s.world.storage.growth n.toNat (toPos.toNat + len.toNat) ≤
      (freeBelow 9 numBlocks s.world.storage.marked).card := by
    refine le_trans (Nat.sub_le_sub_right (Nat.div_le_div_right ?_) _) hroom
    omega
  obtain ⟨t₁, hv, -, hreaches₁⟩ := h.write buffer₁ hf hhalf hroom₁
  obtain ⟨-, xs, hafter₁⟩ := hs.run_write hf hhalf hv hreaches₁.validAllocations
  -- the second part takes the blocks that are left of the whole
  have hv' := hreaches₁.valid
  have htotal : (toPos + len).toNat + more.toNat = (toPos + (len + more)).toNat := by
    rw [hsum, (window_arith hwhole).1, hlen, Nat.add_assoc]
  have hend₂ : (toPos + len).toNat + more.toNat < 512 * blockSize := by
    rw [hsum]
    exact hend
  obtain ⟨ys, hys, rfl⟩ := hafter₁.takeFree_rest hs.consistent hn hused hhalf
    (by rw [← htotal, hsum]; omega) hafter.taken
  rw [← htotal] at hys
  obtain ⟨_, v', hrun, rfl, e, hbecomes, hbytes⟩ := ifileWrite_returns (w := t₁.world)
    hv'.formatted hv'.consistent hn (hafter₁.used hs.consistent hn hused hhalf) hend₂ hys
    fun r hr ↦ hafter.lt_numBlocks r (List.mem_append_right xs hr)
  refine ⟨t.world, t₁.world, v', hu, hv, hrun, ?_⟩
  rw [hbecomes.storage]
  rw [← (window_arith hend₂).1] at hys
  exact Disk.AfterWrite.append hs.consistent hn hused hend hbuffer₁ hbuffer₂ hafter₁
    ⟨hys, fun r hr ↦ hafter.lt_numBlocks r (List.mem_append_right xs hr), hbytes⟩ hafter

theorem session_write_append_two_bytes :
    ∃ (s : Session) (u v v' : World),
      (ifileWrite 0 (fun i ↦ UInt8.ofNat i) (1 + 1) 0).run s.world = .ok 0 u ∧
      (ifileWrite 0 (fun _ ↦ 0) 1 0).run s.world = .ok 0 v ∧
      (ifileWrite 0 (fun _ ↦ 1) 1 (0 + 1)).run v = .ok 0 v' ∧ v'.storage = u.storage := by
  obtain ⟨s, hcreate, hf, -⟩ :=
    reaches_create_zero (fun _ ↦ zeroedBlock) formattedGlobals (fun _ ↦ zeroedBlock)
  have hgrowth : s.world.storage.growth 0 2 = 0 := by
    rw [Disk.growth, Nat.div_eq_of_lt (by decide), Nat.zero_sub]
  have hfirst : ∀ i < (1 : UInt64).toNat, UInt8.ofNat i = 0 := by decide
  have hsecond : ∀ i < (1 : UInt64).toNat, UInt8.ofNat ((1 : UInt64).toNat + i) = 1 := by decide
  have hend : (0 : UInt64).toNat + (1 : UInt64).toNat + (1 : UInt64).toNat < 512 * blockSize := by
    decide
  exact ⟨s, session_write_append hcreate hf hend hfirst hsecond (hgrowth.le.trans (Nat.zero_le _))⟩

end OsProjects.Filesystem
