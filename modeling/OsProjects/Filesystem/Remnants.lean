import OsProjects.Filesystem.Placement

/-!
# What the device contained before

`format` writes the first blocks only, and taking a block for a file does not clear
it.  A byte of a file that was never written is therefore the byte that was there before
the device was formatted, and reads deliver it.
-/

namespace OsProjects.Filesystem

open Library.Program Library.Bytes Library.FirstFit Library.ScatteredStore

namespace Disk

variable {d e : Disk} {n m p : ℕ}

theorem block_zeroed_of_le {b : ℕ} (hb : 9 ≤ b) : (d.zeroed 0 9).block b = d.block b := by
  rw [block, block]
  split
  · exact if_neg fun h ↦ Nat.not_lt.mpr hb h.2
  · rfl

/-! ## Blocks that are taken keep their bytes -/

section Resize

variable {newSize : UInt64} {rs : List ℕ} (hd : d.Consistent) (hn : n < maxFiles)
  (hused : (d.inode n).used) (hend : newSize.toNat < 512 * blockSize)
  (hrs : takeFree 9 bitmapBits (d.growth n newSize.toNat) d.marked = some rs)
  (hdevice : ∀ r ∈ rs, r < numBlocks)

theorem block_resize_of_ne (newSize : UInt64) (rs : List ℕ) (hn : n < maxFiles) {b : ℕ}
    (hb : 9 ≤ b) (hne : b ≠ (d.inode n).headPointerBlock.toNat) :
    (d.resize n newSize rs).block b = d.block b := by
  rw [resize]
  split
  · exact block_grow_of_ne newSize rs hn hb hne
  · rfl

include hd hn hused hend hrs

include hdevice in
theorem fileByte_resize_eq (hlive : (d.resize n newSize rs).Live (.data m (p / blockSize))) :
    (d.resize n newSize rs).fileByte m p =
      d.bytes ((d.resize n newSize rs).blockOf (.data m (p / blockSize)), p % blockSize) := by
  have hd' := hd.resize hn hused hend hrs hdevice
  have hused' : ((d.resize n newSize rs).inode n).used := by
    rw [inode_resize newSize rs hd hn hused hn, if_pos rfl]
    exact hused
  have hne := hd'.dataBlock_ne_head hn hused' hlive
  rw [headPointerBlock_resize newSize rs hd hn hused] at hne
  rw [fileByte_eq, bytes, block_resize_of_ne newSize rs hn (hd'.le_blockOf _ hlive) hne]

/-- What is not an old slot has a block that was free before. -/
theorem blockOf_resize_free {s : Slot} (hlive : (d.resize n newSize rs).Live s) (hnew : ¬ d.Live s) :
    9 ≤ (d.resize n newSize rs).blockOf s ∧ d.marked ((d.resize n newSize rs).blockOf s) = false := by
  have hlen := takeFree_length hrs
  by_cases hgrows : (d.inode n).size < newSize
  · have hgrown : d.resize n newSize rs = d.grow n newSize rs := if_pos hgrows
    rw [hgrown] at hlive
    rcases live_grow newSize rs hd hn hused hlen hlive with hold | ⟨k, hk, rfl⟩
    · exact (hnew hold).elim
    · rw [blockOf_resize_new hd hn hused hend hrs hk]
      obtain ⟨hle, -, hfree⟩ := takeFree_mem hrs (List.getElem_mem hk)
      exact ⟨hle, hfree⟩
  · rw [resize, if_neg hgrows] at hlive
    exact (hnew hlive).elim

end Resize

namespace AfterWrite

variable {howMany toPos : UInt64} {buffer : ℕ → UInt8} {rs : List ℕ}
variable (h : d.AfterWrite e n howMany toPos buffer rs) (hd : d.Consistent) (hn : n < maxFiles)
  (hused : (d.inode n).used) (hend : toPos.toNat + howMany.toNat < 512 * blockSize)
include h hd hn hused hend

theorem block_of_free {b : ℕ} (hb : 9 ≤ b) (hfree : e.marked b = false) :
    e.block b = d.block b := by
  have hd' := h.consistent_resize hd hn hused hend
  have hused' : ((d.resize n (toPos + howMany) rs).inode n).used := used_resize hd hn hused
  have hmarked := (h.sameMetadata hd hn hused hend).marked
  rw [hmarked] at hfree
  have hunowned : ∀ s, (d.resize n (toPos + howMany) rs).Live s →
      (d.resize n (toPos + howMany) rs).blockOf s ≠ b := by
    intro s hs heq
    have hmark := hd'.marked_blockOf s hs
    rw [heq, hfree] at hmark
    cases hmark
  have hhead := hunowned (.pointer n) ⟨hn, hused'⟩
  rw [blockOf, headPointerBlock_resize _ rs hd hn hused] at hhead
  rw [block_eq_of_store (h.bytes_eq hd hn hused) fun i hi ↦ hunowned (.data n i) ⟨hn, hused',
      hi.trans (Nat.div_le_div_right (le_size_resize hd hn hused hend))⟩,
    block_resize_of_ne _ rs hn hb (Ne.symm hhead)]

/-- A byte that a write leaves alone is the byte that was at its place before. -/
theorem fileByte_eq_bytes (hlive : e.Live (.data m (p / blockSize)))
    (hout : ¬ (m = n ∧ toPos.toNat ≤ p ∧ p < toPos.toNat + howMany.toNat)) :
    e.fileByte m p = d.bytes (e.blockOf (.data m (p / blockSize)), p % blockSize) := by
  have hsame := h.sameMetadata hd hn hused hend
  have hlive' := (hsame.live_iff _).mp hlive
  rw [fileByte_store (h.consistent_resize hd hn hused hend) hn (used_resize hd hn hused)
    (le_size_resize hd hn hused hend) (h.bytes_eq hd hn hused) hlive', if_neg hout,
    fileByte_resize_eq hd hn hused (by rw [(window_arith hend).1]; exact hend) h.taken
      h.lt_numBlocks hlive', hsame.blockOf_eq hlive']

theorem blockOf_free {s : Slot} (hlive : e.Live s) (hnew : ¬ d.Live s) :
    9 ≤ e.blockOf s ∧ d.marked (e.blockOf s) = false := by
  have hsame := h.sameMetadata hd hn hused hend
  have hlive' := (hsame.live_iff s).mp hlive
  rw [hsame.blockOf_eq hlive']
  exact blockOf_resize_free hd hn hused (by rw [(window_arith hend).1]; exact hend) h.taken hlive'
    hnew

end AfterWrite

end Disk

/-! ## Over whole sessions -/

/-- Outside of what was written, the device is as it was at first. -/
structure Session.Keeps (s : Session) (d : Disk) : Prop where
  free : ∀ b, 9 ≤ b → s.world.storage.marked b = false → s.world.storage.block b = d.block b
  byte : ∀ n f p, s.files n = some f → p / blockSize ≤ f.size / blockSize →
    s.world.storage.fileByte n.toNat p =
      (f.byte p).getD (d.bytes (s.world.storage.blockOf (.data n.toNat (p / blockSize)),
        p % blockSize))

theorem Session.Valid.live_data {s : Session} (hs : s.Valid) {n : UInt64} {f : File} {i : ℕ}
    (hf : s.files n = some f) (hi : i ≤ f.size / blockSize) :
    s.world.storage.Live (.data n.toNat i) := by
  refine ⟨hs.lt_maxFiles n f hf, hs.used n f hf, ?_⟩
  rwa [hs.size n f hf]

namespace Session.Keeps

variable {s t : Session} {d : Disk} {c : Call}

theorem of_format {w : World} {g : Globals} {stack : ℕ → Block}
    (h : format.run (boot d g stack) = .ok () w) : Keeps ⟨w, fun _ ↦ none, ∅⟩ d := by
  rw [run_format] at h
  cases h
  refine ⟨fun b hb _ ↦ Disk.block_zeroed_of_le hb, fun n f p hf _ ↦ ?_⟩
  cases hf

theorem step (h : s.Keeps d) (hs : s.Valid) (hstep : Step s c t) : t.Keeps d := by
  have hd := hs.consistent
  cases hstep with
  | @create n w hrun hvalid =>
      obtain ⟨hn, -, hstorage, first, second, htakes⟩ := hs.run_create hrun hvalid
      have hsecond := nextFree_eq_some_iff.mp htakes.nextFree.2
      simp only [mark_apply, Bool.or_eq_false_iff, decide_eq_false_iff_not] at hsecond
      refine ⟨fun b hb hfree ↦ ?_, fun m f p hm hp ↦ ?_⟩
      all_goals simp only [hstorage] at *
      · simp only [Disk.marked_create hn htakes, mark_apply, Bool.or_eq_false_iff,
          decide_eq_false_iff_not] at hfree
        rw [Disk.block_create_of_ne hn htakes hb hfree.1.2, h.free b hb hfree.1.1]
      · rcases cases_of_update hm with ⟨rfl, rfl⟩ | ⟨hne, hm⟩
        · -- the first data block of a new file was free
          have hzero : p / blockSize = 0 := Nat.le_zero.mp (by simpa [File.empty] using hp)
          rw [Disk.fileByte_eq, hzero, Disk.blockOf_create_data hn htakes,
            Disk.block_create_of_ne hn htakes hsecond.1 hsecond.2.2.1.2,
            h.free second hsecond.1 hsecond.2.2.1.1]
          rfl
        · have hlive := hs.live_data hm hp
          rw [Disk.fileByte_create hd hn htakes hlive hne, h.byte m f p hm hp,
            Disk.blockOf_create_of_ne hn htakes hd hlive hne]
  | @refuse n code w hrun hcode hvalid =>
      rw [eq_advance_of_run_create hs.formatted hrun hcode]
      exact ⟨h.free, h.byte⟩
  | @write n howMany toPos buffer f code w hf hend hrun hvalid =>
      have ht := hs.write hf hend hrun hvalid s.abandoned
      obtain ⟨-, rs, hafter⟩ := hs.run_write hf hend hrun hvalid
      have hn := hs.lt_maxFiles n f hf
      have hused := hs.used n f hf
      refine ⟨fun b hb hfree ↦ ?_, fun m f' p hm hp ↦ ?_⟩
      · have hbefore : s.world.storage.marked b = false := by
          simp only [hafter.marked hd hn hused hend, markAll_apply, Bool.or_eq_false_iff] at hfree
          exact hfree.1
        simp only [hafter.block_of_free hd hn hused hend hb hfree, h.free b hb hbefore]
      · have hlive := ht.live_data hm hp
        -- the bytes of the file before, wherever they are not written now
        have hbytes : ∀ f', s.files m = some f' →
            ¬ (m.toNat = n.toNat ∧ toPos.toNat ≤ p ∧ p < toPos.toNat + howMany.toNat) →
            w.storage.fileByte m.toNat p = (f'.byte p).getD
              (d.bytes (w.storage.blockOf (.data m.toNat (p / blockSize)), p % blockSize)) := by
          intro f' hf' hout
          rw [hafter.fileByte_eq_bytes hd hn hused hend hlive hout]
          by_cases hold : p / blockSize ≤ f'.size / blockSize
          · have hbyte := h.byte m f' p hf' hold
            rwa [Disk.fileByte_eq, ← hafter.blockOf_of_live hd hn hused hend
              (hs.live_data hf' hold)] at hbyte
          · obtain ⟨hle, hfree⟩ := hafter.blockOf_free hd hn hused hend hlive fun hdead ↦
              hold (by rw [← hs.size m f' hf']; exact hdead.2.2)
            have hnone : f'.byte p = none := by
              cases hv : f'.byte p with
              | none => rfl
              | some v => exact (hold (Nat.div_le_div_right (hs.lt_size m f' p v hf' hv).le)).elim
            rw [hnone, Option.getD_none, Disk.bytes, h.free _ hle hfree]
            rfl
        rcases cases_of_update hm with ⟨rfl, rfl⟩ | ⟨hne, hm⟩
        · by_cases hin : toPos.toNat ≤ p ∧ p < toPos.toNat + howMany.toNat
          · simp only [File.write, if_pos hin, Option.getD_some]
            exact hafter.fileByte_self hd hn hused hend hin.1 hin.2
          · simp only [File.write, if_neg hin]
            exact hbytes f hf fun h ↦ hin h.2
        · exact hbytes f' hm fun h ↦ hne h.1

end Session.Keeps

section Reached

variable {d : Disk} {g : Globals} {stack : ℕ → Block} {calls : List Call} {s : Session}

theorem Reaches.keeps (h : Reaches d g stack calls s) : s.Keeps d := by
  obtain ⟨w, hformat, hrun⟩ := h
  exact (hrun.invariant (P := fun t ↦ t.Valid ∧ t.Keeps d)
    ⟨valid_of_format hformat, .of_format hformat⟩
    fun t c u ht hstep ↦ ⟨ht.1.step hstep, ht.2.step ht.1 hstep⟩).2

/-- A read inside a file delivers what was written, and at all other positions what the device
contained before `format` in the blocks that the plan of the calls gives the file. -/
theorem session_read_exact (h : Reaches d g stack calls s) {n : UInt64} {f : File}
    (hf : s.files n = some f) {howMany fromPos : UInt64}
    (hend : fromPos.toNat + howMany.toNat ≤ f.size) :
    ∃ u p, Plan.after calls = some u ∧ u.files n = some p ∧ ∀ buffer,
      Returns (ifileRead n buffer howMany fromPos) s.world fun result v ↦
        result.1 = 0 ∧ v.storage = s.world.storage ∧
          result.2 = copyOver buffer 0 howMany.toNat fun i ↦
            (f.byte (fromPos.toNat + i)).getD
              (d.bytes (p.data.getD ((fromPos.toNat + i) / blockSize) 0,
                (fromPos.toNat + i) % blockSize)) := by
  have hs := h.valid
  obtain ⟨u, hu, -, hfollows⟩ := h.follows
  refine ⟨u, _, hu, hfollows.placement_eq hf, fun buffer ↦ ?_⟩
  rw [← hs.size n f hf] at hend
  refine (ifileRead_returns hs.formatted hs.consistent (hs.lt_maxFiles n f hf) (hs.used n f hf)
    hend).mono ?_
  rintro ⟨code, buffer'⟩ v ⟨hcode, hv, rfl⟩
  refine ⟨hcode, hv.storage, ?_⟩
  funext i
  simp only [copyOver]
  split
  · rename_i hi
    have hle : (fromPos.toNat + (i - 0)) / blockSize ≤ f.size / blockSize := by
      rw [← hs.size n f hf]
      exact Nat.div_le_div_right (by omega)
    rw [h.keeps.byte n f _ hf hle]
    congr 3
    rw [Disk.placement, List.getD_eq_getElem?_getD, List.getElem?_map, List.getElem?_range]
    · rfl
    · rw [hs.size n f hf]
      omega
  · rfl

/-- On a device full of `7`, a file whose second byte is written begins with a `7`. -/
theorem session_read_exact_second_byte :
    ∃ s, Reaches (fun _ _ ↦ 7) formattedGlobals (fun _ ↦ zeroedBlock)
        ([.create 0] ++ [.write 0 (fun _ ↦ 65) 1 1]) s ∧
      Returns (ifileRead 0 (fun _ ↦ 0) 2 0) s.world fun result _ ↦
        result.1 = 0 ∧ result.2 0 = 7 ∧ result.2 1 = 65 := by
  obtain ⟨s, hcreate, hf, -⟩ :=
    reaches_create_zero (fun _ _ ↦ 7) formattedGlobals (fun _ ↦ zeroedBlock)
  have hgrowth : s.world.storage.growth 0 2 = 0 := by
    rw [Disk.growth, Nat.div_eq_of_lt (by decide), Nat.zero_sub]
  obtain ⟨t, -, hfiles, hwrite⟩ := hcreate.write (fun _ ↦ 65) hf (show (1 : UInt64).toNat +
    (1 : UInt64).toNat < 512 * blockSize by decide) (hgrowth.le.trans (Nat.zero_le _))
  have hwritten : t.files 0 = some (File.empty.write 1 1 fun _ ↦ 65) := by
    rw [hfiles]
    exact Function.update_self ..
  obtain ⟨u, p, hu, hp, hread⟩ := session_read_exact hwrite hwritten (show (0 : UInt64).toNat +
    (2 : UInt64).toNat ≤ _ by decide)
  cases hu
  cases hp
  refine ⟨t, hwrite, (hread _).mono ?_⟩
  rintro result v ⟨hcode, -, hbuffer⟩
  refine ⟨hcode, ?_, ?_⟩ <;> rw [hbuffer]
  · exact (if_pos (by decide)).trans rfl
  · exact (if_pos (by decide)).trans rfl

end Reached

end OsProjects.Filesystem
