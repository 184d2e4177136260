import OsProjects.Memory.Counters
import OsProjects.Memory.PageTable

/-!
# Creation of tables

While frames are available `make_node` empties one that was not in use, and
each level of `vm_map` goes on at the table it finds or at such a new one.
-/

namespace OsProjects.Memory

open Library.Program Library.FirstFit Library.Windows Library.Bytes

/-! ## Free frames -/

theorem Frames.setBits_markFrame (s : Frames) {f : ℕ} (hf : f < numFrames)
    (hfree : s.marked f = false) : (s.markFrame f).setBits = s.setBits + 1 := by
  have hinsert : (Finset.range numFrames).filter (fun q ↦ (s.markFrame f).marked q = true) =
      insert f ((Finset.range numFrames).filter fun q ↦ s.marked q = true) := by
    ext q
    simp only [Finset.mem_filter, Finset.mem_insert, Finset.mem_range, s.marked_markFrame hf,
      mark_apply, Bool.or_eq_true, decide_eq_true_iff]
    constructor
    · rintro ⟨hq, hmarked | rfl⟩
      · exact .inr ⟨hq, hmarked⟩
      · exact .inl rfl
    · rintro (rfl | ⟨hq, hmarked⟩)
      · exact ⟨hf, .inr rfl⟩
      · exact ⟨hq, .inl hmarked⟩
  have hnotin : f ∉ (Finset.range numFrames).filter fun q ↦ s.marked q = true := by
    simp [hfree]
  rw [setBits, hinsert, Finset.card_insert_of_notMem hnotin, setBits]

theorem Frames.run_allocateFrame_one {s : Frames} (h : s.setBits < numFrames) :
    ∃ f < numFrames, s.marked f = false ∧
      (allocateFrame 1).run s = .ok (f : ℤ) ((s.markFrame f).count 1) := by
  rcases run_allocateFrame (s := s) (n := 1) Nat.one_pos with ⟨f, hfirst, hlt, hrun⟩ | ⟨hnone, -⟩
  · exact ⟨f, by omega, hfirst.1 f le_rfl (by omega), hrun⟩
  · have hall : (Finset.range numFrames).filter (fun q ↦ s.marked q = true) =
        Finset.range numFrames := by
      refine Finset.filter_true_of_mem fun q hq ↦ ?_
      by_contra hfree
      rw [Finset.mem_range] at hq
      refine hnone q (by omega) fun r hr hlt ↦ ?_
      obtain rfl : r = q := by omega
      exact Bool.eq_false_of_not_eq_true hfree
    rw [setBits, hall, Finset.card_range] at h
    exact absurd h (lt_irrefl _)

/-! ## Empty tables -/

def Blank (m : Buffer memorySize) (n : ℕ) : Prop := ∀ j < 4096, byteAt m (n * 4096 + j) = 0

theorem Agree.trans {m m' m'' : Buffer memorySize} {n : ℕ} (h : Agree m m' n)
    (h' : Agree m' m'' n) : Agree m m'' n := fun j hj ↦ (h' j hj).trans (h j hj)

theorem Blank.congr {m m' : Buffer memorySize} {n : ℕ} (h : Blank m n) (hagree : Agree m m' n) :
    Blank m' n := fun j hj ↦ (hagree j hj).trans (h j hj)

theorem agree_copyInto (m : Buffer memorySize) {n n' o len : ℕ} (src : ℕ → UInt8) (hne : n' ≠ n)
    (hle : n * 4096 ≤ o) (hlt : o + len ≤ n * 4096 + 4096) :
    Agree m (copyInto m o len src) n' := fun j hj ↦
  byteAt_copyInto_of_disjoint m src (by omega)

theorem blank_copyInto (m : Buffer memorySize) {n : ℕ} (hn : n < numFrames) :
    Blank (copyInto m (n * 4096) 4096 fun _ ↦ 0) n := by
  intro j hj
  have hbound := frame_bound hn
  rw [byteAt_copyInto _ _ _ _ (by omega), if_pos (by omega)]

theorem Blank.single_writeLE {m : Buffer memorySize} {n i w : ℕ} (h : Blank m n)
    (hn : n < numFrames) : Single (writeLE m (n * 4096 + i) 8 w) n i w := by
  intro j hj
  have hbound := frame_bound hn
  rw [writeLE, byteAt_copyInto _ _ _ _ (by omega), tableByte]
  by_cases hin : i ≤ j ∧ j < i + 8
  · rw [if_pos (by omega), if_pos hin]
    congr 1
    omega
  · rw [if_neg (by omega), if_neg hin, h j hj]

theorem Blank.entryAt {s : Machine} {n i : ℕ} (h : Blank s.memory n) (hi : i < 512) :
    s.entryAt (n * 4096 + i) = .ofWord 0 := by
  refine congrArg Entry.ofWord (leValue_eq (by positivity) fun k hk ↦ ?_)
  rw [Nat.add_assoc, h (i + k) (by omega), leByte_eq_zero (by positivity)]

/-! ## Entries -/

theorem toWord_ofWord_with_address {w v : ℕ} (hw : w < 2 ^ 64) (hzero : w % 2 ^ 55 = 0)
    (hv : v < 2 ^ 52) : Entry.toWord { Entry.ofWord w with address := .ofNat 52 v } = w + v := by
  have hmod : v % 2 ^ 52 = v := Nat.mod_eq_of_lt hv
  simp only [Entry.toWord, Entry.ofWord, BitVec.toNat_ofNat, hmod]
  omega

theorem toWord_ofWord_with_flags {w v : ℕ} (hzero : w % 2 ^ 55 = 0) (hv : v < 2 ^ 52) :
    Entry.toWord { Entry.ofWord (w + v) with flags := .ofNat 9 1 } = v + 2 ^ 55 := by
  have hmod : (w + v) % 2 ^ 52 = v := by omega
  simp only [Entry.toWord, Entry.ofWord, BitVec.toNat_ofNat, hmod]
  omega

/-! ## One level of `vm_map` -/

/-- Frame `n` was not in use and is an empty table now. -/
structure Extends (s : Machine) (n : ℕ) (t : Machine) : Prop where
  free : s.frames.marked n = false
  marked : t.frames.marked = mark s.frames.marked n
  setBits : t.frames.setBits = s.frames.setBits + 1
  tableRoot : t.tableRoot = s.tableRoot
  blank : Blank t.memory n

namespace Extends

variable {s t : Machine} {n f : ℕ} (h : Extends s n t)
include h

theorem marked_self : t.frames.marked n = true := by
  rw [h.marked, mark_apply, decide_eq_true rfl, Bool.or_true]

theorem marked_of_marked (hf : s.frames.marked f = true) : t.frames.marked f = true := by
  rw [h.marked, mark_apply, hf, Bool.true_or]

theorem ne_of_marked (hf : s.frames.marked f = true) : f ≠ n := by
  rintro rfl
  rw [h.free] at hf
  cases hf

end Extends

section Level

variable {base : ℕ} {s : Machine} (hbase : WellPlaced base)

theorem run_makeNode (base : ℕ) (hroom : s.frames.setBits < numFrames) :
    ∃ n t, (makeNode base).run s = .ok (frameAddress base n) t ∧ n < numFrames ∧
      Extends s n t ∧ ∀ f, f ≠ n → Agree s.memory t.memory f := by
  obtain ⟨n, hn, hfree, hrun⟩ := Frames.run_allocateFrame_one hroom
  have hbound := frame_bound hn
  have hlift : (liftFrames (allocateFrame 1)).run s =
      .ok (n : ℤ) { s with frames := (s.frames.markFrame n).count 1 } := by
    change liftFrames (allocateFrame 1) s = _
    rw [liftFrames, hrun]
  have hnode : (base : ℤ) + (n : ℤ) * 4096 = (base + n * 4096 : ℕ) := by push_cast; rfl
  refine ⟨n, { s with
      frames := (s.frames.markFrame n).count 1
      memory := copyInto s.memory (n * 4096) 4096 fun _ ↦ 0 }, ?_, hn, ?_,
    fun f hf ↦ agree_copyInto s.memory (fun _ ↦ 0) hf le_rfl le_rfl⟩
  · rw [makeNode, run_bind_of_ok hlift, hnode, run_bind_of_ok (run_locate base hbound)]
    rfl
  · refine ⟨hfree, ?_, ?_, rfl, blank_copyInto s.memory hn⟩
    · rw [Frames.count_marked, s.frames.marked_markFrame hn]
    · exact s.frames.setBits_markFrame hn hfree

/-- Without a free frame `make_node` has the number -1 for its frame. -/
theorem setBits_lt_of_makeNode {base r : ℕ} {t : Machine} (h : (makeNode base).run s = .ok r t) :
    s.frames.setBits < numFrames := by
  rcases run_allocateFrame (s := s.frames) (n := 1) Nat.one_pos with
    ⟨f, hfirst, hlt, -⟩ | ⟨-, hrun⟩
  · have hmarked := s.frames.setBits_markFrame (f := f) (by omega) (hfirst.1 f le_rfl (by omega))
    have hle := (s.frames.markFrame f).setBits_le
    omega
  · have hlift : (liftFrames (allocateFrame 1)).run s = .ok (-1) s := by
      change liftFrames (allocateFrame (1 : ℕ)) s = _
      rw [liftFrames, hrun]
    have hlocate : (locate base ((base : ℤ) + -1 * 4096) 4096).run s =
        .error (.outOfBounds memorySize ((base : ℤ) + -1 * 4096 - base)) s := by
      rw [locate, if_neg (by omega)]
      rfl
    rw [makeNode, run_bind_of_ok hlift, run_bind_of_error hlocate] at h
    cases h

theorem run_child_of_load {p x : ℕ} (hload : (loadEntry base p).run s = .ok (.ofWord x) s)
    (hx : x % 2 ^ 52 ≠ 0) : (child base p).run s = .ok (x % 2 ^ 52) s := by
  rw [child, run_bind_of_ok hload, if_neg (mt (address_ofWord_eq_zero_iff x).mp hx)]
  refine (run_bind_of_ok hload).trans ?_
  rw [toNat_address_ofWord]
  rfl

theorem run_child_of_outside (base : ℕ) {p : ℕ} (h : p < base ∨ base + memorySize < p + 8) :
    (child base p).run s = .error (.outOfBounds memorySize (p - base)) s :=
  run_bind_of_error (run_loadEntry_of_outside base h)

include hbase

theorem Single.run_child {n i n' : ℕ} (h : Single s.memory n i (frameAddress base n'))
    (hn : n < numFrames) (hn' : n' < numFrames) (hi : i < 512) :
    (child base (frameAddress base n + i)).run s = .ok (frameAddress base n') s := by
  have hmod := hbase.frameAddress_mod hn'
  have hpos := hbase.frameAddress_pos n'
  rw [run_child_of_load (h.run_loadEntry_self hbase hn hn' hi) (by omega), hmod]

/-- Where an entry is zero a new table is made, whose address the entry is then. -/
theorem run_child_of_zero {n i : ℕ} (hzero : s.entryAt (n * 4096 + i) = .ofWord 0)
    (hn : n < numFrames) (hmarked : s.frames.marked n = true) (hi : i < 512)
    (hroom : s.frames.setBits < numFrames) :
    ∃ n' t, (child base (frameAddress base n + i)).run s = .ok (frameAddress base n') { t with
        memory := writeLE t.memory (n * 4096 + i) 8 (frameAddress base n') } ∧
      n' < numFrames ∧ Extends s n' t ∧ ∀ f, f ≠ n' → Agree s.memory t.memory f := by
  obtain ⟨n', t, hrun, hn', hextends, hagree⟩ := run_makeNode base hroom
  have hne : n ≠ n' := hextends.ne_of_marked hmarked
  have hbound := frame_bound hn
  have hlt := hbase.frameAddress_lt hn'
  have hoff : n * 4096 + i + 8 ≤ memorySize := by omega
  have hload := run_loadEntry base (s := s) hoff
  rw [hzero, ← Nat.add_assoc] at hload
  have hzero' : t.entryAt (n * 4096 + i) = .ofWord 0 := by
    rw [← hzero, Machine.entryAt, Machine.entryAt]
    refine congrArg Entry.ofWord (leValue_congr fun k hk ↦ ?_)
    rw [Nat.add_assoc]
    exact hagree n hne (i + k) (by omega)
  have hset := run_setAddress base (s := t) (v := frameAddress base n') hoff
  rw [hzero', Machine.store, toWord_ofWord_with_address (by decide) rfl hlt, Nat.zero_add,
    ← Nat.add_assoc] at hset
  have hagain := run_loadEntry base hoff
    (s := { t with memory := writeLE t.memory (n * 4096 + i) 8 (frameAddress base n') })
  rw [Machine.entryAt, readLE_writeLE _ hoff (by omega), ← Nat.add_assoc] at hagain
  refine ⟨n', t, ?_, hn', hextends, hagree⟩
  change (child base (base + n * 4096 + i)).run s = _
  rw [child, run_bind_of_ok hload, if_pos ((address_ofWord_eq_zero_iff 0).mpr rfl)]
  refine (run_bind_of_ok hrun).trans ((run_bind_of_ok hset).trans ?_)
  refine (run_bind_of_ok hagain).trans ?_
  rw [toNat_address_ofWord, hbase.frameAddress_mod hn']
  rfl

theorem Blank.run_child {n i : ℕ} (h : Blank s.memory n) (hn : n < numFrames)
    (hmarked : s.frames.marked n = true) (hi : i < 512) (hroom : s.frames.setBits < numFrames) :
    ∃ n' t, (child base (frameAddress base n + i)).run s = .ok (frameAddress base n') t ∧
      n' < numFrames ∧ Extends s n' t ∧ Single t.memory n i (frameAddress base n') ∧
        ∀ f, f ≠ n → f ≠ n' → Agree s.memory t.memory f := by
  obtain ⟨n', t, hrun, hn', hextends, hagree⟩ :=
    run_child_of_zero hbase (h.entryAt hi) hn hmarked hi hroom
  have hne : n ≠ n' := hextends.ne_of_marked hmarked
  have hinside : n * 4096 + i + 8 ≤ n * 4096 + 4096 := by omega
  have hwrite : ∀ f, f ≠ n → Agree t.memory
      (writeLE t.memory (n * 4096 + i) 8 (frameAddress base n')) f := fun f hf ↦
    agree_copyInto t.memory (leByte (frameAddress base n')) hf (Nat.le_add_right _ _) hinside
  exact ⟨n', _, hrun, hn', ⟨hextends.free, hextends.marked, hextends.setBits, hextends.tableRoot,
    hextends.blank.congr (hwrite n' hne.symm)⟩, (h.congr (hagree n hne)).single_writeLE hn,
    fun f hf hf' ↦ (hagree f hf').trans (hwrite f hf)⟩

end Level

end OsProjects.Memory
