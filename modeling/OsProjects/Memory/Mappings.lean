import OsProjects.Memory.Tables

/-!
# Mappings of single pages

What calls of `vm_map` for one page leave in the page table, and when they
leave the translations of all other pages alone.  Entries overlap as soon as
two indices of one level differ by less than eight, and every entry can be read
through the indices next to it.
-/

namespace OsProjects.Memory

open Library.Program Library.FirstFit Library.Windows Library.Bytes Library.Runs

structure Mapping where
  page : UInt64
  frame : UInt64

/-- The byte of a table of the fourth level at which the entry begins. -/
def Mapping.slot (e : Mapping) : ℕ := e.page.toNat / 2 ^ 27

def Mapping.word (e : Mapping) : ℕ := e.frame.toNat + 2 ^ 55

/-- The page and the frame have at most 36 and 52 bits, and the entry does not
look like a mapping to an index up to six bytes below it. -/
structure Mapping.Valid (e : Mapping) : Prop where
  pos : 0 < e.page.toNat
  page_lt : e.page.toNat < 2 ^ 36
  frame_lt : e.frame.toNat < 2 ^ 52
  quiet : ∀ k, 2 ≤ k → k ≤ 6 → k * 2 ^ 27 < e.page.toNat →
    e.frame.toNat / 2 ^ (55 - 8 * k) % 2 ^ 9 ≠ 1

def Mapping.Apart (e f : Mapping) : Prop := e.slot + 8 ≤ f.slot ∨ f.slot + 8 ≤ e.slot

/-- The mappings fit into one table of the fourth level. -/
structure Fits (low : ℕ) (mapped : List Mapping) : Prop where
  valid : ∀ e ∈ mapped, e.Valid
  low : ∀ e ∈ mapped, e.page.toNat % 2 ^ 27 = low
  apart : mapped.Pairwise Mapping.Apart

/-- Frame `n` holds the entries of the mappings and zeros elsewhere. -/
structure Leaf (m : Buffer memorySize) (n : ℕ) (mapped : List Mapping) : Prop where
  entry : ∀ e ∈ mapped, ∀ k < 8, byteAt m (n * 4096 + (e.slot + k)) = leByte e.word k
  zero : ∀ j < 4096, (∀ e ∈ mapped, j < e.slot ∨ e.slot + 8 ≤ j) → byteAt m (n * 4096 + j) = 0

/-! ## The fourth table -/

theorem Fits.eq_of_near {low : ℕ} {mapped : List Mapping} (h : Fits low mapped) {e f : Mapping}
    (he : e ∈ mapped) (hf : f ∈ mapped) (hnear : e.slot < f.slot + 8 ∧ f.slot < e.slot + 8) :
    e = f := by
  by_contra hne
  have hsymm : Std.Symm Mapping.Apart := ⟨fun _ _ h ↦ h.symm⟩
  have hapart := h.apart.forall he hf hne
  simp only [Mapping.Apart] at hapart
  omega

theorem Mapping.Valid.slot_lt {e : Mapping} (h : e.Valid) : e.slot < 512 := by
  have := h.page_lt
  rw [slot]
  omega

theorem toNat_leByte (v i : ℕ) : (leByte v i).toNat = v / 256 ^ i % 256 :=
  UInt8.toNat_ofNat'

theorem toNat_flags_readLE {n : ℕ} (m : Buffer n) (o : ℕ) :
    (Entry.ofWord (readLE m o 8)).flags.toNat =
      (byteAt m (o + 6)).toNat / 128 + 2 * (byteAt m (o + 7)).toNat := by
  have hlow := leValue_lt (fun i ↦ byteAt m (o + i)) 6
  have hword : readLE m o 8 = leValue (fun i ↦ byteAt m (o + i)) 6 +
      256 ^ 6 * (byteAt m (o + 6)).toNat + 256 ^ 7 * (byteAt m (o + 7)).toNat := rfl
  have h6 := (byteAt m (o + 6)).toNat_lt
  have h7 := (byteAt m (o + 7)).toNat_lt
  have hflags : (Entry.ofWord (readLE m o 8)).flags.toNat = readLE m o 8 / 2 ^ 55 % 2 ^ 9 :=
    BitVec.toNat_ofNat _ 9
  rw [hflags, hword]
  generalize leValue (fun i ↦ byteAt m (o + i)) 6 = v at *
  omega

section Leaf

variable {m : Buffer memorySize} {n low d : ℕ} {mapped : List Mapping} {e : Mapping}

theorem Leaf.readLE (h : Leaf m n mapped) (he : e ∈ mapped) (hvalid : e.Valid) :
    readLE m (n * 4096 + e.slot) 8 = e.word := by
  have hlt := hvalid.frame_lt
  refine leValue_eq (by rw [Mapping.word]; omega) fun k hk ↦ ?_
  rw [Nat.add_assoc]
  exact h.entry e he k hk

/-- A byte before an entry is zero: it lies in no entry, or is the last byte of one. -/
theorem Leaf.eq_zero_of_next (h : Leaf m n mapped) (hfits : Fits low mapped) {j : ℕ} (hj : j < 4096)
    (hnext : ∀ e ∈ mapped, j < e.slot ∨ e.slot + 7 ≤ j) : byteAt m (n * 4096 + j) = 0 := by
  by_cases hlast : ∃ e ∈ mapped, j = e.slot + 7
  · obtain ⟨e, he, rfl⟩ := hlast
    have hlt := (hfits.valid e he).frame_lt
    rw [h.entry e he 7 (by omega)]
    apply leByte_eq_zero
    rw [Mapping.word]
    omega
  · refine h.zero j hj fun e he ↦ ?_
    have := hnext e he
    have hne : j ≠ e.slot + 7 := fun heq ↦ hlast ⟨e, he, heq⟩
    omega

theorem Leaf.flags_ne_one (h : Leaf m n mapped) (hfits : Fits low mapped) (hd : d < 512)
    (hpage : 0 < d * 2 ^ 27 + low) (hfree : ∀ e ∈ mapped, e.slot ≠ d) :
    (Entry.ofWord (Library.Bytes.readLE m (n * 4096 + d) 8)).flags.toNat ≠ 1 := by
  rw [toNat_flags_readLE, Nat.add_assoc, Nat.add_assoc]
  by_cases hcovered : ∃ e ∈ mapped, e.slot ≤ d + 7 ∧ d + 7 < e.slot + 8
  · obtain ⟨e, he, hle, hlt⟩ := hcovered
    have hne := hfree e he
    obtain ⟨k, hk⟩ := Nat.exists_eq_add_of_le hle
    have hlast := h.entry e he k (by omega)
    rw [← hk] at hlast
    cases k with
    | zero =>
        -- the entry begins at the last byte read
        have hzero := h.eq_zero_of_next hfits (j := d + 6) (by omega) fun f hf ↦ by
          by_contra! hin
          have := hfits.eq_of_near he hf (by omega)
          subst this
          omega
        rw [hzero, UInt8.toNat_zero]
        omega
    | succ k =>
        have hbefore := h.entry e he k (by omega)
        rw [show e.slot + k = d + 6 by omega] at hbefore
        rw [hbefore, hlast, toNat_leByte, toNat_leByte, Mapping.word]
        have hframe := (hfits.valid e he).frame_lt
        have hquiet := (hfits.valid e he).quiet (6 - k)
        have hlow := hfits.low e he
        have hslot : e.page.toNat = e.slot * 2 ^ 27 + low := by
          rw [Mapping.slot]
          omega
        have hk6 : k < 6 := by omega
        interval_cases k <;> omega
  · have hlast := h.zero (d + 7) (by omega) fun f hf ↦ by
      by_contra! hin
      exact hcovered ⟨f, hf, hin.1, hin.2⟩
    have hbefore := h.eq_zero_of_next hfits (j := d + 6) (by omega) fun f hf ↦ by
      by_contra! hin
      exact hcovered ⟨f, hf, by omega, by omega⟩
    rw [hlast, hbefore]
    decide

end Leaf

/-! ## The fourth level of `vm_map` -/

def storeMapping (base : ℕ) (page frame : UInt64) (pointer : ℕ) :
    VM (ForInStep (UInt64 × Option ℤ)) := do
  if (← loadEntry base pointer).address = 0 then
    setAddress base pointer frame.toNat
    setFlags base pointer 1
    return .yield (page, none)
  else
    return .done (page, some 0)

theorem Blank.leaf {m : Buffer memorySize} {n : ℕ} (h : Blank m n) : Leaf m n [] where
  entry _ he := absurd he List.not_mem_nil
  zero j hj _ := h j hj

theorem Leaf.entryAt {s : Machine} {n low : ℕ} {mapped : List Mapping} {e : Mapping}
    (h : Leaf s.memory n mapped) (hfits : Fits low (e :: mapped)) :
    s.entryAt (n * 4096 + e.slot) = .ofWord 0 := by
  have hslot := (hfits.valid e List.mem_cons_self).slot_lt
  refine congrArg Entry.ofWord (leValue_eq (by positivity) fun k hk ↦ ?_)
  rw [Nat.add_assoc, leByte_eq_zero (by positivity)]
  refine h.zero (e.slot + k) (by omega) fun f hf ↦ ?_
  have hapart := List.rel_of_pairwise_cons hfits.apart hf
  rw [Mapping.Apart] at hapart
  omega

theorem Leaf.writeLE {m : Buffer memorySize} {n low : ℕ} {mapped : List Mapping} {e : Mapping}
    (h : Leaf m n mapped) (hfits : Fits low (e :: mapped)) (hn : n < numFrames) :
    Leaf (writeLE m (n * 4096 + e.slot) 8 e.word) n (e :: mapped) := by
  have hbound := frame_bound hn
  constructor
  · intro f hf k hk
    have hslot := (hfits.valid f hf).slot_lt
    rw [Library.Bytes.writeLE, byteAt_copyInto _ _ _ _ (by omega)]
    rcases List.mem_cons.mp hf with rfl | hold
    · rw [if_pos (by omega)]
      congr 1
      omega
    · have hapart := List.rel_of_pairwise_cons hfits.apart hold
      rw [Mapping.Apart] at hapart
      rw [if_neg (by omega)]
      exact h.entry f hold k hk
  · intro j hj hnone
    have hout := hnone e List.mem_cons_self
    rw [byteAt_writeLE_of_disjoint _ _ (by omega)]
    exact h.zero j hj fun f hf ↦ hnone f (List.mem_cons_of_mem e hf)

/-- Where an entry has no address it is one of the frame then. -/
theorem run_storeMapping_of_zero (base : ℕ) {page frame : UInt64} {s : Machine} {o w : ℕ}
    (hentry : s.entryAt o = .ofWord w) (hw : w < 2 ^ 64) (hzero : w % 2 ^ 55 = 0)
    (hoff : o + 8 ≤ memorySize) (hframe : frame.toNat < 2 ^ 52) :
    (storeMapping base page frame (base + o)).run s = .ok (.yield (page, none))
      { s with memory := writeLE s.memory o 8 (frame.toNat + 2 ^ 55) } := by
  have hload := run_loadEntry base (s := s) hoff
  have hset := run_setAddress base (s := s) (v := frame.toNat) hoff
  rw [hentry] at hload hset
  rw [Machine.store, toWord_ofWord_with_address hw hzero hframe] at hset
  have hflags := run_setFlags base (v := 1) hoff
    (s := { s with memory := writeLE s.memory o 8 (w + frame.toNat) })
  rw [Machine.entryAt, readLE_writeLE _ hoff (by omega), Machine.store,
    toWord_ofWord_with_flags hzero hframe] at hflags
  simp only [writeLE, copyInto_copyInto_self] at hset hflags
  rw [storeMapping, run_bind_of_ok hload, if_pos ((address_ofWord_eq_zero_iff w).mpr (by omega)),
    run_bind_of_ok hset, run_bind_of_ok hflags]
  rfl

theorem Leaf.run_storeMapping (base : ℕ) {n low : ℕ} {s : Machine} {mapped : List Mapping} {e : Mapping}
    (h : Leaf s.memory n mapped) (hfits : Fits low (e :: mapped)) (hn : n < numFrames) :
    ∃ t, (storeMapping base e.page e.frame (frameAddress base n + e.slot)).run s =
        .ok (.yield (e.page, none)) t ∧
      t.frames = s.frames ∧ t.tableRoot = s.tableRoot ∧ Leaf t.memory n (e :: mapped) ∧
        ∀ f, f ≠ n → Agree s.memory t.memory f := by
  have hbound := frame_bound hn
  have hvalid := hfits.valid e List.mem_cons_self
  have hslot := hvalid.slot_lt
  have hinside : n * 4096 + e.slot + 8 ≤ n * 4096 + 4096 := by omega
  have hrun := @run_storeMapping_of_zero base e.page e.frame s _ 0 (h.entryAt hfits) (by decide) rfl
    (by omega) hvalid.frame_lt
  rw [← Nat.add_assoc] at hrun
  exact ⟨_, hrun, rfl, rfl, h.writeLE hfits hn,
    fun f hf ↦ agree_copyInto s.memory (leByte e.word) hf (Nat.le_add_right _ _) hinside⟩

/-! ## Calls of `vm_map` for one page -/

section Calls

variable {base : ℕ} {page frame : UInt64} {flags : UInt16} {s t : Machine}

theorem mapBody_eq (base : ℕ) (page frame : UInt64) :
    mapBody base frame 0 (page, none) = get >>= fun s ↦
      child base (s.tableRoot + page.toNat % 2 ^ 9) >>= fun second ↦
        child base (second + page.toNat / 2 ^ 9 % 2 ^ 9) >>= fun third ↦
          child base (third + page.toNat / 2 ^ 18 % 2 ^ 9) >>= fun fourth ↦
            storeMapping base page frame (fourth + page.toNat / 2 ^ 27 % 2 ^ 9) := by
  have hpage : page + UInt64.ofNat 0 = page := by simp
  rw [mapBody]
  simp only [hpage, toNat_and_mask, toNat_shift_and_mask page (k := 9) (by decide),
    toNat_shift_and_mask page (k := 18) (by decide),
    toNat_shift_and_mask page (k := 27) (by decide)]
  rfl

theorem run_mapBody (frame : UInt64) {s₂ s₃ s₄ : Machine} {second third fourth : ℕ}
    (hfirst : (child base (s.tableRoot + page.toNat % 2 ^ 9)).run s = .ok second s₂)
    (hsecond : (child base (second + page.toNat / 2 ^ 9 % 2 ^ 9)).run s₂ = .ok third s₃)
    (hthird : (child base (third + page.toNat / 2 ^ 18 % 2 ^ 9)).run s₃ = .ok fourth s₄) :
    (mapBody base frame 0 (page, none)).run s =
      (storeMapping base page frame (fourth + page.toNat / 2 ^ 27 % 2 ^ 9)).run s₄ := by
  rw [mapBody_eq, run_bind_of_ok (EStateM.run_get s), run_bind_of_ok hfirst,
    run_bind_of_ok hsecond, run_bind_of_ok hthird]

/-- The call faults if its first index leads to an address where no table is. -/
theorem run_mapBody_of_stray (frame : UInt64) {w : ℕ}
    (hload : (loadEntry base (s.tableRoot + page.toNat % 2 ^ 9)).run s = .ok (.ofWord w) s)
    (hw : w % 2 ^ 52 ≠ 0) (hstray : Stray base (w % 2 ^ 52)) :
    ∃ f, (mapBody base frame 0 (page, none)).run s = .error f s := by
  have houtside := hstray.resolve_left hw
  have hfault := run_child_of_outside base (s := s)
    (p := w % 2 ^ 52 + page.toNat / 2 ^ 9 % 2 ^ 9) (by omega)
  refine ⟨.outOfBounds memorySize ((w % 2 ^ 52 + page.toNat / 2 ^ 9 % 2 ^ 9 : ℕ) - base), ?_⟩
  rw [mapBody_eq, run_bind_of_ok (EStateM.run_get s), run_bind_of_ok (run_child_of_load hload hw),
    run_bind_of_error hfault]

theorem mapBody_add (base : ℕ) (page frame : UInt64) (i : ℕ) :
    mapBody base frame i (page, none) = mapBody base frame 0 (page + UInt64.ofNat i, none) := by
  have hpage : page + UInt64.ofNat i + UInt64.ofNat 0 = page + UInt64.ofNat i := by simp
  rw [mapBody, mapBody]
  simp only [hpage]

variable (hpage : page ≠ 0)
include hpage

theorem run_vmMap_of_root (hroot : s.tableRoot ≠ 0)
    (hbody : (mapBody base frame 0 (page, none)).run s = .ok (.yield (page, none)) t) :
    (vmMap base page frame 1 flags).run s = .ok 1 t := by
  have hloop : (forLoop (mapBody base frame) 0 (1 : ℤ).toNat (page, none)).run s =
      .ok (page, none) t := run_forLoop_of_yield hbody
  rw [vmMap, if_neg hpage, run_bind_of_ok (EStateM.run_get s), if_neg hroot]
  exact (run_bind_of_ok hloop).trans rfl

theorem run_vmMap_of_null {r : ℕ} {s' : Machine} (hroot : s.tableRoot = 0)
    (hnode : (makeNode base).run s = .ok r s')
    (hbody : (mapBody base frame 0 (page, none)).run { s' with tableRoot := r } =
      .ok (.yield (page, none)) t) :
    (vmMap base page frame 1 flags).run s = .ok 1 t := by
  have hloop : (forLoop (mapBody base frame) 0 (1 : ℤ).toNat (page, none)).run
      { s' with tableRoot := r } = .ok (page, none) t := run_forLoop_of_yield hbody
  rw [vmMap, if_neg hpage, run_bind_of_ok (EStateM.run_get s), if_pos hroot]
  refine (run_bind_of_ok hnode).trans ?_
  exact (run_bind_of_ok hloop).trans rfl

theorem run_vmMap_of_error {f : Fault} (hroot : s.tableRoot ≠ 0)
    (hbody : (mapBody base frame 0 (page, none)).run s = .error f t) :
    (vmMap base page frame 1 flags).run s = .error f t := by
  have hloop : (forLoop (mapBody base frame) 0 (1 : ℤ).toNat (page, none)).run s =
      .error f t := run_bind_of_error hbody
  rw [vmMap, if_neg hpage, run_bind_of_ok (EStateM.run_get s), if_neg hroot]
  exact run_bind_of_error hloop

end Calls

end OsProjects.Memory
