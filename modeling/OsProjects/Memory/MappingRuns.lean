import OsProjects.Memory.Mappings

/-!
# Runs of `vm_map` for single pages

As long as every page mapped agrees with the first one in its low 27 bits, all
mappings share the four tables made for it.  The first three of these tables do
not change any more, and the fourth only where the new entry is.
-/

namespace OsProjects.Memory

open Library.Program Library.Bytes Library.Runs

/-- The state in which the mappings share the tables of `c`. -/
structure Row (base : ℕ) (c : Chain) (low : ℕ) (s : Machine) (mapped : List Mapping) : Prop where
  leads : c.Leads base low s
  leaf : Leaf s.memory c.fourth mapped
  fits : Fits low mapped

theorem Chain.Leads.congr {c : Chain} {base low : ℕ} {s t : Machine} (h : c.Leads base low s)
    (hroot : t.tableRoot = s.tableRoot) (hagree : ∀ f ≠ c.fourth.val, Agree s.memory t.memory f) :
    c.Leads base low t where
  root := hroot.trans h.root
  first := h.first.congr (hagree _ (Fin.val_ne_of_ne c.first_ne))
  second := h.second.congr (hagree _ (Fin.val_ne_of_ne c.second_ne))
  third := h.third.congr (hagree _ (Fin.val_ne_of_ne c.third_ne))

theorem Mapping.Valid.ne_zero {e : Mapping} (h : e.Valid) : e.page ≠ 0 := by
  intro hzero
  have hpos := h.pos
  rw [hzero] at hpos
  exact absurd hpos (by decide)

theorem Mapping.Valid.slot_eq {e : Mapping} (h : e.Valid) :
    e.page.toNat / 2 ^ 27 % 2 ^ 9 = e.slot := by
  have := h.page_lt
  rw [Mapping.slot]
  omega

/-! ## What `vm_map` does -/

section Calls

variable {base low : ℕ} {s : Machine} {e : Mapping} {flags : UInt16} {mapped : List Mapping}
  (hbase : WellPlaced base)
include hbase

theorem Row.run_vmMap {c : Chain} (h : Row base c low s mapped) (hfits : Fits low (e :: mapped)) :
    ∃ t, (vmMap base e.page e.frame 1 flags).run s = .ok 1 t ∧
      Row base c low t (e :: mapped) := by
  have hvalid := hfits.valid e List.mem_cons_self
  have hlow := hfits.low e List.mem_cons_self
  subst hlow
  obtain ⟨hroot, hfirst, hsecond, hthird⟩ := Chain.leads_iff.mp h.leads
  obtain ⟨t, hstore, -, htable, hleaf, hagree⟩ :=
    h.leaf.run_storeMapping base hfits c.fourth.isLt
  have hchild := hfirst.run_child hbase c.first.isLt c.second.isLt (by omega)
  rw [← hroot] at hchild
  have hbody := run_mapBody e.frame hchild
    (hsecond.run_child hbase c.second.isLt c.third.isLt (by omega))
    (hthird.run_child hbase c.third.isLt c.fourth.isLt (by omega))
  rw [hvalid.slot_eq, hstore] at hbody
  have hnull : s.tableRoot ≠ 0 := by
    rw [hroot]
    exact (hbase.frameAddress_pos _).ne'
  exact ⟨t, run_vmMap_of_root hvalid.ne_zero hnull hbody, h.leads.congr htable hagree, hleaf, hfits⟩

theorem Blank.exists_chain {n₁ : ℕ} (h : Blank s.memory n₁) (hn₁ : n₁ < numFrames)
    (hmarked : s.frames.marked n₁ = true) (hroot : s.tableRoot = frameAddress base n₁)
    (hroom : s.frames.setBits + 3 ≤ numFrames) (page frame : UInt64) :
    ∃ (c : Chain) (t : Machine), c.Leads base (page.toNat % 2 ^ 27) t ∧ Blank t.memory c.fourth ∧
      t.frames.setBits = s.frames.setBits + 3 ∧
        (mapBody base frame 0 (page, none)).run s = (storeMapping base page frame
          (frameAddress base c.fourth + page.toNat / 2 ^ 27 % 2 ^ 9)).run t := by
  have ha : page.toNat % 2 ^ 9 < 512 := Nat.mod_lt _ (by decide)
  have hb : page.toNat / 2 ^ 9 % 2 ^ 9 < 512 := Nat.mod_lt _ (by decide)
  have hc : page.toNat / 2 ^ 18 % 2 ^ 9 < 512 := Nat.mod_lt _ (by decide)
  obtain ⟨n₂, s₂, hsecond, hn₂, hnew₂, hentry₁, -⟩ :=
    h.run_child hbase hn₁ hmarked ha (by omega)
  have hroom₂ := hnew₂.setBits
  have hmarked₁ := hnew₂.marked_of_marked hmarked
  obtain ⟨n₃, s₃, hthird, hn₃, hnew₃, hentry₂, hagree₃⟩ :=
    hnew₂.blank.run_child hbase hn₂ hnew₂.marked_self hb (by omega)
  have hroom₃ := hnew₃.setBits
  have hmarked₂ := hnew₃.marked_of_marked hnew₂.marked_self
  obtain ⟨n₄, s₄, hfourth, hn₄, hnew₄, hentry₃, hagree₄⟩ :=
    hnew₃.blank.run_child hbase hn₃ hnew₃.marked_self hc (by omega)
  have hroom₄ := hnew₄.setBits
  have h₁₄ := hnew₄.ne_of_marked (hnew₃.marked_of_marked hmarked₁)
  have h₂₄ := hnew₄.ne_of_marked hmarked₂
  have h₃₄ := hnew₄.ne_of_marked hnew₃.marked_self
  have h₁₂ := hnew₂.ne_of_marked hmarked
  have h₁₃ := hnew₃.ne_of_marked hmarked₁
  have h₂₃ := hnew₃.ne_of_marked hnew₂.marked_self
  rw [← hroot] at hsecond
  have hfirst₄ := (hentry₁.congr (hagree₃ n₁ h₁₂ h₁₃)).congr (hagree₄ n₁ h₁₃ h₁₄)
  have hsecond₄ := hentry₂.congr (hagree₄ n₂ h₂₃ h₂₄)
  refine ⟨⟨⟨n₁, hn₁⟩, ⟨n₂, hn₂⟩, ⟨n₃, hn₃⟩, ⟨n₄, hn₄⟩, Fin.ne_of_val_ne h₁₄,
    Fin.ne_of_val_ne h₂₄, Fin.ne_of_val_ne h₃₄⟩, s₄, ?_, hnew₄.blank, by omega,
    run_mapBody frame hsecond hthird hfourth⟩
  have hroot₄ : s₄.tableRoot = frameAddress base n₁ := by
    rw [hnew₄.tableRoot, hnew₃.tableRoot, hnew₂.tableRoot, hroot]
  exact Chain.leads_iff.mpr ⟨hroot₄, hfirst₄, hsecond₄, hentry₃⟩

theorem exists_row (flags : UInt16) (hroot : s.tableRoot = 0) (hroom : s.frames.setBits + 4 ≤ numFrames)
    (he : e.Valid) : ∃ c t, (vmMap base e.page e.frame 1 flags).run s = .ok 1 t ∧
      t.frames.setBits = s.frames.setBits + 4 ∧ Row base c (e.page.toNat % 2 ^ 27) t [e] := by
  have hfits : Fits (e.page.toNat % 2 ^ 27) [e] := by
    refine ⟨?_, ?_, List.pairwise_singleton _ e⟩
    · rintro f hf
      rwa [List.mem_singleton.mp hf]
    · rintro f hf
      rw [List.mem_singleton.mp hf]
  obtain ⟨n, s', hnode, hn, hnew, -⟩ := run_makeNode base (s := s) (by omega)
  have hbits := hnew.setBits
  obtain ⟨c, s₄, hleads, hblank, hbits₄, hbody⟩ :=
    Blank.exists_chain hbase (s := { s' with tableRoot := frameAddress base n }) hnew.blank hn
      hnew.marked_self rfl (by rw [hbits]; omega) e.page e.frame
  obtain ⟨t, hstore, hframes, htable, hleaf, hagree⟩ :=
    hblank.leaf.run_storeMapping base hfits c.fourth.isLt
  rw [he.slot_eq, hstore] at hbody
  refine ⟨c, t, run_vmMap_of_null he.ne_zero hroot hnode hbody, ?_,
    hleads.congr htable hagree, hleaf, hfits⟩
  rw [hframes, hbits₄, hbits]

end Calls

/-! ## What `vm_translate` returns -/

theorem toNat_flags_word {e : Mapping} (h : e.Valid) :
    (Entry.ofWord e.word).flags.toNat = 1 ∧ (Entry.ofWord e.word).address.toNat = e.frame.toNat := by
  have hlt := h.frame_lt
  have hflags : (Entry.ofWord e.word).flags.toNat = e.word / 2 ^ 55 % 2 ^ 9 :=
    BitVec.toNat_ofNat _ 9
  rw [hflags, toNat_address_ofWord, Mapping.word]
  omega

theorem flags_eq_one_iff (e : Entry) : e.flags = 1 ↔ e.flags.toNat = 1 :=
  BitVec.toNat_inj.symm

section Find

variable {base low : ℕ} {c : Chain} {s : Machine} {mapped : List Mapping}
  (hbase : WellPlaced base) (h : Row base c low s mapped)
include hbase h

theorem Row.run_vmFind {e : Mapping} (he : e ∈ mapped) :
    (vmFind base e.page).run s = .ok (some (frameAddress base c.fourth + e.slot)) s := by
  have hvalid := h.fits.valid e he
  have hslot := hvalid.slot_lt
  have hbound := frame_bound c.fourth.isLt
  have hleads := h.leads
  rw [← h.fits.low e he] at hleads
  have hflags : (s.entryAt (c.fourth * 4096 + e.slot)).flags = 1 := by
    rw [Machine.entryAt, h.leaf.readLE he hvalid, flags_eq_one_iff]
    exact (toNat_flags_word hvalid).1
  rw [hleads.run_vmFind hbase hvalid.ne_zero, hvalid.slot_eq, frameAddress, Nat.add_assoc,
    run_lastLevel (by omega), if_pos hflags]

theorem Row.run_vmFind_of_unmapped {page : UInt64} (hlow : page.toNat % 2 ^ 27 = low)
    (hpage : page ≠ 0) (hlt : page.toNat < 2 ^ 36) (hne : ∀ e ∈ mapped, e.page ≠ page) :
    (vmFind base page).run s = .ok none s := by
  have hbound := frame_bound c.fourth.isLt
  have hleads := h.leads
  rw [← hlow] at hleads
  have hpos : 0 < page.toNat := Nat.pos_of_ne_zero fun hzero ↦ hpage (UInt64.toNat_inj.mp hzero)
  have hindex : page.toNat / 2 ^ 27 % 2 ^ 9 = page.toNat / 2 ^ 27 := by omega
  have hfree : ∀ e ∈ mapped, e.slot ≠ page.toNat / 2 ^ 27 := by
    intro e he heq
    have hlow' := h.fits.low e he
    rw [Mapping.slot] at heq
    exact hne e he (UInt64.toNat_inj.mp (by omega))
  have hflags := h.leaf.flags_ne_one h.fits (by omega) (by omega) hfree
  rw [Ne, ← flags_eq_one_iff] at hflags
  rw [hleads.run_vmFind hbase hpage, hindex, frameAddress, Nat.add_assoc,
    run_lastLevel (by omega), Machine.entryAt, if_neg hflags]

end Find

section Translate

variable {base low : ℕ} {c : Chain} {s t : Machine} {v : UInt64}

theorem toNat_pageNumber (v : UInt64) : (v >>> 12).toNat = v.toNat / 4096 := by
  rw [UInt64.toNat_shiftRight]
  exact Nat.shiftRight_eq_div_pow v.toNat 12

/-- The frame number and the offset make up the address. -/
theorem shift_or_and (frame : UInt64) (v : UInt64) (hframe : frame.toNat < 2 ^ 52) :
    UInt64.ofNat frame.toNat <<< 12 ||| (v &&& 0xFFF) = frame * 4096 + v % 4096 := by
  have hoffset : (v &&& 0xFFF).toNat = v.toNat % 2 ^ 12 := by
    rw [UInt64.toNat_and]
    exact Nat.and_two_pow_sub_one_eq_mod v.toNat 12
  have hlt : v.toNat % 2 ^ 12 < 2 ^ 12 := Nat.mod_lt _ (by decide)
  have hshift : (frame <<< 12).toNat = frame.toNat <<< 12 := by
    rw [UInt64.toNat_shiftLeft]
    change frame.toNat <<< 12 % 2 ^ 64 = _
    rw [Nat.shiftLeft_eq]
    omega
  apply UInt64.toNat_inj.mp
  rw [UInt64.ofNat_toNat, UInt64.toNat_or, hoffset, hshift, ← Nat.shiftLeft_add_eq_or_of_lt hlt,
    Nat.shiftLeft_eq, UInt64.toNat_add, UInt64.toNat_mul, UInt64.toNat_mod]
  change _ = (frame.toNat * 4096 % 2 ^ 64 + v.toNat % 4096) % 2 ^ 64
  omega

theorem run_vmTranslate_of_none (h : (vmFind base (v >>> 12)).run s = .ok none s) :
    (vmTranslate base v).run s = .ok 0xFFFFFFFFFFFFFFFF s := by
  rw [vmTranslate, run_bind_of_ok h]
  rfl

theorem run_vmTranslate_of_found {o : ℕ} {frame : UInt64}
    (hfind : (vmFind base (v >>> 12)).run s = .ok (some (base + o)) s) (ho : o + 8 ≤ memorySize)
    (haddress : (s.entryAt o).address.toNat = frame.toNat) (hframe : frame.toNat < 2 ^ 52) :
    (vmTranslate base v).run s = .ok (frame * 4096 + v % 4096) s := by
  rw [vmTranslate, run_bind_of_ok hfind]
  refine (run_bind_of_ok (run_loadEntry base ho)).trans ?_
  rw [haddress, shift_or_and frame v hframe]
  rfl

theorem run_vmFind_zero : (vmFind base 0).run s = .ok none s := rfl

theorem run_vmFind_of_null {page : UInt64} (hbase : WellPlaced base) (hroot : s.tableRoot = 0)
    (hpage : page ≠ 0) : ∃ e, (vmFind base page).run s = .error e s := by
  have hpos := hbase.pos
  have haligned := hbase.aligned
  rw [vmFind_eq hpage, run_bind_of_ok (EStateM.run_get s), hroot]
  exact ⟨_, run_bind_of_error (run_loadEntry_of_outside base (by omega))⟩

/-- What a translation of any other page returned it still returns. -/
def Undisturbed (base : ℕ) (page : UInt64) (s t : Machine) : Prop :=
  ∀ v : UInt64, v.toNat < 2 ^ 48 → v.toNat / 4096 ≠ page.toNat → ∀ r u,
    (vmTranslate base v).run s = .ok r u → (vmTranslate base v).run t = .ok r t

variable {mapped : List Mapping} (hbase : WellPlaced base)
include hbase

theorem undisturbed_of_null (hroot : s.tableRoot = 0) (page : UInt64) :
    Undisturbed base page s t := by
  intro v hv hne r u hrun
  by_cases hzero : v >>> 12 = 0
  · have hfind : ∀ m : Machine, (vmFind base (v >>> 12)).run m = .ok none m := by
      intro m
      rw [hzero]
      rfl
    rw [run_vmTranslate_of_none (hfind s)] at hrun
    cases hrun
    exact run_vmTranslate_of_none (hfind t)
  · obtain ⟨f, hf⟩ := run_vmFind_of_null hbase hroot hzero
    rw [vmTranslate, run_bind_of_error hf] at hrun
    cases hrun

theorem Row.run_vmTranslate (h : Row base c low s mapped) {e : Mapping} (he : e ∈ mapped)
    (hv : v.toNat / 4096 = e.page.toNat) :
    (vmTranslate base v).run s = .ok (e.frame * 4096 + v % 4096) s := by
  have hvalid := h.fits.valid e he
  have hslot := hvalid.slot_lt
  have hbound := frame_bound c.fourth.isLt
  have hpage : v >>> 12 = e.page := UInt64.toNat_inj.mp ((toNat_pageNumber v).trans hv)
  have hfind := h.run_vmFind hbase he
  rw [← hpage, frameAddress, Nat.add_assoc] at hfind
  refine run_vmTranslate_of_found hfind (by omega) ?_ hvalid.frame_lt
  rw [Machine.entryAt, h.leaf.readLE he hvalid]
  exact (toNat_flags_word hvalid).2

theorem Row.undisturbed {e : Mapping} (h : Row base c low s mapped)
    (h' : Row base c low t (e :: mapped)) : Undisturbed base e.page s t := by
  intro v hv hne r u hrun
  have hnumber := toNat_pageNumber v
  have hnone : (vmFind base (v >>> 12)).run s = .ok none s →
      (vmFind base (v >>> 12)).run t = .ok none t → (vmTranslate base v).run t = .ok r t := by
    intro hs ht
    rw [run_vmTranslate_of_none hs] at hrun
    cases hrun
    exact run_vmTranslate_of_none ht
  by_cases hzero : v >>> 12 = 0
  · rw [hzero] at hnone
    exact hnone run_vmFind_zero run_vmFind_zero
  by_cases hlow : (v >>> 12).toNat % 2 ^ 27 = low
  · by_cases hmapped : ∃ f ∈ mapped, f.page = v >>> 12
    · obtain ⟨f, hf, hpage⟩ := hmapped
      rw [← hpage] at hnumber
      rw [h.run_vmTranslate hbase hf hnumber.symm] at hrun
      cases hrun
      exact h'.run_vmTranslate hbase (List.mem_cons_of_mem e hf) hnumber.symm
    · have hfree : ∀ f ∈ mapped, f.page ≠ v >>> 12 := fun f hf heq ↦ hmapped ⟨f, hf, heq⟩
      have hfree' : ∀ f ∈ e :: mapped, f.page ≠ v >>> 12 := by
        refine List.forall_mem_cons.mpr ⟨fun heq ↦ hne ?_, hfree⟩
        rw [heq, hnumber]
      exact hnone (h.run_vmFind_of_unmapped hbase hlow hzero (by omega) hfree)
        (h'.run_vmFind_of_unmapped hbase hlow hzero (by omega) hfree')
  · have hrow := h'.fits.low e List.mem_cons_self
    obtain ⟨m, hm⟩ := hbase.exists_missed hzero c low (by omega)
    have hs := hm s h.leads
    have ht := hm t h'.leads
    cases m with
    | none => exact hnone hs ht
    | some f =>
        rw [vmTranslate, run_bind_of_error hs] at hrun
        cases hrun

end Translate

/-! ## Runs -/

structure Mapped where
  machine : Machine
  mapped : List Mapping

structure MapStep (base : ℕ) (s : Mapped) (call : Mapping × UInt16) (t : Mapped) : Prop where
  returned : ∃ r, (vmMap base call.1.page call.1.frame 1 call.2).run s.machine = .ok r t.machine ∧
    0 < r
  mapped : t.mapped = call.1 :: s.mapped

/-- The page is in range; it is the first one, with frames for four tables, or
has the low 27 bits of the mapped pages and an entry apart from theirs. -/
structure Mapped.Meets (s : Mapped) (e : Mapping) : Prop where
  valid : e.Valid
  room : s.mapped = [] → s.machine.frames.setBits + 4 ≤ numFrames
  low : ∀ f ∈ s.mapped, f.page.toNat % 2 ^ 27 = e.page.toNat % 2 ^ 27
  apart : ∀ f ∈ s.mapped, e.Apart f

/-- What successful calls that satisfy `allowed` lead to from a machine without
a page table. -/
def Builds (base : ℕ) (allowed : Mapped → Mapping → Prop) (calls : List (Mapping × UInt16))
    (s : Mapped) : Prop :=
  ∃ m : Machine, m.tableRoot = 0 ∧
    Run (fun s call t ↦ MapStep base s call t ∧ allowed s call.1) ⟨m, []⟩ calls s

/-- There is no table yet, or all mappings share one table of each level. -/
def Mapped.Tabled (base : ℕ) (s : Mapped) : Prop :=
  s.mapped = [] ∧ s.machine.tableRoot = 0 ∨
    ∃ c low, s.mapped ≠ [] ∧ Row base c low s.machine s.mapped

theorem Row.fits_cons {base low : ℕ} {c : Chain} {s : Mapped} {e : Mapping}
    (h : Row base c low s.machine s.mapped) (hne : s.mapped ≠ []) (hmeets : s.Meets e) :
    Fits low (e :: s.mapped) := by
  obtain ⟨f, hf⟩ := List.exists_mem_of_ne_nil s.mapped hne
  have hlow : e.page.toNat % 2 ^ 27 = low := by rw [← hmeets.low f hf, h.fits.low f hf]
  exact ⟨List.forall_mem_cons.mpr ⟨hmeets.valid, h.fits.valid⟩,
    List.forall_mem_cons.mpr ⟨hlow, h.fits.low⟩, List.pairwise_cons.mpr ⟨hmeets.apart, h.fits.apart⟩⟩

section Runs

variable {base : ℕ} (hbase : WellPlaced base)
include hbase

theorem Mapped.Tabled.run_vmMap {s : Mapped} {e : Mapping} (hs : s.Tabled base)
    (hmeets : s.Meets e) (flags : UInt16) :
    ∃ c low t, (vmMap base e.page e.frame 1 flags).run s.machine = .ok 1 t ∧
      Row base c low t (e :: s.mapped) ∧ Undisturbed base e.page s.machine t := by
  rcases hs with ⟨hnil, hroot⟩ | ⟨c, low, hne, hrow⟩
  · obtain ⟨c, t, hrun, -, hrow⟩ := exists_row hbase flags hroot (hmeets.room hnil) hmeets.valid
    rw [← hnil] at hrow
    exact ⟨c, _, t, hrun, hrow, undisturbed_of_null hbase hroot e.page⟩
  · obtain ⟨t, hrun, hrow'⟩ := hrow.run_vmMap hbase (hrow.fits_cons hne hmeets)
    exact ⟨c, low, t, hrun, hrow', hrow.undisturbed hbase hrow'⟩

theorem Mapped.Tabled.step {s t : Mapped} {call : Mapping × UInt16} (hs : s.Tabled base)
    (hmeets : s.Meets call.1) (h : MapStep base s call t) : t.Tabled base := by
  obtain ⟨c, low, m, hrun, hrow, -⟩ := hs.run_vmMap hbase hmeets call.2
  obtain ⟨⟨r, hreturned, -⟩, hmapped⟩ := h
  rw [hrun] at hreturned
  cases hreturned
  rw [← hmapped] at hrow
  exact .inr ⟨c, low, by rw [hmapped]; exact List.cons_ne_nil _ _, hrow⟩

theorem Builds.tabled {calls : List (Mapping × UInt16)} {s : Mapped}
    (h : Builds base Mapped.Meets calls s) : s.Tabled base := by
  obtain ⟨m, hroot, hrun⟩ := h
  exact hrun.invariant (.inl ⟨rfl, hroot⟩) fun t call u ht hstep ↦ ht.step hbase hstep.2 hstep.1

end Runs

/-- The entry that each mapping is looked up at, and the entries do not
overlap. -/
def SlotsApart (base : ℕ) (m : Machine) (mapped : List Mapping) : Prop :=
  ∃ slot : Mapping → ℕ, (∀ f ∈ mapped, (vmFind base f.page).run m = .ok (some (slot f)) m) ∧
    mapped.Pairwise fun f g ↦ slot f + 8 ≤ slot g ∨ slot g + 8 ≤ slot f

theorem Row.slotsApart {base low : ℕ} {c : Chain} {s : Machine} {mapped : List Mapping}
    (h : Row base c low s mapped) (hbase : WellPlaced base) : SlotsApart base s mapped := by
  refine ⟨fun f ↦ frameAddress base c.fourth + f.slot, fun f hf ↦ h.run_vmFind hbase hf,
    h.fits.apart.imp fun {f g} hapart ↦ ?_⟩
  rw [Mapping.Apart] at hapart
  simp only
  omega

/-- In a run in which all pages mapped share their tables and have entries
apart from each other, a further such page is mapped to its frame and no other
translation changes. -/
theorem mapping_disturbs_no_page {base : ℕ} (hbase : WellPlaced base)
    {calls : List (Mapping × UInt16)} {s : Mapped} (h : Builds base Mapped.Meets calls s)
    {e : Mapping} (hmeets : s.Meets e) (flags : UInt16) :
    ∃ t, (vmMap base e.page e.frame 1 flags).run s.machine = .ok 1 t ∧
      (∀ f ∈ e :: s.mapped, ∀ v : UInt64, v.toNat / 4096 = f.page.toNat →
        (vmTranslate base v).run t = .ok (f.frame * 4096 + v % 4096) t) ∧
      Undisturbed base e.page s.machine t ∧ SlotsApart base t (e :: s.mapped) := by
  obtain ⟨c, low, t, hrun, hrow, hkept⟩ := (h.tabled hbase).run_vmMap hbase hmeets flags
  exact ⟨t, hrun, fun f hf v hv ↦ hrow.run_vmTranslate hbase hf hv, hkept,
    hrow.slotsApart hbase⟩

def emptyMachine : Machine := ⟨⟨0, 1024, fun _ ↦ 0⟩, fun _ ↦ 0, 0⟩

theorem setBits_emptyMachine : emptyMachine.frames.setBits = 0 := by
  rw [Frames.setBits, Finset.card_eq_zero, Finset.filter_eq_empty_iff]
  intro f hf
  simp [emptyMachine, Frames.marked, bitAt, byteAt]

theorem valid_page_one : Mapping.Valid ⟨1, 5⟩ := by
  refine ⟨by decide, by decide, by decide, fun k hk hle hlt ↦ ?_⟩
  change k * 2 ^ 27 < 1 at hlt
  omega

theorem mapping_disturbs_no_page_twice :
    ∃ t u, (vmMap (2 ^ 32) 1 5 1 0).run emptyMachine = .ok 1 t ∧
      (vmMap (2 ^ 32) 0x40000001 6 1 0).run t = .ok 1 u ∧
        (vmTranslate (2 ^ 32) 4103).run u = .ok 20487 u := by
  have hvalid : Mapping.Valid ⟨0x40000001, 6⟩ := by
    refine ⟨by decide, by decide, by decide, fun k hk hle hlt ↦ ?_⟩
    interval_cases k <;> decide
  have hmeets : Mapped.Meets ⟨emptyMachine, []⟩ ⟨1, 5⟩ :=
    ⟨valid_page_one, fun _ ↦ by rw [setBits_emptyMachine]; decide, fun _ hf ↦ absurd hf List.not_mem_nil,
      fun _ hf ↦ absurd hf List.not_mem_nil⟩
  have hstart : Builds (2 ^ 32) Mapped.Meets [] ⟨emptyMachine, []⟩ := ⟨emptyMachine, rfl, .nil⟩
  obtain ⟨t, hrun, htranslate, -⟩ := mapping_disturbs_no_page wellPlaced_two_pow hstart hmeets 0
  have hfirst := htranslate ⟨1, 5⟩ List.mem_cons_self 4103 (by decide)
  have hstep : MapStep (2 ^ 32) ⟨emptyMachine, []⟩ (⟨1, 5⟩, 0) ⟨t, [⟨1, 5⟩]⟩ :=
    ⟨⟨1, hrun, by decide⟩, rfl⟩
  have hnext : Builds (2 ^ 32) Mapped.Meets [(⟨1, 5⟩, 0)] ⟨t, [⟨1, 5⟩]⟩ :=
    ⟨emptyMachine, rfl, .snoc .nil ⟨hstep, hmeets⟩⟩
  have hmeets' : Mapped.Meets ⟨t, [⟨1, 5⟩]⟩ ⟨0x40000001, 6⟩ := by
    refine ⟨hvalid, fun hnil ↦ absurd hnil (List.cons_ne_nil _ _), fun f hf ↦ ?_, fun f hf ↦ ?_⟩
    · rw [List.mem_singleton.mp hf]
      decide
    · rw [List.mem_singleton.mp hf]
      exact .inr (by decide)
  obtain ⟨u, hrun', -, hkept, -⟩ := mapping_disturbs_no_page wellPlaced_two_pow hnext hmeets' 0
  exact ⟨t, u, hrun, hrun', hkept 4103 (by decide) (by decide) _ t hfirst⟩

/-! ## Neighbouring pages -/

/-- The next page of a mapped one is looked up at the address of a table
shifted by a byte, where no table is. -/
theorem Row.run_vmMap_next {base low : ℕ} {c : Chain} {s : Machine} {mapped : List Mapping}
    (hbase : WellPlaced base) (h : Row base c low s mapped) {page : UInt64}
    (hpage : page.toNat % 2 ^ 9 = low % 2 ^ 9 + 1) (frame : UInt64) (flags : UInt16) :
    ∃ f, (vmMap base page frame 1 flags).run s = .error f s := by
  have hle : base ≤ frameAddress base c.second := Nat.le_add_right _ _
  have hlt := hbase.frameAddress_lt c.second.isLt
  have hstray := (hbase.stray c.second c.second.isLt 1 le_rfl (by omega)).1
  have hload := h.leads.first.run_loadEntry base (j := low % 2 ^ 9 + 1) c.first.isLt
    (by rw [← hpage]; exact Nat.mod_lt _ (by decide))
  rw [tableWord_add (by omega), ← hpage, ← h.leads.root] at hload
  have hpos := hbase.pos
  have haligned := hbase.aligned
  generalize frameAddress base c.second = w at *
  have hmod : w / 256 ^ 1 % 2 ^ 52 = w / 256 ^ 1 := Nat.mod_eq_of_lt (by omega)
  rw [← hmod] at hstray
  obtain ⟨f, hbody⟩ := run_mapBody_of_stray frame hload (by omega) hstray
  have hroot : s.tableRoot ≠ 0 := by
    rw [h.leads.root]
    exact (hbase.frameAddress_pos _).ne'
  have hne : page ≠ 0 := by
    rintro rfl
    exact absurd hpage (Nat.succ_ne_zero _).symm
  exact ⟨f, run_vmMap_of_error hne hroot hbody⟩

/-- After page 1 has been mapped page 2 cannot be mapped, although frames are
available. -/
theorem second_page_faults :
    ∃ t, Builds (2 ^ 32) (fun _ _ ↦ True) [(⟨1, 5⟩, 0)] ⟨t, [⟨1, 5⟩]⟩ ∧
      t.frames.setBits = 4 ∧ ∃ f, (vmMap (2 ^ 32) 2 6 1 0).run t = .error f t := by
  have hroom : emptyMachine.frames.setBits + 4 ≤ numFrames := by
    rw [setBits_emptyMachine]
    decide
  obtain ⟨c, t, hrun, hbits, hrow⟩ :=
    exists_row wellPlaced_two_pow 0 rfl hroom valid_page_one
  rw [setBits_emptyMachine] at hbits
  have hstep : MapStep (2 ^ 32) ⟨emptyMachine, []⟩ (⟨1, 5⟩, 0) ⟨t, [⟨1, 5⟩]⟩ :=
    ⟨⟨1, hrun, by decide⟩, rfl⟩
  exact ⟨t, ⟨emptyMachine, rfl, .snoc .nil ⟨hstep, trivial⟩⟩, hbits,
    hrow.run_vmMap_next wellPlaced_two_pow (by decide) 6 0⟩

end OsProjects.Memory
