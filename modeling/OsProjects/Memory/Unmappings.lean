import OsProjects.Memory.FailedMappings

/-!
# Unmapped pages

`vm_unmap` clears the flags of the first page's entry only and leaves the
address, by which `vm_map` tells that a page is mapped.
-/

namespace OsProjects.Memory

open Library.Program Library.Runs

def InRange (page : UInt64) (number : ℤ) (q : UInt64) : Prop :=
  page.toNat ≤ q.toNat ∧ q.toNat < page.toNat + number

def TableCall.Maps : TableCall → UInt64 → Prop
  | map page _ number _, q => InRange page number q
  | unmap .., _ => False

/-- Calls that map none of the pages lead from `t` to `u`. -/
def PageTable.Later (base : ℕ) (page : UInt64) (number : ℤ) (t u : PageTable) : Prop :=
  ∃ calls, Run (fun s call t ↦ TableStep base s call t ∧ s.Tolerates call ∧
    ∀ q, InRange page number q → ¬ call.Maps q) t calls u

/-- If all pages are mapped the call unmaps them and no other page, and they can
be mapped again then; elsewhere it returns zero and changes no translation. -/
structure UnmapsRange (base : ℕ) (s : PageTable) (page : UInt64) (number : ℤ) : Prop where
  mapped : (∀ q, InRange page number q → Found base s.machine q) →
    Returns (vmUnmap base page number) s.machine fun r m ↦ 0 < r ∧
      (∀ v : UInt64, InRange page number (v >>> 12) →
        (vmTranslate base v).run m = .ok 0xFFFFFFFFFFFFFFFF m) ∧
      (∀ v : UInt64, v.toNat < 2 ^ 48 → ¬ InRange page number (v >>> 12) →
        SameTranslation base s.machine m v) ∧
      ∀ u, PageTable.Later base page number ⟨m, TableCall.enter s.entered (.unmap page number)⟩ u →
        ∀ q, InRange page number q → ∀ frame flags,
          Returns (vmMap base q frame 1 flags) u.machine fun r _ ↦ 0 < r
  unmapped : (∃ q, InRange page number q ∧ ¬ Found base s.machine q) →
    Returns (vmUnmap base page number) s.machine fun r m ↦
      r = 0 ∧ ∀ v, SameTranslation base s.machine m v

theorem inRange_self {page : UInt64} {number : ℤ} (hnumber : 0 < number) : InRange page number page :=
  ⟨le_rfl, by omega⟩

theorem inRange_one_iff {page q : UInt64} : InRange page 1 q ↔ q = page := by
  constructor
  · rintro ⟨hle, hlt⟩
    apply UInt64.toNat_inj.mp
    omega
  · rintro rfl
    exact inRange_self Int.one_pos

/-! ## Translations of other pages -/

section Translations

variable {base : ℕ} {m m' : Machine} {v : UInt64}

theorem SameTranslation.of_ok {b : UInt64} (h : (vmTranslate base v).run m = .ok b m)
    (h' : (vmTranslate base v).run m' = .ok b m') : SameTranslation base m m' v := by
  intro a
  rw [h, h']
  constructor
  · rintro ⟨⟩
    rfl
  · rintro ⟨⟩
    rfl

theorem SameTranslation.of_missed {r : Option Fault}
    (h : (vmFind base (v >>> 12)).run m = missed r m)
    (h' : (vmFind base (v >>> 12)).run m' = missed r m') : SameTranslation base m m' v := by
  cases r with
  | none => exact .of_ok (run_vmTranslate_of_none h) (run_vmTranslate_of_none h')
  | some f =>
      intro a
      rw [run_vmTranslate_of_missed h, run_vmTranslate_of_missed h']
      constructor
      · rintro ⟨⟩
      · rintro ⟨⟩

variable {s t : PageTable} {table : List ℕ → Option ℕ} {leaf leaf' : List ℕ → ℕ → Option ℕ}

/-- With the same tables pages with the same entries have the same translations. -/
theorem PageTable.Holds.sameTranslation (hbase : Isolated base) (h : s.Holds base table leaf)
    (h' : t.Holds base table leaf') (hv : v.toNat < 2 ^ 48)
    (hsame : t.entered (v >>> 12) = s.entered (v >>> 12)) :
    SameTranslation base s.machine t.machine v := by
  have hnumber := toNat_pageNumber v
  by_cases hpage : v >>> 12 = 0
  · have hzero : ∀ m, (vmFind base (v >>> 12)).run m = missed none m := by
      intro m
      rw [hpage]
      exact run_vmFind_zero
    exact .of_missed (hzero s.machine) (hzero t.machine)
  cases he : s.entered (v >>> 12) with
  | none =>
      obtain ⟨r, hr⟩ := h.exists_missed hbase hpage (by omega)
      exact .of_missed (hr s leaf h he) (hr t leaf' h' (hsame.trans he))
  | some e =>
      rw [he] at hsame
      cases hlive : e.live with
      | true =>
          exact .of_ok (h.run_vmTranslate hbase.toWellPlaced he hlive hnumber.symm)
            (h'.run_vmTranslate hbase.toWellPlaced hsame hlive hnumber.symm)
      | false =>
          obtain ⟨n, -, -, -, hfind⟩ := h.run_vmFind hbase.toWellPlaced he
          obtain ⟨n', -, -, -, hfind'⟩ := h'.run_vmFind hbase.toWellPlaced hsame
          rw [hlive, if_neg Bool.false_ne_true] at hfind hfind'
          exact @SameTranslation.of_missed base s.machine t.machine v none hfind hfind'

end Translations

/-! ## Later mappings -/

section Later

variable {base : ℕ} {s t : PageTable} {page frame : UInt64} {number : ℤ}

theorem exists_storeMapping (base : ℕ) (page frame : UInt64) {m : Machine} {o : ℕ}
    (ho : o + 8 ≤ memorySize) (hzero : (m.entryAt o).address = 0) :
    ∃ t, (storeMapping base page frame (base + o)).run m = .ok (.yield (page, none)) t := by
  have hset := run_setAddress base (s := m) (v := frame.toNat) ho
  generalize m.store o { m.entryAt o with address := .ofNat 52 frame.toNat } = m' at hset
  refine ⟨m'.store o { m'.entryAt o with flags := .ofNat 9 1 }, ?_⟩
  rw [storeMapping, run_bind_of_ok (run_loadEntry base ho), if_pos hzero, run_bind_of_ok hset,
    run_bind_of_ok (run_setFlags base ho)]
  rfl

/-- A page whose entry has no address can be mapped to any frame. -/
theorem PageTable.Holds.exists_vmMap (hbase : WellPlaced base) {table : List ℕ → Option ℕ}
    {leaf : List ℕ → ℕ → Option ℕ} (h : s.Holds base table leaf) {e : Slot}
    (he : s.entered page = some e) (hzero : e.frame = 0) (frame : UInt64) (flags : UInt16) :
    ∃ t, (vmMap base page frame 1 flags).run s.machine = .ok 1 t := by
  obtain ⟨n, hn, htable, hread⟩ := h.exists_entry he
  have hvalid := h.valid page e he
  have hbound := frame_bound hn
  have hindex := tableIndex_lt page 3
  have haddress : (s.machine.entryAt (n * 4096 + tableIndex page 3)).address = 0 := by
    rw [Machine.entryAt, hread, ← BitVec.toNat_inj, Slot.toNat_address hvalid.frame_lt, hzero]
    rfl
  obtain ⟨t, hstore⟩ := exists_storeMapping base page frame (by omega) haddress
  rw [← Nat.add_assoc] at hstore
  exact ⟨t, run_vmMap_of_root hvalid.ne_zero (h.tableRoot_ne hbase)
    ((h.tree.run_mapBody_of_some hbase frame htable).trans hstore)⟩

/-- An entry without its flag is written by `vm_map` only. -/
theorem TableStep.entered_of_dead {call : TableCall} (hstep : TableStep base s call t) {e : Slot}
    (he : s.entered page = some e) (hdead : e.live = false) (hmaps : ¬ call.Maps page) :
    t.entered page = some e := by
  obtain ⟨r, -, hentered⟩ := hstep.returned
  rw [hentered]
  by_cases hr : 0 < r
  · rw [if_pos hr]
    cases call with
    | map first frame number flags => exact (if_neg hmaps).trans he
    | unmap first number =>
        by_cases hfirst : page = first
        · subst hfirst
          refine (Function.update_self ..).trans ?_
          rw [he, Option.map_some, ← hdead]
        · exact (Function.update_of_ne hfirst ..).trans he
  · rwa [if_neg hr]

theorem PageTable.Later.keeps (hbase : Isolated base) (h : Later base page 1 s t) (hs : s.Tabled base)
    {e : Slot} (he : s.entered page = some e) (hdead : e.live = false) :
    t.Tabled base ∧ t.entered page = some e := by
  obtain ⟨calls, hrun⟩ := h
  refine hrun.invariant (P := fun u ↦ u.Tabled base ∧ u.entered page = some e) ⟨hs, he⟩
    fun u call u' hu hstep ↦ ?_
  obtain ⟨hstep, htolerates, hmaps⟩ := hstep
  exact ⟨hu.1.tolerated_step hbase htolerates hstep,
    hstep.entered_of_dead hu.2 hdead (hmaps page (inRange_self Int.one_pos))⟩

end Later

/-! ## Calls of `vm_unmap` -/

section Unmap

variable {base : ℕ} {s : PageTable} {page : UInt64} {number : ℤ} {table : List ℕ → Option ℕ}
  {leaf : List ℕ → ℕ → Option ℕ}

theorem Slot.quiet_zero (page : UInt64) : Slot.Quiet ⟨0, false⟩ page := by
  intro k _ _ _
  have hword : Slot.word ⟨0, false⟩ = 0 := rfl
  rw [hword, Nat.zero_div]
  decide

/-- A single page that was mapped to frame 0 is unmapped as it should be. -/
theorem PageTable.Holds.unmapsRange (hbase : Isolated base) (h : s.Holds base table leaf)
    (he : s.entered page = some ⟨0, true⟩) : UnmapsRange base s page 1 := by
  have hplaced := hbase.toWellPlaced
  have hlt := (h.valid page _ he).page_lt
  obtain ⟨m, hrun, htree⟩ := h.run_vmUnmap hplaced he rfl Int.one_pos
  have hself : TableCall.enter s.entered (.unmap page 1) page = some ⟨0, false⟩ :=
    (Function.update_self ..).trans (congrArg (Option.map _) he)
  have hother : ∀ q, q ≠ page → TableCall.enter s.entered (.unmap page 1) q = s.entered q :=
    fun q hq ↦ Function.update_of_ne hq ..
  have ht := h.unmapped he (Slot.quiet_zero page) (t := ⟨m, _⟩) htree hself hother
  have htabled : PageTable.Tabled base ⟨m, TableCall.enter s.entered (.unmap page 1)⟩ :=
    .inr ⟨table, _, ht⟩
  refine ⟨fun _ ↦ .of_run hrun ⟨Int.one_pos, fun v hv ↦ ?_, fun v hv hout ↦ ?_,
    fun u hlater q hq frame flags ↦ ?_⟩, fun ⟨q, hq, hmissing⟩ ↦ ?_⟩
  · obtain ⟨n, -, -, -, hfind⟩ := ht.run_vmFind hplaced hself
    rw [← inRange_one_iff.mp hv] at hfind
    exact run_vmTranslate_of_none hfind
  · exact h.sameTranslation hbase ht hv (hother _ (mt inRange_one_iff.mpr hout))
  · obtain ⟨hu, hentered⟩ := hlater.keeps hbase htabled hself rfl
    rw [inRange_one_iff.mp hq]
    rcases hu with ⟨-, hnone⟩ | ⟨table', leaf', hu⟩
    · rw [hnone page] at hentered
      cases hentered
    · obtain ⟨t, hmap⟩ := hu.exists_vmMap hplaced hentered rfl frame flags
      exact .of_run hmap Int.one_pos
  · refine absurd ?_ hmissing
    rw [inRange_one_iff.mp hq]
    exact (PageTable.Tabled.found_iff hbase (.inr ⟨table, leaf, h⟩) hlt).mpr ⟨_, he, rfl⟩

theorem toNat_physical_mod (frame v : UInt64) :
    (frame * 4096 + v % 4096).toNat % 4096 = v.toNat % 4096 := by
  have hsize : (4096 : UInt64).toNat = 4096 := rfl
  rw [UInt64.toNat_add, UInt64.toNat_mul, UInt64.toNat_mod, hsize]
  omega

/-- A second page of the range stays mapped. -/
theorem PageTable.Holds.eq_one_of_unmapsRange (hbase : Isolated base) (h : s.Holds base table leaf)
    {e : Slot} {m : Machine} (htree : TableTree base table
      (writeLeaf leaf (tablePath page 3) (tableIndex page 3) e.frame.toNat) m)
    (hnumber : 0 < number) (hlt : page.toNat + number ≤ 2 ^ 36)
    (hfound : ∀ q, InRange page number q → Found base s.machine q)
    (hmax : ∀ v : UInt64, InRange page number (v >>> 12) →
      (vmTranslate base v).run m = .ok 0xFFFFFFFFFFFFFFFF m) : number = 1 := by
  by_contra hne
  have hadd : (page + 1).toNat = page.toNat + 1 := by
    rw [UInt64.toNat_add, UInt64.toNat_one]
    omega
  have hrange : InRange page number (page + 1) := ⟨by omega, by omega⟩
  obtain ⟨f, hf, hlive⟩ := (PageTable.Tabled.found_iff hbase (.inr ⟨table, leaf, h⟩) (by omega)).mp
    (hfound (page + 1) hrange)
  have hvalid := h.valid (page + 1) f hf
  have hframe := hvalid.frame_lt
  have hentry : writeLeaf leaf (tablePath page 3) (tableIndex page 3) e.frame.toNat
      (tablePath (page + 1) 3) (tableIndex (page + 1) 3) = some f.word := by
    rw [writeLeaf, Function.update_of_ne, h.entries (page + 1) f hf]
    intro hpath
    have hlow := mod_eq_of_tablePath hpath
    omega
  have hv : (UInt64.ofNat (4096 * (page + 1).toNat)).toNat = 4096 * (page + 1).toNat := by
    rw [UInt64.toNat_ofNat']
    omega
  have hpage := toNat_pageNumber (UInt64.ofNat (4096 * (page + 1).toNat))
  rw [hv, Nat.mul_div_cancel_left _ (by decide)] at hpage
  have htranslate := htree.run_vmTranslate hbase.toWellPlaced hvalid.ne_zero hentry hframe hlive
    (v := UInt64.ofNat (4096 * (page + 1).toNat)) (by rw [hv]; omega)
  rw [hmax _ (by rwa [UInt64.toNat_inj.mp hpage])] at htranslate
  -- the address that is no translation does not lie at the beginning of a page
  have heq := congrArg (·.toNat % 4096) (EStateM.Result.ok.inj htranslate).1
  simp only [toNat_physical_mod, hv, Nat.mul_mod_right] at heq
  exact absurd heq (by decide)

/-- A page that was mapped to another frame than 0 is refused after it has been
unmapped. -/
theorem PageTable.Holds.frame_eq_zero_of_unmapsRange (hbase : WellPlaced base)
    (h : s.Holds base table leaf) {e : Slot} (he : s.entered page = some e) {m : Machine}
    (htree : TableTree base table
      (writeLeaf leaf (tablePath page 3) (tableIndex page 3) e.frame.toNat) m)
    (hagain : Returns (vmMap base page 0 1 0) m fun r _ ↦ 0 < r) : e.frame = 0 := by
  by_contra hframe
  have hvalid := h.valid page e he
  have hentry : writeLeaf leaf (tablePath page 3) (tableIndex page 3) e.frame.toNat
      (tablePath page 3) (tableIndex page 3) = some e.frame.toNat := by
    rw [writeLeaf, Function.update_self, Function.update_self]
  have hbody : (mapBody base 0 0 (page, none)).run m = .ok (.done (page, some 0)) m := by
    refine htree.run_mapBody_of_address hbase hentry fun hzero ↦ hframe ?_
    apply UInt64.toNat_inj.mp
    rwa [Nat.mod_eq_of_lt hvalid.frame_lt] at hzero
  obtain ⟨n, -, hroot⟩ := htree.root
  have hrefused := run_vmMap_of_done hvalid.ne_zero
    (by rw [hroot]; exact (hbase.frameAddress_pos n).ne') Int.one_pos hbody 0
  exact absurd (hagain.of_eq hrefused) (lt_irrefl 0)

end Unmap

/-- In a run in which ranges to be mapped are refused at their first page, or are
single pages with a place of their own, only a single page mapped to frame 0 is
unmapped as it should be. -/
theorem unmapsRange_iff {base : ℕ} (hbase : Isolated base) {calls : List TableCall} {s : PageTable}
    (h : s.Reached base PageTable.Tolerates calls) {page : UInt64} {number : ℤ} (hpage : page ≠ 0)
    (hnumber : 0 < number) (hlt : page.toNat + number ≤ 2 ^ 36) :
    UnmapsRange base s page number ↔ number = 1 ∧ s.entered page = some ⟨0, true⟩ := by
  have hs := h.tabled_of_tolerates hbase
  constructor
  · intro hunmaps
    by_cases hlive : ∃ e, s.entered page = some e ∧ e.live = true
    · obtain ⟨e, he, hlive⟩ := hlive
      rcases hs with ⟨-, hnone⟩ | ⟨table, leaf, hs⟩
      · rw [hnone page] at he
        cases he
      obtain ⟨m, hrun, htree⟩ := hs.run_vmUnmap hbase.toWellPlaced he hlive hnumber
      have hfound : ∀ q, InRange page number q → Found base s.machine q := by
        by_contra! hmissing
        exact absurd ((hunmaps.unmapped hmissing).of_eq hrun).1 one_ne_zero
      obtain ⟨-, hmax, -, hlater⟩ := (hunmaps.mapped hfound).of_eq hrun
      have hframe := hs.frame_eq_zero_of_unmapsRange hbase.toWellPlaced he htree
        (hlater _ ⟨[], .nil⟩ page (inRange_self hnumber) 0 0)
      refine ⟨hs.eq_one_of_unmapsRange hbase htree hnumber hlt hfound hmax, he.trans ?_⟩
      rw [← hframe, ← hlive]
    · have hdead : ∀ e, s.entered page = some e → e.live = false := fun e he ↦
        Bool.eq_false_of_not_eq_true fun hlive' ↦ hlive ⟨e, he, hlive'⟩
      have hmissing : ¬ Found base s.machine page := fun hfound ↦
        hlive ((hs.found_iff hbase (by omega)).mp hfound)
      obtain ⟨r, hr⟩ := hs.exists_missed hbase hpage (by omega) hdead
      obtain ⟨f, hf⟩ := run_vmUnmap_of_missed hbase.pos hpage hnumber hr
      obtain ⟨r', m, hrun, -⟩ := hunmaps.unmapped ⟨page, inRange_self hnumber, hmissing⟩
      rw [hf] at hrun
      cases hrun
  · rintro ⟨rfl, he⟩
    rcases hs with ⟨-, hnone⟩ | ⟨table, leaf, hs⟩
    · rw [hnone page] at he
      cases he
    · exact hs.unmapsRange hbase he

theorem unmapsRange_iff_frame_zero :
    ∃ s, PageTable.Reached (2 ^ 32) PageTable.Tolerates [.map 1 0 1 0] s ∧
      UnmapsRange (2 ^ 32) s 1 1 := by
  obtain ⟨t, hrun, -⟩ := @exists_first_mapped 1 0 (by decide) (by decide) (by decide)
  have hreached := reached_first_mapped (by decide) (by decide) hrun
  exact ⟨_, hreached, (unmapsRange_iff isolated_two_pow hreached (by decide) (by decide)
    (by decide)).mpr ⟨rfl, rfl⟩⟩

/-- An unmapped page cannot be mapped again. -/
theorem unmapped_page_refused :
    ∃ t u, (vmMap (2 ^ 32) 1 5 1 0).run emptyMachine = .ok 1 t ∧
      (vmUnmap (2 ^ 32) 1 1).run t = .ok 1 u ∧ (vmMap (2 ^ 32) 1 6 1 0).run u = .ok 0 u ∧
      ¬ UnmapsRange (2 ^ 32) ⟨t, Function.update (fun _ ↦ none) 1 (some ⟨5, true⟩)⟩ 1 1 := by
  obtain ⟨t, hrun, -, table, leaf, ht⟩ := @exists_first_mapped 1 5 (by decide) (by decide) (by decide)
  let one : PageTable := ⟨t, Function.update (fun _ ↦ none) 1 (some ⟨5, true⟩)⟩
  have hself : one.entered 1 = some ⟨5, true⟩ := rfl
  obtain ⟨u, hunmap, htree⟩ := ht.run_vmUnmap wellPlaced_two_pow (e := ⟨5, true⟩) hself rfl Int.one_pos
  have hentry : writeLeaf leaf (tablePath 1 3) (tableIndex 1 3) 5 (tablePath 1 3) (tableIndex 1 3) =
      some 5 := by
    rw [writeLeaf, Function.update_self, Function.update_self]
  have hrefused : ∀ frame, (vmMap (2 ^ 32) 1 frame 1 0).run u = .ok 0 u := fun frame ↦ by
    obtain ⟨n, -, hroot⟩ := htree.root
    exact run_vmMap_of_done (by decide) (by rw [hroot]; exact (wellPlaced_two_pow.frameAddress_pos n).ne')
      Int.one_pos (htree.run_mapBody_of_address wellPlaced_two_pow hentry (by decide)) 0
  refine ⟨t, u, hrun, hunmap, hrefused 6, fun hunmaps ↦ ?_⟩
  have hfound : ∀ q, InRange 1 1 q → Found (2 ^ 32) t q := by
    intro q hq
    rw [inRange_one_iff.mp hq]
    exact (PageTable.Tabled.found_iff isolated_two_pow (.inr ⟨table, leaf, ht⟩) (by decide)).mpr
      ⟨_, hself, rfl⟩
  obtain ⟨-, -, -, hlater⟩ := (hunmaps.mapped hfound).of_eq hunmap
  have hagain := hlater _ ⟨[], .nil⟩ 1 (inRange_self Int.one_pos) 6 0
  exact absurd (hagain.of_eq (hrefused 6)) (lt_irrefl 0)

end OsProjects.Memory
