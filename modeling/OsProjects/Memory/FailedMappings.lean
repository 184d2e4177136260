import OsProjects.Memory.RangeMappings

/-!
# Mappings that fail

A call of `vm_map` that is refused at its first page changes nothing.  Pages
mapped before a later one is refused stay mapped, and without a free frame
`make_node` writes outside of the memory.
-/

namespace OsProjects.Memory

open Library.Program Library.Runs

/-! ## Tables that are needed -/

/-- The table that indices lead to, the last one of them first. -/
def tableAt (base : ℕ) (m : Machine) : List ℕ → Option ℕ
  | [] => if m.tableRoot = 0 then none else some m.tableRoot
  | i :: path =>
      (tableAt base m path).bind fun pointer ↦
        match (loadEntry base (pointer + i)).run m with
        | .ok e _ => if e.address = 0 then none else some e.address.toNat
        | .error .. => none

/-- The tables on the way to the pages' entries that are not there. -/
def missingTables (base : ℕ) (m : Machine) (page : UInt64) (number : ℤ) : Finset (List ℕ) :=
  ((Finset.range number.toNat ×ˢ Finset.range 4).image fun (k, level) ↦
    tablePath (page + UInt64.ofNat k) level).filter fun path ↦ tableAt base m path = none

/-- There are fewer free frames than tables to be made. -/
def Starved (base : ℕ) (m : Machine) (page : UInt64) (number : ℤ) : Prop :=
  numFrames < m.frames.setBits + (missingTables base m page number).card

/-- `vm_translate` returns the same, if it returns. -/
def SameTranslation (base : ℕ) (m t : Machine) (v : UInt64) : Prop :=
  ∀ a, (vmTranslate base v).run m = .ok a m ↔ (vmTranslate base v).run t = .ok a t

/-- The call returns; it has changed no translation if it returns zero, and its
number is not positive without frames for its tables. -/
def FailsCleanly (base : ℕ) (m : Machine) (page frame : UInt64) (number : ℤ) (flags : UInt16) : Prop :=
  Returns (vmMap base page frame number flags) m fun r t ↦
    (r = 0 → ∀ v, SameTranslation base m t v) ∧ (Starved base m page number → ¬ 0 < r)

/-- The first page of the range has an entry with an address. -/
def PageTable.Refuses (s : PageTable) : TableCall → Prop
  | .map page _ number _ => 0 < number ∧ ¬ s.Free page
  | .unmap .. => False

def PageTable.Tolerates (s : PageTable) (call : TableCall) : Prop := s.Allows call ∨ s.Refuses call

/-- The call has no page, or is refused at once, or there are frames and places for
the tables that it makes. -/
inductive PageTable.Suits (s : PageTable) : UInt64 → ℤ → Prop
  | zero (number : ℤ) : s.Suits 0 number
  | empty {page : UInt64} {number : ℤ} (hnumber : number ≤ 0)
      (hroom : s.machine.tableRoot = 0 → s.machine.frames.setBits < numFrames) : s.Suits page number
  | refused {page q : UInt64} {e : Slot} {number : ℤ} (hnumber : 0 < number)
      (he : s.entered q = some e) (hframe : e.frame ≠ 0)
      (hpath : tablePath q 3 = tablePath page 3) (hindex : tableIndex q 3 = tableIndex page 3) :
      s.Suits page number
  | single {page : UInt64} (hway : s.HasWay page) : s.Suits page 1

theorem run_vmTranslate_of_missed {base : ℕ} {m : Machine} {v : UInt64} {r : Option Fault}
    (h : (vmFind base (v >>> 12)).run m = missed r m) :
    (vmTranslate base v).run m =
      match r with
      | none => .ok 0xFFFFFFFFFFFFFFFF m
      | some f => .error f m := by
  cases r with
  | none => exact run_vmTranslate_of_none h
  | some f => exact run_bind_of_error h

section Tables

variable {base : ℕ} {m : Machine} {page frame : UInt64} {number : ℤ}

theorem missingTables_of_nonpos (base : ℕ) (m : Machine) (page : UInt64) (hnumber : number ≤ 0) :
    missingTables base m page number = ∅ := by
  rw [missingTables, Int.toNat_eq_zero.mpr hnumber, Finset.range_zero, Finset.empty_product]
  rfl

/-- For one page only the tables below those found are missing. -/
theorem card_missingTables_le {l : ℕ}
    (hthere : ∀ level < l, tableAt base m (tablePath page level) ≠ none) :
    (missingTables base m page 1).card ≤ 4 - l := by
  have hsub : missingTables base m page 1 ⊆ (Finset.Ico l 4).image (tablePath page) := by
    intro path hpath
    obtain ⟨hpath, hnone⟩ := Finset.mem_filter.mp hpath
    obtain ⟨⟨k, level⟩, hmem, rfl⟩ := Finset.mem_image.mp hpath
    obtain ⟨hk, hlevel⟩ := Finset.mem_product.mp hmem
    rw [Finset.mem_range] at hk hlevel
    obtain rfl : k = 0 := Nat.lt_one_iff.mp hk
    have hpage : page + UInt64.ofNat 0 = page := by simp
    simp only [hpage] at hnone ⊢
    refine Finset.mem_image_of_mem _ (Finset.mem_Ico.mpr ⟨?_, hlevel⟩)
    by_contra! hlt
    exact hthere level hlt hnone
  calc (missingTables base m page 1).card
      ≤ ((Finset.Ico l 4).image (tablePath page)).card := Finset.card_le_card hsub
    _ ≤ (Finset.Ico l 4).card := Finset.card_image_le
    _ = 4 - l := Nat.card_Ico l 4

theorem TableTree.tableAt_eq (hbase : WellPlaced base) {table : List ℕ → Option ℕ}
    {leaf : List ℕ → ℕ → Option ℕ} (h : TableTree base table leaf m) {path : List ℕ} {n : ℕ}
    (hlength : path.length ≤ 3) (hn : table path = some n) :
    tableAt base m path = some (frameAddress base n) := by
  induction path generalizing n with
  | nil =>
      have hroot := h.tableRoot_eq hn
      have hpos := hbase.frameAddress_pos n
      rw [tableAt, hroot, if_neg (by omega)]
  | cons i path ih =>
      rw [List.length_cons] at hlength
      obtain ⟨n', hn'⟩ := Option.ne_none_iff_exists'.mp
        (h.closed i path (by rw [hn]; exact Option.some_ne_none n))
      have hmod := hbase.frameAddress_mod (h.frame _ n hn).1
      have hpos := hbase.frameAddress_pos n
      rw [tableAt, ih (by omega) hn', Option.bind_some, h.run_loadEntry (by omega) hn' hn]
      simp only
      rw [if_neg (by rw [address_ofWord_eq_zero_iff]; omega), toNat_address_ofWord, hmod]

/-- Where all tables are there `l` is four, elsewhere the level of the first that
is not. -/
theorem exists_first_missing (table : List ℕ → Option ℕ) (page : UInt64) :
    ∃ l ≤ 4, (∀ level < l, table (tablePath page level) ≠ none) ∧
      (l < 4 → table (tablePath page l) = none) := by
  have hex : ∃ l, l = 4 ∨ table (tablePath page l) = none := ⟨4, .inl rfl⟩
  refine ⟨Nat.find hex, Nat.find_le (.inl rfl), fun level hlevel hnone ↦ ?_, fun hlt ↦ ?_⟩
  · exact Nat.find_min hex hlevel (.inr hnone)
  · exact (Nat.find_spec hex).resolve_left hlt.ne

end Tables

section Places

variable {base : ℕ} {s : PageTable} {page frame : UInt64}

/-- A page that has its places has frames for its tables. -/
theorem PageTable.Tabled.not_starved (hbase : WellPlaced base) (h : s.Tabled base)
    (hway : s.HasWay page) : ¬ Starved base s.machine page 1 := by
  rw [Starved, not_lt]
  rcases h with ⟨hroot, -⟩ | ⟨table, leaf, h⟩
  · have hcard := @card_missingTables_le base s.machine page 0 fun level hlevel ↦ by omega
    have hroom := hway.root hroot
    omega
  · obtain ⟨l, hl, hthere, hmissing⟩ := exists_first_missing table page
    have hcard := @card_missingTables_le base s.machine page l fun level hlevel ↦ by
      obtain ⟨n, hn⟩ := Option.ne_none_iff_exists'.mp (hthere level hlevel)
      rw [h.tree.tableAt_eq hbase (by rw [length_tablePath]; omega) hn]
      exact Option.some_ne_none _
    have hbits := s.machine.frames.setBits_le
    by_cases hfour : l = 4
    · omega
    have hnone := hmissing (by omega)
    have hpos : l ≠ 0 := by
      rintro rfl
      obtain ⟨n, hn, -⟩ := h.tree.root
      change table [] = none at hnone
      rw [hn] at hnone
      cases hnone
    have hroom := hway.room l (by omega) (by omega) fun q hq hpath ↦ by
      refine h.table_ne_none hq l (by omega) ?_
      rwa [hpath]
    omega

/-! ## Runs -/

theorem PageTable.Tabled.tolerated_step (hbase : Isolated base) (h : s.Tabled base) {call : TableCall}
    {t : PageTable} (htolerates : s.Tolerates call) (hstep : TableStep base s call t) :
    t.Tabled base := by
  cases call with
  | map page frame number flags =>
      rcases htolerates with hallows | ⟨hnumber, hfree⟩
      · exact h.map_step hbase.toWellPlaced hallows hstep
      · rwa [hstep.eq_self (h.run_vmMap_of_not_free hbase.toWellPlaced hfree hnumber flags)]
  | unmap page number => exact h.unmap_step hbase (htolerates.resolve_right id) hstep

theorem PageTable.Reached.tabled_of_tolerates (hbase : Isolated base) {calls : List TableCall}
    (h : s.Reached base PageTable.Tolerates calls) : s.Tabled base := by
  obtain ⟨m, hroot, hrun⟩ := h
  exact hrun.invariant (.inl ⟨hroot, fun _ ↦ rfl⟩) fun t call u ht hstep ↦
    ht.tolerated_step hbase hstep.2 hstep.1

/-! ## Calls -/

variable {number : ℤ}

theorem FailsCleanly.of_eq_self {m : Machine} {flags : UInt16}
    (hrun : (vmMap base page frame number flags).run m = .ok 0 m) :
    FailsCleanly base m page frame number flags :=
  .of_run hrun ⟨fun _ _ _ ↦ Iff.rfl, fun _ ↦ lt_irrefl 0⟩

theorem PageTable.Tabled.failsCleanly_of_nonpos (hbase : WellPlaced base) (h : s.Tabled base)
    (hpage : page ≠ 0) (hnumber : number ≤ 0)
    (hroom : s.machine.tableRoot = 0 → s.machine.frames.setBits < numFrames) (flags : UInt16) :
    FailsCleanly base s.machine page frame number flags := by
  obtain ⟨m, -, -, -, -, -, hvmMap⟩ := h.exists_root hbase hpage hroom
  have hloop : (forLoop (mapBody base frame) 0 number.toNat (page, none)).run m =
      .ok (page, none) m := by
    rw [Int.toNat_eq_zero.mpr hnumber]
    rfl
  refine .of_run ((hvmMap frame number flags).trans (run_mapPages hloop))
    ⟨fun hone ↦ absurd hone one_ne_zero, fun hstarved ↦ ?_⟩
  rw [Starved, missingTables_of_nonpos base _ page hnumber, Finset.card_empty, Nat.add_zero] at hstarved
  exact absurd hstarved (not_lt.mpr s.machine.frames.setBits_le)

/-- An entry without an address is written, another one is left as it is. -/
theorem run_storeMapping_cases (base : ℕ) (page frame : UInt64) (s : Machine) {o : ℕ}
    (h : o + 8 ≤ memorySize) :
    (∃ t, (storeMapping base page frame (base + o)).run s = .ok (.yield (page, none)) t) ∨
      (s.entryAt o).address ≠ 0 ∧
        (storeMapping base page frame (base + o)).run s = .ok (.done (page, some 0)) s := by
  have hload := run_loadEntry base (s := s) h
  by_cases haddress : (s.entryAt o).address = 0
  · left
    rw [storeMapping, run_bind_of_ok hload, if_pos haddress, run_bind_of_ok (run_setAddress base h),
      run_bind_of_ok (run_setFlags base h)]
    exact ⟨_, rfl⟩
  · exact .inr ⟨haddress, run_storeMapping_of_ne hload haddress⟩

/-- One page is mapped, or its entry had an address and nothing has changed. -/
theorem PageTable.Holds.run_vmMap_cases {m : Machine} {table : List ℕ → Option ℕ}
    {leaf : List ℕ → ℕ → Option ℕ} (hbase : WellPlaced base)
    (h : PageTable.Holds base ⟨m, s.entered⟩ table leaf) (hway : PageTable.HasWay ⟨m, s.entered⟩ page)
    (frame : UInt64) :
    (∃ t, (mapPages base page frame 1).run m = .ok 1 t) ∨
      table (tablePath page 3) ≠ none ∧ (mapPages base page frame 1).run m = .ok 0 m := by
  have hindex := tableIndex_lt page 3
  have hyield {t : Machine}
      (hrun : (mapBody base frame 0 (page, none)).run m = .ok (.yield (page, none)) t) :
      (mapPages base page frame 1).run m = .ok 1 t := by
    have hloop : (forLoop (mapBody base frame) 0 (1 : ℤ).toNat (page, none)).run m =
      .ok (page, none) t := run_forLoop_of_yield hrun
    exact run_mapPages hloop
  cases hn : table (tablePath page 3) with
  | some n =>
      have hbound := frame_bound (h.tree.frame _ n hn).1
      have hrun := h.tree.run_mapBody_of_some hbase frame hn
      rw [frameAddress, Nat.add_assoc] at hrun
      rcases run_storeMapping_cases base page frame m (o := n * 4096 + tableIndex page 3) (by omega) with
        ⟨t, ht⟩ | ⟨-, hsame⟩
      · exact .inl ⟨t, hyield (hrun.trans ht)⟩
      · have hloop : (forLoop (mapBody base frame) 0 (1 : ℤ).toNat (page, none)).run m =
          .ok (page, some 0) m := run_forLoop_of_done (hrun.trans hsame)
        exact .inr ⟨Option.some_ne_none n, run_mapPages hloop⟩
  | none =>
      -- the table is new, so that the entry has no address
      obtain ⟨n, hdescent⟩ := h.descent hway
      obtain ⟨table', n', t, hrun, htree, hn', -⟩ := hdescent.exists_run_mapBody hbase frame
      have hbound := frame_bound (htree.frame _ n' hn').1
      have hblank := h.tree.leaf_of_none hn
      have hzero : (t.entryAt (n' * 4096 + tableIndex page 3)).address = 0 := by
        have hsparse := htree.last _ n' (length_tablePath page 3) hn'
        rw [hblank] at hsparse
        have hread := hsparse.readLE_of_gap hindex (fun j hj ↦ absurd rfl hj) (.inl rfl)
        rw [Machine.entryAt, hread]
        rfl
      rw [frameAddress, Nat.add_assoc] at hrun
      rcases run_storeMapping_cases base page frame t (o := n' * 4096 + tableIndex page 3) (by omega) with
        ⟨u, hu⟩ | ⟨hne, -⟩
      · exact .inl ⟨u, hyield (hrun.trans hu)⟩
      · exact absurd hzero hne

theorem PageTable.Tabled.failsCleanly_of_way (hbase : WellPlaced base) (h : s.Tabled base)
    (hpage : page ≠ 0) (hway : s.HasWay page) (flags : UInt16) :
    FailsCleanly base s.machine page frame 1 flags := by
  have hstarved := h.not_starved hbase hway
  obtain ⟨m, table, leaf, hm, hsame, hbits, hvmMap⟩ :=
    h.exists_root hbase hpage fun hroot ↦ by have := hway.root hroot; omega
  have hrun := hvmMap frame 1 flags
  rcases hm.run_vmMap_cases hbase (hway.of_root hbase hm hsame hbits) frame with
    ⟨t, hone⟩ | ⟨htable, hzero⟩
  · exact .of_run (hrun.trans hone) ⟨fun hr ↦ absurd hr one_ne_zero, fun hs ↦ absurd hs hstarved⟩
  · have hroot : s.machine.tableRoot ≠ 0 := by
      intro hroot
      obtain ⟨-, hnone⟩ := h.resolve_right fun ⟨_, _, hs⟩ ↦ hs.tableRoot_ne hbase hroot
      obtain ⟨q, hq, -⟩ := hm.tables _ (List.cons_ne_nil _ _) htable
      exact hq (hnone q)
    rw [hsame hroot] at hzero hrun
    exact .of_eq_self (hrun.trans hzero)

/-! ## Calls that fault -/

theorem FailsCleanly.not_of_error {m t : Machine} {flags : UInt16} {f : Fault}
    (hrun : (vmMap base page frame number flags).run m = .error f t) :
    ¬ FailsCleanly base m page frame number flags := by
  rintro ⟨r, t', hrun', -⟩
  rw [hrun] at hrun'
  cases hrun'

/-- Without a free frame the root is taken to be the frame before the first one. -/
theorem not_failsCleanly_of_full {m : Machine} (hpage : page ≠ 0) (hroot : m.tableRoot = 0)
    (hfull : numFrames ≤ m.frames.setBits) (flags : UInt16) :
    ¬ FailsCleanly base m page frame number flags := by
  cases hnode : (makeNode base).run m with
  | ok r t => exact absurd (setBits_lt_of_makeNode hnode) (not_lt.mpr hfull)
  | error f t =>
      refine FailsCleanly.not_of_error (f := f) (t := t) ?_
      rw [vmMap, if_neg hpage, run_bind_of_ok (EStateM.run_get m), if_pos hroot]
      exact run_bind_of_error hnode

theorem PageTable.Tabled.not_failsCleanly_of_two_le (hbase : WellPlaced base) (h : s.Tabled base)
    (hpage : page ≠ 0) (hlt : page.toNat < 2 ^ 36) (hfree : s.Free page)
    (hplaces : s.Places page frame) (hlast : page.toNat % 2 ^ 9 + 1 < 2 ^ 9) (hnumber : 2 ≤ number)
    (flags : UInt16) : ¬ FailsCleanly base s.machine page frame number flags := by
  obtain ⟨f, t, hrun⟩ := h.run_vmMap_of_two_le hbase hpage hlt hfree hplaces hlast hnumber flags
  exact FailsCleanly.not_of_error hrun

end Places

/-- A call that a run may contain suits, unless it makes a root and there is no
frame for it. -/
theorem PageTable.Tolerates.suits {s : PageTable} {page frame : UInt64} {number : ℤ} {flags : UInt16}
    (h : s.Tolerates (.map page frame number flags))
    (hroom : number ≤ 0 → s.machine.tableRoot = 0 → s.machine.frames.setBits < numFrames) :
    s.Suits page number := by
  have hrefused (hnumber : 0 < number) (hfree : ¬ s.Free page) : s.Suits page number := by
    obtain ⟨e, he, hframe⟩ := PageTable.exists_of_not_free hfree
    exact .refused hnumber he hframe rfl rfl
  rcases h with ⟨-, hnumber, hplaces⟩ | ⟨hnumber, hfree⟩
  · by_cases hpage : page = 0
    · rw [hpage]
      exact .zero number
    by_cases hnonpos : number ≤ 0
    · exact .empty hnonpos (hroom hnonpos)
    obtain rfl : number = 1 := by omega
    by_cases hfree : s.Free page
    · exact .single (hplaces rfl hpage hfree).toHasWay
    · exact hrefused Int.one_pos hfree
  · exact hrefused hnumber hfree

/-- In a run in which every range to be mapped is refused at its first page, or is a
single page with a place of its own, a further call that has no page, or is refused
at once, or maps one page and has frames and places for its tables, fails without a
trace or succeeds. -/
theorem tolerated_vmMap_failsCleanly {base : ℕ} (hbase : Isolated base) {calls : List TableCall}
    {s : PageTable} (h : s.Reached base PageTable.Tolerates calls) {page frame : UInt64} {number : ℤ}
    {flags : UInt16} (hsuits : s.Suits page number) :
    FailsCleanly base s.machine page frame number flags := by
  have hs := h.tabled_of_tolerates hbase
  have hplaced := hbase.toWellPlaced
  by_cases hpage : page = 0
  · rw [hpage]
    exact .of_eq_self (run_vmMap_zero base frame number flags s.machine)
  cases hsuits with
  | zero => exact absurd rfl hpage
  | empty hnumber hroom => exact hs.failsCleanly_of_nonpos hplaced hpage hnumber hroom flags
  | refused hnumber he hframe hpath hindex =>
      exact .of_eq_self (hs.run_vmMap_of_entered hplaced he hframe hpath hindex hnumber flags)
  | single hway => exact hs.failsCleanly_of_way hplaced hpage hway flags

theorem reached_first_mapped {page frame : UInt64} {t : Machine} (hlt : page.toNat < 2 ^ 27)
    (hframe : frame.toNat < 2 ^ 52)
    (hrun : (vmMap (2 ^ 32) page frame 1 0).run emptyMachine = .ok 1 t) :
    PageTable.Reached (2 ^ 32) PageTable.Tolerates [.map page frame 1 0]
      ⟨t, Function.update (fun _ ↦ none) page (some ⟨frame, true⟩)⟩ := by
  refine ⟨emptyMachine, rfl, .snoc .nil ⟨step_first_mapped hrun, .inl ⟨?_, le_rfl, fun _ _ _ ↦ ?_⟩⟩⟩
  · omega
  · exact places_emptyMachine hlt hframe

theorem tolerated_vmMap_failsCleanly_refused :
    ∃ t, (vmMap (2 ^ 32) 1 5 1 0).run emptyMachine = .ok 1 t ∧ FailsCleanly (2 ^ 32) t 1 6 2 0 := by
  obtain ⟨t, hrun, -⟩ := @exists_first_mapped 1 5 (by decide) (by decide) (by decide)
  have hreached := reached_first_mapped (by decide) (by decide) hrun
  exact ⟨t, hrun, tolerated_vmMap_failsCleanly isolated_two_pow hreached
    (.refused (e := ⟨5, true⟩) (by decide) rfl (by decide) rfl rfl)⟩

/-- The first page stays mapped though the second one has been refused. -/
theorem first_page_stays_mapped :
    ∃ t u, (vmMap (2 ^ 32) 512 5 1 0).run emptyMachine = .ok 1 t ∧
      (vmMap (2 ^ 32) 511 6 2 0).run t = .ok 0 u ∧
      (vmTranslate (2 ^ 32) 0x1FF000).run u = .ok 0x6000 u ∧
      ¬ FailsCleanly (2 ^ 32) t 511 6 2 0 := by
  obtain ⟨t, hrun, hroom, table, leaf, ht⟩ :=
    @exists_first_mapped 512 5 (by decide) (by decide) (by decide)
  let one : PageTable := ⟨t, Function.update (fun _ ↦ none) 512 (some ⟨5, true⟩)⟩
  have hone : one.Tabled (2 ^ 32) := .inr ⟨table, leaf, ht⟩
  have hother : ∀ q, q ≠ 512 → one.entered q = none := fun q hq ↦
    @Function.update_of_ne _ (fun _ ↦ Option Slot) _ q 512 hq (some ⟨5, true⟩) fun _ ↦ none
  have hplaces : one.Places 511 6 := places_second hother (.inl (by decide))
    (ht.tableRoot_ne wellPlaced_two_pow) hroom (by decide) (by decide)
  have hnone := hother 511 (by decide)
  have hfree : one.Free 511 := by
    intro e he
    rw [hnone] at he
    cases he
  obtain ⟨m, u, hbody, hvmMap, -, hholds⟩ := hone.run_vmMap wellPlaced_two_pow (by decide) (by decide)
    hfree hplaces
  let two : PageTable := ⟨u, Function.update one.entered 511 (some ⟨6, true⟩)⟩
  have hself : two.entered 511 = some ⟨6, true⟩ :=
    @Function.update_self _ (fun _ ↦ Option Slot) _ 511 (some ⟨6, true⟩) one.entered
  have hsecond : two.entered 512 = some ⟨5, true⟩ := rfl
  obtain ⟨table', leaf', hu⟩ := hholds two rfl hself fun q hq ↦
    @Function.update_of_ne _ (fun _ ↦ Option Slot) _ q 511 hq (some ⟨6, true⟩) one.entered
  have hrefused : (mapBody (2 ^ 32) 6 0 (512, none)).run two.machine =
      .ok (.done (512, some 0)) two.machine :=
    hu.run_mapBody_of_entered wellPlaced_two_pow hsecond (by decide) rfl rfl
  have hnext : (mapBody (2 ^ 32) 6 1 (511, none)).run u = .ok (.done (512, some 0)) u := by
    rw [mapBody_add]
    exact hrefused
  have hloop : (forLoop (mapBody (2 ^ 32) 6) 0 (2 : ℤ).toNat (511, none)).run m = .ok (512, some 0) u :=
    (run_forLoop_of_yield hbody).trans (run_forLoop_of_done hnext)
  have hzero := (hvmMap 2 0).trans (run_mapPages hloop)
  have htranslate : (vmTranslate (2 ^ 32) 0x1FF000).run u = .ok 0x6000 u :=
    hu.run_vmTranslate wellPlaced_two_pow hself rfl (by decide)
  refine ⟨t, u, hrun, hzero, htranslate, fun hfails ↦ ?_⟩
  have hbefore := ((hfails.of_eq hzero).1 rfl 0x1FF000 0x6000).mpr htranslate
  have hpage : (0x1FF000 : UInt64) >>> 12 = 511 := by decide
  obtain ⟨r, hr⟩ := @PageTable.Tabled.exists_missed _ one 511 isolated_two_pow hone (by decide)
    (by decide) fun e he ↦ by
      rw [hnone] at he
      cases he
  rw [← hpage] at hr
  rw [run_vmTranslate_of_missed hr] at hbefore
  cases r <;> cases hbefore

end OsProjects.Memory
