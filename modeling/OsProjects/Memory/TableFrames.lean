import OsProjects.Memory.FailedMappings
import OsProjects.Memory.PageRelease

/-!
# The frames of the tables

Each table takes one frame, which is never given back.  How many frames the tables have
taken is therefore determined by the pages that have been entered, whether they are
still mapped or not.
-/

namespace OsProjects.Memory

open Library.Program Library.Runs

/-- The ways from the root on to the entries that have been written. -/
def PageTable.paths (s : PageTable) : Set (List ℕ) :=
  insert [] {path | ∃ q, s.entered q ≠ none ∧ ∃ level ≤ 3, path = tablePath q level}

/-- All frames in use but `k` are tables, of which there is one at the end of each path. -/
structure PageTable.Accounts (k : ℕ) (s : PageTable) : Prop where
  finite : s.paths.Finite
  setBits : s.machine.frames.setBits =
    k + if s.machine.tableRoot = 0 then 0 else s.paths.ncard

section Step

variable {base k : ℕ} {s t : PageTable} {table : List ℕ → Option ℕ}
  {leaf : List ℕ → ℕ → Option ℕ} {page frame : UInt64} {number : ℤ} {flags : UInt16}

theorem PageTable.paths_of_none (h : ∀ q, s.entered q = none) : s.paths = {[]} := by
  refine Set.eq_singleton_iff_unique_mem.mpr ⟨Set.mem_insert _ _, ?_⟩
  rintro path (rfl | ⟨q, hq, -⟩)
  · rfl
  · exact absurd (h q) hq

/-- The tables are at the ends of the paths. -/
theorem PageTable.Holds.tablesOf_eq (h : s.Holds base table leaf) : tablesOf table = s.paths := by
  ext path
  constructor
  · intro hpath
    by_cases hroot : path = []
    · exact .inl hroot
    · exact .inr (h.tables path hroot hpath)
  · rintro (rfl | ⟨q, hq, level, hlevel, rfl⟩)
    · obtain ⟨n, hn, -⟩ := h.tree.root
      change table [] ≠ none
      rw [hn]
      exact Option.some_ne_none n
    · exact h.table_ne_none hq level hlevel

theorem PageTable.Holds.accounts_iff (hbase : WellPlaced base) (h : s.Holds base table leaf) :
    s.Accounts k ↔ Accounted k table s.machine := by
  have hroot := h.tableRoot_ne hbase
  constructor
  · rintro ⟨hfinite, hbits⟩
    rw [if_neg hroot] at hbits
    exact ⟨h.tablesOf_eq ▸ hfinite, by rw [h.tablesOf_eq, hbits]⟩
  · rintro ⟨hfinite, hbits⟩
    refine ⟨h.tablesOf_eq ▸ hfinite, ?_⟩
    rw [if_neg hroot, hbits, h.tablesOf_eq]

/-- A new root is the only table. -/
theorem PageTable.Accounts.root (hbase : WellPlaced base) (hk : s.Accounts k) (h : s.Tabled base)
    (hpage : page ≠ 0) {r : ℤ} {m : Machine}
    (hrun : (vmMap base page frame 0 flags).run s.machine = .ok r m) :
    PageTable.Accounts k ⟨m, s.entered⟩ := by
  rw [vmMap, if_neg hpage, run_bind_of_ok (EStateM.run_get s.machine)] at hrun
  by_cases hroot : s.machine.tableRoot = 0
  · rw [if_pos hroot] at hrun
    have hnone : ∀ q, s.entered q = none := by
      rcases h with ⟨-, hnone⟩ | ⟨table, leaf, h⟩
      · exact hnone
      · exact absurd hroot (h.tableRoot_ne hbase)
    obtain ⟨node, m', hnode, hrest⟩ := run_bind_eq_ok_iff.mp hrun
    obtain ⟨n, m'', hnode', hn, hnew, -⟩ := run_makeNode base (setBits_lt_of_makeNode hnode)
    rw [hnode] at hnode'
    cases hnode'
    cases hrest
    have hnonzero := (hbase.frameAddress_pos n).ne'
    have hbits := hk.setBits
    rw [if_pos hroot] at hbits
    refine ⟨hk.finite, ?_⟩
    have hpaths : PageTable.paths ⟨{ m' with tableRoot := frameAddress base n }, s.entered⟩ = {[]} :=
      PageTable.paths_of_none hnone
    rw [if_neg hnonzero, hpaths, Set.ncard_singleton]
    exact hnew.setBits.trans (by rw [hbits])
  · rw [if_neg hroot] at hrun
    cases hrun
    exact hk

/-- The tables that are made on the way to a new entry are counted once. -/
theorem PageTable.Accounts.enter (hbase : WellPlaced base) (hk : s.Accounts k)
    (h : s.Holds base table leaf) (hpage : page ≠ 0) (hlt : page.toNat < 2 ^ 36)
    (hfree : s.Free page) (hplaces : s.Places page frame) {next : ForInStep (UInt64 × Option ℤ)}
    (hrun : (mapBody base frame 0 (page, none)).run s.machine = .ok next t.machine)
    (hself : t.entered page = some ⟨frame, true⟩)
    (hother : ∀ q, q ≠ page → t.entered q = s.entered q) : t.Accounts k := by
  obtain ⟨n, hdescent⟩ := h.descent hplaces.toHasWay
  obtain ⟨table', m, hrun', htree, -, hnew, hcount⟩ := hdescent.run_mapBody hbase
    (h.leafGap hplaces) (fun w hw ↦ by
      obtain ⟨e, he, rfl⟩ := h.entered_of_leaf hlt hw
      exact e.word_mod (hfree e he)) hplaces.frame_lt
  rw [hrun] at hrun'
  cases hrun'
  have ht : t.Holds base table'
      (writeLeaf leaf (tablePath page 3) (tableIndex page 3) (Slot.word ⟨frame, true⟩)) :=
    h.enter ⟨hpage, hlt, hplaces.frame_lt, hplaces.quiet⟩ hself hother htree hnew
  exact (ht.accounts_iff hbase).mpr (hcount k ((h.accounts_iff hbase).mp hk))

theorem PageTable.Accounts.map_step (hbase : WellPlaced base) (hk : s.Accounts k)
    (h : s.Tabled base) (hallows : s.Allows (.map page frame number flags))
    (hstep : TableStep base s (.map page frame number flags) t) : t.Accounts k := by
  obtain ⟨hlt, hnumber, hplaces⟩ := hallows
  by_cases hpage : page = 0
  · rw [hpage] at hstep
    rwa [hstep.eq_self (run_vmMap_zero base frame number flags s.machine)]
  by_cases hnonpos : number ≤ 0
  · obtain ⟨r, hrun, -⟩ := hstep.returned
    have hzero : (vmMap base page frame 0 flags).run s.machine = .ok r t.machine := by
      rw [← hrun, TableCall.run, vmMap, vmMap, Int.toNat_eq_zero.mpr hnonpos]
      rfl
    rw [hstep.eq_of_run hrun, TableCall.enter_map_of_nonpos _ hnonpos, ite_self]
    exact hk.root hbase h hpage hzero
  obtain rfl : number = 1 := by omega
  by_cases hfree : s.Free page
  · have hplaces := hplaces rfl hpage hfree
    obtain ⟨m, table, leaf, hm, hsame, hbits, hvmMap⟩ :=
      h.exists_root hbase hpage fun hroot ↦ by have := hplaces.root hroot; omega
    have hplaces' := hplaces.of_root hbase hm hsame hbits
    obtain ⟨u, hbody, -⟩ := hm.run_mapBody hbase hpage hlt hfree hplaces'
    have hloop : (forLoop (mapBody base frame) 0 (1 : ℤ).toNat (page, none)).run m =
        .ok (page, none) u := run_forLoop_of_yield hbody
    have hrun : (TableCall.run base (.map page frame 1 flags)).run s.machine = .ok 1 u :=
      (hvmMap frame 1 flags).trans (run_mapPages hloop)
    have hroot : (vmMap base page frame 0 flags).run s.machine = .ok 1 m :=
      hvmMap frame 0 flags
    rw [hstep.eq_of_run hrun, if_pos Int.one_pos]
    exact (hk.root hbase h hpage hroot).enter hbase hm hpage hlt hfree hplaces' hbody
      (TableCall.enter_map_self s.entered flags) fun q hq ↦
        TableCall.enter_map_of_ne s.entered flags hq
  · rwa [hstep.eq_self (h.run_vmMap_of_not_free hbase hfree Int.one_pos flags)]

/-- An entry that is marked as dead keeps its tables. -/
theorem PageTable.Accounts.unmap_step (hbase : Isolated base) (hk : s.Accounts k)
    (h : s.Tabled base) (hallows : s.Allows (.unmap page number))
    (hstep : TableStep base s (.unmap page number) t) : t.Accounts k := by
  obtain ⟨hlt, hquiet⟩ := hallows
  by_cases hnonpos : page ≠ 0 → number ≤ 0
  · rwa [hstep.eq_self (run_vmUnmap_of_nonpos hnonpos)]
  push Not at hnonpos
  obtain ⟨hpage, hnumber⟩ := hnonpos
  by_cases hlive : ∃ e, s.entered page = some e ∧ e.live = true
  · obtain ⟨e, he, hlive⟩ := hlive
    rcases h with ⟨-, hnone⟩ | ⟨table, leaf, h⟩
    · rw [hnone page] at he
      cases he
    · obtain ⟨m, hrun, htree⟩ := h.run_vmUnmap hbase.toWellPlaced he hlive hnumber
      have hframes : m.frames = s.machine.frames := by
        have hkeeps : Guarantees Machine.SameFrames (vmUnmap base page number) fun _ ↦ True :=
          vmUnmap_guarantees (fun _ _ h ↦ h) page number
        have hsame := (hkeeps s.machine).1
        rwa [hrun] at hsame
      have hold := (h.accounts_iff hbase.toWellPlaced).mp hk
      rw [hstep.eq_of_run hrun, if_pos Int.one_pos]
      have ht : PageTable.Holds base ⟨m, TableCall.enter s.entered (.unmap page number)⟩ table _ :=
        h.unmapped he (hquiet e he) htree ((Function.update_self ..).trans (congrArg (Option.map _) he))
          fun q hq ↦ Function.update_of_ne hq ..
      refine (ht.accounts_iff hbase.toWellPlaced).mpr ⟨hold.finite, ?_⟩
      rw [hframes, hold.setBits]
  · obtain ⟨r, hr⟩ := h.exists_missed hbase hpage hlt fun e he ↦
      Bool.eq_false_of_not_eq_true fun hlive' ↦ hlive ⟨e, he, hlive'⟩
    obtain ⟨f, hf⟩ := run_vmUnmap_of_missed hbase.pos hpage hnumber hr
    obtain ⟨r', hrun, -⟩ := hstep.returned
    rw [TableCall.run, hf] at hrun
    cases hrun

theorem PageTable.Accounts.step (hbase : Isolated base) (hk : s.Accounts k) (h : s.Tabled base)
    {call : TableCall} (htolerates : s.Tolerates call) (hstep : TableStep base s call t) :
    t.Accounts k := by
  cases call with
  | map page frame number flags =>
      rcases htolerates with hallows | ⟨hnumber, hfree⟩
      · exact hk.map_step hbase.toWellPlaced h hallows hstep
      · rwa [hstep.eq_self (h.run_vmMap_of_not_free hbase.toWellPlaced hfree hnumber flags)]
  | unmap page number => exact hk.unmap_step hbase h (htolerates.resolve_right id) hstep

theorem TableStep.keepsMarked {call : TableCall} (hstep : TableStep base s call t) :
    s.machine.KeepsMarked t.machine := by
  obtain ⟨r, hrun, -⟩ := hstep.returned
  have hkeeps : Guarantees Machine.KeepsMarked (call.run base) fun _ ↦ True := by
    cases call with
    | map page frame number flags => exact vmMap_keepsMarked page frame number flags
    | unmap page number =>
        exact vmUnmap_guarantees (fun _ _ ↦ Machine.SameFrames.keepsMarked) page number
  have hmarked := (hkeeps s.machine).1
  rwa [hrun] at hmarked

theorem PageTable.Accounts.run (hbase : Isolated base) (hk : s.Accounts k) (h : s.Tabled base)
    {calls : List TableCall}
    (hrun : Run (fun s call t ↦ TableStep base s call t ∧ s.Tolerates call) s calls t) :
    s.machine.KeepsMarked t.machine ∧ t.Tabled base ∧ t.Accounts k := by
  induction hrun with
  | nil => exact ⟨fun _ hf ↦ hf, h, hk⟩
  | snoc _ hstep ih =>
      obtain ⟨hmarked, htabled, hk⟩ := ih
      refine ⟨?_, ?_, ?_⟩
      · exact trans_of Machine.KeepsMarked hmarked hstep.1.keepsMarked
      · exact htabled.tolerated_step hbase hstep.2 hstep.1
      · exact hk.step hbase htabled hstep.2 hstep.1

end Step

/-- After every program of calls the frames in use are those that were in use before it and
one for each table on the way to an entry that was ever written. -/
theorem tables_account_for_frames {base : ℕ} (hbase : Isolated base) {m : Machine}
    (hroot : m.tableRoot = 0) {calls : List TableCall} {s : PageTable}
    (hrun : Run (fun s call t ↦ TableStep base s call t ∧ s.Tolerates call) ⟨m, fun _ ↦ none⟩
      calls s) :
    m.KeepsMarked s.machine ∧ s.paths.Finite ∧ s.machine.frames.setBits =
      m.frames.setBits + if s.machine.tableRoot = 0 then 0 else s.paths.ncard := by
  have hpaths : PageTable.paths ⟨m, fun _ ↦ none⟩ = {[]} := PageTable.paths_of_none fun _ ↦ rfl
  have hstart : PageTable.Accounts m.frames.setBits ⟨m, fun _ ↦ none⟩ := by
    refine ⟨by rw [hpaths]; exact Set.finite_singleton _, ?_⟩
    rw [if_pos hroot, Nat.add_zero]
  obtain ⟨hmarked, -, hfinite, hbits⟩ := hstart.run hbase (.inl ⟨hroot, fun _ ↦ rfl⟩) hrun
  exact ⟨hmarked, hfinite, hbits⟩

theorem tables_account_for_frames_first : ∃ s : PageTable,
    (vmMap (2 ^ 32) 1 5 1 0).run emptyMachine = .ok 1 s.machine ∧
      s.machine.frames.setBits = s.paths.ncard := by
  obtain ⟨t, hrun, -, table, leaf, ht⟩ :=
    @exists_first_mapped 1 5 (by decide) (by decide) (by decide)
  obtain ⟨-, -, hbits⟩ := tables_account_for_frames isolated_two_pow rfl
    (.snoc .nil ⟨step_first_mapped hrun, .inl ⟨by decide, le_rfl, fun _ _ _ ↦
      places_emptyMachine (by decide) (by decide)⟩⟩)
  rw [if_neg (ht.tableRoot_ne wellPlaced_two_pow), setBits_emptyMachine, Nat.zero_add] at hbits
  exact ⟨_, hrun, hbits⟩

end OsProjects.Memory
