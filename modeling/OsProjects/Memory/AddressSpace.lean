import OsProjects.Library.Simulation
import OsProjects.Memory.FailedMappings

/-!
# The address space

What the calls of `translation.c` mean without tables, frames and bytes: each page has an
entry, which `vm_map` writes once and `vm_unmap` marks as dead.  Programs of calls simulate
the programs of these operations.
-/

namespace OsProjects.Memory

open Library.Program

/-! ## Operations -/

abbrev AddressSpace := UInt64 → Option Slot

namespace AddressSpace

/-- A page is mapped only if its entry has no address yet. -/
def map (page frame : UInt64) (number : ℤ) : StateT AddressSpace Option ℤ := do
  let space ← get
  if page = 0 then
    return 0
  else if number ≤ 0 then
    return 1
  else if ∀ e ∈ space page, e.frame = 0 then
    set (Function.update space page (some ⟨frame, true⟩))
    return 1
  else
    return 0

theorem run_map_of_free {space : AddressSpace} {page frame : UInt64} {number : ℤ}
    (hpage : page ≠ 0) (hnumber : 0 < number) (hfree : ∀ e ∈ space page, e.frame = 0) :
    (map page frame number).run space =
      some (1, Function.update space page (some ⟨frame, true⟩)) := by
  rw [map, StateT.run_bind, StateT.run_get]
  simp only [Option.pure_def, Option.bind_eq_bind, Option.bind_some, if_neg hpage,
    if_neg (not_le.mpr hnumber), if_pos hfree]
  rfl

theorem run_map_of_not_free {space : AddressSpace} {page frame : UInt64} {number : ℤ}
    (hpage : page ≠ 0) (hnumber : 0 < number)
    (hfree : ¬ ∀ e ∈ space page, e.frame = 0) :
    (map page frame number).run space = some (0, space) := by
  rw [map, StateT.run_bind, StateT.run_get]
  simp only [Option.pure_def, Option.bind_eq_bind, Option.bind_some, if_neg hpage,
    if_neg (not_le.mpr hnumber), if_neg hfree]
  rfl

/-- Only a page that is mapped can be unmapped. -/
def unmap (page : UInt64) (number : ℤ) : StateT AddressSpace Option ℤ := do
  let space ← get
  if page = 0 ∨ number ≤ 0 then
    return 0
  else
    match space page with
    | some ⟨frame, true⟩ =>
        set (Function.update space page (some ⟨frame, false⟩))
        return 1
    | _ => failure

theorem run_unmap_of_live {space : AddressSpace} {page frame : UInt64} {number : ℤ}
    (hpage : page ≠ 0) (hnumber : 0 < number) (he : space page = some ⟨frame, true⟩) :
    (unmap page number).run space =
      some (1, Function.update space page (some ⟨frame, false⟩)) := by
  have hsome : ¬ (page = 0 ∨ number ≤ 0) := not_or.mpr ⟨hpage, by omega⟩
  rw [unmap, StateT.run_bind, StateT.run_get]
  simp only [Option.pure_def, Option.bind_eq_bind, Option.bind_some, if_neg hsome, he]
  rfl

theorem run_unmap_of_dead {space : AddressSpace} {page : UInt64} {number : ℤ}
    (hpage : page ≠ 0) (hnumber : 0 < number)
    (hdead : ∀ e, space page = some e → e.live = false) :
    (unmap page number).run space = none := by
  have hsome : ¬ (page = 0 ∨ number ≤ 0) := not_or.mpr ⟨hpage, by omega⟩
  rw [unmap, StateT.run_bind, StateT.run_get]
  simp only [Option.pure_def, Option.bind_eq_bind, Option.bind_some, if_neg hsome]
  match he : space page with
  | none => rfl
  | some ⟨frame, false⟩ => rfl
  | some ⟨frame, true⟩ => exact Bool.noConfusion (hdead _ he)

def call : TableCall → StateT AddressSpace Option ℤ
  | .map page frame number _ => map page frame number
  | .unmap page number => unmap page number

def translate (space : AddressSpace) (v : UInt64) : Option UInt64 :=
  match space (v >>> 12) with
  | some ⟨frame, true⟩ => some (frame * 4096 + v % 4096)
  | _ => none

end AddressSpace

/-- The tables translate as the address space does: an address without a translation is
answered with the largest number, if with any. -/
def Translates (base : ℕ) (m : Machine) (space : AddressSpace) : Prop :=
  ∀ v : UInt64, v.toNat < 2 ^ 48 →
    match space.translate v with
    | some a => (vmTranslate base v).run m = .ok a m
    | none => ∀ a m', (vmTranslate base v).run m = .ok a m' → a = 0xFFFFFFFFFFFFFFFF

def Represents (base : ℕ) (m : Machine) (space : AddressSpace) : Prop :=
  PageTable.Tabled base ⟨m, space⟩

/-- Besides the conditions on its page, a call for no page needs a frame for the root. -/
def TableCall.Admissible (call : TableCall) (m : Machine) (space : AddressSpace) : Prop :=
  PageTable.Tolerates ⟨m, space⟩ call ∧
    ∀ page frame number flags, call = .map page frame number flags → number ≤ 0 → page ≠ 0 →
      m.tableRoot = 0 → m.frames.setBits < numFrames

section Refinement

variable {base : ℕ} {m : Machine} {space : AddressSpace}

theorem Represents.translates (hbase : Isolated base)
    (h : Represents base m space) : Translates base m space := by
  intro v hv
  have hnumber := toNat_pageNumber v
  have hdead (hdead : ∀ e, space (v >>> 12) = some e → e.live = false) :
      ∀ a m', (vmTranslate base v).run m = .ok a m' → a = 0xFFFFFFFFFFFFFFFF := by
    intro a m' hrun
    by_cases hpage : v >>> 12 = 0
    · have hzero : (vmFind base (v >>> 12)).run m = .ok none m := by rw [hpage]; exact run_vmFind_zero
      rw [run_vmTranslate_of_none hzero] at hrun
      cases hrun
      rfl
    · obtain ⟨r, hr⟩ := h.exists_missed hbase hpage (by omega) hdead
      rw [run_vmTranslate_of_missed hr] at hrun
      cases r <;> cases hrun
      rfl
  rw [AddressSpace.translate]
  match hentry : space (v >>> 12) with
  | none => exact hdead fun e he ↦ by rw [hentry] at he; cases he
  | some ⟨frame, false⟩ => exact hdead fun e he ↦ by rw [hentry] at he; cases he; rfl
  | some ⟨frame, true⟩ =>
      rcases h with ⟨-, hnone⟩ | ⟨table, leaf, h⟩
      · exact absurd ((hnone _).symm.trans hentry) (Option.some_ne_none _).symm
      · exact h.run_vmTranslate hbase.toWellPlaced hentry rfl hnumber.symm

/-- A call that returns leads to tables for the entries after it. -/
theorem Represents.after (hbase : Isolated base) (h : Represents base m space)
    {call : TableCall} (htolerates : PageTable.Tolerates ⟨m, space⟩ call) {r : ℤ} {t : Machine}
    (hrun : (call.run base).run m = .ok r t) :
    Represents base t (if 0 < r then call.enter space else space) :=
  h.tolerated_step hbase htolerates ⟨⟨r, hrun, rfl⟩⟩

theorem Represents.exists_vmMap_of_nonpos (hbase : WellPlaced base)
    (h : Represents base m space) {page : UInt64} {number : ℤ} (hpage : page ≠ 0)
    (hnumber : number ≤ 0) (hroom : m.tableRoot = 0 → m.frames.setBits < numFrames)
    (frame : UInt64) (flags : UInt16) :
    ∃ t, (vmMap base page frame number flags).run m = .ok 1 t := by
  obtain ⟨t, -, -, -, -, -, hvmMap⟩ := h.exists_root hbase hpage hroom
  have hloop : (forLoop (mapBody base frame) 0 number.toNat (page, none)).run t =
      .ok (page, none) t := by
    rw [Int.toNat_eq_zero.mpr hnumber]
    rfl
  exact ⟨t, (hvmMap frame number flags).trans (run_mapPages hloop)⟩

theorem Represents.simulates_map (hbase : Isolated base)
    (h : Represents base m space) {page frame : UInt64} {number : ℤ} {flags : UInt16}
    (hadmissible : TableCall.Admissible (.map page frame number flags) m space) :
    Simulates (Represents base)
      (vmMap base page frame number flags) (AddressSpace.map page frame number) m space := by
  obtain ⟨htolerates, hroom⟩ := hadmissible
  have hplaced := hbase.toWellPlaced
  by_cases hpage : page = 0
  · rw [hpage]
    exact .of_some (run_vmMap_zero base frame number flags m) rfl h
  by_cases hnonpos : number ≤ 0
  · obtain ⟨t, hrun⟩ := h.exists_vmMap_of_nonpos hplaced hpage hnonpos
      (hroom page frame number flags rfl hnonpos hpage) frame flags
    refine .of_some hrun ?_ (PageTable.Tabled.of_vmMap_nonpos hplaced h hpage hnonpos hrun)
    simp [AddressSpace.map, hpage, hnonpos]
  by_cases hfree : PageTable.Free ⟨m, space⟩ page
  · rcases htolerates with ⟨hlt, hnumber, hplaces⟩ | ⟨-, hnot⟩
    · obtain rfl : number = 1 := by omega
      obtain ⟨t, hrun, -⟩ := h.run_vmMap_one hplaced hpage hlt hfree (hplaces rfl hpage hfree) flags
      have hallows : PageTable.Allows ⟨m, space⟩ (.map page frame 1 flags) := ⟨hlt, hnumber, hplaces⟩
      have hafter := h.after hbase (.inl hallows) hrun
      rw [if_pos Int.one_pos, TableCall.enter_map_one] at hafter
      exact .of_some hrun (AddressSpace.run_map_of_free hpage Int.one_pos hfree) hafter
    · exact absurd hfree hnot
  · have hrun : (vmMap base page frame number flags).run m = .ok 0 m :=
      h.run_vmMap_of_not_free hplaced hfree (not_le.mp hnonpos) flags
    exact .of_some hrun (AddressSpace.run_map_of_not_free hpage (not_le.mp hnonpos) hfree) h

theorem Represents.simulates_unmap (hbase : Isolated base)
    (h : Represents base m space) {page : UInt64} {number : ℤ}
    (hadmissible : TableCall.Admissible (.unmap page number) m space) :
    Simulates (Represents base)
      (vmUnmap base page number) (AddressSpace.unmap page number) m space := by
  obtain ⟨htolerates, -⟩ := hadmissible
  by_cases hnothing : page = 0 ∨ number ≤ 0
  · refine .of_some (run_vmUnmap_of_nonpos hnothing.resolve_left) ?_ h
    simp [AddressSpace.unmap, hnothing]
  push Not at hnothing
  obtain ⟨hpage, hnumber⟩ := hnothing
  have hlt := (htolerates.resolve_right id).1
  by_cases hlive : ∃ frame, space page = some ⟨frame, true⟩
  · obtain ⟨frame, he⟩ := hlive
    rcases h with ⟨-, hnone⟩ | ⟨table, leaf, hholds⟩
    · exact absurd ((hnone page).symm.trans he) (Option.some_ne_none _).symm
    · obtain ⟨t, hrun, -⟩ := hholds.run_vmUnmap hbase.toWellPlaced he rfl hnumber
      have hafter := Represents.after hbase (.inr ⟨table, leaf, hholds⟩) htolerates hrun
      rw [if_pos Int.one_pos, TableCall.enter, he] at hafter
      refine .of_some hrun ?_ hafter
      exact AddressSpace.run_unmap_of_live hpage hnumber he
  · have hdead : ∀ e, space page = some e → e.live = false := by
      rintro ⟨frame, live⟩ he
      refine Bool.eq_false_of_not_eq_true fun htrue ↦ hlive ⟨frame, ?_⟩
      obtain rfl : live = true := htrue
      exact he
    obtain ⟨r, hr⟩ := h.exists_missed hbase hpage hlt hdead
    obtain ⟨f, hf⟩ := run_vmUnmap_of_missed hbase.pos hpage hnumber hr
    exact .of_none hf (AddressSpace.run_unmap_of_dead hpage hnumber hdead)

theorem Represents.simulates_call (hbase : Isolated base) {call : TableCall}
    (h : Represents base m space) (hadmissible : call.Admissible m space) :
    Simulates (Represents base)
      (call.run base) (AddressSpace.call call) m space := by
  cases call with
  | map page frame number flags => exact h.simulates_map hbase hadmissible
  | unmap page number => exact h.simulates_unmap hbase hadmissible

end Refinement

/-- A program of admissible calls returns what the address space returns, faults where it
has no result, and leaves tables that translate as the address space does. -/
theorem calls_refine_addressSpace {base : ℕ} (hbase : Isolated base) {m : Machine}
    (hroot : m.tableRoot = 0) {calls : List TableCall}
    (hadmitted : Admitted TableCall.Admissible (TableCall.run base) AddressSpace.call calls m
      fun _ ↦ none) :
    Simulates (Translates base) (calls.mapM (TableCall.run base))
      (calls.mapM AddressSpace.call) m fun _ ↦ none := by
  have hstart : Represents base m fun _ ↦ none := .inl ⟨hroot, fun _ ↦ rfl⟩
  refine (Simulates.mapM (fun call m space h hadmissible ↦ ?_) hstart hadmitted).mono ?_
  · exact h.simulates_call hbase hadmissible
  · exact fun m space h ↦ h.translates hbase

def pageOne : AddressSpace := Function.update (fun _ ↦ none) 1 (some ⟨5, true⟩)

theorem pageOne_self : pageOne 1 = some ⟨5, true⟩ := Function.update_self ..

/-- A page that is mapped, refused and unmapped. -/
theorem calls_refine_addressSpace_unmapped :
    ∃ m, ([.map 1 5 1 0, .map 1 6 1 0, .unmap 1 1].mapM (TableCall.run (2 ^ 32))).run emptyMachine =
        .ok [1, 0, 1] m ∧
      Translates (2 ^ 32) m (Function.update pageOne 1 (some ⟨5, false⟩)) := by
  have hfirst : (AddressSpace.call (.map 1 5 1 0)).run (fun _ ↦ none) = some (1, pageOne) :=
    AddressSpace.run_map_of_free (by decide) (by decide) (by simp)
  have hnot : ¬ ∀ e ∈ pageOne 1, e.frame = 0 := fun h ↦ absurd (h _ pageOne_self) (by decide)
  have hsecond : (AddressSpace.call (.map 1 6 1 0)).run pageOne = some (0, pageOne) :=
    AddressSpace.run_map_of_not_free (by decide) (by decide) hnot
  have hthird : (AddressSpace.call (.unmap 1 1)).run pageOne =
      some (1, Function.update pageOne 1 (some ⟨5, false⟩)) :=
    AddressSpace.run_unmap_of_live (by decide) (by decide) pageOne_self
  have hadmitted : Admitted TableCall.Admissible (TableCall.run (2 ^ 32)) AddressSpace.call
      [.map 1 5 1 0, .map 1 6 1 0, .unmap 1 1] emptyMachine fun _ ↦ none := by
    refine ⟨⟨.inl ⟨by decide, le_rfl, fun _ _ _ ↦ places_emptyMachine (by decide) (by decide)⟩, ?_⟩,
      fun a m space _ hcall ↦ ?_⟩
    · rintro _ _ _ _ ⟨⟩ hnonpos
      exact absurd hnonpos (by decide)
    rw [hfirst] at hcall
    cases hcall
    refine ⟨⟨.inr ⟨Int.one_pos, hnot⟩, ?_⟩, fun a m space _ hcall ↦ ?_⟩
    · rintro _ _ _ _ ⟨⟩ hnonpos
      exact absurd hnonpos (by decide)
    rw [hsecond] at hcall
    cases hcall
    refine ⟨⟨.inl ⟨by decide, fun e he k hk _ hlt ↦ ?_⟩, nofun⟩, fun _ _ _ _ _ ↦ trivial⟩
    have hone : (1 : UInt64).toNat = 1 := rfl
    omega
  have hsimulates := calls_refine_addressSpace isolated_two_pow rfl hadmitted
  have heval : ([.map 1 5 1 0, .map 1 6 1 0, .unmap 1 1].mapM AddressSpace.call).run (fun _ ↦ none) =
      some ([1, 0, 1], Function.update pageOne 1 (some ⟨5, false⟩)) := by
    simp only [List.mapM_cons, List.mapM_nil, StateT.run_bind, hfirst, Option.bind_eq_bind,
      Option.bind_some, hsecond, hthird]
    rfl
  rw [Simulates, heval] at hsimulates
  exact hsimulates

end OsProjects.Memory
