import OsProjects.Memory.FrameContracts
import OsProjects.Memory.RangeMappings

/-!
# Releasing pages

`pfree` of `kmalloc.c` gives the number of the iteration to `vm_unmap` and to
`deallocate_frame` where they take a number of pages, and stays at its first
page.  The first iteration does nothing and each of the others frees no more
than one frame, so that one frame at least is left.
-/

namespace OsProjects.Memory

open Library.Program Library.Bytes Library.FirstFit Library

/-- `PAGE_NUMBER(address)` and `FRAME_NUMBER(address)`, which are the same. -/
def pageNumber (base : ℕ) (address : UInt64) : UInt64 :=
  cUInt64 ((Int.bmod (address.toNat - base) (2 ^ 64)).tdiv 4096)

section Code

/- The address of the array `memory`, and the function that `pfree` calls for
the address of the frame. -/
variable (base : ℕ) (translate : UInt64 → VM UInt64)

def pfreeBody (address : UInt64) (i : ℕ) (_ : Unit) : VM (ForInStep Unit) := do
  let pageAddress ← translate address
  let page := pageNumber base pageAddress
  let frame := pageNumber base pageAddress
  let _ ← vmUnmap base page i
  let _ ← liftFrames (deallocateFrame frame i)
  return .yield ()

def pfree (address number : UInt64) : VM Unit :=
  forLoop (pfreeBody base translate address) 0 number.toNat ()

end Code

/-! ## What is to be released -/

def MappedTo (base : ℕ) (s : Machine) (page : UInt64) (frame : ℕ) : Prop :=
  ∃ p e, (vmFind base page).run s = .ok (some p) s ∧ (loadEntry base p).run s = .ok e s ∧
    e.address.toNat = frame

/-- `PAGE_ADDRESS` gives addresses that are translated to those of the frames the
pages are mapped to, as `palloc` describes it. -/
structure SelfMapping (base : ℕ) (pageAddress : UInt64 → UInt64)
    (translate : UInt64 → VM UInt64) : Prop where
  mapped : ∀ s page, page.toNat < 2 ^ 36 → MappedTo base s page page.toNat →
    (translate (pageAddress page)).run s = .ok (UInt64.ofNat (frameAddress base page.toNat)) s
  unmapped : ∀ s page, page.toNat < 2 ^ 36 → (vmFind base page).run s = .ok none s →
    (translate (pageAddress page)).run s = .ok 0xFFFFFFFFFFFFFFFF s
  reads : ∀ s address a t, (translate address).run s = .ok a t → t = s

/-- The `n` frames from the number of the page on are allocated, and the pages with
these numbers mapped to them. -/
structure Machine.Palloced (s : Machine) (base : ℕ) (page n : UInt64) : Prop where
  allocated : s.frames.Allocated page.toNat n.toNat
  mapped : ∀ q : UInt64, page.toNat ≤ q.toNat → q.toNat < page.toNat + n.toNat →
    MappedTo base s q q.toNat

/-- Exactly the `n` pages are unmapped and their frames free again. -/
def Releases (base : ℕ) (translate : UInt64 → VM UInt64) (s : Machine) (address page n : UInt64) :
    Prop :=
  Returns (pfree base translate address n) s fun _ t ↦
    (∀ q : UInt64, page.toNat ≤ q.toNat → q.toNat < page.toNat + n.toNat → ¬ Found base t q) ∧
    (∀ q : UInt64, q.toNat < 2 ^ 36 → (q.toNat < page.toNat ∨ page.toNat + n.toNat ≤ q.toNat) →
      ∀ f, MappedTo base t q f ↔ MappedTo base s q f) ∧
    (∀ f, t.frames.marked f =
      (s.frames.marked f && !decide (page.toNat ≤ f ∧ f < page.toNat + n.toNat))) ∧
    t.frames.framesAllocated = s.frames.framesAllocated - n

/-! ## What the calls do to the frames -/

/-- No frame of `s` is free in `t`. -/
def Machine.KeepsMarked (s t : Machine) : Prop :=
  ∀ f, s.frames.marked f = true → t.frames.marked f = true

instance : Std.Refl Machine.KeepsMarked where
  refl _ _ h := h

instance : IsTrans Machine Machine.KeepsMarked where
  trans _ _ _ h h' f hf := h' f (h f hf)

def Machine.SameFrames (s t : Machine) : Prop := t.frames = s.frames

instance : Std.Refl Machine.SameFrames where
  refl _ := rfl

instance : IsTrans Machine Machine.SameFrames where
  trans _ _ _ h h' := h'.trans h

theorem Machine.SameFrames.keepsMarked {s t : Machine} (h : s.SameFrames t) : s.KeepsMarked t := by
  intro f hf
  rwa [h]

section Relation

/- A relation between machines that holds whenever the frames are the same. -/
variable {R : Machine → Machine → Prop} [Std.Refl R] [IsTrans Machine R] {base : ℕ}

omit [IsTrans Machine R] in
theorem locate_guarantees (address : ℤ) (count : ℕ) :
    Guarantees R (locate base address count) fun _ ↦ True := by
  rw [locate]
  split
  · exact .pure trivial
  · exact .throw _

theorem loadEntry_guarantees (p : ℕ) : Guarantees R (loadEntry base p) fun _ ↦ True := by
  refine (locate_guarantees p 8).bind fun off _ ↦ ?_
  exact .of_run fun s ↦ ⟨_, s, rfl, refl_of R s, trivial⟩

theorem followed_guarantees {p : ℕ} {rest : ℕ → VM (Option ℕ)}
    (hrest : ∀ x, Guarantees R (rest x) fun _ ↦ True) :
    Guarantees R (followed base p rest) fun _ ↦ True := by
  refine (loadEntry_guarantees p).bind fun e _ ↦ ?_
  split
  · exact .pure trivial
  · exact hrest _

theorem lastLevel_guarantees (p : ℕ) : Guarantees R (lastLevel base p) fun _ ↦ True := by
  refine (loadEntry_guarantees p).bind fun e _ ↦ ?_
  split <;> exact .pure trivial

theorem vmFind_guarantees (page : UInt64) : Guarantees R (vmFind base page) fun _ ↦ True := by
  by_cases hpage : page = 0
  · rw [vmFind, if_pos hpage]
    exact .pure trivial
  · rw [vmFind_eq hpage]
    have hget : Guarantees R (get : VM Machine) fun _ ↦ True :=
      .of_run fun s ↦ ⟨s, s, rfl, refl_of R s, trivial⟩
    exact hget.bind fun s _ ↦ followed_guarantees fun _ ↦ followed_guarantees fun _ ↦
      followed_guarantees fun _ ↦ lastLevel_guarantees _

variable (hsame : ∀ s t, s.SameFrames t → R s t)
include hsame

theorem storeEntry_guarantees (p : ℕ) (e : Entry) :
    Guarantees R (storeEntry base p e) fun _ ↦ True := by
  refine (locate_guarantees p 8).bind fun off _ ↦ ?_
  exact .of_run fun s ↦ ⟨_, _, rfl, hsame _ _ rfl, trivial⟩

theorem setAddress_guarantees (p v : ℕ) : Guarantees R (setAddress base p v) fun _ ↦ True :=
  (loadEntry_guarantees p).bind fun _ _ ↦ storeEntry_guarantees hsame p _

theorem setFlags_guarantees (p v : ℕ) : Guarantees R (setFlags base p v) fun _ ↦ True :=
  (loadEntry_guarantees p).bind fun _ _ ↦ storeEntry_guarantees hsame p _

theorem vmUnmap_guarantees (page : UInt64) (number : ℤ) :
    Guarantees R (vmUnmap base page number) fun _ ↦ True := by
  rw [vmUnmap]
  split
  · exact .pure trivial
  · have hloop : Guarantees R (forLoop (unmapBody base) 0 number.toNat (page, none))
        fun _ ↦ True := by
      refine Guarantees.forLoop (I := fun _ _ ↦ True) trivial fun i acc _ _ _ ↦ ?_
      refine (vmFind_guarantees _).bind fun found _ ↦ (loadEntry_guarantees _).bind fun e _ ↦ ?_
      split
      · refine (setFlags_guarantees hsame _ 0).bind fun _ _ ↦ .pure ?_
        intros
        trivial
      · refine .pure ?_
        intros
        trivial
    refine hloop.bind fun acc _ ↦ ?_
    obtain ⟨_, result⟩ := acc
    cases result <;> exact .pure trivial

end Relation

/-! ### Tables -/

theorem run_liftFrames {α : Type} {x : FM α} {s : Machine} {a : α} {t : Frames}
    (h : x.run s.frames = .ok a t) : (liftFrames x).run s = .ok a { s with frames := t } := by
  change liftFrames x s = _
  rw [liftFrames, h]

theorem allocateFrame_keepsMarked :
    Guarantees Machine.KeepsMarked (liftFrames (allocateFrame 1)) fun _ ↦ True := by
  refine .of_run fun s ↦ ?_
  rcases run_allocateFrame (s := s.frames) (n := 1) Nat.one_pos with ⟨f, -, hlt, hrun⟩ | ⟨-, hrun⟩
  · refine ⟨_, _, run_liftFrames hrun, fun q hq ↦ ?_, trivial⟩
    change (s.frames.markFrame f).marked q = true
    rw [s.frames.marked_markFrame (by omega), mark_apply, hq, Bool.true_or]
  · exact ⟨_, _, run_liftFrames hrun, fun q hq ↦ hq, trivial⟩

variable {base : ℕ}

theorem makeNode_keepsMarked : Guarantees Machine.KeepsMarked (makeNode base) fun _ ↦ True := by
  refine allocateFrame_keepsMarked.bind fun f _ ↦ (locate_guarantees _ _).bind fun off _ ↦ ?_
  exact .of_run fun s ↦ ⟨_, _, rfl, fun q hq ↦ hq, trivial⟩

theorem child_keepsMarked (p : ℕ) : Guarantees Machine.KeepsMarked (child base p) fun _ ↦ True := by
  have hload : Guarantees Machine.KeepsMarked (loadEntry base p) fun _ ↦ True :=
    loadEntry_guarantees p
  have hlast : Guarantees Machine.KeepsMarked
      (do return (← loadEntry base p).address.toNat : VM ℕ) fun _ ↦ True :=
    hload.bind fun e _ ↦ .pure trivial
  refine hload.bind fun e _ ↦ ?_
  split
  · refine makeNode_keepsMarked.bind fun n _ ↦ ?_
    exact (setAddress_guarantees (fun _ _ ↦ Machine.SameFrames.keepsMarked) p n).bind fun _ _ ↦ hlast
  · exact hlast

/-- `vm_map` allocates frames and frees none. -/
theorem vmMap_keepsMarked (page frame : UInt64) (number : ℤ) (flags : UInt16) :
    Guarantees Machine.KeepsMarked (vmMap base page frame number flags) fun _ ↦ True := by
  have hsame : ∀ s t : Machine, s.SameFrames t → s.KeepsMarked t := fun _ _ h ↦ h.keepsMarked
  have hget : Guarantees Machine.KeepsMarked (get : VM Machine) fun _ ↦ True :=
    .of_run fun s ↦ ⟨s, s, rfl, refl_of _ s, trivial⟩
  have hbody (i : ℕ) (acc : UInt64 × Option ℤ) :
      Guarantees Machine.KeepsMarked (mapBody base frame i acc) fun _ ↦ True := by
    refine hget.bind fun _ _ ↦ (child_keepsMarked _).bind fun _ _ ↦
      (child_keepsMarked _).bind fun _ _ ↦ (child_keepsMarked _).bind fun _ _ ↦
        (loadEntry_guarantees _).bind fun e _ ↦ ?_
    split
    · exact (setAddress_guarantees hsame _ _).bind fun _ _ ↦
        (setFlags_guarantees hsame _ 1).bind fun _ _ ↦ .pure trivial
    · exact .pure trivial
  have hloop : Guarantees Machine.KeepsMarked
      (forLoop (mapBody base frame) 0 number.toNat (page, none)) fun _ ↦ True :=
    Guarantees.forLoop (I := fun _ _ ↦ True) trivial fun i acc _ _ _ ↦
      (hbody i acc).mono fun _ _ ↦ by intros; trivial
  rw [vmMap]
  split
  · exact .pure trivial
  · refine hget.bind fun s _ ↦ ?_
    split
    · refine makeNode_keepsMarked.bind fun node _ ↦ ?_
      have hroot : Guarantees Machine.KeepsMarked
          (modify fun s ↦ { s with tableRoot := node } : VM PUnit) fun _ ↦ True :=
        .of_run fun s ↦ ⟨_, _, rfl, fun q hq ↦ hq, trivial⟩
      refine hroot.bind fun _ _ ↦ hloop.bind fun acc _ ↦ ?_
      obtain ⟨_, result⟩ := acc
      cases result <;> exact .pure trivial
    · refine hloop.bind fun acc _ ↦ ?_
      obtain ⟨_, result⟩ := acc
      cases result <;> exact .pure trivial

/-! ## Counting -/

theorem Frames.setBits_clearFrame (s : Frames) {f : ℕ} (hf : f < numFrames) :
    s.setBits ≤ (s.clearFrame f).setBits + 1 := by
  have hsubset : (Finset.range numFrames).filter (fun q ↦ s.marked q = true) ⊆
      insert f ((Finset.range numFrames).filter fun q ↦ (s.clearFrame f).marked q = true) := by
    intro q hq
    obtain ⟨hlt, hmarked⟩ := Finset.mem_filter.mp hq
    by_cases hqf : q = f
    · exact Finset.mem_insert.mpr (.inl hqf)
    · refine Finset.mem_insert.mpr (.inr (Finset.mem_filter.mpr ⟨hlt, ?_⟩))
      simp [s.marked_clearFrame hf, hmarked, hqf]
  exact (Finset.card_le_card hsubset).trans (Finset.card_insert_le _ _)

theorem Frames.setBits_of_released {s t : Frames} {frame n : ℕ} (h : s.Allocated frame n)
    (hmarked : ∀ f, t.marked f = (s.marked f && !decide (frame ≤ f ∧ f < frame + n))) :
    t.setBits + n = s.setBits := by
  have hunion : (Finset.range numFrames).filter (fun q ↦ s.marked q = true) =
      (Finset.range numFrames).filter (fun q ↦ t.marked q = true) ∪ Finset.Ico frame (frame + n) := by
    ext q
    simp only [Finset.mem_filter, Finset.mem_union, Finset.mem_range, Finset.mem_Ico, hmarked,
      Bool.and_eq_true, Bool.not_eq_true', decide_eq_false_iff_not]
    constructor
    · rintro ⟨hq, hset⟩
      by_cases hrange : frame ≤ q ∧ q < frame + n
      · exact .inr hrange
      · exact .inl ⟨hq, hset, hrange⟩
    · rintro (⟨hq, hset, -⟩ | ⟨hle, hlt⟩)
      · exact ⟨hq, hset⟩
      · exact h q hle hlt
  have hdisjoint : Disjoint ((Finset.range numFrames).filter fun q ↦ t.marked q = true)
      (Finset.Ico frame (frame + n)) := by
    refine Finset.disjoint_left.mpr fun q hq hrange ↦ ?_
    have hset := (Finset.mem_filter.mp hq).2
    simp [hmarked, Finset.mem_Ico.mp hrange] at hset
  rw [setBits, setBits, hunion, Finset.card_union_of_disjoint hdisjoint, Nat.card_Ico,
    Nat.add_sub_cancel_left]

/-- `deallocate_frame` frees no more than one frame, and none if it is asked for none. -/
theorem setBits_of_deallocateFrame {s t : Frames} {frame : UInt64} {i : ℕ} {r : ℤ}
    (h : (deallocateFrame frame i).run s = .ok r t) :
    s.setBits ≤ t.setBits + if i = 0 then 0 else 1 := by
  by_cases hi : i = 0
  · subst hi
    cases h
    exact le_self_add
  · rw [if_neg hi]
    by_cases hframe : frame.toNat < numFrames
    · rw [run_deallocateFrame hframe (by omega)] at h
      cases h
      exact s.setBits_clearFrame hframe
    · rw [run_deallocateFrame_of_le (not_lt.mp hframe) (by omega)] at h
      cases h

section Loop

variable {translate : UInt64 → VM UInt64} {address : UInt64} {s t : Machine}
  (hreads : ∀ s address a t, (translate address).run s = .ok a t → t = s)
include hreads

theorem setBits_of_pfreeBody {i : ℕ} {next : ForInStep Unit}
    (h : (pfreeBody base translate address i ()).run s = .ok next t) :
    next = .yield () ∧ s.frames.setBits ≤ t.frames.setBits + if i = 0 then 0 else 1 := by
  obtain ⟨a, u, htranslate, hcalls⟩ := run_bind_eq_ok_iff.mp h
  obtain rfl := hreads _ _ _ _ htranslate
  obtain ⟨r, v, hunmap, hcall⟩ := run_bind_eq_ok_iff.mp hcalls
  obtain ⟨r', w, hdeallocate, hyield⟩ := run_bind_eq_ok_iff.mp hcall
  cases hyield
  have hframes : v.frames = u.frames := by
    have hkeeps : Guarantees Machine.SameFrames (vmUnmap base (pageNumber base a) i) fun _ ↦ True :=
      vmUnmap_guarantees (fun _ _ h ↦ h) _ _
    have hsame := (hkeeps u).1
    rwa [hunmap] at hsame
  change liftFrames (deallocateFrame (pageNumber base a) i) v = _ at hdeallocate
  rw [liftFrames] at hdeallocate
  split at hdeallocate
  · rename_i f hrun
    cases hdeallocate
    rw [← hframes]
    exact ⟨rfl, setBits_of_deallocateFrame hrun⟩
  · cases hdeallocate

theorem setBits_of_pfreeLoop {i count : ℕ} (hi : 1 ≤ i)
    (h : (forLoop (pfreeBody base translate address) i count ()).run s = .ok () t) :
    s.frames.setBits ≤ t.frames.setBits + count := by
  induction count generalizing i s with
  | zero =>
      cases h
      exact Nat.le_add_right ..
  | succ count ih =>
      obtain ⟨next, u, hbody, hrest⟩ := run_bind_eq_ok_iff.mp h
      obtain ⟨rfl, hstep⟩ := setBits_of_pfreeBody hreads hbody
      rw [if_neg (by omega)] at hstep
      have hlater := ih (by omega) hrest
      omega

end Loop

/-- Of the `n` frames that `pfree` is to free it leaves one at least. -/
theorem pfree_never_releases {pageAddress : UInt64 → UInt64} {translate : UInt64 → VM UInt64}
    (htranslate : SelfMapping base pageAddress translate) {s : Machine} {page n : UInt64}
    (hn : 1 ≤ n) (h : s.Palloced base page n) :
    ¬ Releases base translate s (pageAddress page) page n := by
  rintro ⟨⟨⟩, t, hrun, -, -, hmarked, -⟩
  have hreleased := Frames.setBits_of_released h.allocated hmarked
  have hpos : 1 ≤ n.toNat := hn
  obtain ⟨count, hcount⟩ : ∃ count, n.toNat = count + 1 := ⟨n.toNat - 1, by omega⟩
  rw [pfree, hcount] at hrun
  obtain ⟨next, u, hbody, hrest⟩ := run_bind_eq_ok_iff.mp hrun
  obtain ⟨rfl, hfirst⟩ := setBits_of_pfreeBody htranslate.reads hbody
  have hlater := setBits_of_pfreeLoop htranslate.reads le_rfl hrest
  rw [if_pos rfl] at hfirst
  omega

/-! ## A page of its own frame -/

section Self

variable (base)

def pageAddress (page : UInt64) : UInt64 := UInt64.ofNat (frameAddress base page.toNat)

/-- A translation of addresses of pages as `palloc` describes it. -/
def selfTranslate (address : UInt64) : VM UInt64 := do
  match ← vmFind base (pageNumber base address) with
  | none => return 0xFFFFFFFFFFFFFFFF
  | some p => return UInt64.ofNat (frameAddress base (← loadEntry base p).address.toNat)

variable {base}

theorem pageNumber_pageAddress (hbase : WellPlaced base) {page : UInt64}
    (hpage : page.toNat < 2 ^ 36) : pageNumber base (pageAddress base page) = page := by
  have hle := hbase.le
  have haddress : (pageAddress base page).toNat = base + page.toNat * 4096 := by
    rw [pageAddress, UInt64.toNat_ofNat', frameAddress]
    omega
  have hdistance : Int.bmod ((pageAddress base page).toNat - base) (2 ^ 64) =
      page.toNat * 4096 := by
    rw [haddress, Int.bmod_def]
    split <;> omega
  apply UInt64.toNat_inj.mp
  rw [pageNumber, hdistance, Int.mul_tdiv_cancel _ (by decide), toNat_cUInt64_natCast page.toNat_lt]

theorem selfMapping_selfTranslate (hbase : WellPlaced base) :
    SelfMapping base (pageAddress base) (selfTranslate base) where
  mapped s page hpage := by
    rintro ⟨p, e, hfind, hload, haddress⟩
    rw [selfTranslate, pageNumber_pageAddress hbase hpage, run_bind_of_ok hfind]
    refine (run_bind_of_ok hload).trans ?_
    rw [haddress]
    rfl
  unmapped s page hpage hfind := by
    rw [selfTranslate, pageNumber_pageAddress hbase hpage, run_bind_of_ok hfind]
    rfl
  reads s address a t h := by
    have hkeeps : Guarantees (· = ·) (selfTranslate base address) fun _ ↦ True := by
      refine (vmFind_guarantees _).bind fun found _ ↦ ?_
      cases found with
      | none => exact .pure trivial
      | some p => exact (loadEntry_guarantees p).bind fun e _ ↦ .pure trivial
    have hsame := (hkeeps s).1
    rw [h] at hsame
    exact hsame.symm

theorem run_pfree_one {translate : UInt64 → VM UInt64} {address a : UInt64} {s : Machine}
    (h : (translate address).run s = .ok a s) : (pfree base translate address 1).run s = .ok () s := by
  have hunmap : (vmUnmap base (pageNumber base a) (0 : ℕ)).run s = .ok 0 s :=
    run_vmUnmap_of_nonpos fun _ ↦ le_rfl
  have hdeallocate : (liftFrames (deallocateFrame (pageNumber base a) (0 : ℕ))).run s = .ok (-1) s :=
    rfl
  have hbody : (pfreeBody base translate address 0 ()).run s = .ok (.yield ()) s := by
    rw [pfreeBody, run_bind_of_ok h]
    exact (run_bind_of_ok hunmap).trans (run_bind_of_ok hdeallocate)
  exact run_forLoop_of_yield hbody

theorem PageTable.Holds.mappedTo (hbase : WellPlaced base) {s : PageTable}
    {table : List ℕ → Option ℕ} {leaf : List ℕ → ℕ → Option ℕ} (h : s.Holds base table leaf)
    {page frame : UInt64} (hpage : s.entered page = some ⟨frame, true⟩) :
    MappedTo base s.machine page frame.toNat := by
  obtain ⟨n, hn, -, hread, hfind⟩ := h.run_vmFind hbase hpage
  have hbound := frame_bound hn
  have hindex := tableIndex_lt page 3
  refine ⟨_, _, hfind, run_loadEntry base (by omega), ?_⟩
  rw [Machine.entryAt, hread, Slot.toNat_address (h.valid page _ hpage).frame_lt]

end Self

theorem run_allocateFrame_first {s : Frames} {f : ℕ} (hf : f < numFrames)
    (hfree : s.marked f = false) (hbefore : ∀ g < f, s.marked g = true) :
    (allocateFrame 1).run s = .ok (f : ℤ) ((s.markFrame f).count 1) := by
  have hwindow : Windows.Free s.marked f 1 := by
    intro q hle hlt
    obtain rfl : q = f := by omega
    exact hfree
  rcases run_allocateFrame (s := s) (n := 1) Nat.one_pos with ⟨g, hfirst, -, hrun⟩ | ⟨hnone, -⟩
  · have hg : s.marked g = false := hfirst.1 g le_rfl (Nat.lt_succ_self g)
    rcases Nat.lt_trichotomy g f with hlt | rfl | hlt
    · exact absurd (hbefore g hlt) (by simp [hg])
    · exact hrun
    · exact absurd hwindow (hfirst.2 f hlt)
  · exact absurd hwindow (hnone f hf)

/-- After two calls of `allocate_frame` page 1 is mapped to the second frame. -/
theorem exists_palloced : ∃ f g s, (allocateFrame 1).run emptyMachine.frames = .ok 0 f ∧
    (allocateFrame 1).run f = .ok 1 g ∧
      (vmMap (2 ^ 32) 1 1 1 0).run { emptyMachine with frames := g } = .ok 1 s ∧
        s.Palloced (2 ^ 32) 1 1 := by
  let f := (emptyMachine.frames.markFrame 0).count 1
  let g := (f.markFrame 1).count 1
  let m : Machine := { emptyMachine with frames := g }
  have hfirst : f.setBits = 1 := by
    have hcount := emptyMachine.frames.setBits_markFrame (f := 0) (by decide) (by decide)
    rwa [setBits_emptyMachine] at hcount
  have hsecond : g.setBits = 2 := by
    have hcount := f.setBits_markFrame (f := 1) (by decide) (by decide)
    rwa [hfirst] at hcount
  have hstart : PageTable.Tabled (2 ^ 32) ⟨m, fun _ ↦ none⟩ := .inl ⟨rfl, fun _ ↦ rfl⟩
  have hroom : m.frames.setBits + 4 ≤ numFrames := by
    rw [show m.frames.setBits = 2 from hsecond]
    decide
  have hplaces : PageTable.Places ⟨m, fun _ ↦ none⟩ 1 1 :=
    places_of_room hroom (by decide) (by decide)
  obtain ⟨s, hrun, -, hholds⟩ := hstart.run_vmMap_one wellPlaced_two_pow (by decide) (by decide)
    (fun e he ↦ by cases he) hplaces 0
  obtain ⟨table, leaf, hs⟩ := hholds ⟨s, fun q ↦ if q = 1 then some ⟨1, true⟩ else none⟩ rfl rfl
    fun q hq ↦ if_neg hq
  have hf : (allocateFrame 1).run emptyMachine.frames = .ok 0 f :=
    run_allocateFrame_first (f := 0) (by decide) (by decide) (by omega)
  have hg : (allocateFrame 1).run f = .ok 1 g := by
    refine run_allocateFrame_first (f := 1) (by decide) (by decide) fun q hq ↦ ?_
    obtain rfl : q = 0 := by omega
    decide
  refine ⟨f, g, s, hf, hg, hrun, ⟨fun q hle hlt ↦ ?_, fun q hle hlt ↦ ?_⟩⟩
  · obtain rfl : q = 1 := Nat.le_antisymm (Nat.le_of_lt_succ hlt) hle
    have hkeeps : Guarantees Machine.KeepsMarked (vmMap (2 ^ 32) 1 1 1 0) fun _ ↦ True :=
      vmMap_keepsMarked 1 1 1 0
    have hkept := (hkeeps m).1
    rw [hrun] at hkept
    exact ⟨by decide, hkept 1 (by decide)⟩
  · obtain rfl : q = 1 := UInt64.toNat_inj.mp (Nat.le_antisymm (Nat.le_of_lt_succ hlt) hle)
    exact hs.mappedTo wellPlaced_two_pow rfl

theorem pfree_never_releases_one : ∃ s, s.Palloced (2 ^ 32) 1 1 ∧
    ¬ Releases (2 ^ 32) (selfTranslate (2 ^ 32)) s (pageAddress (2 ^ 32) 1) 1 1 := by
  obtain ⟨f, g, s, -, -, -, hs⟩ := exists_palloced
  exact ⟨s, hs, pfree_never_releases (selfMapping_selfTranslate wellPlaced_two_pow) (by decide) hs⟩

/-- The page is still mapped and its frame allocated when its only page has been
released. -/
theorem released_page_stays_mapped : ∃ f g s, (allocateFrame 1).run emptyMachine.frames = .ok 0 f ∧
    (allocateFrame 1).run f = .ok 1 g ∧
      (vmMap (2 ^ 32) 1 1 1 0).run { emptyMachine with frames := g } = .ok 1 s ∧
        s.Palloced (2 ^ 32) 1 1 ∧
          (pfree (2 ^ 32) (selfTranslate (2 ^ 32)) (pageAddress (2 ^ 32) 1) 1).run s = .ok () s ∧
            ¬ Releases (2 ^ 32) (selfTranslate (2 ^ 32)) s (pageAddress (2 ^ 32) 1) 1 1 := by
  obtain ⟨f, g, s, hf, hg, hmap, hs⟩ := exists_palloced
  have hmapped := hs.mapped 1 le_rfl (by decide)
  have hrun : (pfree (2 ^ 32) (selfTranslate (2 ^ 32)) (pageAddress (2 ^ 32) 1) 1).run s =
      .ok () s :=
    run_pfree_one ((selfMapping_selfTranslate wellPlaced_two_pow).mapped s 1 (by decide) hmapped)
  refine ⟨f, g, s, hf, hg, hmap, hs, hrun, fun hreleases ↦ ?_⟩
  obtain ⟨p, e, hfind, -⟩ := hmapped
  exact (hreleases.of_eq hrun).1 1 le_rfl (by decide) ⟨p, hfind⟩

end OsProjects.Memory
