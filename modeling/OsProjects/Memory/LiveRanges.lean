import OsProjects.Library.Runs
import OsProjects.Memory.Frame
import Mathlib.Order.Interval.Set.Basic
import Mathlib.Order.CompletePartialOrder
import Mathlib.Data.Int.ConditionallyCompleteOrder
import Mathlib.Data.List.Nodup
import Mathlib.Data.Finset.Card

/-!
# Ranges handed out by the frame allocator

Runs of the allocator in which only live allocations are given back.  Exactly
the first frames of the live allocations are marked, which protects
allocations of one frame from each other and longer ones not at all.
-/

namespace OsProjects.Memory

open Library.Program Library.FirstFit Library.Windows Library.Runs

/-! ## Runs -/

/-- A successful call of `allocate_frame`: its result and its argument. -/
structure Allocation where
  frame : ℤ
  count : ℤ
  deriving DecidableEq

def Allocation.range (a : Allocation) : Set ℤ := Set.Ico a.frame (a.frame + a.count)

inductive Call
  | allocate (numberFrames : ℤ)
  | deallocate (a : Allocation)

structure State where
  frames : Frames
  live : List Allocation

inductive Step (s : State) : Call → State → Prop
  | allocate {n r : ℤ} {t : Frames} : (allocateFrame n).run s.frames = .ok r t →
      Step s (.allocate n) ⟨t, if r = -1 then s.live else ⟨r, n⟩ :: s.live⟩
  | deallocate {a : Allocation} {r : ℤ} {t : Frames} : a ∈ s.live →
      (deallocateFrame (cUInt64 a.frame) a.count).run s.frames = .ok r t →
      Step s (.deallocate a) ⟨t, s.live.erase a⟩

def initialState : State := ⟨⟨0, 1024, fun _ ↦ 0⟩, []⟩

def Reaches (allowed : State → Call → Prop) (calls : List Call) (s : State) : Prop :=
  ∃ g t, frameInit.run g = .ok () t ∧ Run (fun s c t ↦ Step s c t ∧ allowed s c) ⟨t, []⟩ calls s

/-! ## Marked frames -/

/-- The live allocations lie in the memory, begin at different frames, and
exactly these frames are marked. -/
structure State.Tracked (s : State) : Prop where
  bounds : ∀ a ∈ s.live, 0 ≤ a.frame ∧ 0 < a.count ∧ a.frame + a.count ≤ numFrames
  nodup : (s.live.map Allocation.frame).Nodup
  marked_iff : ∀ f < numFrames, s.frames.marked f = true ↔ (f : ℤ) ∈ s.live.map Allocation.frame

theorem tracked_initialState : initialState.Tracked := by
  refine ⟨by simp [initialState], List.nodup_nil, fun f hf ↦ ?_⟩
  simp [initialState, Frames.marked, Library.Bytes.bitAt, Library.Bytes.byteAt]

/-- What a call of `allocate_frame` does: it is refused, or returns the first
frame of a window whose bits are clear and marks that frame. -/
theorem cases_of_run_allocate {s t : Frames} {n r : ℤ} (h : (allocateFrame n).run s = .ok r t) :
    r = -1 ∧ t = s ∨ ∃ f : ℕ, r = f ∧ 0 < n ∧ f + n ≤ numFrames ∧ Free s.marked f n.toNat ∧
      t = (s.markFrame f).count (cUInt64 n) := by
  by_cases hpos : 0 < n
  · obtain ⟨k, rfl⟩ := Int.eq_ofNat_of_zero_le hpos.le
    rcases run_allocateFrame (s := s) (n := k) (by omega) with ⟨f, hfirst, hlt, hrun⟩ | ⟨-, hrun⟩
    · rw [hrun] at h
      cases h
      exact .inr ⟨f, rfl, hpos, by omega, by simpa using hfirst.1, rfl⟩
    · rw [hrun] at h
      cases h
      exact .inl ⟨rfl, rfl⟩
  · rw [run_allocateFrame_of_nonpos (by omega)] at h
    cases h
    exact .inl ⟨rfl, rfl⟩

theorem State.Tracked.of_run_deallocate {s : State} (hs : s.Tracked) {a : Allocation} {r : ℤ}
    {t : Frames} (ha : a ∈ s.live)
    (h : (deallocateFrame (cUInt64 a.frame) a.count).run s.frames = .ok r t) :
    ∃ f : ℕ, a.frame = f ∧ f < numFrames ∧
      t = (s.frames.clearFrame f).uncount (cUInt64 a.count) := by
  obtain ⟨hnonneg, hcount, hlt⟩ := hs.bounds a ha
  obtain ⟨f, hf⟩ := Int.eq_ofNat_of_zero_le hnonneg
  have hframe : (cUInt64 a.frame).toNat = f := by
    rw [hf]
    exact toNat_cUInt64_frame (by omega)
  rw [run_deallocateFrame (by rw [hframe]; omega) hcount, hframe] at h
  cases h
  exact ⟨f, hf, by omega, rfl⟩

theorem State.Tracked.mem_erase {s : State} (hs : s.Tracked) {a b : Allocation} (ha : a ∈ s.live) :
    b ∈ s.live.erase a ↔ b ∈ s.live ∧ b.frame ≠ a.frame := by
  rw [hs.nodup.of_map.mem_erase_iff]
  constructor
  · rintro ⟨hne, hb⟩
    exact ⟨hb, fun heq ↦ hne (List.inj_on_of_nodup_map hs.nodup hb ha heq)⟩
  · rintro ⟨hb, hne⟩
    exact ⟨fun heq ↦ hne (congrArg Allocation.frame heq), hb⟩

theorem State.Tracked.step {s t : State} (hs : s.Tracked) {c : Call} (h : Step s c t) :
    t.Tracked := by
  cases h with
  | @allocate n r t hrun =>
      rcases cases_of_run_allocate hrun with ⟨rfl, rfl⟩ | ⟨f, rfl, hpos, hlt, hfree, rfl⟩
      · exact hs
      · have hclear : s.frames.marked f = false := hfree f (by omega) (by omega)
        have hnew : (f : ℤ) ∉ s.live.map Allocation.frame := by
          intro hmem
          rw [(hs.marked_iff f (by omega)).mpr hmem] at hclear
          cases hclear
        rw [if_neg (by omega)]
        refine ⟨?_, List.nodup_cons.mpr ⟨hnew, hs.nodup⟩, ?_⟩
        · intro a ha
          rcases List.mem_cons.mp ha with rfl | ha
          · exact ⟨by simp, hpos, by simpa using hlt⟩
          · exact hs.bounds a ha
        · intro q hq
          have hold := hs.marked_iff q hq
          rw [Frames.count_marked, Frames.marked_markFrame _ (by omega), mark_apply, Bool.or_eq_true, decide_eq_true_iff, hold, List.map_cons,
            List.mem_cons, Nat.cast_inj, or_comm]
  | @deallocate a r t ha hrun =>
      obtain ⟨f, hf, hlt, rfl⟩ := hs.of_run_deallocate ha hrun
      refine ⟨fun b hb ↦ hs.bounds b (List.mem_of_mem_erase hb),
        hs.nodup.sublist (List.erase_sublist.map _), fun q hq ↦ ?_⟩
      rw [Frames.uncount_marked, Frames.marked_clearFrame _ hlt, Bool.and_eq_true,
        hs.marked_iff q hq, Bool.not_eq_true', decide_eq_false_iff_not]
      simp only [List.mem_map, hs.mem_erase ha]
      constructor
      · rintro ⟨⟨b, hb, hbq⟩, hne⟩
        exact ⟨b, ⟨hb, by omega⟩, hbq⟩
      · rintro ⟨b, ⟨hb, hne⟩, hbq⟩
        exact ⟨⟨b, hb, hbq⟩, by omega⟩

/-! ## Runs without requests for several frames -/

/-- A request is for at most one frame, or there are not that many consecutive
frames with clear bits. -/
def State.Meets (s : State) : Call → Prop
  | .allocate n => n ≤ 1 ∨ ∀ f, f + n.toNat ≤ numFrames → ¬ Free s.frames.marked f n.toNat
  | .deallocate _ => True

/-- The live ranges lie in the memory and do not overlap. -/
structure State.Separated (s : State) : Prop where
  subset : ∀ a ∈ s.live, a.range ⊆ Set.Ico 0 1024
  pairwise : s.live.Pairwise fun a b ↦ Disjoint a.range b.range

theorem State.not_separated {s : State} {a b : Allocation} (ha : a ∈ s.live) (hb : b ∈ s.live)
    (hne : a ≠ b) {q : ℤ} (hqa : q ∈ a.range) (hqb : q ∈ b.range) : ¬ s.Separated := by
  intro hseparated
  have hsymm : Std.Symm fun a b : Allocation ↦ Disjoint a.range b.range := ⟨fun _ _ h ↦ h.symm⟩
  have hdisjoint := hseparated.pairwise.forall ha hb hne
  exact Set.disjoint_left.mp hdisjoint hqa hqb

def State.Single (s : State) : Prop := ∀ a ∈ s.live, a.count = 1

theorem State.Single.step {s t : State} (hs : s.Single) {c : Call} (hmeets : s.Meets c)
    (h : Step s c t) : t.Single := by
  cases h with
  | @allocate n r t hrun =>
      rcases cases_of_run_allocate hrun with ⟨rfl, rfl⟩ | ⟨f, rfl, hpos, hlt, hfree, -⟩
      · exact hs
      · rw [if_neg (by omega)]
        intro a ha
        rcases List.mem_cons.mp ha with rfl | ha
        · rcases hmeets with hone | hnone
          · simp only
            omega
          · exact absurd hfree (hnone f (by omega))
        · exact hs a ha
  | deallocate ha hrun => exact fun b hb ↦ hs b (List.mem_of_mem_erase hb)

theorem State.Tracked.separated {s : State} (hs : s.Tracked) (hsingle : s.Single) :
    s.Separated := by
  constructor
  · intro a ha q hq
    obtain ⟨hnonneg, hcount, hlt⟩ := hs.bounds a ha
    simp only [Allocation.range, Set.mem_Ico, numFrames] at *
    omega
  · have hne := List.pairwise_map.mp hs.nodup
    refine hne.imp_of_mem fun {a b} ha hb hframe ↦ ?_
    rw [Set.disjoint_left]
    intro q hqa hqb
    have hone := hsingle a ha
    have hone' := hsingle b hb
    simp only [Allocation.range, Set.mem_Ico] at *
    omega

theorem Reaches.tracked {allowed : State → Call → Prop} {calls : List Call} {s : State}
    (h : Reaches allowed calls s) : s.Tracked := by
  obtain ⟨g, t, hinit, hrun⟩ := h
  cases hinit
  exact hrun.invariant tracked_initialState fun t c u ht hstep ↦ ht.step hstep.1

theorem Reaches.single {calls : List Call} {s : State} (h : Reaches State.Meets calls s) :
    s.Single := by
  obtain ⟨g, t, hinit, hrun⟩ := h
  cases hinit
  refine hrun.invariant ?_ fun t c u ht hstep ↦ ht.step hstep.2 hstep.1
  intro a ha
  cases ha

/-- Frames are never handed out twice in a run in which no request for several
frames is met. -/
theorem live_ranges_separated {calls : List Call} {s : State} (h : Reaches State.Meets calls s) :
    s.Separated := h.tracked.separated h.single

/-- Three frames are handed out one by one, and the second again once it is given back. -/
theorem reaches_reused : ∃ s, Reaches State.Meets
    [.allocate 1, .allocate 1, .allocate 1, .deallocate ⟨1, 1⟩, .allocate 1] s ∧
      s.live = [⟨1, 1⟩, ⟨2, 1⟩, ⟨0, 1⟩] := by
  obtain ⟨t, u, v, w, x, hfirst, hsecond, hthird, hback, hagain⟩ :
      ∃ t u v w x, (allocateFrame 1).run initialState.frames = .ok 0 t ∧
        (allocateFrame 1).run t = .ok 1 u ∧ (allocateFrame 1).run u = .ok 2 v ∧
        (deallocateFrame 1 1).run v = .ok (-1) w ∧ (allocateFrame 1).run w = .ok 1 x :=
    ⟨_, _, _, _, _, rfl, rfl, rfl, rfl, rfl⟩
  have hallocate {s t : Frames} {r : ℤ} {live : List Allocation}
      (hrun : (allocateFrame 1).run s = .ok r t) (hr : r ≠ -1) :
      Step ⟨s, live⟩ (.allocate 1) ⟨t, ⟨r, 1⟩ :: live⟩ := by
    have hstep := Step.allocate (s := ⟨s, live⟩) hrun
    rwa [if_neg hr] at hstep
  have hdeallocate : Step ⟨v, [⟨2, 1⟩, ⟨1, 1⟩, ⟨0, 1⟩]⟩ (.deallocate ⟨1, 1⟩)
      ⟨w, [⟨2, 1⟩, ⟨0, 1⟩]⟩ := .deallocate (List.mem_cons_of_mem _ List.mem_cons_self) hback
  have hrun : Run (fun s c t ↦ Step s c t ∧ s.Meets c) ⟨initialState.frames, []⟩
      [.allocate 1, .allocate 1, .allocate 1] ⟨v, [⟨2, 1⟩, ⟨1, 1⟩, ⟨0, 1⟩]⟩ :=
    .snoc (.snoc (.snoc .nil ⟨hallocate hfirst (by decide), .inl le_rfl⟩)
      ⟨hallocate hsecond (by decide), .inl le_rfl⟩) ⟨hallocate hthird (by decide), .inl le_rfl⟩
  have hreused := Run.snoc (.snoc hrun ⟨hdeallocate, trivial⟩)
    ⟨hallocate hagain (by decide), .inl le_rfl⟩
  exact ⟨_, ⟨initialState.frames, initialState.frames, rfl, hreused⟩, rfl⟩

theorem live_ranges_separated_reused : ∃ s, Reaches State.Meets
    [.allocate 1, .allocate 1, .allocate 1, .deallocate ⟨1, 1⟩, .allocate 1] s ∧
      s.live = [⟨1, 1⟩, ⟨2, 1⟩, ⟨0, 1⟩] ∧ s.Separated := by
  obtain ⟨s, hreaches, hlive⟩ := reaches_reused
  exact ⟨s, hreaches, hlive, live_ranges_separated hreaches⟩

theorem frame_one_handed_out_twice :
    ∃ s, Reaches (fun _ _ ↦ True) [.allocate 2, .allocate 1] s ∧ s.live = [⟨1, 1⟩, ⟨0, 2⟩] ∧
      ¬ s.Separated := by
  obtain ⟨t, u, htwo, hone⟩ : ∃ t u, (allocateFrame 2).run initialState.frames = .ok 0 t ∧
      (allocateFrame 1).run t = .ok 1 u := ⟨_, _, rfl, rfl⟩
  refine ⟨⟨u, [⟨1, 1⟩, ⟨0, 2⟩]⟩, ⟨initialState.frames, initialState.frames, rfl, ?_⟩, rfl, ?_⟩
  · have hfirst : Step ⟨initialState.frames, []⟩ (.allocate 2) ⟨t, [⟨0, 2⟩]⟩ := .allocate htwo
    have hsecond : Step ⟨t, [⟨0, 2⟩]⟩ (.allocate 1) ⟨u, [⟨1, 1⟩, ⟨0, 2⟩]⟩ :=
      Step.allocate (r := 1) hone
    exact .snoc (.snoc .nil ⟨hfirst, trivial⟩) ⟨hsecond, trivial⟩
  · exact State.not_separated (a := ⟨1, 1⟩) (b := ⟨0, 2⟩) (q := 1) List.mem_cons_self
      (List.mem_cons_of_mem _ List.mem_cons_self) (by decide) (by simp [Allocation.range])
      (by simp [Allocation.range])

/-! ## Requests for several frames -/

/-- While an allocation of several frames is live, requests for one frame lead
to the second of its frames. -/
theorem State.Tracked.exists_overlap {s : State} (hs : s.Tracked) {a : Allocation}
    (ha : a ∈ s.live) (hcount : 1 < a.count) :
    ∃ calls t, Run Step s calls t ∧ ¬ t.Separated := by
  obtain ⟨g, hg⟩ : ∃ g : ℕ, a.frame + 1 = g :=
    Int.eq_ofNat_of_zero_le (by have := (hs.bounds a ha).1; omega)
  have hlt := (hs.bounds a ha).2.2
  generalize hk : (freeBelow 0 (g + 1) s.frames.marked).card = k
  induction k using Nat.strong_induction_on generalizing s with
  | _ k ih =>
      cases hmarked : s.frames.marked g with
      | true =>
          obtain ⟨b, hb, hframe⟩ := List.mem_map.mp ((hs.marked_iff g (by omega)).mp hmarked)
          have hpos := (hs.bounds b hb).2.1
          refine ⟨[], s, .nil, s.not_separated ha hb (fun heq ↦ ?_) (q := g) ?_ ?_⟩
          · subst heq
            omega
          · simp only [Allocation.range, Set.mem_Ico]
            omega
          · simp only [Allocation.range, Set.mem_Ico]
            omega
      | false =>
          have hfree : Free s.frames.marked g 1 := by
            intro q hq hq'
            obtain rfl : q = g := by omega
            exact hmarked
          rcases run_allocateFrame (s := s.frames) (n := 1) (by omega) with
            ⟨f, hfirst, hf, hrun⟩ | ⟨hnone, -⟩
          · have hstep := Step.allocate (s := s) hrun
            rw [if_neg (by omega)] at hstep
            have hfg : f ≤ g := by
              by_contra! hgf
              exact hfirst.2 g hgf hfree
            have hmem : f ∈ freeBelow 0 (g + 1) s.frames.marked :=
              mem_freeBelow.mpr ⟨by omega, by omega, hfirst.1 f (by omega) (by omega)⟩
            have hfewer : (freeBelow 0 (g + 1)
                ((s.frames.markFrame f).count (cUInt64 (1 : ℕ))).marked).card < k := by
              rw [Frames.count_marked, Frames.marked_markFrame _ (by omega), freeBelow_mark, ← hk]
              exact Finset.card_erase_lt_of_mem hmem
            obtain ⟨calls, t, hrest, hnot⟩ :=
              ih _ hfewer (hs.step hstep) (List.mem_cons_of_mem _ ha) rfl
            exact ⟨_, t, Run.append (.snoc .nil hstep) hrest, hnot⟩
          · exact absurd hfree (hnone g (by omega))

/-- The condition of `live_ranges_separated` leaves out no call that is
harmless for good: every other request can be followed by calls after which two
live ranges overlap. -/
theorem exists_overlap_of_not_meets {calls : List Call} {s t : State} {c : Call}
    (h : Reaches State.Meets calls s) (hnot : ¬ s.Meets c) (hstep : Step s c t) :
    ∃ more u, Run Step t more u ∧ ¬ u.Separated := by
  have htracked := h.tracked.step hstep
  cases hstep with
  | @allocate n r t hrun =>
      simp only [State.Meets] at hnot
      push Not at hnot
      obtain ⟨hn, f, hf, hfree⟩ := hnot
      obtain ⟨k, rfl⟩ := Int.eq_ofNat_of_zero_le (a := n) (by omega)
      rcases run_allocateFrame (s := s.frames) (n := k) (by omega) with
        ⟨first, -, -, hfound⟩ | ⟨hnone, -⟩
      · rw [hfound] at hrun
        cases hrun
        rw [if_neg (by omega)] at htracked ⊢
        exact htracked.exists_overlap List.mem_cons_self hn
      · exact absurd hfree (hnone f hf)
  | deallocate => exact absurd trivial hnot

end OsProjects.Memory
