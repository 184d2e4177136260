import OsProjects.Memory.LiveRanges
import Mathlib.Algebra.Order.BigOperators.Group.List

/-!
# The counters of the frame allocator

`frames_allocated` and `frames_available` follow the numbers of frames asked
for, while the bitmap has one bit for each live allocation.  Both sides are
functions of the live allocations, whatever the order of the calls was.
-/

namespace OsProjects.Memory

open Library.Program Library.FirstFit Library.Windows Library.Runs

def Frames.setBits (s : Frames) : ℕ :=
  ((Finset.range numFrames).filter fun f ↦ s.marked f = true).card

/-- The frames asked for by the live allocations. -/
def State.requested (s : State) : ℤ := (s.live.map Allocation.count).sum

/-! ## Both sides of a run -/

structure State.Counted (s : State) : Prop where
  allocated : s.frames.framesAllocated = cUInt64 s.requested
  available : s.frames.framesAvailable = cUInt64 (numFrames - s.requested)

theorem counted_initialState : initialState.Counted := ⟨rfl, rfl⟩

theorem State.requested_erase {s : State} {a : Allocation} (ha : a ∈ s.live) (t : Frames) :
    State.requested ⟨t, s.live.erase a⟩ = s.requested - a.count := by
  have hperm := ((List.perm_cons_erase ha).map Allocation.count).sum_eq
  rw [List.map_cons, List.sum_cons] at hperm
  simp only [requested]
  omega

theorem State.Counted.step {s t : State} (hs : s.Counted) (htracked : s.Tracked) {c : Call}
    (h : Step s c t) : t.Counted := by
  cases h with
  | @allocate n r t hrun =>
      rcases cases_of_run_allocate hrun with ⟨rfl, rfl⟩ | ⟨f, rfl, -, -, -, rfl⟩
      · exact hs
      · have hnew : State.requested ⟨(s.frames.markFrame f).count (cUInt64 n),
            ⟨f, n⟩ :: s.live⟩ = s.requested + n := by
          rw [requested, List.map_cons, List.sum_cons, requested, Int.add_comm]
        rw [if_neg (by omega)]
        constructor
        · rw [hnew, cUInt64_add, ← hs.allocated]
          rfl
        · rw [hnew, ← Int.sub_sub, cUInt64_sub, ← hs.available]
          rfl
  | @deallocate a r t ha hrun =>
      obtain ⟨f, -, -, rfl⟩ := htracked.of_run_deallocate ha hrun
      constructor
      · rw [requested_erase ha, cUInt64_sub, ← hs.allocated]
        rfl
      · rw [requested_erase ha, sub_sub_eq_add_sub, add_sub_right_comm, cUInt64_add,
          ← hs.available]
        rfl

theorem State.Tracked.setBits_eq {s : State} (hs : s.Tracked) :
    s.frames.setBits = s.live.length := by
  have hinj : (s.live.map fun a ↦ a.frame.toNat).Nodup := by
    refine hs.nodup.of_map.map_on fun a ha b hb heq ↦ ?_
    have hnonneg := (hs.bounds a ha).1
    have hnonneg' := (hs.bounds b hb).1
    exact List.inj_on_of_nodup_map hs.nodup ha hb (by omega)
  have hbits : (Finset.range numFrames).filter (fun f ↦ s.frames.marked f = true) =
      (s.live.map fun a ↦ a.frame.toNat).toFinset := by
    ext f
    rw [Finset.mem_filter, Finset.mem_range, List.mem_toFinset, List.mem_map]
    constructor
    · rintro ⟨hf, hmarked⟩
      obtain ⟨a, ha, hframe⟩ := List.mem_map.mp ((hs.marked_iff f hf).mp hmarked)
      exact ⟨a, ha, by omega⟩
    · rintro ⟨a, ha, rfl⟩
      obtain ⟨hnonneg, hcount, hlt⟩ := hs.bounds a ha
      have hf : a.frame.toNat < numFrames := by omega
      refine ⟨hf, (hs.marked_iff _ hf).mpr (List.mem_map.mpr ⟨a, ha, ?_⟩)⟩
      omega
  rw [Frames.setBits, hbits, List.toFinset_card_of_nodup hinj, List.length_map]

theorem Frames.setBits_le (s : Frames) : s.setBits ≤ numFrames := by
  rw [setBits]
  exact (Finset.card_filter_le _ _).trans (Finset.card_range numFrames).le

theorem State.Tracked.requested_bounds {s : State} (hs : s.Tracked) :
    (s.live.length : ℤ) ≤ s.requested ∧ s.requested ≤ numFrames * numFrames := by
  have hlength : s.live.length ≤ numFrames := hs.setBits_eq ▸ s.frames.setBits_le
  have hlower := List.card_nsmul_le_sum (s.live.map Allocation.count) 1 fun c hc ↦ by
    obtain ⟨a, ha, rfl⟩ := List.mem_map.mp hc
    have := hs.bounds a ha
    omega
  have hupper := List.sum_le_card_nsmul (s.live.map Allocation.count) numFrames fun c hc ↦ by
    obtain ⟨a, ha, rfl⟩ := List.mem_map.mp hc
    have := hs.bounds a ha
    omega
  rw [List.length_map] at hlower hupper
  simp only [nsmul_eq_mul, mul_one, numFrames] at *
  rw [requested]
  omega

theorem Reaches.counted {allowed : State → Call → Prop} {calls : List Call} {s : State}
    (h : Reaches allowed calls s) : s.Counted := by
  obtain ⟨g, t, hinit, hrun⟩ := h
  cases hinit
  have hboth := hrun.invariant (P := fun t ↦ t.Tracked ∧ t.Counted)
    ⟨tracked_initialState, counted_initialState⟩ fun t c u ht hstep ↦
      ⟨ht.1.step hstep.1, ht.2.step ht.1 hstep.1⟩
  exact hboth.2

/-! ## Counters and bits -/

/-- The counters agree with the bitmap, and they are what the live allocations asked for,
and what is left of 1024.  A call that leads from such a state to another has not let
them wrap around. -/
structure State.Described (s : State) : Prop where
  allocated : s.frames.framesAllocated.toNat = s.frames.setBits
  available : s.frames.framesAvailable.toNat + s.frames.setBits = 1024
  allocated_exact : (s.frames.framesAllocated.toNat : ℤ) = s.requested
  available_exact : (s.frames.framesAvailable.toNat : ℤ) = 1024 - s.requested

theorem sum_count_eq_length_iff {l : List Allocation} (h : ∀ a ∈ l, 0 < a.count) :
    (l.map Allocation.count).sum = l.length ↔ ∀ a ∈ l, a.count = 1 := by
  induction l with
  | nil => simp
  | cons a l ih =>
      have hpos := h a List.mem_cons_self
      have hrest : ∀ b ∈ l, 0 < b.count := fun b hb ↦ h b (List.mem_cons_of_mem a hb)
      have hlower := List.card_nsmul_le_sum (l.map Allocation.count) 1 fun c hc ↦ by
        obtain ⟨b, hb, rfl⟩ := List.mem_map.mp hc
        exact hrest b hb
      rw [List.length_map, nsmul_eq_mul, mul_one] at hlower
      rw [List.map_cons, List.sum_cons, List.length_cons, List.forall_mem_cons, ← ih hrest]
      omega

theorem State.Tracked.described_iff {s : State} (hs : s.Tracked) (hcounted : s.Counted) :
    s.Described ↔ s.Single := by
  have hsum := sum_count_eq_length_iff fun a ha ↦ (hs.bounds a ha).2.1
  obtain ⟨hlower, hupper⟩ := hs.requested_bounds
  have hle := s.frames.setBits_le
  have hbits := hs.setBits_eq
  have hallocated : (s.frames.framesAllocated.toNat : ℤ) = s.requested := by
    rw [hcounted.allocated, toNat_cUInt64]
    simp only [numFrames] at *
    omega
  have havailable := congrArg UInt64.toNat hcounted.available
  rw [toNat_cUInt64] at havailable
  simp only [numFrames] at *
  rw [Single, ← hsum]
  constructor
  · intro h
    have := h.allocated
    simp only [requested] at *
    omega
  · intro h
    have hexact : s.requested = s.live.length := h
    exact ⟨by omega, by omega, hallocated, by omega⟩

/-- The counters describe the bitmap exactly as long as no allocation of several
frames is live. -/
theorem counters_described_iff {calls : List Call} {s : State} :
    (Reaches State.Meets calls s → s.Described) ∧
      (Reaches (fun _ _ ↦ True) calls s → (s.Described ↔ ∀ a ∈ s.live, a.count = 1)) :=
  ⟨fun h ↦ (h.tracked.described_iff h.counted).mpr h.single,
    fun h ↦ h.tracked.described_iff h.counted⟩

theorem counters_described_iff_reused : ∃ s, Reaches State.Meets
    [.allocate 1, .allocate 1, .allocate 1, .deallocate ⟨1, 1⟩, .allocate 1] s ∧
      s.live.length = 3 ∧ s.Described := by
  obtain ⟨s, hreaches, hlive⟩ := reaches_reused
  exact ⟨s, hreaches, by rw [hlive]; rfl, counters_described_iff.1 hreaches⟩

theorem two_counted_one_marked :
    ∃ s, Reaches (fun _ _ ↦ True) [.allocate 2] s ∧ s.frames.framesAllocated = 2 ∧
      s.frames.setBits = 1 ∧ ¬ s.Described := by
  obtain ⟨t, htwo, hcount⟩ : ∃ t, (allocateFrame 2).run initialState.frames = .ok 0 t ∧
      t.framesAllocated = 2 := ⟨_, rfl, rfl⟩
  have hreaches : Reaches (fun _ _ ↦ True) [.allocate 2] ⟨t, [⟨0, 2⟩]⟩ :=
    ⟨initialState.frames, initialState.frames, rfl, .snoc .nil ⟨.allocate htwo, trivial⟩⟩
  refine ⟨_, hreaches, hcount, hreaches.tracked.setBits_eq, fun h ↦ ?_⟩
  have hsingle := (hreaches.tracked.described_iff hreaches.counted).mp h
  exact absurd (hsingle _ List.mem_cons_self) (by decide)

/-! ## Releasing everything -/

/-- Without live allocations the allocator is as `frame_init` leaves it. -/
theorem released_all_restores {calls : List Call} {s : State}
    (h : Reaches (fun _ _ ↦ True) calls s) (hlive : s.live = []) :
    s.frames.bitmap = (fun _ ↦ 0) ∧ s.frames.framesAllocated = 0 ∧
      s.frames.framesAvailable = 1024 ∧ ∀ g, frameInit.run g = .ok () s.frames := by
  have hrequested : s.requested = 0 := by rw [State.requested, hlive, List.map_nil, List.sum_nil]
  have hallocated := h.counted.allocated
  have havailable := h.counted.available
  rw [hrequested] at hallocated havailable
  have hbitmap : s.frames.bitmap = fun _ ↦ 0 := by
    refine Library.Bytes.eq_zero_of_bitAt fun f hf ↦ ?_
    have hmarked := h.tracked.marked_iff f hf
    rw [hlive, List.map_nil, iff_false_right List.not_mem_nil, Bool.not_eq_true] at hmarked
    exact hmarked
  refine ⟨hbitmap, hallocated, havailable, fun g ↦ ?_⟩
  have hframes : s.frames = ⟨0, 1024, fun _ ↦ 0⟩ := by
    rw [← hbitmap]
    exact congrArg₂ (fun x y ↦ Frames.mk x y _) hallocated havailable
  rw [hframes]
  rfl

theorem released_all_restores_two :
    ∃ s, Reaches (fun _ _ ↦ True) [.allocate 2, .deallocate ⟨0, 2⟩] s ∧
      s.frames.bitmap = fun _ ↦ 0 := by
  obtain ⟨t, u, htwo, hback⟩ : ∃ t u, (allocateFrame 2).run initialState.frames = .ok 0 t ∧
      (deallocateFrame 0 2).run t = .ok (-1) u := ⟨_, _, rfl, rfl⟩
  have hfirst : Step ⟨initialState.frames, []⟩ (.allocate 2) ⟨t, [⟨0, 2⟩]⟩ := .allocate htwo
  have hsecond : Step ⟨t, [⟨0, 2⟩]⟩ (.deallocate ⟨0, 2⟩) ⟨u, []⟩ :=
    .deallocate List.mem_cons_self hback
  have hreaches : Reaches (fun _ _ ↦ True) [.allocate 2, .deallocate ⟨0, 2⟩] ⟨u, []⟩ :=
    ⟨initialState.frames, initialState.frames, rfl,
      .snoc (.snoc .nil ⟨hfirst, trivial⟩) ⟨hsecond, trivial⟩⟩
  exact ⟨_, hreaches, (released_all_restores hreaches rfl).1⟩

end OsProjects.Memory
