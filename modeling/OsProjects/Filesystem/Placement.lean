import OsProjects.Filesystem.Sessions

/-!
# The placement of files

Nothing is ever given back on a formatted device, so that the blocks in use are
those from the first allocatable one on.  Which blocks a file has follows from the
calls of a session alone, and a session can be held exactly if the device has as many
blocks as its calls need.
-/

namespace OsProjects.Filesystem

open Library.Program Library.Bytes Library.FirstFit Library.Runs

theorem div_max_sub (a b c : ℕ) : max a b / c - a / c = b / c - a / c := by
  rcases Nat.le_total a b with hle | hle
  · rw [max_eq_right hle]
  · rw [max_eq_left hle, Nat.sub_self, Nat.sub_eq_zero_of_le (Nat.div_le_div_right hle)]

/-! ## Where a file is -/

@[ext] structure Placement where
  size : ℕ
  pointers : ℕ
  data : List ℕ

namespace Disk

variable {d e : Disk} {n m : ℕ}

def placement (d : Disk) (n : ℕ) : Placement where
  size := (d.inode n).size.toNat
  pointers := d.blockOf (.pointer n)
  data := (List.range ((d.inode n).size.toNat / blockSize + 1)).map fun i ↦ d.blockOf (.data n i)

theorem placement_congr (hn : n < maxFiles) (hused : (d.inode n).used)
    (hsize : (e.inode n).size = (d.inode n).size)
    (hblocks : ∀ s, d.Live s → s.file = n → e.blockOf s = d.blockOf s) :
    e.placement n = d.placement n := by
  apply Placement.ext
  · exact congrArg UInt64.toNat hsize
  · exact hblocks (.pointer n) ⟨hn, hused⟩ rfl
  · simp only [placement, hsize]
    refine List.map_congr_left fun i hi ↦ ?_
    have hle : i ≤ (d.inode n).size.toNat / blockSize :=
      Nat.lt_succ_iff.mp (List.mem_range.mp hi)
    exact hblocks (.data n i) ⟨hn, hused, hle⟩ rfl

section Create

variable {first second : ℕ} (hn : n < maxFiles) (htakes : d.Takes first second)
include hn htakes

theorem placement_create_self : (d.create n).placement n = ⟨0, first, [second]⟩ := by
  have hinode := inode_create hn htakes hn
  rw [if_pos rfl] at hinode
  apply Placement.ext
  · simp [placement, hinode]
  · exact blockOf_create_pointer hn htakes
  · simp [placement, hinode, blockOf_create_data hn htakes]

theorem placement_create_of_ne (hd : d.Consistent) (hm : m < maxFiles) (hused : (d.inode m).used)
    (hne : m ≠ n) : (d.create n).placement m = d.placement m := by
  refine placement_congr hm hused ?_ fun s hs hfile ↦ ?_
  · rw [inode_create hn htakes hm, if_neg hne]
  · exact blockOf_create_of_ne hn htakes hd hs (by rw [hfile]; exact hne)

end Create

section Write

variable {howMany toPos : UInt64} {buffer : ℕ → UInt8} {rs : List ℕ}
variable (hd : d.Consistent) (hn : n < maxFiles) (hused : (d.inode n).used)
include hd hn hused

theorem blockOf_resize_of_live (newSize : UInt64) (rs : List ℕ) {s : Slot} (hs : d.Live s) :
    (d.resize n newSize rs).blockOf s = d.blockOf s := by
  rw [resize]
  split
  · exact blockOf_grow_of_live newSize rs hd hn hused hs
  · rfl

theorem blockOf_resize_new {newSize : UInt64} (hend : newSize.toNat < 512 * blockSize)
    (hrs : takeFree 9 bitmapBits (d.growth n newSize.toNat) d.marked = some rs) {k : ℕ}
    (hk : k < rs.length) :
    (d.resize n newSize rs).blockOf (.data n ((d.inode n).size.toNat / blockSize + 1 + k)) =
      rs[k] := by
  have hlen := takeFree_length hrs
  by_cases hgrows : (d.inode n).size < newSize
  · rw [resize, if_pos hgrows]
    have hlt := UInt64.lt_iff_toNat_lt.mp hgrows
    refine blockOf_grow_new newSize rs hd hn hused hk ?_ fun r hr ↦ (takeFree_mem hrs hr).2.1
    rw [hlen, growth]
    simp only [blockSize] at *
    omega
  · rw [growth_eq_zero newSize hgrows] at hlen
    omega

variable (h : d.AfterWrite e n howMany toPos buffer rs)
  (hend : toPos.toNat + howMany.toNat < 512 * blockSize)
include h hend

theorem AfterWrite.blockOf_of_live {s : Slot} (hs : d.Live s) : e.blockOf s = d.blockOf s := by
  have hlive := live_resize (toPos + howMany) rs hd hn hused hs
  rw [(h.sameMetadata hd hn hused hend).blockOf_eq hlive,
    blockOf_resize_of_live hd hn hused _ _ hs]

theorem AfterWrite.placement_of_ne (hm : m < maxFiles) (hm' : (d.inode m).used) (hne : m ≠ n) :
    e.placement m = d.placement m :=
  placement_congr hm hm' (by rw [h.inode_of_ne hd hn hused hend hm hne])
    fun _ hs _ ↦ h.blockOf_of_live hd hn hused hend hs

/-- The blocks taken for a write follow the blocks of the file. -/
theorem AfterWrite.placement_self : e.placement n =
    ⟨max (d.inode n).size.toNat (toPos.toNat + howMany.toNat), (d.placement n).pointers,
      (d.placement n).data ++ rs⟩ := by
  have hsize := h.size hd hn hused hend
  have hlen := takeFree_length h.taken
  have hlast : max (d.inode n).size.toNat (toPos.toNat + howMany.toNat) / blockSize + 1 =
      (d.inode n).size.toNat / blockSize + 1 + rs.length := by
    have hdiv : (d.inode n).size.toNat / blockSize ≤
        max (d.inode n).size.toNat (toPos.toNat + howMany.toNat) / blockSize :=
      Nat.div_le_div_right (le_max_left _ _)
    rw [hlen, growth, (window_arith hend).1, ← div_max_sub]
    omega
  have hlimit : (toPos + howMany).toNat < 512 * blockSize := by
    rw [(window_arith hend).1]
    exact hend
  apply Placement.ext
  · exact hsize
  · exact h.blockOf_of_live hd hn hused hend (s := .pointer n) ⟨hn, hused⟩
  · simp only [placement, hsize, hlast]
    rw [List.range_add, List.map_append, List.map_map]
    refine congrArg₂ (· ++ ·) ?_ ?_
    · refine List.map_congr_left fun i hi ↦ ?_
      have hle : i ≤ (d.inode n).size.toNat / blockSize :=
        Nat.lt_succ_iff.mp (List.mem_range.mp hi)
      exact h.blockOf_of_live hd hn hused hend (s := .data n i) ⟨hn, hused, hle⟩
    · refine List.ext_getElem (by simp) fun k hk hk' ↦ ?_
      have hlive : (d.resize n (toPos + howMany) rs).Live
          (.data n ((d.inode n).size.toNat / blockSize + 1 + k)) := by
        refine ⟨hn, used_resize hd hn hused, ?_⟩
        rw [size_resize _ rs hd hn hused, (window_arith hend).1]
        omega
      rw [List.getElem_map, List.getElem_range, Function.comp_apply,
        (h.sameMetadata hd hn hused hend).blockOf_eq hlive,
        blockOf_resize_new hd hn hused hlimit h.taken]

end Write

end Disk

/-! ## What calls make of the device -/

/-- The files of a session with their places, and the next block to be taken. -/
structure Plan where
  files : UInt64 → Option Placement
  next : ℕ

namespace Plan

def initial : Plan := ⟨fun _ ↦ none, 9⟩

/-- A new file takes a pointer block and a data block, and a file takes another block
whenever it grows over a multiple of the size of a block.  Writes must be made to created
files, within the limit of a pointer block. -/
def call (u : Plan) : Call → Option Plan
  | .create n => some <|
      if n.toNat ≤ 8 then
        ⟨Function.update u.files n (some ⟨0, u.next, [u.next + 1]⟩), u.next + 2⟩
      else u
  | .write n _ howMany toPos => do
      let p ← u.files n
      let last := max p.size (toPos.toNat + howMany.toNat)
      let count := last / blockSize - p.size / blockSize
      if toPos.toNat + howMany.toNat < 512 * blockSize then
        some ⟨Function.update u.files n
          (some ⟨last, p.pointers, p.data ++ List.range' u.next count⟩), u.next + count⟩
      else none

def after (calls : List Call) : Option Plan := calls.foldlM call initial

theorem after_concat (calls : List Call) (c : Call) :
    after (calls ++ [c]) = (after calls).bind fun u ↦ u.call c := by
  simp [after]

variable {u v : Plan} {c : Call}

theorem next_le_of_call (h : u.call c = some v) : u.next ≤ v.next := by
  cases c with
  | create n =>
      cases h
      split
      · exact Nat.le_add_right ..
      · exact le_rfl
  | write n buffer howMany toPos =>
      obtain ⟨p, -, hp⟩ := Option.bind_eq_some_iff.mp h
      split at hp
      · cases hp
        exact Nat.le_add_right ..
      · cases hp

end Plan

/-! ## Sessions follow the plan -/

structure Session.Follows (s : Session) (u : Plan) : Prop where
  placed : ∀ n, (s.files n).map (fun _ ↦ s.world.storage.placement n.toNat) = u.files n
  le_next : 9 ≤ u.next
  marked : TakenBelow 9 u.next s.world.storage.marked

theorem Session.Follows.placement_eq {s : Session} {u : Plan} (h : s.Follows u) {n : UInt64}
    {f : File} (hf : s.files n = some f) :
    u.files n = some (s.world.storage.placement n.toNat) := by
  rw [← h.placed, hf, Option.map_some]

theorem Session.Follows.placed_update {s : Session} {u : Plan} (h : s.Follows u) {n : UInt64}
    {f : File} {p : Placement} {e : Disk} (hself : e.placement n.toNat = p)
    (hothers : ∀ m f, m.toNat ≠ n.toNat → s.files m = some f →
      e.placement m.toNat = s.world.storage.placement m.toNat) (m : UInt64) :
    (Function.update s.files n (some f) m).map (fun _ ↦ e.placement m.toNat) =
      Function.update u.files n (some p) m := by
  by_cases hmn : m = n
  · rw [hmn, Function.update_self, Function.update_self, Option.map_some, hself]
  · rw [Function.update_of_ne hmn, Function.update_of_ne hmn, ← h.placed]
    have hne : m.toNat ≠ n.toNat := fun heq ↦ hmn (UInt64.toNat_inj.mp heq)
    exact Option.map_congr fun g hg ↦ hothers m g hne hg

theorem Session.Valid.growth_eq {s : Session} (hs : s.Valid) {n howMany toPos : UInt64} {f : File}
    (hf : s.files n = some f) (hend : toPos.toNat + howMany.toNat < 512 * blockSize) :
    s.world.storage.growth n.toNat (toPos + howMany).toNat =
      max f.size (toPos.toNat + howMany.toNat) / blockSize - f.size / blockSize := by
  rw [Disk.growth, hs.size n f hf, (window_arith hend).1, div_max_sub]

theorem le_of_range' {next count : ℕ} (hnext : next ≤ numBlocks)
    (h : ∀ r ∈ List.range' next count, r < numBlocks) : next + count ≤ numBlocks := by
  rcases Nat.eq_zero_or_pos count with rfl | hpos
  · exact hnext
  · have hlast := h (next + (count - 1)) (List.mem_range'_1.mpr (by omega))
    omega

namespace Session.Follows

variable {s t : Session} {u v : Plan} {c : Call}

theorem unique (h : s.Follows u) (h' : s.Follows v) : u = v := by
  have hnext := h.marked.unique h.le_next h'.marked h'.le_next
  have hfiles : u.files = v.files := funext fun n ↦ (h.placed n).symm.trans (h'.placed n)
  cases u
  cases v
  simp_all

theorem of_format {w : World} {d : Disk} {g : Globals} {stack : ℕ → Block}
    (h : format.run (boot d g stack) = .ok () w) : Follows ⟨w, fun _ ↦ none, ∅⟩ .initial := by
  rw [run_format] at h
  cases h
  refine ⟨fun _ ↦ rfl, le_rfl, fun r hr ↦ ?_⟩
  have hclear : (d.zeroed 0 9).marked r = false := d.marked_zeroed r
  exact iff_of_false (by simp [boot, hclear]) (by simp [Plan.initial, hr])

theorem call_write (h : s.Follows u) (hs : s.Valid) {n howMany toPos : UInt64} {f : File}
    (hf : s.files n = some f) (hend : toPos.toNat + howMany.toNat < 512 * blockSize)
    (buffer : ℕ → UInt8) :
    u.call (.write n buffer howMany toPos) = some
      ⟨Function.update u.files n (some ⟨max f.size (toPos.toNat + howMany.toNat),
          (s.world.storage.placement n.toNat).pointers,
          (s.world.storage.placement n.toNat).data ++ List.range' u.next
            (max f.size (toPos.toNat + howMany.toNat) / blockSize - f.size / blockSize)⟩),
        u.next + (max f.size (toPos.toNat + howMany.toNat) / blockSize - f.size / blockSize)⟩ := by
  have hsize : (s.world.storage.placement n.toNat).size = f.size := hs.size n f hf
  rw [Plan.call, h.placement_eq hf, ← hsize]
  exact if_pos hend

/-- There are free blocks for a write for which the device is large enough. -/
theorem growth_le (h : s.Follows u) (hs : s.Valid) {n howMany toPos : UInt64} {f : File}
    (hf : s.files n = some f) (hend : toPos.toNat + howMany.toNat < 512 * blockSize)
    (hroom : u.next + (max f.size (toPos.toNat + howMany.toNat) / blockSize -
      f.size / blockSize) ≤ numBlocks) :
    s.world.storage.growth n.toNat (toPos.toNat + howMany.toNat) ≤
      (freeBelow 9 numBlocks s.world.storage.marked).card := by
  rw [← (window_arith hend).1, hs.growth_eq hf hend, h.marked.card_freeBelow h.le_next]
  omega

/-- A call that succeeds takes the blocks that were planned for it. -/
theorem step (h : s.Follows u) (hs : s.Valid) (hstep : Step s c t) (hnext : u.next ≤ numBlocks) :
    ∃ v, u.call c = some v ∧ v.next ≤ numBlocks ∧ t.Follows v := by
  cases hstep with
  | @create n w hrun hvalid =>
      obtain ⟨hn, -, hstorage, first, second, htakes⟩ := hs.run_create hrun hvalid
      have hfirst := h.marked.eq_of_takeFree h.le_next htakes.taken
      obtain ⟨rfl, rfl⟩ : first = u.next ∧ second = u.next + 1 := by
        simpa [List.range'] using hfirst
      refine ⟨_, congrArg some (if_pos (le_eight_of_run_create hs.formatted hrun)),
        htakes.second_lt, h.placed_update ?_ fun m g hne hm ↦ ?_,
        h.le_next.trans (Nat.le_add_right ..), ?_⟩
      all_goals simp only [hstorage]
      · exact Disk.placement_create_self hn htakes
      · exact Disk.placement_create_of_ne hn htakes hs.consistent (hs.lt_maxFiles m g hm)
          (hs.used m g hm) hne
      · rw [Disk.marked_create hn htakes]
        exact h.marked.mark.mark
  | @refuse n code w hrun hcode hvalid =>
      have hlarge : ¬ n.toNat ≤ 8 := by
        intro hn
        rw [run_ifileCreate hs.formatted hn] at hrun
        cases hrun
        exact hcode rfl
      refine ⟨u, congrArg some (if_neg hlarge), hnext, ?_⟩
      rw [eq_advance_of_run_create hs.formatted hrun hcode]
      exact ⟨h.placed, h.le_next, h.marked⟩
  | @write n howMany toPos buffer f code w hf hend hrun hvalid =>
      obtain ⟨-, rs, hafter⟩ := hs.run_write hf hend hrun hvalid
      have hn := hs.lt_maxFiles n f hf
      have hused := hs.used n f hf
      have hrs := h.marked.eq_of_takeFree h.le_next hafter.taken
      rw [hs.growth_eq hf hend] at hrs
      refine ⟨_, h.call_write hs hf hend buffer, ?_, h.placed_update ?_ fun m g hne hm ↦ ?_,
        h.le_next.trans (Nat.le_add_right ..), ?_⟩
      · exact le_of_range' hnext fun r hr ↦ hafter.lt_numBlocks r (hrs ▸ hr)
      · rw [hafter.placement_self hs.consistent hn hused hend, hrs, hs.size n f hf]
      · exact hafter.placement_of_ne hs.consistent hn hused hend (hs.lt_maxFiles m g hm)
          (hs.used m g hm) hne
      · rw [hafter.marked hs.consistent hn hused hend, hrs]
        exact h.marked.markAll

end Session.Follows

/-! ## What can be done -/

section Reached

variable {d : Disk} {g : Globals} {stack : ℕ → Block} {calls : List Call} {s : Session}
  {u v : Plan} {c : Call}

theorem Reaches.follows (h : Reaches d g stack calls s) :
    ∃ u, Plan.after calls = some u ∧ u.next ≤ numBlocks ∧ s.Follows u := by
  obtain ⟨w, hformat, hrun⟩ := h
  induction hrun with
  | nil => exact ⟨.initial, rfl, by decide, .of_format hformat⟩
  | @snoc calls s t c hfirst hlast ih =>
      obtain ⟨u, hu, hnext, hs⟩ := ih
      obtain ⟨v, hv, hroom, ht⟩ := hs.step (Reaches.valid ⟨w, hformat, hfirst⟩) hlast hnext
      exact ⟨v, by rw [Plan.after_concat, hu, Option.bind_some, hv], hroom, ht⟩

/-- As long as the device is large enough for what a call needs, the call is made. -/
theorem Reaches.exists_step (h : Reaches d g stack calls s) (hs : s.Follows u)
    (hv : u.call c = some v) (hroom : v.next ≤ numBlocks) :
    ∃ t, Reaches d g stack (calls ++ [c]) t := by
  cases c with
  | create n =>
      rcases Nat.lt_or_ge 8 n.toNat with hlarge | hsmall
      · have hrefused := run_ifileCreate_of_lt h.valid.formatted hlarge
        exact ⟨_, h.snoc (.refuse hrefused (by decide) h.validAllocations)⟩
      · cases hv
        rw [if_pos hsmall] at hroom
        have htakes := takes_of_marked hs.le_next (by simp only at hroom; omega) hs.marked
        obtain ⟨t, -, -, -, ht⟩ := h.create hsmall htakes
        exact ⟨t, ht⟩
  | write n buffer howMany toPos =>
      obtain ⟨p, hp, hrest⟩ := Option.bind_eq_some_iff.mp hv
      rw [← hs.placed] at hp
      obtain ⟨f, hf, rfl⟩ := Option.map_eq_some_iff.mp hp
      split at hrest
      · rename_i hend
        cases hrest
        have hsize : (s.world.storage.placement n.toNat).size = f.size := h.valid.size n f hf
        simp only [hsize] at hroom
        obtain ⟨t, -, -, ht⟩ := h.write buffer hf hend (hs.growth_le h.valid hf hend hroom)
        exact ⟨t, ht⟩
      · cases hrest

theorem exists_reaches (d : Disk) (g : Globals) (stack : ℕ → Block)
    (hu : Plan.after calls = some u) (hroom : u.next ≤ numBlocks) :
    ∃ s, Reaches d g stack calls s := by
  induction calls using List.reverseRecOn generalizing u with
  | nil =>
      obtain ⟨w, hw, -⟩ := reaches_format d g stack
      exact ⟨_, hw⟩
  | append_singleton calls c ih =>
      rw [Plan.after_concat] at hu
      obtain ⟨u', hu', hcall⟩ := Option.bind_eq_some_iff.mp hu
      have hbefore : u'.next ≤ numBlocks := (Plan.next_le_of_call hcall).trans hroom
      obtain ⟨s, hs⟩ := ih hu' hbefore
      obtain ⟨u'', hu'', -, hfollows⟩ := hs.follows
      obtain rfl : u' = u'' := Option.some.inj (hu'.symm.trans hu'')
      exact hs.exists_step hfollows hcall hroom

end Reached

/-- A session is held exactly if its calls need no more blocks than the device has, and then
the blocks in use and the place of every file follow from the calls. -/
theorem session_held_iff (d : Disk) (g : Globals) (stack : ℕ → Block) (calls : List Call)
    (u : Plan) :
    ((∃ s, Reaches d g stack calls s) ∧ ∀ s, Reaches d g stack calls s → s.Follows u) ↔
      Plan.after calls = some u ∧ u.next ≤ numBlocks := by
  constructor
  · rintro ⟨⟨s, hs⟩, hall⟩
    obtain ⟨v, hv, hroom, hfollows⟩ := hs.follows
    obtain rfl := (hall s hs).unique hfollows
    exact ⟨hv, hroom⟩
  · rintro ⟨hu, hroom⟩
    refine ⟨exists_reaches d g stack hu hroom, fun s hs ↦ ?_⟩
    obtain ⟨v, hv, -, hfollows⟩ := hs.follows
    obtain rfl : u = v := Option.some.inj (hu.symm.trans hv)
    exact hfollows

end OsProjects.Filesystem
