import OsProjects.Filesystem.Contents
import OsProjects.Library.Runs

/-!
# Sessions

A session formats the device and then makes calls of `ifile_create` and
`ifile_write`.  Next to the state of the system it keeps what the calls so far
mean: for each created inode a size and the bytes written since its last
creation, and the blocks that inodes in use dropped when they were created
again.  The invariant relates both sides after every run.
-/

namespace OsProjects.Filesystem

open Library.Program Library.Bytes Library.FirstFit Library.ScatteredStore Library.Runs

/-! ## The abstract filesystem -/

/-- A file as its users see it.  A byte that was never written has no
specified value. -/
structure File where
  size : ℕ
  byte : ℕ → Option UInt8

namespace File

def empty : File := ⟨0, fun _ ↦ none⟩

def write (f : File) (pos len : ℕ) (src : ℕ → UInt8) : File where
  size := max f.size (pos + len)
  byte p := if pos ≤ p ∧ p < pos + len then some (src (p - pos)) else f.byte p

end File

/-! ## Steps -/

inductive Call
  | create (n : UInt64)
  | write (n : UInt64) (buffer : ℕ → UInt8) (howMany toPos : UInt64)

structure Session where
  world : World
  /-- What the calls so far made of each inode. -/
  files : UInt64 → Option File
  /-- The blocks that belonged to an inode at the moment it was created again. -/
  abandoned : Set ℕ

def Disk.blocksOf (d : Disk) (n : ℕ) : Set ℕ := d.blockOf '' {s | d.Live s ∧ s.file = n}

/-- One call of a session.  Writes are made to created inodes, end below the
limit of a pointer block, and the allocator returns blocks of the device. -/
inductive Step (s : Session) : Call → Session → Prop
  | create {n : UInt64} {u : World} :
      (ifileCreate n).run s.world = .ok 0 u → u.ValidAllocations →
      Step s (.create n) ⟨u, Function.update s.files n (some .empty),
        s.abandoned ∪ s.world.storage.blocksOf n.toNat⟩
  | refuse {n : UInt64} {code : ℤ} {u : World} :
      (ifileCreate n).run s.world = .ok code u → code ≠ 0 → u.ValidAllocations →
      Step s (.create n) ⟨u, s.files, s.abandoned⟩
  | write {n howMany toPos : UInt64} {buffer : ℕ → UInt8} {f : File} {code : ℤ} {u : World} :
      s.files n = some f → toPos.toNat + howMany.toNat < 512 * blockSize →
      (ifileWrite n buffer howMany toPos).run s.world = .ok code u → u.ValidAllocations →
      Step s (.write n buffer howMany toPos)
        ⟨u, Function.update s.files n (some (f.write toPos.toNat howMany.toNat buffer)),
          s.abandoned⟩

/-- Before `format` the device, the global variables and the stack contain anything. -/
def boot (d : Disk) (g : Globals) (stack : ℕ → Block) : World where
  storage := d
  globals := g
  stack := stack
  frames := 0
  trace := []

/-- The session `s` starts with `format` and goes on with the given calls. -/
def Reaches (d : Disk) (g : Globals) (stack : ℕ → Block) (calls : List Call) (s : Session) : Prop :=
  ∃ w, format.run (boot d g stack) = .ok () w ∧ Run Step ⟨w, fun _ ↦ none, ∅⟩ calls s

/-! ## The invariant -/

structure Session.Valid (s : Session) : Prop where
  formatted : s.world.Formatted
  consistent : s.world.storage.Consistent
  lt_maxFiles : ∀ n f, s.files n = some f → n.toNat < maxFiles
  used : ∀ n f, s.files n = some f → (s.world.storage.inode n.toNat).used
  size : ∀ n f, s.files n = some f → (s.world.storage.inode n.toNat).size.toNat = f.size
  lt_size : ∀ n f p v, s.files n = some f → f.byte p = some v → p < f.size
  byte : ∀ n f p v, s.files n = some f → f.byte p = some v →
    s.world.storage.fileByte n.toNat p = v

namespace Session.Valid

variable {s : Session} (hs : s.Valid)
include hs

theorem live_byte {n : UInt64} {f : File} {p : ℕ} {v : UInt8} (hf : s.files n = some f)
    (hv : f.byte p = some v) : s.world.storage.Live (.data n.toNat (p / blockSize)) := by
  refine ⟨hs.lt_maxFiles n f hf, hs.used n f hf, Nat.div_le_div_right ?_⟩
  rw [hs.size n f hf]
  exact (hs.lt_size n f p v hf hv).le

end Session.Valid

theorem valid_of_format {w : World} {d : Disk} {g : Globals} {stack : ℕ → Block}
    (h : format.run (boot d g stack) = .ok () w) :
    Session.Valid ⟨w, fun _ ↦ none, ∅⟩ := by
  rw [run_format] at h
  cases h
  exact ⟨rfl, Disk.consistent_of_unused fun n hn ↦ d.inode_zeroed hn, by simp, by simp, by simp,
    by simp, by simp⟩

theorem eq_advance_of_run_create {w u : World} (hw : w.Formatted) {n : UInt64} {code : ℤ}
    (h : (ifileCreate n).run w = .ok code u) (hcode : code ≠ 0) : u = w.advance w.storage 1 [] := by
  rcases Nat.lt_or_ge 8 n.toNat with hlarge | hsmall
  · rw [run_ifileCreate_of_lt hw hlarge] at h
    cases h
    rfl
  · rw [run_ifileCreate hw hsmall] at h
    cases h
    exact absurd rfl hcode

theorem le_eight_of_run_create {w u : World} (hw : w.Formatted) {n : UInt64}
    (h : (ifileCreate n).run w = .ok 0 u) : n.toNat ≤ 8 := by
  by_contra hlarge
  rw [run_ifileCreate_of_lt hw (by omega)] at h
  simp at h

theorem cases_of_update {files : UInt64 → Option File} {n m : UInt64} {f g : File}
    (h : Function.update files n (some g) m = some f) :
    m = n ∧ f = g ∨ m.toNat ≠ n.toNat ∧ files m = some f := by
  by_cases hmn : m = n
  · subst hmn
    rw [Function.update_self] at h
    exact .inl ⟨rfl, (Option.some.inj h).symm⟩
  · rw [Function.update_of_ne hmn] at h
    exact .inr ⟨fun heq ↦ hmn (UInt64.toNat_inj.mp heq), h⟩

section Create

variable {s : Session} (hs : s.Valid) {n : UInt64} {u : World}
include hs

theorem Session.Valid.run_create (hrun : (ifileCreate n).run s.world = .ok 0 u)
    (hvalid : u.ValidAllocations) :
    n.toNat < maxFiles ∧ u.Formatted ∧ u.storage = s.world.storage.create n.toNat ∧
      ∃ first second, s.world.storage.Takes first second := by
  have hle := le_eight_of_run_create hs.formatted hrun
  have htakes := takes_of_validAllocations hs.formatted hle (by rw [hrun]; exact hvalid)
  rw [run_ifileCreate hs.formatted hle] at hrun
  cases hrun
  exact ⟨by simp only [maxFiles]; omega, hs.formatted, rfl, htakes⟩

theorem Session.Valid.create (hrun : (ifileCreate n).run s.world = .ok 0 u)
    (hvalid : u.ValidAllocations) (a : Set ℕ) :
    Session.Valid ⟨u, Function.update s.files n (some .empty), a⟩ := by
  obtain ⟨hn, hformatted, hstorage, first, second, htakes⟩ := hs.run_create hrun hvalid
  have hnew := Disk.inode_create hn htakes hn
  rw [if_pos rfl] at hnew
  have hold : ∀ m f, m.toNat ≠ n.toNat → s.files m = some f →
      (s.world.storage.create n.toNat).inode m.toNat = s.world.storage.inode m.toNat := by
    intro m f hne hm
    rw [Disk.inode_create hn htakes (hs.lt_maxFiles m f hm), if_neg hne]
  refine ⟨hformatted, ?_, fun m f hm ↦ ?_, fun m f hm ↦ ?_, fun m f hm ↦ ?_,
    fun m f p v hm hv ↦ ?_, fun m f p v hm hv ↦ ?_⟩
  all_goals simp only [hstorage] at *
  · exact Disk.Consistent.create hn htakes hs.consistent
  all_goals rcases cases_of_update hm with ⟨rfl, rfl⟩ | ⟨hne, hm⟩
  · exact hn
  · exact hs.lt_maxFiles m f hm
  · rw [hnew]
  · rw [hold m f hne hm]
    exact hs.used m f hm
  · rw [hnew]
    rfl
  · rw [hold m f hne hm]
    exact hs.size m f hm
  · simp [File.empty] at hv
  · exact hs.lt_size m f p v hm hv
  · simp [File.empty] at hv
  · rw [Disk.fileByte_create hs.consistent hn htakes (hs.live_byte hm hv) hne]
    exact hs.byte m f p v hm hv

end Create

section Write

variable {s : Session} (hs : s.Valid) {n howMany toPos : UInt64} {buffer : ℕ → UInt8} {f : File}
  {code : ℤ} {u : World} (hf : s.files n = some f)
  (hend : toPos.toNat + howMany.toNat < 512 * blockSize)
include hs hf hend

theorem Session.Valid.write_returns
    (hvalid : (finalState ((ifileWrite n buffer howMany toPos).run s.world)).ValidAllocations) :
    Returns (ifileWrite n buffer howMany toPos) s.world fun code _ ↦ code = 0 := by
  have hn := hs.lt_maxFiles n f hf
  obtain ⟨rs, hrs, hdevice⟩ := ((validAllocations_ifileWrite_iff hs.formatted hn hend).mp hvalid).2
  exact (ifileWrite_returns hs.formatted hs.consistent hn (hs.used n f hf) hend hrs hdevice).mono
    fun _ _ h ↦ h.1

theorem Session.Valid.run_write
    (hrun : (ifileWrite n buffer howMany toPos).run s.world = .ok code u)
    (hvalid : u.ValidAllocations) :
    u.Formatted ∧ ∃ rs, s.world.storage.AfterWrite u.storage n.toNat howMany toPos buffer rs := by
  have hn := hs.lt_maxFiles n f hf
  have hfinal : (finalState ((ifileWrite n buffer howMany toPos).run
      s.world)).ValidAllocations := by
    rw [hrun]
    exact hvalid
  obtain ⟨rs, hrs, hdevice⟩ := ((validAllocations_ifileWrite_iff hs.formatted hn hend).mp hfinal).2
  obtain ⟨-, e, hbecomes, hbytes⟩ := (ifileWrite_returns hs.formatted hs.consistent hn
    (hs.used n f hf) hend hrs hdevice).of_eq hrun
  rw [← (window_arith hend).1] at hrs
  refine ⟨hbecomes.formatted hs.formatted, rs, hrs, hdevice, ?_⟩
  rw [hbecomes.storage, hbytes]

theorem Session.Valid.write (hrun : (ifileWrite n buffer howMany toPos).run s.world = .ok code u)
    (hvalid : u.ValidAllocations) (a : Set ℕ) :
    Session.Valid ⟨u, Function.update s.files n
      (some (f.write toPos.toNat howMany.toNat buffer)), a⟩ := by
  have hn := hs.lt_maxFiles n f hf
  have hused := hs.used n f hf
  have hd := hs.consistent
  obtain ⟨hformatted, rs, hwrite⟩ := hs.run_write hf hend hrun hvalid
  refine ⟨hformatted, hwrite.consistent hd hn hused hend, fun m g hm ↦ ?_, fun m g hm ↦ ?_,
    fun m g hm ↦ ?_, fun m g p v hm hv ↦ ?_, fun m g p v hm hv ↦ ?_⟩
  all_goals rcases cases_of_update hm with ⟨rfl, rfl⟩ | ⟨hne, hm⟩
  · exact hn
  · exact hs.lt_maxFiles m g hm
  · exact hwrite.used hd hn hused hend
  · simp only [hwrite.inode_of_ne hd hn hused hend (hs.lt_maxFiles m g hm) hne]
    exact hs.used m g hm
  · simp only [hwrite.size hd hn hused hend, hs.size m f hf, File.write]
  · simp only [hwrite.inode_of_ne hd hn hused hend (hs.lt_maxFiles m g hm) hne]
    exact hs.size m g hm
  · simp only [File.write] at hv ⊢
    split at hv
    · omega
    · exact lt_of_lt_of_le (hs.lt_size m f p v hf hv) (le_max_left _ _)
  · exact hs.lt_size m g p v hm hv
  · simp only [File.write] at hv ⊢
    split at hv
    · rename_i hin
      rw [hwrite.fileByte_self hd hn hused hend hin.1 hin.2]
      exact Option.some.inj hv
    · rename_i hout
      rw [hwrite.fileByte_of_not hd hn hused hend (hs.live_byte hf hv) fun h ↦ hout h.2]
      exact hs.byte m f p v hf hv
  · simp only
    rw [hwrite.fileByte_of_not hd hn hused hend (hs.live_byte hm hv) fun h ↦ hne h.1]
    exact hs.byte m g p v hm hv

end Write

theorem Session.Valid.step {s t : Session} (hs : s.Valid) {c : Call} (h : Step s c t) :
    t.Valid := by
  cases h with
  | create hrun hvalid => exact hs.create hrun hvalid _
  | @refuse n code u hrun hcode hvalid =>
      rw [eq_advance_of_run_create hs.formatted hrun hcode]
      exact ⟨hs.formatted, hs.consistent, hs.lt_maxFiles, hs.used, hs.size, hs.lt_size, hs.byte⟩
  | write hf hend hrun hvalid => exact hs.write hf hend hrun hvalid _

theorem Reaches.valid {d : Disk} {g : Globals} {stack : ℕ → Block} {calls : List Call}
    {s : Session} (h : Reaches d g stack calls s) : s.Valid := by
  obtain ⟨w, hformat, hrun⟩ := h
  exact hrun.invariant (valid_of_format hformat) fun t c u ht hstep ↦ ht.step hstep

/-! ## Sessions go on while blocks are left -/

section Progress

variable {d : Disk} {g : Globals} {stack : ℕ → Block} {calls : List Call} {s : Session}

theorem Reaches.validAllocations (h : Reaches d g stack calls s) : s.world.ValidAllocations := by
  obtain ⟨w, hformat, hrun⟩ := h
  refine hrun.invariant (P := fun s ↦ s.world.ValidAllocations) ?_ ?_
  · rw [run_format] at hformat
    cases hformat
    intro r hr
    simp [boot] at hr
  · rintro t c u - (⟨-, hvalid⟩ | ⟨-, -, hvalid⟩ | ⟨-, -, -, hvalid⟩) <;> exact hvalid

theorem reaches_format (d : Disk) (g : Globals) (stack : ℕ → Block) :
    ∃ w, Reaches d g stack [] ⟨w, fun _ ↦ none, ∅⟩ ∧ w.storage = d.zeroed 0 9 :=
  ⟨_, ⟨_, run_format _, .nil⟩, rfl⟩

theorem Reaches.snoc (h : Reaches d g stack calls s) {c : Call} {t : Session} (hstep : Step s c t) :
    Reaches d g stack (calls ++ [c]) t := by
  obtain ⟨w, hformat, hrun⟩ := h
  exact ⟨w, hformat, hrun.snoc hstep⟩

theorem Reaches.create (h : Reaches d g stack calls s) {n : UInt64} (hn : n.toNat ≤ 8)
    {first second : ℕ} (htakes : s.world.storage.Takes first second) :
    ∃ t, t.world.storage = s.world.storage.create n.toNat ∧
      t.files = Function.update s.files n (some .empty) ∧
      t.abandoned = s.abandoned ∪ s.world.storage.blocksOf n.toNat ∧
      Reaches d g stack (calls ++ [.create n]) t := by
  have hnext := htakes.nextFree
  have hfirst := htakes.first_lt
  have hsecond := htakes.second_lt
  have hmax : n.toNat < maxFiles := by
    simp only [maxFiles]
    omega
  have hallocated := Disk.allocated_of_some hnext.1
  rw [← Disk.marked_claimInode hmax htakes] at hnext
  have hallocated' := Disk.allocated_of_some hnext.2
  refine ⟨_, ?_, ?_, ?_, h.snoc (.create (run_ifileCreate h.valid.formatted hn) ?_)⟩
  case refine_4 =>
    intro r hr
    simp only [World.advance_trace, hallocated, hallocated', List.cons_append, List.nil_append,
      List.mem_cons, Event.allocate.injEq] at hr
    rcases hr with rfl | rfl | hr
    · omega
    · omega
    · exact h.validAllocations r hr
  all_goals rfl

theorem Reaches.write (h : Reaches d g stack calls s) {n howMany toPos : UInt64}
    (buffer : ℕ → UInt8) {f : File} (hf : s.files n = some f)
    (hend : toPos.toNat + howMany.toNat < 512 * blockSize)
    (hroom : s.world.storage.growth n.toNat (toPos.toNat + howMany.toNat) ≤
      (freeBelow 9 numBlocks s.world.storage.marked).card) :
    ∃ t, (ifileWrite n buffer howMany toPos).run s.world = .ok 0 t.world ∧
      t.files = Function.update s.files n
        (some (f.write toPos.toNat howMany.toNat buffer)) ∧
      Reaches d g stack (calls ++ [.write n buffer howMany toPos]) t := by
  have hs := h.valid
  have hbits : numBlocks ≤ bitmapBits := by decide
  obtain ⟨rs, hrs, hdevice⟩ := takeFree_of_card_le hbits hroom
  have hvalid : (finalState ((ifileWrite n buffer howMany toPos).run
      s.world)).ValidAllocations :=
    (validAllocations_ifileWrite_iff hs.formatted (hs.lt_maxFiles n f hf) hend).mpr
      ⟨h.validAllocations, rs, hrs, hdevice⟩
  obtain ⟨_, u, hrun, rfl⟩ := hs.write_returns hf hend hvalid
  rw [hrun] at hvalid
  exact ⟨_, hrun, rfl, h.snoc (.write hf hend hrun hvalid)⟩

theorem takes_of_marked {d : Disk} {k : ℕ} (hk : 9 ≤ k) (hlt : k + 1 < numBlocks)
    (h : ∀ r, 9 ≤ r → (d.marked r = true ↔ r < k)) : d.Takes k (k + 1) := by
  have hbits : k + 1 < bitmapBits := lt_of_lt_of_le hlt (by decide)
  refine ⟨takeFree_succ_eq_some_iff.mpr ⟨k, [k + 1], ?_, takeFree_succ_eq_some_iff.mpr
    ⟨k + 1, [], ?_, rfl, rfl⟩, rfl⟩, by omega, hlt⟩
  · refine nextFree_eq_some_iff.mpr ⟨hk, by omega, ?_, fun q hq hqk ↦ (h q hq).mpr hqk⟩
    rw [← Bool.not_eq_true, h k hk]
    exact lt_irrefl k
  · refine nextFree_eq_some_iff.mpr ⟨by omega, hbits, ?_, fun q hq hqk ↦ ?_⟩
    · rw [mark_apply, Bool.or_eq_false_iff, ← Bool.not_eq_true, h (k + 1) (by omega)]
      exact ⟨by omega, by simp⟩
    · rw [mark_apply, Bool.or_eq_true, h q hq, decide_eq_true_eq]
      omega

theorem marked_create_of_marked {d : Disk} {n k : ℕ} (hn : n < maxFiles) (hk : 9 ≤ k)
    (hlt : k + 1 < numBlocks) (h : ∀ r, 9 ≤ r → (d.marked r = true ↔ r < k)) (r : ℕ) (hr : 9 ≤ r) :
    (d.create n).marked r = true ↔ r < k + 2 := by
  rw [Disk.marked_create hn (takes_of_marked hk hlt h), mark_apply, mark_apply, Bool.or_eq_true,
    Bool.or_eq_true, h r hr, decide_eq_true_eq, decide_eq_true_eq]
  omega

theorem reaches_create_zero (d : Disk) (g : Globals) (stack : ℕ → Block) :
    ∃ s, Reaches d g stack [.create 0] s ∧ s.files 0 = some .empty ∧
      s.world.storage.blockOf (.pointer 0) = 9 ∧
      (∀ r, 9 ≤ r → (s.world.storage.marked r = true ↔ r < 11)) := by
  obtain ⟨w, hw, hstorage⟩ := reaches_format d g stack
  have hmarked : ∀ r, 9 ≤ r → (w.storage.marked r = true ↔ r < 9) := by
    intro r hr
    rw [hstorage, Disk.marked_zeroed]
    simp [hr]
  have htakes := takes_of_marked le_rfl (by decide) hmarked
  obtain ⟨s, hs, hfiles, -, hreaches⟩ := hw.create (n := 0) (by decide) htakes
  refine ⟨s, hreaches, by rw [hfiles, Function.update_self], ?_, fun r hr ↦ ?_⟩ <;> rw [hs]
  · exact Disk.blockOf_create_pointer (by decide) htakes
  · exact marked_create_of_marked (by decide) le_rfl (by decide) hmarked r hr

end Progress

end OsProjects.Filesystem
