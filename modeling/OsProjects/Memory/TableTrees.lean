import Mathlib.Data.Set.Card
import OsProjects.Memory.SparseTables
import OsProjects.Memory.MappingRuns

/-!
# The tree of tables

A page leads by its four indices through a table of each level.  The tables
found so are distinct frames, which hold the addresses of the tables of the
next level and, in the fourth level, the entries of pages.
-/

namespace OsProjects.Memory

open Library.Program Library.Bytes

def tableIndex (page : UInt64) (level : ℕ) : ℕ := page.toNat / 2 ^ (9 * level) % 2 ^ 9

/-- The indices that lead to the page's table of a level, the last one first. -/
def tablePath (page : UInt64) : ℕ → List ℕ
  | 0 => []
  | level + 1 => tableIndex page level :: tablePath page level

theorem tableIndex_zero (page : UInt64) : tableIndex page 0 = page.toNat % 2 ^ 9 := by
  rw [tableIndex, Nat.mul_zero, Nat.pow_zero, Nat.div_one]

theorem tableIndex_lt (page : UInt64) (level : ℕ) : tableIndex page level < 512 :=
  Nat.mod_lt _ (by decide)

@[simp] theorem length_tablePath (page : UInt64) (level : ℕ) :
    (tablePath page level).length = level := by
  induction level with
  | zero => rfl
  | succ level ih => rw [tablePath, List.length_cons, ih]

theorem tableIndex_three {page : UInt64} (hpage : page.toNat < 2 ^ 36) :
    tableIndex page 3 = page.toNat / 2 ^ 27 := by
  rw [tableIndex]
  omega

theorem mod_eq_of_tablePath {page other : UInt64} (hpath : tablePath page 3 = tablePath other 3) :
    page.toNat % 2 ^ 27 = other.toNat % 2 ^ 27 := by
  simp only [tablePath, List.cons.injEq, tableIndex] at hpath
  omega

/-- Pages in range that have all indices in common are the same. -/
theorem eq_of_tablePath {page other : UInt64} (hpage : page.toNat < 2 ^ 36)
    (hother : other.toNat < 2 ^ 36) (hpath : tablePath page 3 = tablePath other 3)
    (hindex : tableIndex page 3 = tableIndex other 3) : page = other := by
  have hlow := mod_eq_of_tablePath hpath
  rw [tableIndex_three hpage, tableIndex_three hother] at hindex
  apply UInt64.toNat_inj.mp
  omega

/-- A page that follows another one in a table of the fourth level lies as many
times 2 ^ 27 above it as bytes after it. -/
theorem mul_lt_of_tablePath {page other : UInt64} {k : ℕ} (hpos : 0 < page.toNat)
    (hpage : page.toNat < 2 ^ 36) (hother : other.toNat < 2 ^ 36)
    (hpath : tablePath page 3 = tablePath other 3)
    (hindex : tableIndex page 3 + k = tableIndex other 3) : k * 2 ^ 27 < other.toNat := by
  have hlow := mod_eq_of_tablePath hpath
  rw [tableIndex_three hpage, tableIndex_three hother] at hindex
  omega

/-- The entries of a table of the first three levels. -/
def children (base : ℕ) (table : List ℕ → Option ℕ) (path : List ℕ) (i : ℕ) : Option ℕ :=
  (table (i :: path)).map (frameAddress base)

/-- `table` gives the frame of the table at the end of a path, and `leaf` the
words of the entries in the tables of the fourth level. -/
structure TableTree (base : ℕ) (table : List ℕ → Option ℕ) (leaf : List ℕ → ℕ → Option ℕ)
    (s : Machine) : Prop where
  root : ∃ n, table [] = some n ∧ s.tableRoot = frameAddress base n
  frame : ∀ path n, table path = some n → n < numFrames ∧ s.frames.marked n = true
  injective : ∀ path path' n, table path = some n → table path' = some n → path = path'
  inner : ∀ path n, path.length < 3 → table path = some n →
    Sparse s.memory n (children base table path)
  last : ∀ path n, path.length = 3 → table path = some n → Sparse s.memory n (leaf path)
  closed : ∀ i path, table (i :: path) ≠ none → table path ≠ none
  leafClosed : ∀ path i, leaf path i ≠ none → table path ≠ none

section Tree

variable {base : ℕ} {table : List ℕ → Option ℕ} {leaf : List ℕ → ℕ → Option ℕ} {s t : Machine}
  {path : List ℕ} {n i : ℕ}

theorem TableTree.leading (h : TableTree base table leaf s) (path : List ℕ) :
    Leading base (children base table path) := by
  intro i w hw
  obtain ⟨n, hn, rfl⟩ := Option.map_eq_some_iff.mp hw
  exact ⟨n, (h.frame _ n hn).1, rfl⟩

/-- The tree of a new root. -/
theorem Extends.tableTree (h : Extends s n t) (hn : n < numFrames) :
    TableTree base (fun path ↦ if path = [] then some n else none) (fun _ _ ↦ none)
      { t with tableRoot := frameAddress base n } := by
  have hroot : ∀ (path : List ℕ) k, (if path = [] then some n else none) = some k →
      path = [] ∧ n = k := by
    intro path k hk
    by_cases hpath : path = []
    · rw [if_pos hpath] at hk
      exact ⟨hpath, Option.some.inj hk⟩
    · rw [if_neg hpath] at hk
      cases hk
  refine ⟨⟨n, if_pos rfl, rfl⟩, fun path k hk ↦ ?_, fun path path' k hk hk' ↦ ?_,
    fun path k _ hk ↦ ?_, fun path k hlength hk ↦ ?_, fun i path hi ↦ ?_, fun path i hi ↦ absurd rfl hi⟩
  · obtain ⟨-, rfl⟩ := hroot path k hk
    exact ⟨hn, h.marked_self⟩
  · exact (hroot path k hk).1.trans (hroot path' k hk').1.symm
  · obtain ⟨-, rfl⟩ := hroot path k hk
    have hnone : children base (fun path ↦ if path = [] then some n else none) path = fun _ ↦ none := by
      funext i
      rw [children, if_neg (List.cons_ne_nil i path), Option.map_none]
    rw [hnone]
    exact h.blank.sparse
  · rw [(hroot path k hk).1] at hlength
    cases hlength
  · exact absurd (if_neg (List.cons_ne_nil i path)) hi

/-! ## Growth -/

theorem children_update_of_ne (base : ℕ) (table : List ℕ → Option ℕ) (n' : ℕ) {path' : List ℕ}
    (hne : path' ≠ path) :
    children base (Function.update table (i :: path) (some n')) path' = children base table path' := by
  funext j
  have hcons : j :: path' ≠ i :: path := fun heq ↦ hne (List.cons.inj heq).2
  rw [children, Function.update_of_ne hcons, children]

theorem children_update_self (base : ℕ) (table : List ℕ → Option ℕ) (path : List ℕ) (i n' : ℕ) :
    children base (Function.update table (i :: path) (some n')) path =
      Function.update (children base table path) i (some (frameAddress base n')) := by
  funext j
  by_cases hji : j = i
  · rw [hji, Function.update_self, children, Function.update_self, Option.map_some]
  · have hcons : j :: path ≠ i :: path := fun heq ↦ hji (List.cons.inj heq).1
    rw [Function.update_of_ne hji, children, Function.update_of_ne hcons, children]

theorem TableTree.children_of_none (h : TableTree base table leaf s) (hnone : table path = none) :
    children base table path = fun _ ↦ none := by
  funext j
  have hj : table (j :: path) = none := by
    by_contra hsome
    exact h.closed j path hsome hnone
  rw [children, hj, Option.map_none]

theorem TableTree.leaf_of_none (h : TableTree base table leaf s) (hnone : table path = none) :
    leaf path = fun _ ↦ none := by
  funext j
  by_contra hsome
  exact h.leafClosed path j hsome hnone

/-- With a table in a frame of its own different paths still lead to different
frames. -/
theorem TableTree.injective_update (h : TableTree base table leaf s) {n' : ℕ}
    (hfresh : ∀ path', table path' ≠ some n') (new : List ℕ) {path' path'' : List ℕ} {k : ℕ}
    (hk : Function.update table new (some n') path' = some k)
    (hk' : Function.update table new (some n') path'' = some k) : path' = path'' := by
  by_cases hpath' : path' = new
  · by_cases hpath'' : path'' = new
    · rw [hpath', hpath'']
    · rw [hpath', Function.update_self] at hk
      rw [Function.update_of_ne hpath''] at hk'
      exact absurd (hk'.trans hk.symm) (hfresh path'')
  · rw [Function.update_of_ne hpath'] at hk
    by_cases hpath'' : path'' = new
    · rw [hpath'', Function.update_self] at hk'
      exact absurd (hk.trans hk'.symm) (hfresh path')
    · rw [Function.update_of_ne hpath''] at hk'
      exact h.injective path' path'' k hk hk'

theorem TableTree.closed_update (h : TableTree base table leaf s) (hn : table path = some n) (n' : ℕ)
    {j : ℕ} {path' : List ℕ}
    (hj : Function.update table (i :: path) (some n') (j :: path') ≠ none) :
    Function.update table (i :: path) (some n') path' ≠ none := by
  by_cases hchild : path' = i :: path
  · rw [hchild, Function.update_self]
    exact Option.some_ne_none n'
  · rw [Function.update_of_ne hchild]
    by_cases hself : j :: path' = i :: path
    · rw [(List.cons.inj hself).2, hn]
      exact Option.some_ne_none n
    · rw [Function.update_of_ne hself] at hj
      exact h.closed j path' hj

theorem TableTree.leafClosed_update (h : TableTree base table leaf s) (new : List ℕ) (n' : ℕ) {j : ℕ}
    {path' : List ℕ} (hj : leaf path' j ≠ none) :
    Function.update table new (some n') path' ≠ none := by
  by_cases hchild : path' = new
  · rw [hchild, Function.update_self]
    exact Option.some_ne_none n'
  · rw [Function.update_of_ne hchild]
    exact h.leafClosed path' j hj

/-- A new table, empty so far, and its address in the table above it. -/
theorem TableTree.addTable (h : TableTree base table leaf s) (hpath : path.length < 3)
    (hn : table path = some n) (hi : i < 512) (hgap : Gap (children base table path) i)
    (hnone : table (i :: path) = none) {n' : ℕ} (hn' : n' < numFrames) (hnew : Extends s n' t)
    (hagree : ∀ f, f ≠ n' → Agree s.memory t.memory f) (hbase : WellPlaced base) :
    TableTree base (Function.update table (i :: path) (some n')) leaf
      { t with memory := writeLE t.memory (n * 4096 + i) 8 (frameAddress base n') } := by
  have hframe := h.frame path n hn
  have hne : n ≠ n' := hnew.ne_of_marked hframe.2
  have hfresh : ∀ path', table path' ≠ some n' := fun path' heq ↦
    hnew.ne_of_marked (h.frame path' n' heq).2 rfl
  have hwrite : ∀ f, f ≠ n → Agree t.memory
      (writeLE t.memory (n * 4096 + i) 8 (frameAddress base n')) f := fun f hf ↦
    agree_copyInto t.memory (leByte (frameAddress base n')) hf (Nat.le_add_right _ _)
      (show n * 4096 + i + 8 ≤ n * 4096 + 4096 by omega)
  have hself : i :: path ≠ path := List.cons_ne_self i path
  have hblank : Sparse (writeLE t.memory (n * 4096 + i) 8 (frameAddress base n')) n' fun _ ↦ none :=
    (hnew.blank.congr (hwrite n' hne.symm)).sparse
  -- the other tables are what they were
  have hold : ∀ path' k, table path' = some k → path' ≠ path → ∀ entry,
      Sparse s.memory k entry →
        Sparse (writeLE t.memory (n * 4096 + i) 8 (frameAddress base n')) k entry := by
    intro path' k hk hne' entry hsparse
    have hkn : k ≠ n := fun heq ↦ hne' (h.injective path' path n (heq ▸ hk) hn)
    have hkn' : k ≠ n' := fun heq ↦ hfresh path' (heq ▸ hk)
    exact (hsparse.congr (hagree k hkn')).congr (hwrite k hkn)
  refine ⟨?_, fun path' k hk ↦ ?_, fun path' path'' k ↦ h.injective_update hfresh (i :: path),
    fun path' k hlength hk ↦ ?_, fun path' k hlength hk ↦ ?_, fun j path' ↦ h.closed_update hn n',
    fun path' j ↦ h.leafClosed_update (i :: path) n'⟩
  · obtain ⟨k, hk, hroot⟩ := h.root
    refine ⟨k, ?_, hnew.tableRoot.trans hroot⟩
    rwa [Function.update_of_ne (List.cons_ne_nil i path).symm]
  · by_cases hpath' : path' = i :: path
    · rw [hpath', Function.update_self] at hk
      cases hk
      exact ⟨hn', hnew.marked_self⟩
    · rw [Function.update_of_ne hpath'] at hk
      exact ⟨(h.frame path' k hk).1, hnew.marked_of_marked (h.frame path' k hk).2⟩
  · by_cases hpath' : path' = i :: path
    · subst hpath'
      rw [Function.update_self] at hk
      cases hk
      rw [children_update_of_ne base table n' hself, h.children_of_none hnone]
      exact hblank
    · rw [Function.update_of_ne hpath'] at hk
      by_cases hparent : path' = path
      · subst hparent
        rw [hn] at hk
        cases hk
        have hlt := hbase.frameAddress_lt hn'
        rw [children_update_self]
        exact ((h.inner path' n hlength hn).congr (hagree n hne)).writeLE hframe.1 hi hgap
          (by omega)
      · rw [children_update_of_ne base table n' hparent]
        exact hold path' k hk hparent _ (h.inner path' k hlength hk)
  · by_cases hpath' : path' = i :: path
    · subst hpath'
      rw [Function.update_self] at hk
      cases hk
      rw [h.leaf_of_none hnone]
      exact hblank
    · rw [Function.update_of_ne hpath'] at hk
      have hne' : path' ≠ path := by
        rintro rfl
        omega
      exact hold path' k hk hne' _ (h.last path' k hlength hk)

theorem run_loadEntry_frameAddress (base : ℕ) (hn : n < numFrames) (hi : i < 512) :
    (loadEntry base (frameAddress base n + i)).run s =
      .ok (.ofWord (readLE s.memory (n * 4096 + i) 8)) s := by
  have hbound := frame_bound hn
  rw [frameAddress, Nat.add_assoc]
  exact run_loadEntry base (by omega)

theorem Sparse.gap {entry : ℕ → Option ℕ} {m : Buffer memorySize} (h : Sparse m n entry)
    (hi : entry i ≠ none) : Gap entry i := by
  obtain ⟨w, hw⟩ := Option.ne_none_iff_exists'.mp hi
  intro j hj
  obtain ⟨v, hv⟩ := Option.ne_none_iff_exists'.mp hj
  by_cases hji : j = i
  · exact .inl hji
  · exact .inr (h.apart j v i w hv hw hji)

theorem TableTree.run_loadEntry (h : TableTree base table leaf s) (hpath : path.length < 3)
    (hn : table path = some n) {n' : ℕ} (hn' : table (i :: path) = some n') :
    (loadEntry base (frameAddress base n + i)).run s = .ok (.ofWord (frameAddress base n')) s := by
  have hsparse := h.inner path n hpath hn
  have hword : children base table path i = some (frameAddress base n') := by
    rw [children, hn', Option.map_some]
  rw [run_loadEntry_frameAddress base (h.frame path n hn).1 (hsparse.bounds i _ hword).1,
    hsparse.readLE hword]

/-- An index after the one of a table leads to the table's address shifted by a
byte. -/
theorem TableTree.run_loadEntry_next (hbase : WellPlaced base) (h : TableTree base table leaf s)
    (hpath : path.length < 3) (hn : table path = some n) {n' : ℕ} (hn' : table (i :: path) = some n')
    (hi : i + 1 < 512) : ∃ w, (loadEntry base (frameAddress base n + (i + 1))).run s =
      .ok (.ofWord w) s ∧ w % 2 ^ 52 ≠ 0 ∧ Stray base (w % 2 ^ 52) := by
  have hframe := (h.frame _ n' hn').1
  have hword : children base table path i = some (frameAddress base n') := by
    rw [children, hn', Option.map_some]
  obtain ⟨c, hread⟩ := (h.inner path n hpath hn).readLE_next hword
  have hload := run_loadEntry_frameAddress base (s := s) (h.frame path n hn).1 hi
  rw [hread] at hload
  have hle : base ≤ frameAddress base n' := Nat.le_add_right _ _
  have hlt := hbase.frameAddress_lt hframe
  have hpos := hbase.pos
  have haligned := hbase.aligned
  have hstray := (hbase.stray n' hframe 1 le_rfl (by omega)).1
  rw [pow_one] at hstray
  have hmod : (frameAddress base n' / 256 + 2 ^ 56 * c) % 2 ^ 52 = frameAddress base n' / 256 := by omega
  exact ⟨_, hload, by rw [hmod]; omega, by rwa [hmod]⟩

theorem TableTree.run_child_of_some (hbase : WellPlaced base) (h : TableTree base table leaf s)
    (hpath : path.length < 3) (hn : table path = some n) {n' : ℕ}
    (hn' : table (i :: path) = some n') :
    (child base (frameAddress base n + i)).run s = .ok (frameAddress base n') s := by
  have hmod := hbase.frameAddress_mod (h.frame _ n' hn').1
  have hpos := hbase.frameAddress_pos n'
  rw [run_child_of_load (h.run_loadEntry hpath hn hn') (by omega), hmod]

/-- Where there is a table already nothing changes, elsewhere there is a new one. -/
theorem TableTree.run_child (hbase : WellPlaced base) (h : TableTree base table leaf s)
    (hpath : path.length < 3) (hn : table path = some n) (hi : i < 512)
    (hgap : Gap (children base table path) i)
    (hroom : table (i :: path) = none → s.frames.setBits < numFrames) :
    ∃ n' t, (child base (frameAddress base n + i)).run s = .ok (frameAddress base n') t ∧
      TableTree base (Function.update table (i :: path) (some n')) leaf t ∧
        (table (i :: path) ≠ none → t = s) ∧
          t.frames.setBits = s.frames.setBits + if table (i :: path) = none then 1 else 0 := by
  have hframe := h.frame path n hn
  cases hchild : table (i :: path) with
  | none =>
      have hentry : children base table path i = none := by rw [children, hchild, Option.map_none]
      have hzero := (h.inner path n hpath hn).readLE_of_gap hi hgap (.inl hentry)
      obtain ⟨n', t, hrun, hn', hnew, hagree⟩ := run_child_of_zero hbase
        (congrArg Entry.ofWord hzero) hframe.1 hframe.2 hi (hroom hchild)
      exact ⟨n', _, hrun, h.addTable hpath hn hi hgap hchild hn' hnew hagree hbase,
        fun hne ↦ absurd rfl hne, hnew.setBits⟩
  | some n' =>
      refine ⟨n', s, h.run_child_of_some hbase hpath hn hchild, ?_, fun _ ↦ rfl, by simp⟩
      rwa [← hchild, Function.update_eq_self]

/-! ## Entries of pages -/

/-- The tree after the word of an entry in a table of the fourth level. -/
def writeLeaf (leaf : List ℕ → ℕ → Option ℕ) (path : List ℕ) (d w : ℕ) : List ℕ → ℕ → Option ℕ :=
  Function.update leaf path (Function.update (leaf path) d (some w))

theorem TableTree.writeLeaf {d w : ℕ} (h : TableTree base table leaf s) (hpath : path.length = 3)
    (hn : table path = some n) (hd : d < 512) (hgap : Gap (leaf path) d) (hw : w < 2 ^ 64) :
    TableTree base table (writeLeaf leaf path d w)
      { s with memory := writeLE s.memory (n * 4096 + d) 8 w } := by
  have hframe := h.frame path n hn
  have hwrite : ∀ f, f ≠ n → Agree s.memory (writeLE s.memory (n * 4096 + d) 8 w) f := fun f hf ↦
    agree_copyInto s.memory (leByte w) hf (Nat.le_add_right _ _)
      (show n * 4096 + d + 8 ≤ n * 4096 + 4096 by omega)
  refine ⟨h.root, h.frame, h.injective, fun path' k hlength hk ↦ ?_, fun path' k hlength hk ↦ ?_,
    h.closed, fun path' j hj ↦ ?_⟩
  · refine (h.inner path' k hlength hk).congr (hwrite k fun hkn ↦ ?_)
    rw [h.injective path' path n (hkn ▸ hk) hn] at hlength
    omega
  · rw [Memory.writeLeaf]
    by_cases hsame : path' = path
    · subst hsame
      rw [hn] at hk
      cases hk
      rw [Function.update_self]
      exact (h.last path' n hlength hn).writeLE hframe.1 hd hgap hw
    · rw [Function.update_of_ne hsame]
      exact (h.last path' k hlength hk).congr
        (hwrite k fun hkn ↦ hsame (h.injective path' path n (hkn ▸ hk) hn))
  · rw [Memory.writeLeaf] at hj
    by_cases hsame : path' = path
    · rw [hsame, hn]
      exact Option.some_ne_none n
    · rw [Function.update_of_ne hsame] at hj
      exact h.leafClosed path' j hj

end Tree

/-! ## The way to an entry -/

/-- The paths to the tables that are there. -/
def tablesOf (table : List ℕ → Option ℕ) : Set (List ℕ) := {path | table path ≠ none}

/-- All frames in use but `k` are tables. -/
structure Accounted (k : ℕ) (table : List ℕ → Option ℕ) (s : Machine) : Prop where
  finite : (tablesOf table).Finite
  setBits : s.frames.setBits = k + (tablesOf table).ncard

section Accounted

variable {k : ℕ} {table : List ℕ → Option ℕ} {s t : Machine}

theorem tablesOf_update (table : List ℕ → Option ℕ) (path : List ℕ) (n : ℕ) :
    tablesOf (Function.update table path (some n)) = insert path (tablesOf table) := by
  ext path'
  rw [Set.mem_insert_iff]
  change Function.update table path (some n) path' ≠ none ↔ path' = path ∨ table path' ≠ none
  by_cases hpath : path' = path
  · rw [hpath, Function.update_self]
    exact iff_of_true (Option.some_ne_none n) (.inl rfl)
  · rw [Function.update_of_ne hpath, or_iff_right hpath]

theorem Accounted.update (h : Accounted k table s) (path : List ℕ) (n : ℕ)
    (hbits : t.frames.setBits = s.frames.setBits + if table path = none then 1 else 0) :
    Accounted k (Function.update table path (some n)) t := by
  refine ⟨?_, ?_⟩ <;> rw [tablesOf_update]
  · exact h.finite.insert path
  by_cases hnone : table path = none
  · have hnew : path ∉ tablesOf table := fun hmem ↦ hmem hnone
    rw [hbits, if_pos hnone, h.setBits, Set.ncard_insert_of_notMem hnew h.finite, Nat.add_assoc]
  · have hold : path ∈ tablesOf table := hnone
    rw [hbits, if_neg hnone, h.setBits, Set.insert_eq_of_mem hold, Nat.add_zero]

end Accounted

/-- At the table of a level on the way to the page's entry: there are frames
for the tables that are missing below, and places for their addresses. -/
structure Descent (base : ℕ) (page : UInt64) (level : ℕ) (table : List ℕ → Option ℕ)
    (leaf : List ℕ → ℕ → Option ℕ) (s : Machine) (n : ℕ) : Prop where
  tree : TableTree base table leaf s
  here : table (tablePath page level) = some n
  room : ∀ m, level < m → m ≤ 3 → table (tablePath page m) = none →
    s.frames.setBits + (4 - m) ≤ numFrames
  gap : ∀ m, level ≤ m → m < 3 → Gap (children base table (tablePath page m)) (tableIndex page m)

section Descent

variable {base level n : ℕ} {page : UInt64} {table : List ℕ → Option ℕ}
  {leaf : List ℕ → ℕ → Option ℕ} {s : Machine}

theorem Descent.step (hbase : WellPlaced base) (h : Descent base page level table leaf s n)
    (hlevel : level < 3) :
    ∃ table' n' t, (child base (frameAddress base n + tableIndex page level)).run s =
        .ok (frameAddress base n') t ∧ Descent base page (level + 1) table' leaf t n' ∧
      t.frames.setBits ≤ s.frames.setBits + 1 ∧
      tablesOf table' = insert (tablePath page (level + 1)) (tablesOf table) ∧
        ∀ k, Accounted k table s → Accounted k table' t := by
  have hlength := length_tablePath page
  have hroom := h.room (level + 1) (by omega) (by omega)
  obtain ⟨n', t, hrun, htree, hsame, hbits⟩ := h.tree.run_child hbase
    (by rw [hlength]; exact hlevel) h.here (tableIndex_lt page level)
    (h.gap level le_rfl hlevel) fun hnone ↦ by have := hroom hnone; omega
  change t.frames.setBits =
    s.frames.setBits + if table (tablePath page (level + 1)) = none then 1 else 0 at hbits
  -- further down nothing is there that was not there before
  have hdeep : ∀ path : List ℕ, level + 1 < path.length →
      Function.update table (tablePath page (level + 1)) (some n') path = table path := by
    intro path hpath
    refine Function.update_of_ne (fun heq ↦ ?_) ..
    rw [heq, hlength] at hpath
    exact absurd hpath (lt_irrefl _)
  refine ⟨_, n', t, hrun, ⟨htree, Function.update_self .., fun m hm hm3 hnone ↦ ?_,
    fun m hm hm3 ↦ ?_⟩, ?_, tablesOf_update .., fun k hk ↦ hk.update _ n' hbits⟩
  · have hnone' : table (tablePath page m) = none := by
      rw [← hnone]
      exact (hdeep _ (by rw [hlength]; exact hm)).symm
    have hroom' := h.room m (by omega) hm3 hnone'
    by_cases hchild : table (tablePath page (level + 1)) = none
    · have := hroom hchild
      rw [if_pos hchild] at hbits
      omega
    · rwa [hsame hchild]
  · have hchildren : children base (Function.update table (tablePath page (level + 1)) (some n'))
        (tablePath page m) = children base table (tablePath page m) := by
      funext j
      rw [children, hdeep (j :: tablePath page m) (by rw [List.length_cons, hlength]; omega), children]
    exact hchildren ▸ h.gap m (by omega) hm3
  · rw [hbits]
    split <;> omega

theorem TableTree.tableRoot_eq (h : TableTree base table leaf s) (hn : table [] = some n) :
    s.tableRoot = frameAddress base n := by
  obtain ⟨k, hk, hroot⟩ := h.root
  rw [hn] at hk
  cases hk
  exact hroot

/-- Three tables are found or made; what is left is the entry in the last one. -/
theorem Descent.exists_run_mapBody (hbase : WellPlaced base) (h : Descent base page 0 table leaf s n)
    (frame : UInt64) :
    ∃ table' n' t, (mapBody base frame 0 (page, none)).run s =
        (storeMapping base page frame (frameAddress base n' + tableIndex page 3)).run t ∧
      TableTree base table' leaf t ∧ table' (tablePath page 3) = some n' ∧
      t.frames.setBits ≤ s.frames.setBits + 3 ∧
      (∀ path, table' path ≠ none → table path ≠ none ∨ ∃ level ≤ 3, path = tablePath page level) ∧
        ∀ k, Accounted k table s → Accounted k table' t := by
  obtain ⟨table₁, n₁, t₁, hrun₁, h₁, hbits₁, hnew₁, hk₁⟩ := h.step hbase (by omega)
  obtain ⟨table₂, n₂, t₂, hrun₂, h₂, hbits₂, hnew₂, hk₂⟩ := h₁.step hbase (by omega)
  obtain ⟨table₃, n₃, t₃, hrun₃, h₃, hbits₃, hnew₃, hk₃⟩ := h₂.step hbase (by omega)
  rw [← h.tree.tableRoot_eq h.here, tableIndex_zero] at hrun₁
  refine ⟨table₃, n₃, t₃, Memory.run_mapBody frame hrun₁ hrun₂ hrun₃, h₃.tree, h₃.here, by omega,
    fun path hpath ↦ ?_, fun k hk ↦ hk₃ k (hk₂ k (hk₁ k hk))⟩
  change path ∈ tablesOf table₃ at hpath
  rw [hnew₃, hnew₂, hnew₁] at hpath
  rcases hpath with rfl | rfl | rfl | hpath
  · exact .inr ⟨3, le_rfl, rfl⟩
  · exact .inr ⟨2, by omega, rfl⟩
  · exact .inr ⟨1, by omega, rfl⟩
  · exact .inl hpath

/-- In the last table the entry is written. -/
theorem Descent.run_mapBody {frame : UInt64} (hbase : WellPlaced base)
    (h : Descent base page 0 table leaf s n)
    (hgap : Gap (leaf (tablePath page 3)) (tableIndex page 3))
    (hfree : ∀ w, leaf (tablePath page 3) (tableIndex page 3) = some w → w % 2 ^ 55 = 0)
    (hframe : frame.toNat < 2 ^ 52) :
    ∃ table' t, (mapBody base frame 0 (page, none)).run s = .ok (.yield (page, none)) t ∧
      TableTree base table'
        (writeLeaf leaf (tablePath page 3) (tableIndex page 3) (frame.toNat + 2 ^ 55)) t ∧
      t.frames.setBits ≤ s.frames.setBits + 3 ∧
      (∀ path, table' path ≠ none → table path ≠ none ∨ ∃ level ≤ 3, path = tablePath page level) ∧
        ∀ k, Accounted k table s → Accounted k table' t := by
  obtain ⟨table', n', t, hrun, htree, hn', hbits, hnew, hk⟩ := h.exists_run_mapBody hbase frame
  have hlength := length_tablePath page 3
  have hindex := tableIndex_lt page 3
  have hbound := frame_bound (htree.frame _ n' hn').1
  have hword : ∃ w < 2 ^ 64, w % 2 ^ 55 = 0 ∧
      t.entryAt (n' * 4096 + tableIndex page 3) = .ofWord w := by
    have hsparse := htree.last _ n' hlength hn'
    cases hentry : leaf (tablePath page 3) (tableIndex page 3) with
    | none => exact ⟨0, by decide, rfl, congrArg Entry.ofWord (hsparse.readLE_of_gap hindex hgap (.inl hentry))⟩
    | some w => exact ⟨w, (hsparse.bounds _ w hentry).2, hfree w hentry,
        congrArg Entry.ofWord (hsparse.readLE hentry)⟩
  obtain ⟨w, hlt, hzero, hentry⟩ := hword
  have hstore := @run_storeMapping_of_zero base page frame _ _ w hentry hlt hzero (by omega) hframe
  rw [← Nat.add_assoc] at hstore
  refine ⟨table', _, hrun.trans hstore, htree.writeLeaf hlength hn' hindex hgap (by omega), hbits, hnew,
    fun k hk' ↦ ?_⟩
  have hlast := hk k hk'
  exact ⟨hlast.finite, hlast.setBits⟩

end Descent

/-! ## Lookups -/

section Lookup

variable {base n i : ℕ} {page : UInt64} {table : List ℕ → Option ℕ}
  {leaf : List ℕ → ℕ → Option ℕ} {s : Machine} {path : List ℕ} {rest : ℕ → VM (Option ℕ)}

theorem TableTree.run_followed_of_some (hbase : WellPlaced base) (h : TableTree base table leaf s)
    (hpath : path.length < 3) (hn : table path = some n) {n' : ℕ}
    (hn' : table (i :: path) = some n') :
    (followed base (frameAddress base n + i) rest).run s = (rest (frameAddress base n')).run s := by
  have hmod := hbase.frameAddress_mod (h.frame _ n' hn').1
  have hpos := hbase.frameAddress_pos n'
  rw [followed, run_bind_of_ok (h.run_loadEntry hpath hn hn'),
    if_neg (by rw [address_ofWord_eq_zero_iff]; omega), toNat_address_ofWord, hmod]

/-- Where there is no table the lookup ends, if not at once then at the part of
an entry that it takes for an address: the tables there are decide which. -/
theorem TableTree.exists_run_followed (hbase : Isolated base) (h : TableTree base table leaf s)
    (hpath : path.length < 3) (hn : table path = some n) (hi : i < 512)
    (hnone : table (i :: path) = none) (hrest : Outside base rest) :
    ∃ r, ∀ leaf' t, TableTree base table leaf' t →
      (followed base (frameAddress base n + i) rest).run t = missed r t := by
  have hentry : children base table path i = none := by rw [children, hnone, Option.map_none]
  have hsparse := h.inner path n hpath hn
  have hload : ∀ leaf' t, TableTree base table leaf' t →
      (loadEntry base (frameAddress base n + i)).run t =
        .ok (.ofWord (readLE s.memory (n * 4096 + i) 8)) t := by
    intro leaf' t ht
    have hagree := hsparse.agree (ht.inner path n hpath hn)
    rw [run_loadEntry_frameAddress base (h.frame path n hn).1 hi]
    refine congrArg (fun w ↦ EStateM.Result.ok (Entry.ofWord w) t) (leValue_congr fun k hk ↦ ?_)
    rw [Nat.add_assoc]
    exact hagree (i + k) (by omega)
  have hstray := (hsparse.shifted hi hentry).stray hbase (h.leading path)
  generalize readLE s.memory (n * 4096 + i) 8 = w at hload hstray
  by_cases hzero : w % 2 ^ 52 = 0
  · refine ⟨none, fun leaf' t ht ↦ ?_⟩
    rw [followed, run_bind_of_ok (hload leaf' t ht), if_pos ((address_ofWord_eq_zero_iff w).mpr hzero)]
    rfl
  · obtain ⟨f, hf⟩ := hrest _ (hstray.resolve_left hzero)
    refine ⟨some f, fun leaf' t ht ↦ ?_⟩
    rw [followed, run_bind_of_ok (hload leaf' t ht),
      if_neg (mt (address_ofWord_eq_zero_iff w).mp hzero), toNat_address_ofWord]
    exact hf t

theorem run_vmFind_eq (hpage : page ≠ 0) (hroot : s.tableRoot = frameAddress base n) :
    (vmFind base page).run s =
      (followed base (frameAddress base n + tableIndex page 0) fun second ↦
        followed base (second + tableIndex page 1) fun third ↦
          followed base (third + tableIndex page 2) fun fourth ↦
            lastLevel base (fourth + tableIndex page 3)).run s := by
  rw [vmFind_eq hpage, run_bind_of_ok (EStateM.run_get s), hroot, tableIndex_zero]
  rfl

theorem TableTree.exists_tables (h : TableTree base table leaf s)
    (hn : table (tablePath page 3) ≠ none) : ∃ n₀ n₁ n₂, table (tablePath page 0) = some n₀ ∧
      table (tablePath page 1) = some n₁ ∧ table (tablePath page 2) = some n₂ := by
  have hparent : ∀ level, table (tablePath page (level + 1)) ≠ none →
      table (tablePath page level) ≠ none := fun level ↦ h.closed _ _
  have h₂ := hparent 2 hn
  have h₁ := hparent 1 h₂
  obtain ⟨n₀, hn₀⟩ := Option.ne_none_iff_exists'.mp (hparent 0 h₁)
  obtain ⟨n₁, hn₁⟩ := Option.ne_none_iff_exists'.mp h₁
  obtain ⟨n₂, hn₂⟩ := Option.ne_none_iff_exists'.mp h₂
  exact ⟨n₀, n₁, n₂, hn₀, hn₁, hn₂⟩

/-- Where all tables are there `vm_map` goes to the entry at the end of the page's
path. -/
theorem TableTree.run_mapBody_of_some (hbase : WellPlaced base) (h : TableTree base table leaf s)
    (frame : UInt64) (hn : table (tablePath page 3) = some n) :
    (mapBody base frame 0 (page, none)).run s =
      (storeMapping base page frame (frameAddress base n + tableIndex page 3)).run s := by
  obtain ⟨n₀, n₁, n₂, hn₀, hn₁, hn₂⟩ := h.exists_tables (by rw [hn]; exact Option.some_ne_none n)
  have hlength := length_tablePath page
  have hfirst := h.run_child_of_some hbase (by rw [hlength]; omega) hn₀ hn₁
  have hsecond := h.run_child_of_some hbase (by rw [hlength]; omega) hn₁ hn₂
  have hthird := h.run_child_of_some hbase (by rw [hlength]; omega) hn₂ hn
  rw [← h.tableRoot_eq hn₀, tableIndex_zero] at hfirst
  exact run_mapBody frame hfirst hsecond hthird

/-- What is looked up is the entry at the end of the page's path. -/
theorem TableTree.run_vmFind (hbase : WellPlaced base) (h : TableTree base table leaf s)
    (hpage : page ≠ 0) (hn : table (tablePath page 3) = some n) :
    (vmFind base page).run s = (lastLevel base (frameAddress base n + tableIndex page 3)).run s := by
  obtain ⟨n₀, n₁, n₂, hn₀, hn₁, hn₂⟩ := h.exists_tables (by rw [hn]; exact Option.some_ne_none n)
  have hlength := length_tablePath page
  rw [run_vmFind_eq hpage (h.tableRoot_eq hn₀),
    h.run_followed_of_some hbase (by rw [hlength]; omega) hn₀ hn₁,
    h.run_followed_of_some hbase (by rw [hlength]; omega) hn₁ hn₂,
    h.run_followed_of_some hbase (by rw [hlength]; omega) hn₂ hn]

theorem TableTree.exists_missed (hbase : Isolated base) (h : TableTree base table leaf s)
    (hpage : page ≠ 0) (hnone : table (tablePath page 3) = none) :
    ∃ r, ∀ leaf' t, TableTree base table leaf' t → (vmFind base page).run t = missed r t := by
  have hlength := length_tablePath page
  have hindex := tableIndex_lt page
  have hplaced := hbase.toWellPlaced
  have hlast := outside_lastLevel base (hindex 3)
  have hthird := outside_followed base (hindex 2) fun x ↦ lastLevel base (x + tableIndex page 3)
  have hsecond := outside_followed base (hindex 1) fun x ↦
    followed base (x + tableIndex page 2) fun x ↦ lastLevel base (x + tableIndex page 3)
  obtain ⟨n₀, hn₀, -⟩ := h.root
  cases hn₁ : table (tablePath page 1) with
  | none =>
      obtain ⟨r, hr⟩ := h.exists_run_followed hbase (by decide) hn₀ (hindex 0) hn₁ hsecond
      refine ⟨r, fun leaf' t ht ↦ ?_⟩
      rw [run_vmFind_eq hpage (ht.tableRoot_eq hn₀)]
      exact hr leaf' t ht
  | some n₁ =>
      cases hn₂ : table (tablePath page 2) with
      | none =>
          obtain ⟨r, hr⟩ :=
            h.exists_run_followed hbase (by rw [hlength]; omega) hn₁ (hindex 1) hn₂ hthird
          refine ⟨r, fun leaf' t ht ↦ ?_⟩
          rw [run_vmFind_eq hpage (ht.tableRoot_eq hn₀),
            ht.run_followed_of_some hplaced (by decide) hn₀ hn₁]
          exact hr leaf' t ht
      | some n₂ =>
          obtain ⟨r, hr⟩ :=
            h.exists_run_followed hbase (by rw [hlength]; omega) hn₂ (hindex 2) hnone hlast
          refine ⟨r, fun leaf' t ht ↦ ?_⟩
          rw [run_vmFind_eq hpage (ht.tableRoot_eq hn₀),
            ht.run_followed_of_some hplaced (by decide) hn₀ hn₁,
            ht.run_followed_of_some hplaced (by rw [hlength]; omega) hn₁ hn₂]
          exact hr leaf' t ht

theorem TableTree.run_vmFind_of_entry (hbase : WellPlaced base) (h : TableTree base table leaf s)
    (hpage : page ≠ 0) (hn : table (tablePath page 3) = some n) {w : ℕ}
    (hw : leaf (tablePath page 3) (tableIndex page 3) = some w) :
    (vmFind base page).run s = .ok (if (Entry.ofWord w).flags = 1 then
      some (frameAddress base n + tableIndex page 3) else none) s := by
  have hbound := frame_bound (h.frame _ n hn).1
  have hindex := tableIndex_lt page 3
  have hread := (h.last _ n (length_tablePath page 3) hn).readLE hw
  rw [h.run_vmFind hbase hpage hn, frameAddress, Nat.add_assoc, run_lastLevel (by omega),
    Machine.entryAt, hread]

/-- A page without an entry is not found, if no entry next to its place looks
like a mapping there. -/
theorem TableTree.run_vmFind_of_free (hbase : WellPlaced base) (h : TableTree base table leaf s)
    (hpage : page ≠ 0) (hn : table (tablePath page 3) = some n)
    (hfree : leaf (tablePath page 3) (tableIndex page 3) = none)
    (hwords : ∀ j w, leaf (tablePath page 3) j = some w → w < 2 ^ 56)
    (hquiet : ∀ k w, 1 ≤ k → k ≤ 6 → leaf (tablePath page 3) (tableIndex page 3 + k) = some w →
      w / 2 ^ (55 - 8 * k) % 2 ^ 9 ≠ 1) :
    (vmFind base page).run s = .ok none s := by
  have hbound := frame_bound (h.frame _ n hn).1
  have hindex := tableIndex_lt page 3
  have hflags := (h.last _ n (length_tablePath page 3) hn).flags_ne_one hindex hfree hwords hquiet
  rw [Ne, ← flags_eq_one_iff] at hflags
  rw [h.run_vmFind hbase hpage hn, frameAddress, Nat.add_assoc, run_lastLevel (by omega),
    Machine.entryAt, if_neg hflags]

end Lookup

end OsProjects.Memory
