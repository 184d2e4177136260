import OsProjects.Memory.TableTrees

/-!
# Mappings of ranges

Calls of `vm_map` and `vm_unmap` in any order.  `vm_map` adds to `page` the
number of pages before it and does not advance `frame`, so that only the first
page of a range is mapped as it should be.
-/

namespace OsProjects.Memory

open Library.Program Library.Bytes Library.Runs

/-! ## Calls -/

/-- An entry of a page that has been written, with its flags set or cleared. -/
structure Slot where
  frame : UInt64
  live : Bool

def Slot.word (e : Slot) : ℕ := e.frame.toNat + if e.live then 2 ^ 55 else 0

/-- The entry does not look like a mapping to an index up to six bytes below it. -/
def Slot.Quiet (e : Slot) (page : UInt64) : Prop :=
  ∀ k, 1 ≤ k → k ≤ 6 → k * 2 ^ 27 < page.toNat → e.word / 2 ^ (55 - 8 * k) % 2 ^ 9 ≠ 1

structure Slot.Valid (e : Slot) (page : UInt64) : Prop where
  ne_zero : page ≠ 0
  page_lt : page.toNat < 2 ^ 36
  frame_lt : e.frame.toNat < 2 ^ 52
  quiet : e.Quiet page

structure PageTable where
  machine : Machine
  entered : UInt64 → Option Slot

inductive TableCall
  | map (page frame : UInt64) (number : ℤ) (flags : UInt16)
  | unmap (page : UInt64) (number : ℤ)

def TableCall.run (base : ℕ) : TableCall → VM ℤ
  | map page frame number flags => vmMap base page frame number flags
  | unmap page number => vmUnmap base page number

/-- The entries after a call that returned a positive number: those of all pages
to be mapped, but only of the first one to be unmapped. -/
def TableCall.enter (entered : UInt64 → Option Slot) : TableCall → UInt64 → Option Slot
  | map page frame number _ => fun q ↦
      if page.toNat ≤ q.toNat ∧ q.toNat < page.toNat + number then some ⟨frame + (q - page), true⟩
      else entered q
  | unmap page _ => Function.update entered page ((entered page).map fun e ↦ { e with live := false })

structure TableStep (base : ℕ) (s : PageTable) (call : TableCall) (t : PageTable) : Prop where
  returned : ∃ r, (call.run base).run s.machine = .ok r t.machine ∧
    t.entered = if 0 < r then call.enter s.entered else s.entered

/-- The entry of the page was never written, or has no address. -/
def PageTable.Free (s : PageTable) (page : UInt64) : Prop :=
  ∀ e, s.entered page = some e → e.frame = 0

/-- In a table of the level that both pages lead to, their indices are the same or
at least eight bytes apart. -/
def IndicesApart (q page : UInt64) (level : ℕ) : Prop :=
  tablePath q level = tablePath page level →
    tableIndex q level = tableIndex page level ∨
      tableIndex q level + 8 ≤ tableIndex page level ∨ tableIndex page level + 8 ≤ tableIndex q level

/-- The tables on the way to the page's entry have a place: their indices are those
of the tables there or at least eight bytes away from all others. -/
structure PageTable.HasWay (s : PageTable) (page : UInt64) : Prop where
  apart : ∀ q, s.entered q ≠ none → ∀ level < 3, IndicesApart q page level
  room : ∀ level, 1 ≤ level → level ≤ 3 →
    (∀ q, s.entered q ≠ none → tablePath q level ≠ tablePath page level) →
      s.machine.frames.setBits + (4 - level) ≤ numFrames
  root : s.machine.tableRoot = 0 → s.machine.frames.setBits + 4 ≤ numFrames

/-- The page's entry has a place too, and does not look like a mapping elsewhere. -/
structure PageTable.Places (s : PageTable) (page frame : UInt64) : Prop extends s.HasWay page where
  last : ∀ q, s.entered q ≠ none → IndicesApart q page 3
  frame_lt : frame.toNat < 2 ^ 52
  quiet : Slot.Quiet ⟨frame, true⟩ page

/-- No more than one page is mapped, one whose entry has no address to a place of
its own, and no entry looks like a mapping elsewhere after it has been unmapped. -/
def PageTable.Allows (s : PageTable) : TableCall → Prop
  | .map page frame number _ => page.toNat < 2 ^ 36 ∧ number ≤ 1 ∧
      (number = 1 → page ≠ 0 → s.Free page → s.Places page frame)
  | .unmap page _ => page.toNat < 2 ^ 36 ∧
      ∀ e, s.entered page = some e → Slot.Quiet { e with live := false } page

/-- Calls that satisfy `allowed`, from a machine without a page table on. -/
def PageTable.Reached (base : ℕ) (allowed : PageTable → TableCall → Prop) (calls : List TableCall)
    (s : PageTable) : Prop :=
  ∃ m : Machine, m.tableRoot = 0 ∧
    Run (fun s call t ↦ TableStep base s call t ∧ allowed s call) ⟨m, fun _ ↦ none⟩ calls s

def Found (base : ℕ) (m : Machine) (page : UInt64) : Prop :=
  ∃ p, (vmFind base page).run m = .ok (some p) m

/-- The call maps the pages from `page` on to the frames from `frame` on, and no
other page. -/
def MapsRange (base : ℕ) (m : Machine) (page frame : UInt64) (number : ℤ) (flags : UInt16) : Prop :=
  Returns (vmMap base page frame number flags) m fun r t ↦ 0 < r ∧
    (∀ k : ℕ, k < number → ∀ v : UInt64, v.toNat / 4096 = page.toNat + k →
      (vmTranslate base v).run t = .ok ((frame + UInt64.ofNat k) * 4096 + v % 4096) t) ∧
    ∀ q : UInt64, q.toNat < 2 ^ 36 → (q.toNat < page.toNat ∨ page.toNat + number ≤ q.toNat) →
      Found base t q → Found base m q

/-! ## What the tables hold -/

/-- The tables are those on the way to the entries written, and hold them. -/
structure PageTable.Holds (base : ℕ) (s : PageTable) (table : List ℕ → Option ℕ)
    (leaf : List ℕ → ℕ → Option ℕ) : Prop where
  tree : TableTree base table leaf s.machine
  tables : ∀ path, path ≠ [] → table path ≠ none →
    ∃ q, s.entered q ≠ none ∧ ∃ level ≤ 3, path = tablePath q level
  entries : ∀ q e, s.entered q = some e → leaf (tablePath q 3) (tableIndex q 3) = some e.word
  leaves : ∀ path i, leaf path i ≠ none →
    ∃ q e, s.entered q = some e ∧ path = tablePath q 3 ∧ i = tableIndex q 3
  valid : ∀ q e, s.entered q = some e → e.Valid q

section Holds

variable {base : ℕ} {s : PageTable} {table : List ℕ → Option ℕ} {leaf : List ℕ → ℕ → Option ℕ}
  {page frame : UInt64}

theorem PageTable.Holds.table_ne_none (h : s.Holds base table leaf) (hpage : s.entered page ≠ none) :
    ∀ level ≤ 3, table (tablePath page level) ≠ none := by
  obtain ⟨e, he⟩ := Option.ne_none_iff_exists'.mp hpage
  have h₃ : table (tablePath page 3) ≠ none := by
    refine h.tree.leafClosed _ (tableIndex page 3) ?_
    rw [h.entries page e he]
    exact Option.some_ne_none e.word
  have h₂ : table (tablePath page 2) ≠ none := h.tree.closed _ _ h₃
  have h₁ : table (tablePath page 1) ≠ none := h.tree.closed _ _ h₂
  intro level hlevel
  interval_cases level
  · exact h.tree.closed _ _ h₁
  · exact h₁
  · exact h₂
  · exact h₃

/-- The entry at the end of a page's path is the page's. -/
theorem PageTable.Holds.entered_of_leaf (h : s.Holds base table leaf) (hpage : page.toNat < 2 ^ 36)
    {w : ℕ} (hw : leaf (tablePath page 3) (tableIndex page 3) = some w) :
    ∃ e, s.entered page = some e ∧ w = e.word := by
  obtain ⟨q, e, he, hpath, hindex⟩ := h.leaves (tablePath page 3) (tableIndex page 3) (by
    rw [hw]
    exact Option.some_ne_none w)
  obtain rfl := eq_of_tablePath hpage (h.valid q e he).page_lt hpath hindex
  have hentry := h.entries page e he
  rw [hw] at hentry
  exact ⟨e, he, Option.some.inj hentry⟩

/-! ## Mapping a page -/

theorem PageTable.Holds.descent (h : s.Holds base table leaf) (hway : s.HasWay page) :
    ∃ n, Descent base page 0 table leaf s.machine n := by
  obtain ⟨n, hn, -⟩ := h.tree.root
  refine ⟨n, h.tree, hn, fun m hm hm3 hnone ↦ ?_, fun m hm hm3 j hj ↦ ?_⟩
  · refine hway.room m hm hm3 fun q hq hpath ↦ ?_
    rw [← hpath] at hnone
    exact h.table_ne_none hq m hm3 hnone
  · have hj' : table (j :: tablePath page m) ≠ none := by
      intro hnone
      rw [children, hnone] at hj
      exact hj rfl
    obtain ⟨q, hq, level, hlevel, hpath⟩ := h.tables _ (List.cons_ne_nil _ _) hj'
    have hlength := congrArg List.length hpath
    rw [List.length_cons, length_tablePath, length_tablePath] at hlength
    subst hlength
    obtain ⟨rfl, hsame⟩ := List.cons.inj hpath
    exact hway.apart q hq m hm3 hsame.symm

theorem PageTable.Holds.leafGap (h : s.Holds base table leaf) (hplaces : s.Places page frame) :
    Gap (leaf (tablePath page 3)) (tableIndex page 3) := by
  intro j hj
  obtain ⟨q, e, he, hpath, rfl⟩ := h.leaves _ j hj
  have hq : s.entered q ≠ none := by
    rw [he]
    exact Option.some_ne_none e
  exact hplaces.last q hq hpath.symm

theorem Slot.word_mod (e : Slot) (h : e.frame = 0) : e.word % 2 ^ 55 = 0 := by
  rw [word, h, UInt64.toNat_zero]
  cases e.live <;> decide

/-- What holds after an entry has been written. -/
theorem PageTable.Holds.enter (h : s.Holds base table leaf) {t : PageTable} {e : Slot}
    {table' : List ℕ → Option ℕ} (he : e.Valid page) (hself : t.entered page = some e)
    (hother : ∀ q, q ≠ page → t.entered q = s.entered q)
    (htree : TableTree base table'
      (writeLeaf leaf (tablePath page 3) (tableIndex page 3) e.word) t.machine)
    (hnew : ∀ path, table' path ≠ none → table path ≠ none ∨ ∃ level ≤ 3, path = tablePath page level) :
    t.Holds base table' (writeLeaf leaf (tablePath page 3) (tableIndex page 3) e.word) := by
  refine ⟨htree, fun path hpath htable ↦ ?_, fun q f hf ↦ ?_, fun path i hi ↦ ?_, fun q f hf ↦ ?_⟩
  · have hpage : t.entered page ≠ none := by
      rw [hself]
      exact Option.some_ne_none e
    rcases hnew path htable with hold | ⟨level, hlevel, rfl⟩
    · obtain ⟨q, hq, hlevel⟩ := h.tables path hpath hold
      refine ⟨q, ?_, hlevel⟩
      by_cases hqp : q = page
      · rwa [hqp]
      · rwa [hother q hqp]
    · exact ⟨page, hpage, level, hlevel, rfl⟩
  · by_cases hqp : q = page
    · subst hqp
      rw [hself] at hf
      cases hf
      rw [writeLeaf, Function.update_self, Function.update_self]
    · rw [hother q hqp] at hf
      have hentry := h.entries q f hf
      rw [writeLeaf]
      by_cases hpath : tablePath q 3 = tablePath page 3
      · have hindex : tableIndex q 3 ≠ tableIndex page 3 := fun hindex ↦
          hqp (eq_of_tablePath (h.valid q f hf).page_lt he.page_lt hpath hindex)
        rw [hpath] at hentry ⊢
        rw [Function.update_self, Function.update_of_ne hindex, hentry]
      · rw [Function.update_of_ne hpath, hentry]
  · by_cases hat : path = tablePath page 3 ∧ i = tableIndex page 3
    · exact ⟨page, e, hself, hat⟩
    · have hold : leaf path i ≠ none := by
        rw [writeLeaf] at hi
        by_cases hpath : path = tablePath page 3
        · subst hpath
          rwa [Function.update_self, Function.update_of_ne fun hindex ↦ hat ⟨rfl, hindex⟩] at hi
        · rwa [Function.update_of_ne hpath] at hi
      obtain ⟨q, f, hf, rfl, rfl⟩ := h.leaves path i hold
      have hqp : q ≠ page := by
        rintro rfl
        exact hat ⟨rfl, rfl⟩
      exact ⟨q, f, (hother q hqp).trans hf, rfl, rfl⟩
  · by_cases hqp : q = page
    · subst hqp
      rw [hself] at hf
      cases hf
      exact he
    · rw [hother q hqp] at hf
      exact h.valid q f hf

theorem PageTable.Holds.run_mapBody (hbase : WellPlaced base) (h : s.Holds base table leaf)
    (hpage : page ≠ 0) (hlt : page.toNat < 2 ^ 36) (hfree : s.Free page)
    (hplaces : s.Places page frame) :
    ∃ t, (mapBody base frame 0 (page, none)).run s.machine = .ok (.yield (page, none)) t ∧
      t.frames.setBits ≤ s.machine.frames.setBits + 3 ∧
      ∀ u : PageTable, u.machine = t → u.entered page = some ⟨frame, true⟩ →
        (∀ q, q ≠ page → u.entered q = s.entered q) → ∃ table' leaf', u.Holds base table' leaf' := by
  obtain ⟨n, hdescent⟩ := h.descent hplaces.toHasWay
  obtain ⟨table', t, hrun, htree, hbits, hnew, -⟩ := hdescent.run_mapBody hbase (h.leafGap hplaces)
    (fun w hw ↦ by
      obtain ⟨e, he, rfl⟩ := h.entered_of_leaf hlt hw
      exact e.word_mod (hfree e he)) hplaces.frame_lt
  refine ⟨t, hrun, hbits, fun u hu hself hother ↦ ⟨table',
    writeLeaf leaf (tablePath page 3) (tableIndex page 3) (Slot.word ⟨frame, true⟩), ?_⟩⟩
  subst hu
  exact h.enter ⟨hpage, hlt, hplaces.frame_lt, hplaces.quiet⟩ hself hother htree hnew

/-! ## Entries that are there -/

theorem run_storeMapping_of_ne {m : Machine} {p : ℕ} {e : Entry}
    (hload : (loadEntry base p).run m = .ok e m) (he : e.address ≠ 0) :
    (storeMapping base page frame p).run m = .ok (.done (page, some 0)) m := by
  rw [storeMapping, run_bind_of_ok hload, if_neg he]
  rfl

theorem PageTable.Holds.exists_entry (h : s.Holds base table leaf) {e : Slot}
    (he : s.entered page = some e) : ∃ n < numFrames, table (tablePath page 3) = some n ∧
      readLE s.machine.memory (n * 4096 + tableIndex page 3) 8 = e.word := by
  have hpage : s.entered page ≠ none := by
    rw [he]
    exact Option.some_ne_none e
  obtain ⟨n, hn⟩ := Option.ne_none_iff_exists'.mp (h.table_ne_none hpage 3 le_rfl)
  exact ⟨n, (h.tree.frame _ n hn).1, hn,
    (h.tree.last _ n (length_tablePath page 3) hn).readLE (h.entries page e he)⟩

theorem Slot.toNat_address {e : Slot} (h : e.frame.toNat < 2 ^ 52) :
    (Entry.ofWord e.word).address.toNat = e.frame.toNat := by
  rw [toNat_address_ofWord, word]
  split <;> omega

theorem Slot.flags_eq_one_iff {e : Slot} (h : e.frame.toNat < 2 ^ 52) :
    (Entry.ofWord e.word).flags = 1 ↔ e.live = true := by
  have hflags : (Entry.ofWord e.word).flags.toNat = e.word / 2 ^ 55 % 2 ^ 9 := BitVec.toNat_ofNat _ 9
  rw [Memory.flags_eq_one_iff, hflags, word]
  cases e.live with
  | true =>
      rw [if_pos rfl]
      exact iff_of_true (by omega) rfl
  | false =>
      rw [if_neg Bool.false_ne_true]
      exact iff_of_false (by omega) Bool.false_ne_true

/-- An entry with an address is not written again. -/
theorem TableTree.run_mapBody_of_address {m : Machine} {w : ℕ} (hbase : WellPlaced base)
    (h : TableTree base table leaf m) (hw : leaf (tablePath page 3) (tableIndex page 3) = some w)
    (hne : w % 2 ^ 52 ≠ 0) :
    (mapBody base frame 0 (page, none)).run m = .ok (.done (page, some 0)) m := by
  obtain ⟨n, hn⟩ := Option.ne_none_iff_exists'.mp
    (h.leafClosed _ (tableIndex page 3) (by rw [hw]; exact Option.some_ne_none w))
  have hload := run_loadEntry_frameAddress base (s := m) (h.frame _ n hn).1 (tableIndex_lt page 3)
  rw [(h.last _ n (length_tablePath page 3) hn).readLE hw] at hload
  exact (h.run_mapBody_of_some hbase frame hn).trans
    (run_storeMapping_of_ne hload (mt (address_ofWord_eq_zero_iff w).mp hne))

/-- A page is refused where its indices lead to an entry that has an address. -/
theorem PageTable.Holds.run_mapBody_of_entered (hbase : WellPlaced base)
    (h : s.Holds base table leaf) {q : UInt64} {e : Slot} (he : s.entered q = some e)
    (hframe : e.frame ≠ 0) (hpath : tablePath q 3 = tablePath page 3)
    (hindex : tableIndex q 3 = tableIndex page 3) :
    (mapBody base frame 0 (page, none)).run s.machine = .ok (.done (page, some 0)) s.machine := by
  have hentry := h.entries q e he
  rw [hpath, hindex] at hentry
  refine h.tree.run_mapBody_of_address hbase hentry fun hzero ↦ hframe ?_
  apply UInt64.toNat_inj.mp
  rw [← Slot.toNat_address (h.valid q e he).frame_lt, toNat_address_ofWord, hzero, UInt64.toNat_zero]

/-! ## Lookups -/

theorem PageTable.Holds.run_vmFind (hbase : WellPlaced base) (h : s.Holds base table leaf) {e : Slot}
    (he : s.entered page = some e) :
    ∃ n < numFrames, table (tablePath page 3) = some n ∧
      readLE s.machine.memory (n * 4096 + tableIndex page 3) 8 = e.word ∧
      (vmFind base page).run s.machine =
        .ok (if e.live then some (base + (n * 4096 + tableIndex page 3)) else none) s.machine := by
  obtain ⟨n, hn, htable, hread⟩ := h.exists_entry he
  have hvalid := h.valid page e he
  refine ⟨n, hn, htable, hread, ?_⟩
  rw [h.tree.run_vmFind_of_entry hbase hvalid.ne_zero htable (h.entries page e he), frameAddress,
    Nat.add_assoc]
  simp only [Slot.flags_eq_one_iff hvalid.frame_lt]

theorem PageTable.Holds.run_vmFind_of_table (hbase : WellPlaced base) (h : s.Holds base table leaf)
    (hpage : page ≠ 0) (hlt : page.toNat < 2 ^ 36) (hnone : s.entered page = none) {n : ℕ}
    (hn : table (tablePath page 3) = some n) :
    (vmFind base page).run s.machine = .ok none s.machine := by
  have hpos : 0 < page.toNat := Nat.pos_of_ne_zero fun hzero ↦ hpage (UInt64.toNat_inj.mp hzero)
  have hfree : leaf (tablePath page 3) (tableIndex page 3) = none := by
    by_contra hsome
    obtain ⟨w, hw⟩ := Option.ne_none_iff_exists'.mp hsome
    obtain ⟨e, he, -⟩ := h.entered_of_leaf hlt hw
    rw [hnone] at he
    cases he
  have howner : ∀ j w, leaf (tablePath page 3) j = some w →
      ∃ q e, s.entered q = some e ∧ tablePath page 3 = tablePath q 3 ∧ j = tableIndex q 3 ∧ w = e.word := by
    intro j w hw
    obtain ⟨q, e, he, hpath, rfl⟩ := h.leaves (tablePath page 3) j (by
      rw [hw]
      exact Option.some_ne_none w)
    rw [hpath, h.entries q e he] at hw
    exact ⟨q, e, he, hpath, rfl, (Option.some.inj hw).symm⟩
  refine h.tree.run_vmFind_of_free hbase hpage hn hfree (fun j w hw ↦ ?_) fun k w hk hk6 hw ↦ ?_
  · obtain ⟨q, e, he, -, -, rfl⟩ := howner j w hw
    have hframe := (h.valid q e he).frame_lt
    rw [Slot.word]
    split <;> omega
  · obtain ⟨q, e, he, hpath, hindex, rfl⟩ := howner _ w hw
    have hq := h.valid q e he
    exact hq.quiet k hk hk6 (mul_lt_of_tablePath hpos hlt hq.page_lt hpath hindex)

/-- What a lookup of a page without an entry meets depends on the tables only. -/
theorem PageTable.Holds.exists_missed (hbase : Isolated base) (h : s.Holds base table leaf)
    (hpage : page ≠ 0) (hlt : page.toNat < 2 ^ 36) :
    ∃ r, ∀ (t : PageTable) (leaf' : List ℕ → ℕ → Option ℕ), t.Holds base table leaf' →
      t.entered page = none → (vmFind base page).run t.machine = missed r t.machine := by
  cases hn : table (tablePath page 3) with
  | none =>
      obtain ⟨r, hr⟩ := h.tree.exists_missed hbase hpage hn
      exact ⟨r, fun t leaf' ht _ ↦ hr leaf' t.machine ht.tree⟩
  | some n =>
      exact ⟨none, fun t leaf' ht hnone ↦ ht.run_vmFind_of_table hbase.toWellPlaced hpage hlt hnone hn⟩

end Holds

/-! ## Unmapping a page -/

theorem toWord_ofWord_without_flags {v : ℕ} (hv : v < 2 ^ 52) :
    Entry.toWord { Entry.ofWord (v + 2 ^ 55) with flags := .ofNat 9 0 } = v := by
  have hmod : (v + 2 ^ 55) % 2 ^ 52 = v := by omega
  simp only [Entry.toWord, Entry.ofWord, BitVec.toNat_ofNat, hmod]
  omega

section Unmap

variable {base : ℕ} {page : UInt64} {number : ℤ} {m : Machine}

theorem unmapBody_zero (base : ℕ) (page : UInt64) :
    unmapBody base 0 (page, none) = vmFind base page >>= fun found ↦
      loadEntry base (found.getD 0) >>= fun e ↦
        if e.flags = 1 then do
          setFlags base (found.getD 0) 0
          return .done (page, some 1)
        else return .yield (page, none) := by
  have hpage : page + UInt64.ofNat 0 = page := by simp
  rw [unmapBody]
  simp only [hpage]

theorem run_vmUnmap_of_found (hpage : page ≠ 0) (hnumber : 0 < number) {o v : ℕ}
    (hfind : (vmFind base page).run m = .ok (some (base + o)) m) (ho : o + 8 ≤ memorySize)
    (hread : readLE m.memory o 8 = v + 2 ^ 55) (hv : v < 2 ^ 52) :
    (vmUnmap base page number).run m = .ok 1 { m with memory := writeLE m.memory o 8 v } := by
  have hflags : (Entry.ofWord (v + 2 ^ 55)).flags = 1 := by
    rw [flags_eq_one_iff]
    exact (BitVec.toNat_ofNat _ 9).trans (by omega)
  have hload := run_loadEntry base ho (s := m)
  have hset := run_setFlags base (v := 0) ho (s := m)
  rw [Machine.entryAt, hread] at hload hset
  rw [Machine.store, toWord_ofWord_without_flags hv] at hset
  have hbody : (unmapBody base 0 (page, none)).run m =
      .ok (.done (page, some 1)) { m with memory := writeLE m.memory o 8 v } := by
    rw [unmapBody_zero, run_bind_of_ok hfind]
    refine (run_bind_of_ok hload).trans ?_
    rw [if_pos hflags]
    exact (run_bind_of_ok hset).trans rfl
  obtain ⟨k, hk⟩ := Nat.exists_eq_succ_of_ne_zero (show number.toNat ≠ 0 by omega)
  have hloop : (forLoop (unmapBody base) 0 number.toNat (page, none)).run m =
      .ok (page, some 1) { m with memory := writeLE m.memory o 8 v } := by
    rw [hk]
    exact run_forLoop_of_done hbody
  rw [vmUnmap, if_neg hpage]
  exact (run_bind_of_ok hloop).trans rfl

/-- A page that is not found is looked at, at `NULL`. -/
theorem run_vmUnmap_of_missed (hbase : 0 < base) (hpage : page ≠ 0) (hnumber : 0 < number)
    {r : Option Fault} (hfind : (vmFind base page).run m = missed r m) :
    ∃ f, (vmUnmap base page number).run m = .error f m := by
  have hbody : ∃ f, (unmapBody base 0 (page, none)).run m = .error f m := by
    rw [unmapBody_zero]
    cases r with
    | none =>
        have hload := run_loadEntry_of_outside base (s := m) (p := 0) (.inl hbase)
        exact ⟨_, (run_bind_of_ok hfind).trans (run_bind_of_error hload)⟩
    | some f => exact ⟨f, run_bind_of_error hfind⟩
  obtain ⟨f, hf⟩ := hbody
  obtain ⟨k, hk⟩ := Nat.exists_eq_succ_of_ne_zero (show number.toNat ≠ 0 by omega)
  have hloop : (forLoop (unmapBody base) 0 number.toNat (page, none)).run m = .error f m := by
    rw [hk]
    exact run_bind_of_error hf
  refine ⟨f, ?_⟩
  rw [vmUnmap, if_neg hpage]
  exact run_bind_of_error hloop

theorem run_vmUnmap_of_nonpos (hnumber : page ≠ 0 → number ≤ 0) :
    (vmUnmap base page number).run m = .ok 0 m := by
  rw [vmUnmap]
  by_cases hpage : page = 0
  · rw [if_pos hpage]
    rfl
  · have hzero : number.toNat = 0 := Int.toNat_eq_zero.mpr (hnumber hpage)
    rw [if_neg hpage, hzero]
    rfl

end Unmap

section Unmap

variable {base : ℕ} {s : PageTable} {table : List ℕ → Option ℕ} {leaf : List ℕ → ℕ → Option ℕ}
  {page : UInt64} {number : ℤ} {e : Slot}

theorem PageTable.Holds.run_vmUnmap (hbase : WellPlaced base) (h : s.Holds base table leaf)
    (he : s.entered page = some e) (hlive : e.live = true) (hnumber : 0 < number) :
    ∃ t, (vmUnmap base page number).run s.machine = .ok 1 t ∧
      TableTree base table (writeLeaf leaf (tablePath page 3) (tableIndex page 3) e.frame.toNat) t := by
  obtain ⟨n, hn, htable, hread, hfind⟩ := h.run_vmFind hbase he
  have hvalid := h.valid page e he
  have hframe := hvalid.frame_lt
  have hbound := frame_bound hn
  have hindex := tableIndex_lt page 3
  have hlength := length_tablePath page 3
  rw [Slot.word, hlive, if_pos rfl] at hread
  rw [hlive, if_pos rfl] at hfind
  have hrun := run_vmUnmap_of_found hvalid.ne_zero hnumber hfind (by omega) hread hframe
  have hgap : Gap (leaf (tablePath page 3)) (tableIndex page 3) := by
    refine (h.tree.last _ n hlength htable).gap ?_
    rw [h.entries page e he]
    exact Option.some_ne_none e.word
  exact ⟨_, hrun, h.tree.writeLeaf hlength htable hindex hgap (w := e.frame.toNat) (by omega)⟩

theorem PageTable.Holds.unmapped (h : s.Holds base table leaf) (he : s.entered page = some e)
    (hquiet : Slot.Quiet { e with live := false } page) {t : PageTable}
    (htree : TableTree base table
      (writeLeaf leaf (tablePath page 3) (tableIndex page 3) e.frame.toNat) t.machine)
    (hself : t.entered page = some { e with live := false })
    (hother : ∀ q, q ≠ page → t.entered q = s.entered q) :
    t.Holds base table (writeLeaf leaf (tablePath page 3) (tableIndex page 3) e.frame.toNat) := by
  have hvalid := h.valid page e he
  have hword : Slot.word { e with live := false } = e.frame.toNat := by
    rw [Slot.word, if_neg Bool.false_ne_true, Nat.add_zero]
  rw [← hword] at htree ⊢
  exact h.enter ⟨hvalid.ne_zero, hvalid.page_lt, hvalid.frame_lt, hquiet⟩ hself hother htree
    fun path hpath ↦ .inl hpath

end Unmap

/-! ## Runs -/

/-- There is no table yet, or the tables hold the entries. -/
def PageTable.Tabled (base : ℕ) (s : PageTable) : Prop :=
  (s.machine.tableRoot = 0 ∧ ∀ q, s.entered q = none) ∨ ∃ table leaf, s.Holds base table leaf

section Runs

variable {base : ℕ} {s t : PageTable} {page frame : UInt64} {number : ℤ} {flags : UInt16}

theorem PageTable.Holds.tableRoot_ne {table : List ℕ → Option ℕ} {leaf : List ℕ → ℕ → Option ℕ}
    (h : s.Holds base table leaf) (hbase : WellPlaced base) : s.machine.tableRoot ≠ 0 := by
  obtain ⟨n, -, hroot⟩ := h.tree.root
  rw [hroot]
  exact (hbase.frameAddress_pos n).ne'

theorem Extends.holds {n : ℕ} {m : Machine} (h : Extends s.machine n m) (hn : n < numFrames)
    (hnone : ∀ q, s.entered q = none) :
    ∃ table leaf, PageTable.Holds base ⟨{ m with tableRoot := frameAddress base n }, s.entered⟩
      table leaf := by
  refine ⟨_, _, h.tableTree hn, fun path hpath htable ↦ absurd (if_neg hpath) htable,
    fun q e he ↦ ?_, fun path i hi ↦ absurd rfl hi, fun q e he ↦ ?_⟩
  · exact absurd he (by rw [hnone q]; exact (Option.some_ne_none e).symm)
  · exact absurd he (by rw [hnone q]; exact (Option.some_ne_none e).symm)

/-- `vm_map` at a page table with a root. -/
def mapPages (base : ℕ) (page frame : UInt64) (number : ℤ) : VM ℤ := do
  let (_, result) ← forLoop (mapBody base frame) 0 number.toNat (page, none)
  match result with
  | some r => return r
  | none => return 1

theorem run_mapPages {m m' : Machine} {last : UInt64} {r : Option ℤ}
    (hloop : (forLoop (mapBody base frame) 0 number.toNat (page, none)).run m = .ok (last, r) m') :
    (mapPages base page frame number).run m = .ok (r.getD 1) m' := by
  refine (run_bind_of_ok hloop).trans ?_
  cases r <;> rfl

theorem PageTable.Tabled.exists_root (hbase : WellPlaced base) (h : s.Tabled base) (hpage : page ≠ 0)
    (hroom : s.machine.tableRoot = 0 → s.machine.frames.setBits < numFrames) :
    ∃ (m : Machine) (table : List ℕ → Option ℕ) (leaf : List ℕ → ℕ → Option ℕ),
      PageTable.Holds base ⟨m, s.entered⟩ table leaf ∧
      (s.machine.tableRoot ≠ 0 → m = s.machine) ∧
      m.frames.setBits ≤ s.machine.frames.setBits + 1 ∧
        ∀ frame number flags, (vmMap base page frame number flags).run s.machine =
          (mapPages base page frame number).run m := by
  rcases h with ⟨hroot, hnone⟩ | ⟨table, leaf, h⟩
  · obtain ⟨n, m, hnode, hn, hnew, -⟩ := run_makeNode base (hroom hroot)
    obtain ⟨table, leaf, h⟩ := @Extends.holds base s n m hnew hn hnone
    refine ⟨_, table, leaf, h, fun hne ↦ absurd hroot hne, hnew.setBits.le,
      fun frame number flags ↦ ?_⟩
    rw [vmMap, if_neg hpage, run_bind_of_ok (EStateM.run_get s.machine), if_pos hroot]
    exact run_bind_of_ok hnode
  · refine ⟨s.machine, table, leaf, h, fun _ ↦ rfl, Nat.le_succ _, fun frame number flags ↦ ?_⟩
    rw [vmMap, if_neg hpage, run_bind_of_ok (EStateM.run_get s.machine),
      if_neg (h.tableRoot_ne hbase)]
    rfl

section Root

variable {m : Machine} {table : List ℕ → Option ℕ} {leaf : List ℕ → ℕ → Option ℕ}

theorem PageTable.HasWay.of_root (hway : s.HasWay page) (hbase : WellPlaced base)
    (h : PageTable.Holds base ⟨m, s.entered⟩ table leaf)
    (hsame : s.machine.tableRoot ≠ 0 → m = s.machine)
    (hbits : m.frames.setBits ≤ s.machine.frames.setBits + 1) :
    PageTable.HasWay ⟨m, s.entered⟩ page := by
  refine ⟨hway.apart, fun level hlevel hlevel3 hnone ↦ ?_,
    fun hzero ↦ absurd hzero (h.tableRoot_ne hbase)⟩
  by_cases hroot : s.machine.tableRoot = 0
  · have hroom := hway.root hroot
    change m.frames.setBits + (4 - level) ≤ numFrames
    omega
  · rw [hsame hroot]
    exact hway.room level hlevel hlevel3 hnone

theorem PageTable.Places.of_root (hplaces : s.Places page frame) (hbase : WellPlaced base)
    (h : PageTable.Holds base ⟨m, s.entered⟩ table leaf)
    (hsame : s.machine.tableRoot ≠ 0 → m = s.machine)
    (hbits : m.frames.setBits ≤ s.machine.frames.setBits + 1) :
    PageTable.Places ⟨m, s.entered⟩ page frame :=
  ⟨hplaces.toHasWay.of_root hbase h hsame hbits, hplaces.last, hplaces.frame_lt, hplaces.quiet⟩

end Root

/-- The first page is mapped, and the loop goes on. -/
theorem PageTable.Tabled.run_vmMap (hbase : WellPlaced base) (h : s.Tabled base) (hpage : page ≠ 0)
    (hlt : page.toNat < 2 ^ 36) (hfree : s.Free page) (hplaces : s.Places page frame) :
    ∃ m t, (mapBody base frame 0 (page, none)).run m = .ok (.yield (page, none)) t ∧
      (∀ number flags, (vmMap base page frame number flags).run s.machine =
        (mapPages base page frame number).run m) ∧
      t.frames.setBits ≤ s.machine.frames.setBits + 4 ∧
      ∀ u : PageTable, u.machine = t → u.entered page = some ⟨frame, true⟩ →
        (∀ q, q ≠ page → u.entered q = s.entered q) → ∃ table leaf, u.Holds base table leaf := by
  obtain ⟨m, table, leaf, hm, hsame, hbits, hvmMap⟩ :=
    h.exists_root hbase hpage fun hroot ↦ by have := hplaces.root hroot; omega
  obtain ⟨t, hbody, hbits', hholds⟩ :=
    hm.run_mapBody hbase hpage hlt hfree (hplaces.of_root hbase hm hsame hbits)
  exact ⟨m, t, hbody, hvmMap frame, by simp only at hbits'; omega, hholds⟩

theorem PageTable.Tabled.run_vmMap_one (hbase : WellPlaced base) (h : s.Tabled base)
    (hpage : page ≠ 0) (hlt : page.toNat < 2 ^ 36) (hfree : s.Free page)
    (hplaces : s.Places page frame) (flags : UInt16) :
    ∃ t, (vmMap base page frame 1 flags).run s.machine = .ok 1 t ∧
      t.frames.setBits ≤ s.machine.frames.setBits + 4 ∧
      ∀ u : PageTable, u.machine = t → u.entered page = some ⟨frame, true⟩ →
        (∀ q, q ≠ page → u.entered q = s.entered q) → ∃ table leaf, u.Holds base table leaf := by
  obtain ⟨m, t, hbody, hvmMap, hbits, hholds⟩ := h.run_vmMap hbase hpage hlt hfree hplaces
  have hloop : (forLoop (mapBody base frame) 0 (1 : ℤ).toNat (page, none)).run m =
      .ok (page, none) t := run_forLoop_of_yield hbody
  exact ⟨t, (hvmMap 1 flags).trans (run_mapPages hloop), hbits, hholds⟩

theorem run_vmMap_of_done {m : Machine} (hpage : page ≠ 0) (hroot : m.tableRoot ≠ 0)
    (hnumber : 0 < number)
    (hbody : (mapBody base frame 0 (page, none)).run m = .ok (.done (page, some 0)) m)
    (flags : UInt16) : (vmMap base page frame number flags).run m = .ok 0 m := by
  obtain ⟨k, hk⟩ := Nat.exists_eq_succ_of_ne_zero (show number.toNat ≠ 0 by omega)
  have hloop : (forLoop (mapBody base frame) 0 number.toNat (page, none)).run m =
      .ok (page, some 0) m := by
    rw [hk]
    exact run_forLoop_of_done hbody
  rw [vmMap, if_neg hpage, run_bind_of_ok (EStateM.run_get m), if_neg hroot]
  exact run_mapPages hloop

theorem run_vmMap_zero (base : ℕ) (frame : UInt64) (number : ℤ) (flags : UInt16) (m : Machine) :
    (vmMap base 0 frame number flags).run m = .ok 0 m := by
  rw [vmMap, if_pos rfl]
  rfl

/-- A range is refused if the indices of its first page lead to an entry with an
address. -/
theorem PageTable.Tabled.run_vmMap_of_entered (hbase : WellPlaced base) (h : s.Tabled base)
    {q : UInt64} {e : Slot} (he : s.entered q = some e) (hframe : e.frame ≠ 0)
    (hpath : tablePath q 3 = tablePath page 3) (hindex : tableIndex q 3 = tableIndex page 3)
    (hnumber : 0 < number) (flags : UInt16) :
    (vmMap base page frame number flags).run s.machine = .ok 0 s.machine := by
  rcases h with ⟨-, hnone⟩ | ⟨table, leaf, h⟩
  · rw [hnone q] at he
    cases he
  · by_cases hpage : page = 0
    · rw [hpage]
      exact run_vmMap_zero base frame number flags s.machine
    · exact run_vmMap_of_done hpage (h.tableRoot_ne hbase) hnumber
        (h.run_mapBody_of_entered hbase he hframe hpath hindex) flags

theorem PageTable.exists_of_not_free (h : ¬ s.Free page) :
    ∃ e, s.entered page = some e ∧ e.frame ≠ 0 := by
  rw [PageTable.Free] at h
  push Not at h
  exact h

theorem PageTable.Tabled.run_vmMap_of_not_free (hbase : WellPlaced base) (h : s.Tabled base)
    (hfree : ¬ s.Free page) (hnumber : 0 < number) (flags : UInt16) :
    (vmMap base page frame number flags).run s.machine = .ok 0 s.machine := by
  obtain ⟨e, he, hframe⟩ := PageTable.exists_of_not_free hfree
  exact h.run_vmMap_of_entered hbase he hframe rfl rfl hnumber flags

/-- A call for no page makes no more than a root. -/
theorem PageTable.Tabled.of_vmMap_nonpos (hbase : WellPlaced base) (h : s.Tabled base)
    (hpage : page ≠ 0) (hnumber : number ≤ 0) {r : ℤ} {m : Machine}
    (hrun : (vmMap base page frame number flags).run s.machine = .ok r m) :
    PageTable.Tabled base ⟨m, s.entered⟩ := by
  have hroom : s.machine.tableRoot = 0 → s.machine.frames.setBits < numFrames := by
    intro hroot
    rw [vmMap, if_neg hpage, run_bind_of_ok (EStateM.run_get s.machine), if_pos hroot] at hrun
    obtain ⟨node, m', hnode, -⟩ := run_bind_eq_ok_iff.mp hrun
    exact setBits_lt_of_makeNode hnode
  obtain ⟨m', table, leaf, hm, -, -, hvmMap⟩ := h.exists_root hbase hpage hroom
  have hloop : (forLoop (mapBody base frame) 0 number.toNat (page, none)).run m' =
      .ok (page, none) m' := by
    rw [Int.toNat_eq_zero.mpr hnumber]
    rfl
  rw [hvmMap frame number flags, run_mapPages hloop] at hrun
  cases hrun
  exact .inr ⟨table, leaf, hm⟩

theorem PageTable.Tabled.exists_missed (hbase : Isolated base) (h : s.Tabled base) (hpage : page ≠ 0)
    (hlt : page.toNat < 2 ^ 36) (hdead : ∀ e, s.entered page = some e → e.live = false) :
    ∃ r, (vmFind base page).run s.machine = missed r s.machine := by
  rcases h with ⟨hroot, -⟩ | ⟨table, leaf, h⟩
  · obtain ⟨f, hf⟩ := run_vmFind_of_null hbase.toWellPlaced hroot hpage
    exact ⟨some f, hf⟩
  · cases he : s.entered page with
    | none =>
        obtain ⟨r, hr⟩ := h.exists_missed hbase hpage hlt
        exact ⟨r, hr s leaf h he⟩
    | some e =>
        obtain ⟨n, -, -, -, hfind⟩ := h.run_vmFind hbase.toWellPlaced he
        rw [hdead e he, if_neg Bool.false_ne_true] at hfind
        exact ⟨none, hfind⟩

/-- The pages found are those with a live entry. -/
theorem PageTable.Tabled.found_iff (hbase : Isolated base) (h : s.Tabled base)
    (hlt : page.toNat < 2 ^ 36) :
    Found base s.machine page ↔ ∃ e, s.entered page = some e ∧ e.live = true := by
  constructor
  · rintro ⟨p, hp⟩
    by_contra! hdead
    by_cases hpage : page = 0
    · rw [hpage, run_vmFind_zero] at hp
      cases hp
    · obtain ⟨r, hr⟩ := h.exists_missed hbase hpage hlt fun e he ↦
        Bool.eq_false_of_not_eq_true (hdead e he)
      rw [hr] at hp
      cases r <;> cases hp
  · rintro ⟨e, he, hlive⟩
    rcases h with ⟨-, hnone⟩ | ⟨table, leaf, h⟩
    · rw [hnone page] at he
      cases he
    · obtain ⟨n, -, -, -, hfind⟩ := h.run_vmFind hbase.toWellPlaced he
      rw [hlive, if_pos rfl] at hfind
      exact ⟨_, hfind⟩

theorem TableTree.run_vmTranslate {m : Machine} {table : List ℕ → Option ℕ}
    {leaf : List ℕ → ℕ → Option ℕ} (hbase : WellPlaced base) (h : TableTree base table leaf m)
    (hpage : page ≠ 0) {e : Slot} (hw : leaf (tablePath page 3) (tableIndex page 3) = some e.word)
    (hframe : e.frame.toNat < 2 ^ 52) (hlive : e.live = true) {v : UInt64}
    (hv : v.toNat / 4096 = page.toNat) :
    (vmTranslate base v).run m = .ok (e.frame * 4096 + v % 4096) m := by
  obtain ⟨n, hn⟩ := Option.ne_none_iff_exists'.mp
    (h.leafClosed _ (tableIndex page 3) (by rw [hw]; exact Option.some_ne_none _))
  have hbound := frame_bound (h.frame _ n hn).1
  have hindex := tableIndex_lt page 3
  have hnumber : v >>> 12 = page := UInt64.toNat_inj.mp ((toNat_pageNumber v).trans hv)
  have hfind := h.run_vmFind_of_entry hbase hpage hn hw
  rw [if_pos ((Slot.flags_eq_one_iff hframe).mpr hlive), frameAddress, Nat.add_assoc, ← hnumber] at hfind
  refine run_vmTranslate_of_found hfind (by rw [hnumber]; omega) ?_ hframe
  rw [Machine.entryAt, hnumber, (h.last _ n (length_tablePath page 3) hn).readLE hw]
  exact Slot.toNat_address hframe

theorem PageTable.Holds.run_vmTranslate {table : List ℕ → Option ℕ} {leaf : List ℕ → ℕ → Option ℕ}
    (hbase : WellPlaced base) (h : s.Holds base table leaf) {e : Slot} (he : s.entered page = some e)
    (hlive : e.live = true) {v : UInt64} (hv : v.toNat / 4096 = page.toNat) :
    (vmTranslate base v).run s.machine = .ok (e.frame * 4096 + v % 4096) s.machine := by
  have hvalid := h.valid page e he
  exact h.tree.run_vmTranslate hbase hvalid.ne_zero (h.entries page e he) hvalid.frame_lt hlive hv

/-! ## Steps -/

theorem TableStep.eq_of_run {call : TableCall} (hstep : TableStep base s call t) {r : ℤ} {m : Machine}
    (hrun : (call.run base).run s.machine = .ok r m) :
    t = ⟨m, if 0 < r then call.enter s.entered else s.entered⟩ := by
  obtain ⟨r', hrun', hentered⟩ := hstep.returned
  rw [hrun] at hrun'
  cases hrun'
  rw [← hentered]

/-- A call that is refused changes nothing. -/
theorem TableStep.eq_self {call : TableCall} (hstep : TableStep base s call t)
    (hrun : (call.run base).run s.machine = .ok 0 s.machine) : t = s := by
  rw [hstep.eq_of_run hrun, if_neg (lt_irrefl 0)]

theorem TableCall.enter_map_of_nonpos (entered : UInt64 → Option Slot) (hnumber : number ≤ 0) :
    TableCall.enter entered (.map page frame number flags) = entered := by
  funext q
  exact if_neg (by omega)

theorem TableCall.enter_map_self (entered : UInt64 → Option Slot) (flags : UInt16) :
    TableCall.enter entered (.map page frame 1 flags) page = some ⟨frame, true⟩ := by
  refine (if_pos (by omega)).trans ?_
  rw [UInt64.sub_self, UInt64.add_zero]

theorem TableCall.enter_map_of_ne (entered : UInt64 → Option Slot) (flags : UInt16) {q : UInt64}
    (hq : q ≠ page) : TableCall.enter entered (.map page frame 1 flags) q = entered q := by
  refine if_neg fun hin ↦ hq (UInt64.toNat_inj.mp ?_)
  omega

theorem TableCall.enter_map_one (entered : UInt64 → Option Slot) (flags : UInt16) :
    TableCall.enter entered (.map page frame 1 flags) =
      Function.update entered page (some ⟨frame, true⟩) := by
  funext q
  by_cases hq : q = page
  · subst hq
    rw [enter_map_self, Function.update_self]
  · rw [enter_map_of_ne entered flags hq, Function.update_of_ne hq]

theorem PageTable.Tabled.map_step (hbase : WellPlaced base) (h : s.Tabled base)
    (hallows : s.Allows (.map page frame number flags))
    (hstep : TableStep base s (.map page frame number flags) t) : t.Tabled base := by
  obtain ⟨hlt, hnumber, hplaces⟩ := hallows
  by_cases hpage : page = 0
  · rw [hpage] at hstep
    rwa [hstep.eq_self (run_vmMap_zero base frame number flags s.machine)]
  by_cases hnonpos : number ≤ 0
  · obtain ⟨r, hrun, -⟩ := hstep.returned
    rw [hstep.eq_of_run hrun, TableCall.enter_map_of_nonpos _ hnonpos, ite_self]
    change (vmMap base page frame number flags).run s.machine = _ at hrun
    exact h.of_vmMap_nonpos hbase hpage hnonpos hrun
  obtain rfl : number = 1 := by omega
  by_cases hfree : s.Free page
  · obtain ⟨m, hrun, -, hholds⟩ := h.run_vmMap_one hbase hpage hlt hfree (hplaces rfl hpage hfree) flags
    rw [hstep.eq_of_run hrun, if_pos Int.one_pos]
    exact .inr (hholds _ rfl (TableCall.enter_map_self s.entered flags) fun q hq ↦
      TableCall.enter_map_of_ne s.entered flags hq)
  · rwa [hstep.eq_self (h.run_vmMap_of_not_free hbase hfree Int.one_pos flags)]

theorem PageTable.Tabled.unmap_step (hbase : Isolated base) (h : s.Tabled base)
    (hallows : s.Allows (.unmap page number)) (hstep : TableStep base s (.unmap page number) t) :
    t.Tabled base := by
  obtain ⟨hlt, hquiet⟩ := hallows
  by_cases hnonpos : page ≠ 0 → number ≤ 0
  · rwa [hstep.eq_self (run_vmUnmap_of_nonpos hnonpos)]
  push Not at hnonpos
  obtain ⟨hpage, hnumber⟩ := hnonpos
  by_cases hlive : ∃ e, s.entered page = some e ∧ e.live = true
  · obtain ⟨e, he, hlive⟩ := hlive
    rcases h with ⟨-, hnone⟩ | ⟨table, leaf, h⟩
    · rw [hnone page] at he
      cases he
    · obtain ⟨m, hrun, htree⟩ := h.run_vmUnmap hbase.toWellPlaced he hlive hnumber
      rw [hstep.eq_of_run hrun, if_pos Int.one_pos]
      refine .inr ⟨table, _, h.unmapped he (hquiet e he) htree ?_ fun q hq ↦ Function.update_of_ne hq ..⟩
      exact (Function.update_self ..).trans (congrArg (Option.map _) he)
  · obtain ⟨r, hr⟩ := h.exists_missed hbase hpage hlt fun e he ↦
      Bool.eq_false_of_not_eq_true fun hlive' ↦ hlive ⟨e, he, hlive'⟩
    obtain ⟨f, hf⟩ := run_vmUnmap_of_missed hbase.pos hpage hnumber hr
    obtain ⟨r', hrun, -⟩ := hstep.returned
    rw [TableCall.run, hf] at hrun
    cases hrun

theorem PageTable.Reached.tabled (hbase : Isolated base) {calls : List TableCall}
    (h : s.Reached base PageTable.Allows calls) : s.Tabled base := by
  obtain ⟨m, hroot, hrun⟩ := h
  refine hrun.invariant (.inl ⟨hroot, fun _ ↦ rfl⟩) fun t call u ht hstep ↦ ?_
  cases call with
  | map page frame number flags => exact ht.map_step hbase.toWellPlaced hstep.2 hstep.1
  | unmap page number => exact ht.unmap_step hbase hstep.2 hstep.1

/-! ## Longer ranges -/

/-- A second page is looked for one byte after the first one's table, which is
no address of a table, unless its first index is zero. -/
theorem PageTable.Tabled.run_vmMap_of_two_le (hbase : WellPlaced base) (h : s.Tabled base)
    (hpage : page ≠ 0) (hlt : page.toNat < 2 ^ 36) (hfree : s.Free page)
    (hplaces : s.Places page frame) (hlast : page.toNat % 2 ^ 9 + 1 < 2 ^ 9) (hnumber : 2 ≤ number)
    (flags : UInt16) :
    ∃ f t, (vmMap base page frame number flags).run s.machine = .error f t := by
  obtain ⟨m, t, hbody, hvmMap, -, hholds⟩ := h.run_vmMap hbase hpage hlt hfree hplaces
  have hself : Function.update s.entered page (some (Slot.mk frame true)) page = some ⟨frame, true⟩ :=
    Function.update_self ..
  obtain ⟨table, leaf, ht⟩ := hholds ⟨t, Function.update s.entered page (some ⟨frame, true⟩)⟩ rfl
    hself fun q hq ↦ Function.update_of_ne hq ..
  have hentered := Option.ne_none_iff_exists'.mpr ⟨_, hself⟩
  obtain ⟨n, hn⟩ := Option.ne_none_iff_exists'.mp (ht.table_ne_none hentered 0 (by omega))
  obtain ⟨n', hn'⟩ := Option.ne_none_iff_exists'.mp (ht.table_ne_none hentered 1 (by omega))
  have hnext : (page + UInt64.ofNat 1).toNat % 2 ^ 9 = tableIndex page 0 + 1 := by
    have hone : (UInt64.ofNat 1).toNat = 1 := rfl
    rw [tableIndex_zero, UInt64.toNat_add, hone]
    omega
  obtain ⟨w, hload, hw, hstray⟩ := ht.tree.run_loadEntry_next hbase (by rw [length_tablePath]; omega) hn hn'
    (by rw [tableIndex_zero]; exact hlast)
  rw [← hnext, ← ht.tree.tableRoot_eq hn] at hload
  obtain ⟨f, hf⟩ := run_mapBody_of_stray frame hload hw hstray
  rw [← mapBody_add] at hf
  obtain ⟨k, hk⟩ := Nat.exists_eq_add_of_le (show 2 ≤ number.toNat by omega)
  have hloop : (forLoop (mapBody base frame) 0 number.toNat (page, none)).run m = .error f t := by
    rw [hk, Nat.add_comm 2 k, run_forLoop_of_yield hbody]
    exact run_bind_of_error hf
  exact ⟨f, t, (hvmMap number flags).trans (run_bind_of_error hloop)⟩

end Runs

/-- The range is one page, whose entry has no address and a place of its own. -/
structure PageTable.Meets (s : PageTable) (page frame : UInt64) (number : ℤ) : Prop where
  ne_zero : page ≠ 0
  page_lt : page.toNat < 2 ^ 36
  number : number = 1
  free : s.Free page
  places : s.Places page frame

/-- In a run in which single pages are mapped to places apart from each other,
and unmapped again, a further such page is mapped to its frame and no other page
with it. -/
theorem single_page_maps_range {base : ℕ} (hbase : Isolated base) {calls : List TableCall}
    {s : PageTable} (h : s.Reached base PageTable.Allows calls) {page frame : UInt64} {number : ℤ}
    (hmeets : s.Meets page frame number) (flags : UInt16) :
    MapsRange base s.machine page frame number flags := by
  have hs := h.tabled hbase
  obtain ⟨hpage, hlt, rfl, hfree, hplaces⟩ := hmeets
  obtain ⟨t, hrun, -, hholds⟩ := hs.run_vmMap_one hbase.toWellPlaced hpage hlt hfree hplaces flags
  have hself : Function.update s.entered page (some (Slot.mk frame true)) page = some ⟨frame, true⟩ :=
    Function.update_self ..
  obtain ⟨table, leaf, ht⟩ := hholds ⟨t, Function.update s.entered page (some ⟨frame, true⟩)⟩ rfl
    hself fun q hq ↦ Function.update_of_ne hq ..
  refine .of_run hrun ⟨Int.one_pos, fun k hk v hv ↦ ?_, fun q hq hout hfound ↦ ?_⟩
  · obtain rfl : k = 0 := by omega
    have hframe : frame + UInt64.ofNat 0 = frame := by simp
    rw [hframe]
    exact ht.run_vmTranslate hbase.toWellPlaced hself rfl hv
  · have ht' : PageTable.Tabled base ⟨t, Function.update s.entered page (some ⟨frame, true⟩)⟩ :=
      .inr ⟨table, leaf, ht⟩
    obtain ⟨e, he, hlive⟩ := (ht'.found_iff hbase hq).mp hfound
    have hne : q ≠ page := by
      rintro rfl
      omega
    exact (hs.found_iff hbase hq).mpr ⟨e, (Function.update_of_ne hne ..).symm.trans he, hlive⟩

/-- The first page has a place if there are frames for the four tables. -/
theorem places_of_room {m : Machine} {page frame : UInt64} (hroom : m.frames.setBits + 4 ≤ numFrames)
    (hpage : page.toNat < 2 ^ 27) (hframe : frame.toNat < 2 ^ 52) :
    PageTable.Places ⟨m, fun _ ↦ none⟩ page frame := by
  refine ⟨⟨fun q hq ↦ absurd rfl hq, fun level _ _ _ ↦ ?_, fun _ ↦ hroom⟩, fun q hq ↦ absurd rfl hq,
    hframe, fun k hk _ hlt ↦ ?_⟩
  · simp only
    omega
  · omega

theorem places_emptyMachine {page frame : UInt64} (hpage : page.toNat < 2 ^ 27)
    (hframe : frame.toNat < 2 ^ 52) : PageTable.Places ⟨emptyMachine, fun _ ↦ none⟩ page frame := by
  refine places_of_room ?_ hpage hframe
  rw [setBits_emptyMachine]
  decide

/-- Pages whose first indices are apart have no further tables in common. -/
theorem apart_of_first {q page : UInt64} (h : tableIndex q 0 + 8 ≤ tableIndex page 0 ∨
      tableIndex page 0 + 8 ≤ tableIndex q 0) {level : ℕ} (hlevel : level ≤ 3) :
    IndicesApart q page level := by
  intro hpath
  have hfirst : level = 0 := by
    by_contra hne
    have hsame : tableIndex q 0 = tableIndex page 0 := by
      interval_cases level
      · exact absurd rfl hne
      all_goals
        simp only [tablePath, List.cons.injEq, and_true] at hpath
        omega
    omega
  rw [hfirst]
  exact .inr h

/-- A page whose first index is apart from that of the only page entered. -/
theorem places_second {s : PageTable} {first page frame : UInt64}
    (hentered : ∀ q, q ≠ first → s.entered q = none)
    (hapart : tableIndex first 0 + 8 ≤ tableIndex page 0 ∨ tableIndex page 0 + 8 ≤ tableIndex first 0)
    (hroot : s.machine.tableRoot ≠ 0) (hroom : s.machine.frames.setBits + 3 ≤ numFrames)
    (hpage : page.toNat < 2 ^ 27) (hframe : frame.toNat < 2 ^ 52) : s.Places page frame := by
  have hall : ∀ q, s.entered q ≠ none → ∀ level ≤ 3, IndicesApart q page level := by
    intro q hq level hlevel
    obtain rfl : q = first := by
      by_contra hne
      exact hq (hentered q hne)
    exact apart_of_first hapart hlevel
  refine ⟨⟨fun q hq level hlevel ↦ hall q hq level hlevel.le, fun level hlevel _ _ ↦ ?_,
    fun hzero ↦ absurd hzero hroot⟩, fun q hq ↦ hall q hq 3 le_rfl, hframe, fun k hk _ hlt ↦ ?_⟩
  · omega
  · omega

/-- A first page can be mapped, and there are frames for more tables then. -/
theorem exists_first_mapped {page frame : UInt64} (hpage : page ≠ 0) (hlt : page.toNat < 2 ^ 27)
    (hframe : frame.toNat < 2 ^ 52) :
    ∃ t, (vmMap (2 ^ 32) page frame 1 0).run emptyMachine = .ok 1 t ∧
      t.frames.setBits + 3 ≤ numFrames ∧ ∃ table leaf, PageTable.Holds (2 ^ 32)
        ⟨t, Function.update (fun _ ↦ none) page (some ⟨frame, true⟩)⟩ table leaf := by
  have hstart : PageTable.Tabled (2 ^ 32) ⟨emptyMachine, fun _ ↦ none⟩ := .inl ⟨rfl, fun _ ↦ rfl⟩
  have hfree : PageTable.Free ⟨emptyMachine, fun _ ↦ none⟩ page := fun e he ↦ by cases he
  obtain ⟨t, hrun, hbits, hholds⟩ := hstart.run_vmMap_one wellPlaced_two_pow hpage (by omega) hfree
    (places_emptyMachine hlt hframe) 0
  rw [setBits_emptyMachine] at hbits
  have hframes : numFrames = 1024 := rfl
  exact ⟨t, hrun, by omega, hholds _ rfl
    (@Function.update_self _ (fun _ ↦ Option Slot) _ page (some ⟨frame, true⟩) fun _ ↦ none) fun q hq ↦
      @Function.update_of_ne _ (fun _ ↦ Option Slot) _ q page hq (some ⟨frame, true⟩) fun _ ↦ none⟩

theorem step_first_mapped {page frame : UInt64} {t : Machine}
    (hrun : (vmMap (2 ^ 32) page frame 1 0).run emptyMachine = .ok 1 t) :
    TableStep (2 ^ 32) ⟨emptyMachine, fun _ ↦ none⟩ (.map page frame 1 0)
      ⟨t, Function.update (fun _ ↦ none) page (some ⟨frame, true⟩)⟩ := by
  refine ⟨⟨1, hrun, ?_⟩⟩
  rw [if_pos Int.one_pos]
  exact (TableCall.enter_map_one (fun _ ↦ none) 0).symm

theorem single_page_maps_range_second :
    ∃ t, (vmMap (2 ^ 32) 1 5 1 0).run emptyMachine = .ok 1 t ∧ MapsRange (2 ^ 32) t 9 6 1 0 := by
  obtain ⟨t, hrun, hroom, table, leaf, ht⟩ := @exists_first_mapped 1 5 (by decide) (by decide) (by decide)
  let one : PageTable := ⟨t, Function.update (fun _ ↦ none) 1 (some ⟨5, true⟩)⟩
  have hother : ∀ q, q ≠ 1 → one.entered q = none := fun q hq ↦
    @Function.update_of_ne _ (fun _ ↦ Option Slot) _ q 1 hq (some ⟨5, true⟩) fun _ ↦ none
  have hreached : one.Reached (2 ^ 32) PageTable.Allows [.map 1 5 1 0] :=
    ⟨emptyMachine, rfl, .snoc .nil ⟨step_first_mapped hrun, by decide, le_rfl,
      fun _ _ _ ↦ places_emptyMachine (by decide) (by decide)⟩⟩
  refine ⟨t, hrun, single_page_maps_range isolated_two_pow hreached
    ⟨by decide, by decide, rfl, fun e he ↦ ?_, ?_⟩ 0⟩
  · rw [hother 9 (by decide)] at he
    cases he
  · exact places_second hother (.inl (by decide)) (ht.tableRoot_ne wellPlaced_two_pow) hroom
      (by decide) (by decide)

/-- Both pages of a range are mapped to its first frame. -/
theorem second_page_has_first_frame :
    emptyMachine.tableRoot = 0 ∧ emptyMachine.frames.setBits = 0 ∧
      (∃ t, (vmMap (2 ^ 32) 511 5 2 0).run emptyMachine = .ok 1 t ∧
        (vmTranslate (2 ^ 32) 0x200000).run t = .ok 0x5000 t) ∧
          ¬ MapsRange (2 ^ 32) emptyMachine 511 5 2 0 := by
  have hplaces := @places_emptyMachine 511 5 (by decide) (by decide)
  have hstart : PageTable.Tabled (2 ^ 32) ⟨emptyMachine, fun _ ↦ none⟩ := .inl ⟨rfl, fun _ ↦ rfl⟩
  have hfree : PageTable.Free ⟨emptyMachine, fun _ ↦ none⟩ 511 := fun e he ↦ by cases he
  obtain ⟨m, t, hbody, hvmMap, hbits, hholds⟩ := hstart.run_vmMap wellPlaced_two_pow (by decide)
    (by decide) hfree hplaces
  rw [setBits_emptyMachine] at hbits
  have hframes : numFrames = 1024 := rfl
  let one : PageTable := ⟨t, Function.update (fun _ ↦ none) 511 (some ⟨5, true⟩)⟩
  have hother : ∀ q, q ≠ 511 → one.entered q = none := fun q hq ↦
    @Function.update_of_ne _ (fun _ ↦ Option Slot) _ q 511 hq (some ⟨5, true⟩) fun _ ↦ none
  have hself : one.entered 511 = some ⟨5, true⟩ :=
    @Function.update_self _ (fun _ ↦ Option Slot) _ 511 (some ⟨5, true⟩) fun _ ↦ none
  obtain ⟨table, leaf, ht⟩ := hholds one rfl hself hother
  have hplaces' : one.Places 512 5 := places_second hother (.inr (by decide))
    (ht.tableRoot_ne wellPlaced_two_pow) (by change t.frames.setBits + 3 ≤ _; omega) (by decide)
    (by decide)
  have hfree' : one.Free 512 := by
    intro e he
    rw [hother 512 (by decide)] at he
    cases he
  obtain ⟨u, hbody', -, hholds'⟩ := ht.run_mapBody wellPlaced_two_pow (by decide) (by decide) hfree'
    hplaces'
  let two : PageTable := ⟨u, Function.update one.entered 512 (some ⟨5, true⟩)⟩
  have hself' : two.entered 512 = some ⟨5, true⟩ :=
    @Function.update_self _ (fun _ ↦ Option Slot) _ 512 (some ⟨5, true⟩) one.entered
  obtain ⟨table', leaf', hu⟩ := hholds' two rfl hself' fun q hq ↦
    @Function.update_of_ne _ (fun _ ↦ Option Slot) _ q 512 hq (some ⟨5, true⟩) one.entered
  have hnext : (mapBody (2 ^ 32) 5 1 (511, none)).run t = .ok (.yield (512, none)) u := by
    rw [mapBody_add]
    exact hbody'
  have hloop : (forLoop (mapBody (2 ^ 32) 5) 0 (2 : ℤ).toNat (511, none)).run m = .ok (512, none) u :=
    (run_forLoop_of_yield hbody).trans (run_forLoop_of_yield hnext)
  have hrun := (hvmMap 2 0).trans (run_mapPages hloop)
  have htranslate : (vmTranslate (2 ^ 32) 0x200000).run u = .ok 0x5000 u :=
    hu.run_vmTranslate wellPlaced_two_pow hself' rfl (by decide)
  refine ⟨rfl, setBits_emptyMachine, ⟨u, hrun, htranslate⟩, fun hmaps ↦ ?_⟩
  obtain ⟨-, hpages, -⟩ := hmaps.of_eq hrun
  have hsecond := hpages 1 (by decide) 0x200000 (by decide)
  rw [htranslate] at hsecond
  cases hsecond

end OsProjects.Memory
