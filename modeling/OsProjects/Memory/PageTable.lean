import OsProjects.Memory.Translation

/-!
# Lookups in the page table

Tables with one entry.  An index other than the entry's reads the entry shifted
by some bytes, or zeros, so that where such an index leads depends on the
position of the memory only.
-/

namespace OsProjects.Memory

open Library.Program Library.Bytes

/-! ## Tables with one entry -/

/-- Byte `j` of a table with the word `w` at byte `i` and zeros elsewhere. -/
def tableByte (i w j : ℕ) : UInt8 := if i ≤ j ∧ j < i + 8 then leByte w (j - i) else 0

/-- The word read at byte `j` of such a table. -/
def tableWord (i w j : ℕ) : ℕ := leValue (fun k ↦ tableByte i w (j + k)) 8

theorem tableWord_add {i w : ℕ} (hw : w < 2 ^ 64) (k : ℕ) :
    tableWord i w (i + k) = w / 256 ^ k := by
  refine leValue_eq ((Nat.div_le_self _ _).trans_lt hw) fun m hm ↦ ?_
  rw [leByte_div, tableByte]
  by_cases h : k + m < 8
  · rw [if_pos (by omega), show i + k + m - i = k + m by omega]
  · have hzero : w < 256 ^ (k + m) := by
      calc w < 256 ^ 8 := hw
        _ ≤ 256 ^ (k + m) := Nat.pow_le_pow_right (by omega) (by omega)
    rw [if_neg (by omega), leByte_eq_zero hzero]

theorem tableWord_self {i w : ℕ} (hw : w < 2 ^ 64) : tableWord i w i = w := by
  simpa using tableWord_add (i := i) hw 0

theorem tableWord_of_add (j w k : ℕ) : tableWord (j + k) w j = w * 256 ^ k % 256 ^ 8 := by
  rw [← leValue_leByte]
  refine leValue_congr fun m hm ↦ ?_
  rw [tableByte]
  by_cases h : k ≤ m
  · obtain ⟨r, rfl⟩ := Nat.exists_eq_add_of_le h
    rw [if_pos (by omega), leByte_mul_add, show j + (k + r) - (j + k) = r by omega]
  · rw [if_neg (by omega), leByte_mul_of_lt _ (by omega)]

theorem tableWord_of_far {i w j : ℕ} (h : i + 8 ≤ j ∨ j + 8 ≤ i) : tableWord i w j = 0 := by
  refine leValue_eq (by positivity) fun m hm ↦ ?_
  rw [tableByte, if_neg (by omega), leByte_eq_zero (by positivity)]

/-- Frame `n` is a table with the word `w` at byte `i` and zeros elsewhere. -/
def Single (m : Buffer memorySize) (n i w : ℕ) : Prop :=
  ∀ j < 4096, byteAt m (n * 4096 + j) = tableByte i w j

def Agree (m m' : Buffer memorySize) (n : ℕ) : Prop :=
  ∀ j < 4096, byteAt m' (n * 4096 + j) = byteAt m (n * 4096 + j)

theorem Single.congr {m m' : Buffer memorySize} {n i w : ℕ} (h : Single m n i w)
    (hagree : Agree m m' n) : Single m' n i w := fun j hj ↦ (hagree j hj).trans (h j hj)

theorem Single.readLE {m : Buffer memorySize} {n i w j : ℕ} (h : Single m n i w) (hj : j < 512) :
    readLE m (n * 4096 + j) 8 = tableWord i w j := by
  refine leValue_congr fun k hk ↦ ?_
  rw [Nat.add_assoc]
  exact h (j + k) (by omega)

/-! ## Loads and stores -/

theorem toNat_address_ofWord (w : ℕ) : (Entry.ofWord w).address.toNat = w % 2 ^ 52 :=
  BitVec.toNat_ofNat w 52

theorem address_ofWord_eq_zero_iff (w : ℕ) : (Entry.ofWord w).address = 0 ↔ w % 2 ^ 52 = 0 := by
  rw [← toNat_address_ofWord, ← BitVec.toNat_inj]
  rfl

/-- `FRAME_ADDRESS(n)` -/
def frameAddress (base n : ℕ) : ℕ := base + n * 4096

def Machine.entryAt (s : Machine) (o : ℕ) : Entry := .ofWord (readLE s.memory o 8)

def Machine.store (s : Machine) (o : ℕ) (e : Entry) : Machine :=
  { s with memory := writeLE s.memory o 8 e.toWord }

section Accesses

variable (base : ℕ) {s : Machine} {o count : ℕ}

theorem run_locate (h : o + count ≤ memorySize) :
    (locate base (base + o : ℕ) count).run s = .ok o s := by
  rw [locate, if_pos (by omega)]
  change EStateM.Result.ok _ s = _
  congr 1
  omega

theorem run_loadEntry (h : o + 8 ≤ memorySize) :
    (loadEntry base (base + o)).run s = .ok (s.entryAt o) s := by
  rw [loadEntry, run_bind_of_ok (run_locate base h)]
  rfl

theorem run_loadEntry_of_outside {p : ℕ} (h : p < base ∨ base + memorySize < p + 8) :
    (loadEntry base p).run s = .error (.outOfBounds memorySize (p - base)) s := by
  have hlocate : (locate base p 8).run s = .error (.outOfBounds memorySize (p - base)) s := by
    rw [locate, if_neg (by omega)]
    rfl
  rw [loadEntry, run_bind_of_error hlocate]

theorem run_storeEntry {e : Entry} (h : o + 8 ≤ memorySize) :
    (storeEntry base (base + o) e).run s = .ok () (s.store o e) := by
  rw [storeEntry, run_bind_of_ok (run_locate base h)]
  rfl

theorem run_setAddress {v : ℕ} (h : o + 8 ≤ memorySize) :
    (setAddress base (base + o) v).run s =
      .ok () (s.store o { s.entryAt o with address := .ofNat 52 v }) := by
  rw [setAddress, run_bind_of_ok (run_loadEntry base h), run_storeEntry base h]

theorem run_setFlags {v : ℕ} (h : o + 8 ≤ memorySize) :
    (setFlags base (base + o) v).run s =
      .ok () (s.store o { s.entryAt o with flags := .ofNat 9 v }) := by
  rw [setFlags, run_bind_of_ok (run_loadEntry base h), run_storeEntry base h]

theorem frame_bound {n : ℕ} (hn : n < numFrames) : n * 4096 + 4096 ≤ memorySize := by
  have h : (n + 1) * 4096 ≤ numFrames * 4096 := Nat.mul_le_mul_right 4096 hn
  rwa [Nat.succ_mul] at h

theorem Single.run_loadEntry {n i w j : ℕ} (h : Single s.memory n i w) (hn : n < numFrames)
    (hj : j < 512) :
    (loadEntry base (frameAddress base n + j)).run s = .ok (.ofWord (tableWord i w j)) s := by
  have hbound := frame_bound hn
  rw [frameAddress, Nat.add_assoc, Memory.run_loadEntry base (by omega), Machine.entryAt, h.readLE hj]

end Accesses

/-! ## The position of the memory -/

/-- An address at which the code finds no table: `NULL`, or no index leads from
it into the memory. -/
def Stray (base x : ℕ) : Prop := x = 0 ∨ x + 512 ≤ base ∨ base + memorySize < x + 8

/-- The memory is aligned, its addresses fit into an entry, and the address of
a frame shifted by some bytes does not lead into it. -/
structure WellPlaced (base : ℕ) : Prop where
  pos : 0 < base
  aligned : base % 4096 = 0
  le : base + memorySize ≤ 2 ^ 52
  stray : ∀ n < numFrames, ∀ k, 1 ≤ k → k < 8 → Stray base (frameAddress base n / 256 ^ k) ∧
    Stray base (frameAddress base n * 256 ^ k % 2 ^ 52)

theorem wellPlaced_two_pow : WellPlaced (2 ^ 32) := by
  refine ⟨by decide, by decide, by decide, fun n hn k hk hlt ↦ ?_⟩
  have hsize : memorySize = 4194304 := by decide
  have hframes : n < 1024 := hn
  simp only [Stray, frameAddress]
  interval_cases k <;> omega

section Placement

variable {base : ℕ} (hbase : WellPlaced base)
include hbase

theorem WellPlaced.frameAddress_lt {n : ℕ} (hn : n < numFrames) : frameAddress base n < 2 ^ 52 := by
  have := frame_bound hn
  have := hbase.le
  rw [frameAddress]
  omega

theorem WellPlaced.frameAddress_pos (n : ℕ) : 0 < frameAddress base n :=
  Nat.add_pos_left hbase.pos _

theorem WellPlaced.frameAddress_mod {n : ℕ} (hn : n < numFrames) :
    frameAddress base n % 2 ^ 52 = frameAddress base n :=
  Nat.mod_eq_of_lt (hbase.frameAddress_lt hn)

theorem Single.run_loadEntry_self {s : Machine} {n i n' : ℕ}
    (h : Single s.memory n i (frameAddress base n')) (hn : n < numFrames) (hn' : n' < numFrames)
    (hi : i < 512) : (loadEntry base (frameAddress base n + i)).run s =
      .ok (.ofWord (frameAddress base n')) s := by
  have hlt := hbase.frameAddress_lt hn'
  rw [h.run_loadEntry base hn hi, tableWord_self (by omega)]

/-- An index other than the entry's leads to `NULL` or outside of the memory. -/
theorem WellPlaced.stray_tableWord {n i j : ℕ} (hn : n < numFrames) (hij : j ≠ i) :
    Stray base (tableWord i (frameAddress base n) j % 2 ^ 52) := by
  have hlt := hbase.frameAddress_lt hn
  by_cases hfar : i + 8 ≤ j ∨ j + 8 ≤ i
  · rw [tableWord_of_far hfar]
    exact .inl rfl
  · rcases Nat.lt_or_gt_of_ne hij with h | h
    · obtain ⟨k, rfl⟩ := Nat.exists_eq_add_of_le h.le
      rw [tableWord_of_add, Nat.mod_mod_of_dvd _ (by norm_num)]
      exact (hbase.stray n hn k (by omega) (by omega)).2
    · obtain ⟨k, rfl⟩ := Nat.exists_eq_add_of_le h.le
      have hdiv := Nat.div_le_self (frameAddress base n) (256 ^ k)
      rw [tableWord_add (by omega), Nat.mod_eq_of_lt (by omega)]
      exact (hbase.stray n hn k (by omega) (by omega)).1

end Placement

/-! ## One level of a lookup -/

theorem toNat_and_mask (x : UInt64) : (x &&& 0x1FF).toNat = x.toNat % 2 ^ 9 := by
  rw [UInt64.toNat_and]
  exact Nat.and_two_pow_sub_one_eq_mod x.toNat 9

theorem toNat_shift_and_mask (x : UInt64) {k : UInt64} (hk : k.toNat < 64) :
    (x >>> k &&& 0x1FF).toNat = x.toNat / 2 ^ k.toNat % 2 ^ 9 := by
  rw [toNat_and_mask, UInt64.toNat_shiftRight, Nat.mod_eq_of_lt hk, Nat.shiftRight_eq_div_pow]

/-- Three of the levels of `vm_find`: the rest of the lookup goes on at the
table the entry leads to. -/
def followed (base pointer : ℕ) (rest : ℕ → VM (Option ℕ)) : VM (Option ℕ) := do
  let e ← loadEntry base pointer
  if e.address = 0 then
    return none
  rest e.address.toNat

/-- The fourth level of `vm_find`. -/
def lastLevel (base pointer : ℕ) : VM (Option ℕ) := do
  if (← loadEntry base pointer).flags = 1 then
    return some pointer
  else
    return none

theorem vmFind_eq {base : ℕ} {page : UInt64} (hpage : page ≠ 0) :
    vmFind base page = get >>= fun s ↦
      followed base (s.tableRoot + page.toNat % 2 ^ 9) fun second ↦
        followed base (second + page.toNat / 2 ^ 9 % 2 ^ 9) fun third ↦
          followed base (third + page.toNat / 2 ^ 18 % 2 ^ 9) fun fourth ↦
            lastLevel base (fourth + page.toNat / 2 ^ 27 % 2 ^ 9) := by
  rw [vmFind, toNat_and_mask, toNat_shift_and_mask page (by decide),
    toNat_shift_and_mask page (by decide), toNat_shift_and_mask page (by decide), if_neg hpage]
  rfl

/-- A lookup that ends without a table: at `NULL` or at a fault. -/
def missed (r : Option Fault) (s : Machine) : EStateM.Result Fault Machine (Option ℕ) :=
  match r with
  | none => .ok none s
  | some e => .error e s

/-- The lookup faults at every address from which no index leads into the
memory. -/
def Outside (base : ℕ) (rest : ℕ → VM (Option ℕ)) : Prop :=
  ∀ x, x + 512 ≤ base ∨ base + memorySize < x + 8 → ∃ e, ∀ s, (rest x).run s = .error e s

theorem outside_followed (base : ℕ) {j : ℕ} (hj : j < 512) (rest : ℕ → VM (Option ℕ)) :
    Outside base fun x ↦ followed base (x + j) rest := fun x hx ↦
  ⟨_, fun _ ↦ run_bind_of_error (run_loadEntry_of_outside base (by omega))⟩

theorem outside_lastLevel (base : ℕ) {j : ℕ} (hj : j < 512) :
    Outside base fun x ↦ lastLevel base (x + j) := fun x hx ↦
  ⟨_, fun _ ↦ run_bind_of_error (run_loadEntry_of_outside base (by omega))⟩

section Levels

variable {base n i : ℕ} {rest : ℕ → VM (Option ℕ)}

theorem Single.run_followed {s : Machine} {n' : ℕ} (hbase : WellPlaced base)
    (h : Single s.memory n i (frameAddress base n')) (hn : n < numFrames) (hn' : n' < numFrames)
    (hi : i < 512) :
    (followed base (frameAddress base n + i) rest).run s = (rest (frameAddress base n')).run s := by
  rw [followed, run_bind_of_ok (h.run_loadEntry_self hbase hn hn' hi), if_neg,
    toNat_address_ofWord, hbase.frameAddress_mod hn']
  rw [address_ofWord_eq_zero_iff, hbase.frameAddress_mod hn']
  exact (hbase.frameAddress_pos n').ne'

theorem WellPlaced.run_followed {j n' : ℕ} (hbase : WellPlaced base) (hrest : Outside base rest)
    (hn : n < numFrames) (hn' : n' < numFrames) (hj : j < 512) (hij : j ≠ i) :
    ∃ r, ∀ s : Machine, Single s.memory n i (frameAddress base n') →
      (followed base (frameAddress base n + j) rest).run s = missed r s := by
  by_cases hzero : tableWord i (frameAddress base n') j % 2 ^ 52 = 0
  · refine ⟨none, fun s h ↦ ?_⟩
    rw [followed, run_bind_of_ok (h.run_loadEntry base hn hj), if_pos]
    · rfl
    · rwa [address_ofWord_eq_zero_iff]
  · have hstray := hbase.stray_tableWord hn' hij
    obtain ⟨e, he⟩ := hrest _ (hstray.resolve_left hzero)
    refine ⟨some e, fun s h ↦ ?_⟩
    rw [followed, run_bind_of_ok (h.run_loadEntry base hn hj), if_neg, toNat_address_ofWord]
    · exact he s
    · rwa [address_ofWord_eq_zero_iff]

end Levels

theorem run_lastLevel {base o : ℕ} {s : Machine} (h : o + 8 ≤ memorySize) :
    (lastLevel base (base + o)).run s =
      .ok (if (s.entryAt o).flags = 1 then some (base + o) else none) s := by
  rw [lastLevel, run_bind_of_ok (run_loadEntry base h)]
  split <;> rfl

/-! ## Four tables -/

structure Chain where
  first : Fin numFrames
  second : Fin numFrames
  third : Fin numFrames
  fourth : Fin numFrames
  first_ne : first ≠ fourth
  second_ne : second ≠ fourth
  third_ne : third ≠ fourth

/-- The first three tables have one entry each, which leads the pages with the
low 27 bits `low` to the next table. -/
structure Chain.Leads (c : Chain) (base low : ℕ) (s : Machine) : Prop where
  root : s.tableRoot = frameAddress base c.first
  first : Single s.memory c.first (low % 2 ^ 9) (frameAddress base c.second)
  second : Single s.memory c.second (low / 2 ^ 9 % 2 ^ 9) (frameAddress base c.third)
  third : Single s.memory c.third (low / 2 ^ 18 % 2 ^ 9) (frameAddress base c.fourth)

theorem Chain.leads_iff {base : ℕ} {c : Chain} {s : Machine} {page : ℕ} :
    c.Leads base (page % 2 ^ 27) s ↔ s.tableRoot = frameAddress base c.first ∧
      Single s.memory c.first (page % 2 ^ 9) (frameAddress base c.second) ∧
        Single s.memory c.second (page / 2 ^ 9 % 2 ^ 9) (frameAddress base c.third) ∧
          Single s.memory c.third (page / 2 ^ 18 % 2 ^ 9) (frameAddress base c.fourth) := by
  have ha : page % 2 ^ 27 % 2 ^ 9 = page % 2 ^ 9 := by omega
  have hb : page % 2 ^ 27 / 2 ^ 9 % 2 ^ 9 = page / 2 ^ 9 % 2 ^ 9 := by omega
  have hc : page % 2 ^ 27 / 2 ^ 18 % 2 ^ 9 = page / 2 ^ 18 % 2 ^ 9 := by omega
  constructor
  · rintro ⟨hroot, hfirst, hsecond, hthird⟩
    exact ⟨hroot, ha ▸ hfirst, hb ▸ hsecond, hc ▸ hthird⟩
  · rintro ⟨hroot, hfirst, hsecond, hthird⟩
    exact ⟨hroot, ha.symm ▸ hfirst, hb.symm ▸ hsecond, hc.symm ▸ hthird⟩

section Lookup

variable {base low : ℕ} {c : Chain} {page : UInt64} (hbase : WellPlaced base) (hpage : page ≠ 0)
include hbase hpage

theorem Chain.Leads.run_vmFind {s : Machine} (hc : c.Leads base (page.toNat % 2 ^ 27) s) :
    (vmFind base page).run s =
      (lastLevel base (frameAddress base c.fourth + page.toNat / 2 ^ 27 % 2 ^ 9)).run s := by
  obtain ⟨hroot, hfirst, hsecond, hthird⟩ := Chain.leads_iff.mp hc
  rw [vmFind_eq hpage, run_bind_of_ok (EStateM.run_get s), hroot,
    hfirst.run_followed hbase c.first.isLt c.second.isLt (by omega),
    hsecond.run_followed hbase c.second.isLt c.third.isLt (by omega),
    hthird.run_followed hbase c.third.isLt c.fourth.isLt (by omega)]

/-- What a lookup of any other page meets depends on the four frames only. -/
theorem WellPlaced.exists_missed (c : Chain) (low : ℕ) (hlow : page.toNat % 2 ^ 27 ≠ low % 2 ^ 27) :
    ∃ r, ∀ s, c.Leads base low s → (vmFind base page).run s = missed r s := by
  have hthird := outside_lastLevel base (j := page.toNat / 2 ^ 27 % 2 ^ 9) (by omega)
  have hsecond := outside_followed base (j := page.toNat / 2 ^ 18 % 2 ^ 9) (by omega)
    fun x ↦ lastLevel base (x + page.toNat / 2 ^ 27 % 2 ^ 9)
  have hfirst := outside_followed base (j := page.toNat / 2 ^ 9 % 2 ^ 9) (by omega)
    fun x ↦ followed base (x + page.toNat / 2 ^ 18 % 2 ^ 9)
      fun x ↦ lastLevel base (x + page.toNat / 2 ^ 27 % 2 ^ 9)
  have hstart : ∀ s, c.Leads base low s → (vmFind base page).run s =
      (followed base (frameAddress base c.first + page.toNat % 2 ^ 9) fun x ↦
        followed base (x + page.toNat / 2 ^ 9 % 2 ^ 9) fun x ↦
          followed base (x + page.toNat / 2 ^ 18 % 2 ^ 9) fun x ↦
            lastLevel base (x + page.toNat / 2 ^ 27 % 2 ^ 9)).run s := by
    intro s hc
    rw [vmFind_eq hpage, run_bind_of_ok (EStateM.run_get s), hc.root]
  by_cases ha : page.toNat % 2 ^ 9 = low % 2 ^ 9
  · by_cases hb : page.toNat / 2 ^ 9 % 2 ^ 9 = low / 2 ^ 9 % 2 ^ 9
    · have hc : page.toNat / 2 ^ 18 % 2 ^ 9 ≠ low / 2 ^ 18 % 2 ^ 9 := by omega
      obtain ⟨r, hr⟩ :=
        hbase.run_followed hthird c.third.isLt c.fourth.isLt (by omega) hc
      refine ⟨r, fun s hs ↦ ?_⟩
      rw [hstart s hs, ha, hs.first.run_followed hbase c.first.isLt c.second.isLt (by omega), hb,
        hs.second.run_followed hbase c.second.isLt c.third.isLt (by omega), hr s hs.third]
    · obtain ⟨r, hr⟩ :=
        hbase.run_followed hsecond c.second.isLt c.third.isLt (by omega) hb
      refine ⟨r, fun s hs ↦ ?_⟩
      rw [hstart s hs, ha, hs.first.run_followed hbase c.first.isLt c.second.isLt (by omega),
        hr s hs.second]
  · obtain ⟨r, hr⟩ := hbase.run_followed hfirst c.first.isLt c.second.isLt (by omega) ha
    exact ⟨r, fun s hs ↦ (hstart s hs).trans (hr s hs.first)⟩

end Lookup

end OsProjects.Memory
