import OsProjects.Filesystem.Rejections

/-!
# Indices of pointer blocks

`files.c` divides 64-bit positions by the block size and stores the quotients
in variables of type `int`, and no function compares an index with the number
of entries.  The windows that are accessed exactly can still be described.
-/

namespace OsProjects.Filesystem

open Library.Program Library.Bytes Library.FirstFit

/-- An access outside the pointer block, or with a wrong index, has been recorded. -/
def World.Inexact (w : World) : Prop :=
  ∃ position index, Event.entry position index ∈ w.trace ∧ ¬ ExactAccess position index

def World.untraced (w : World) : World := { w with trace := [] }

@[simp] theorem World.untraced_storage (w : World) : w.untraced.storage = w.storage := rfl

@[simp] theorem World.untraced_trace (w : World) : w.untraced.trace = [] := rfl

def IndexesExactly {α : Type} (x : FS α) (w : World) : Prop :=
  ∀ position index, Event.entry position index ∈ (finalState (x.run w.untraced)).trace →
    ExactAccess position index

def Event.IsExact (e : Event) : Prop :=
  ∀ position index, e = .entry position index → ExactAccess position index

theorem indexesExactly_of_records {α : Type} {x : FS α} (hx : Records Event.IsExact x) (w : World) :
    IndexesExactly x w := by
  obtain ⟨-, events, htrace, hexact⟩ := (hx w.untraced).1
  intro position index hmem
  rw [htrace, World.untraced_trace, List.append_nil] at hmem
  exact hexact _ hmem position index rfl

theorem not_indexesExactly {α : Type} {x : FS α} {w : World}
    (h : (finalState (x.run w.untraced)).Inexact) : ¬ IndexesExactly x w := by
  obtain ⟨position, index, hmem, hnot⟩ := h
  exact fun hexact ↦ hnot (hexact position index hmem)

/-! ## Inexact accesses -/

theorem inexact_of_records {α : Type} {x : FS α} (hx : Records (fun _ ↦ True) x) {w : World}
    (h : w.Inexact) : (finalState (x.run w)).Inexact := by
  obtain ⟨position, index, hmem, hnot⟩ := h
  exact ⟨position, index, (hx w).1.mem_trace hmem, hnot⟩

theorem inexact_indexEntry {position : ℕ} {index : ℤ} (h : ¬ ExactAccess position index)
    (w : World) : (finalState ((indexEntry position index).run w)).Inexact := by
  rw [indexEntry, run_bind_of_ok (run_emit _ w)]
  have hmem : Event.entry position index ∈ (w.advance w.storage 0 [.entry position index]).trace :=
    List.mem_cons_self
  split
  · exact ⟨position, index, hmem, h⟩
  · exact ⟨position, index, hmem, h⟩

theorem inexact_indexEntry_bind {α : Type} {f : ℕ → FS α} {position : ℕ} {index : ℤ}
    (h : ¬ ExactAccess position index) (hf : ∀ i, Records (fun _ ↦ True) (f i)) (w : World) :
    (finalState ((indexEntry position index >>= f).run w)).Inexact :=
  finalState_bind (inexact_indexEntry h w) fun i _ _ hinexact ↦ inexact_of_records (hf i) hinexact

theorem indexEntry_faultsIn {position : ℕ} {index : ℤ} :
    FaultsIn World.Inexact (indexEntry position index) := by
  intro w e u hrun
  rw [indexEntry, run_bind_of_ok (run_emit _ w)] at hrun
  split at hrun
  · cases hrun
  · rename_i hbounds
    cases hrun
    refine ⟨position, index, List.mem_cons_self, fun h ↦ hbounds ?_⟩
    exact ⟨h.1, h.2.1⟩

theorem storageReadBlock_faultsIn {n : UInt64} {data : Block} :
    FaultsIn World.Inexact (storageReadBlock n data) :=
  .of_run fun w ↦ by
    obtain ⟨code, block, hrun⟩ := run_storageReadBlock_state n data w
    exact ⟨_, _, hrun⟩

theorem memcpyFromBlock_faultsIn {buffer : ℕ → UInt8} {position offset howMany : ℕ} {block : Block}
    (h : offset + howMany ≤ blockSize) :
    FaultsIn World.Inexact (memcpyFromBlock buffer position block offset howMany) := by
  rw [memcpyFromBlock, if_pos h]
  exact .pure _

theorem pointersReadBody_faultsIn {pointers : Block} {fromPos : UInt64} {i : ℤ}
    {acc : Block × (ℕ → UInt8) × ℕ} :
    FaultsIn World.Inexact (pointersReadBody pointers fromPos i acc) := by
  obtain ⟨block, buffer, position⟩ := acc
  exact .bind indexEntry_faultsIn fun _ ↦ .bind storageReadBlock_faultsIn fun _ ↦
    .bind (memcpyFromBlock_faultsIn (by omega)) fun _ ↦ .pure _

/-! ## Windows that are read exactly -/

/-- The window of `len` bytes at `pos` begins below the limit of a pointer
block, and ends below it too or, modulo `2^44`, in the block in which it begins. -/
def ReadsExactly (pos len : UInt64) : Prop :=
  pos.toNat < 512 * blockSize ∧ (pos.toNat + len.toNat < 512 * blockSize ∨
    (pos.toNat + len.toNat) % 2 ^ 44 / blockSize = pos.toNat / blockSize)

theorem cInt_eq_natCast_iff {a b : ℕ} (hb : b < 2 ^ 31) : cInt a = b ↔ a % 2 ^ 32 = b := by
  unfold cInt
  rw [Int.bmod_def]
  split
  · exact ⟨fun h ↦ by omega, fun h ↦ by omega⟩
  · exact ⟨fun h ↦ by omega, fun h ↦ by omega⟩

/-- The two block numbers of `pointers_read` agree for windows that end,
modulo `2^44`, in their first block. -/
theorem first_eq_last_iff {pos len : UInt64} (hpos : pos.toNat < 512 * blockSize) :
    cInt (pos.toNat / blockSize) = cInt ((pos + len).toNat / blockSize) ↔
      (pos.toNat + len.toNat) % 2 ^ 44 / blockSize = pos.toNat / blockSize := by
  have hfirst : pos.toNat / blockSize < 512 := by
    simp only [blockSize] at *
    omega
  have hlast : (pos + len).toNat / blockSize % 2 ^ 32 =
      (pos.toNat + len.toNat) % 2 ^ 44 / blockSize := by
    rw [UInt64.toNat_add]
    simp only [blockSize]
    omega
  rw [cInt_of_lt (hfirst.trans (by norm_num)), eq_comm,
    cInt_eq_natCast_iff (hfirst.trans (by norm_num)), hlast]

theorem ReadsExactly.exact {pos len : UInt64} (h : ReadsExactly pos len) {position : ℕ} {index : ℤ}
    (haccess : WindowAccess pos len position index) : ExactAccess position index := by
  obtain ⟨hpos, hend | hsame⟩ := h
  · exact haccess.exact hend
  · have hnumbers := (first_eq_last_iff hpos).mpr hsame
    cases haccess with
    | first =>
        rw [cInt_of_lt (by simp only [blockSize] at *; omega)]
        simp only [blockSize] at *
        exact ⟨by omega, by omega, rfl⟩
    | middle hk =>
        rw [← hnumbers] at hk
        omega
    | last hne => exact absurd hnumbers hne

theorem inexact_pointersRead {pos len : UInt64} (h : ¬ ReadsExactly pos len) (pointers : Block)
    (buffer : ℕ → UInt8) (w : World) :
    (finalState ((pointersRead pointers buffer len pos).run w)).Inexact := by
  rw [pointersRead, run_bind_of_ok (run_automatic w)]
  by_cases hpos : pos.toNat < 512 * blockSize
  case neg =>
    -- the first access is already out of range
    refine inexact_indexEntry_bind (fun hexact ↦ ?_) (fun i ↦ ?_) _
    · obtain ⟨-, hlt, heq⟩ := hexact
      simp only [blockSize] at *
      omega
    · refine .bind storageReadBlock_records ?_
      rintro ⟨code, block⟩ -
      by_cases hsame : cInt (pos.toNat / blockSize) = cInt ((pos + len).toNat / blockSize)
      · simp only [if_pos hsame]
        exact .bind memcpyFromBlock_records fun _ _ ↦ .pure trivial
      · simp only [if_neg hsame]
        exact .bind memcpyFromBlock_records fun buffer _ ↦
          .bind (pointersReadLoop_records fun _ _ _ ↦ trivial) fun _ _ ↦
            .bind (indexEntry_records trivial) fun _ _ ↦ .bind storageReadBlock_records fun _ _ ↦
              .bind memcpyFromBlock_records fun _ _ ↦ .pure trivial
  case pos =>
    have hne : cInt (pos.toNat / blockSize) ≠ cInt ((pos + len).toNat / blockSize) :=
      fun heq ↦ h ⟨hpos, .inr ((first_eq_last_iff hpos).mp heq)⟩
    have hend : ¬ pos.toNat + len.toNat < 512 * blockSize := fun hend ↦ h ⟨hpos, .inl hend⟩
    refine indexEntry_faultsIn.finalState_bind fun i _ _ ↦
      storageReadBlock_faultsIn.finalState_bind ?_
    rintro ⟨code, block⟩ u -
    simp only [if_neg hne]
    have hoffset : pos.toNat % blockSize < blockSize := Nat.mod_lt _ (by decide)
    refine (memcpyFromBlock_faultsIn (by omega)).finalState_bind fun buffer _ _ ↦
      (FaultsIn.forLoop fun k acc ↦ pointersReadBody_faultsIn).finalState_bind ?_
    -- if the loop has not left the pointer block, the last access does
    rintro ⟨block, buffer, position⟩ v -
    refine inexact_indexEntry_bind (fun hexact ↦ ?_) (fun i ↦ ?_) _
    · obtain ⟨-, hlt, heq⟩ := hexact
      simp only [blockSize] at *
      omega
    · exact .bind storageReadBlock_records fun _ _ ↦ .bind memcpyFromBlock_records fun _ _ ↦
        .pure trivial

/-! ## Whole calls -/

theorem indexesExactly_ifileRead_iff {w : World} (hw : w.Formatted) {n howMany fromPos : UInt64}
    {buffer : ℕ → UInt8} (hn : n.toNat / 128 < numBlocks) :
    IndexesExactly (ifileRead n buffer howMany fromPos) w ↔
      (w.storage.inode n.toNat).size < fromPos + howMany ∨ ReadsExactly fromPos howMany := by
  have hw' : World.Formatted w.untraced := hw
  obtain ⟨pointers, -, hread⟩ := run_ifileRead hw' hn howMany fromPos
  have hrun := hread buffer
  rw [World.untraced_storage] at hrun
  constructor
  · intro hexact
    by_contra! hnot
    obtain ⟨haccept, hwindow⟩ := hnot
    refine not_indexesExactly ?_ hexact
    rw [hrun, if_neg haccept]
    exact finalState_bind (inexact_pointersRead hwindow pointers buffer _) fun _ _ _ h ↦ h
  · rintro (hrefuse | hwindow)
    · intro position index hmem
      rw [hrun, if_pos hrefuse] at hmem
      simp at hmem
    · refine indexesExactly_of_records (ifileRead_records fun position index haccess ↦ ?_) w
      rintro _ _ ⟨⟩
      exact hwindow.exact haccess

/-- A write that would need an entry beyond the last one returns `-1` and
leaves the disk as it is. -/
def RejectsLongWrite (w : World) (n howMany toPos : UInt64) (buffer : ℕ → UInt8) : Prop :=
  512 * blockSize ≤ toPos.toNat + howMany.toNat →
    ∃ u, (ifileWrite n buffer howMany toPos).run w = .ok (-1) u ∧ u.storage = w.storage

/-- Exactly the writes that end below the limit of a pointer block access it
exactly and reject what does not fit; a read does so when it is refused or its
window is read exactly. -/
theorem indexes_exact_iff {w : World} (hw : Reachable w) {n : UInt64} (hn : n.toNat < maxFiles)
    (howMany pos : UInt64) (buffer : ℕ → UInt8) :
    (IndexesExactly (ifileWrite n buffer howMany pos) w ∧ RejectsLongWrite w n howMany pos buffer ↔
        pos.toNat + howMany.toNat < 512 * blockSize) ∧
      (IndexesExactly (ifileRead n buffer howMany pos) w ↔
        (w.storage.inode n.toNat).size < pos + howMany ∨ ReadsExactly pos howMany) := by
  constructor
  · constructor
    · rintro ⟨-, hrejects⟩
      by_contra! hlong
      obtain ⟨u, hwrite, -⟩ := hrejects hlong
      have hcode := ifileWrite_code hwrite
      omega
    · intro hend
      refine ⟨indexesExactly_of_records (ifileWrite_exact ?_ ?_ hend) w, fun hlong ↦ by omega⟩
      · rintro r _ _ ⟨⟩
      · rintro position index hexact _ _ ⟨⟩
        exact hexact
  · exact indexesExactly_ifileRead_iff hw.formatted (div_lt_numBlocks hn)

/-! ## A file of a fresh device -/

def freshFile : World :=
  freshDevice.advance (freshDevice.storage.create 0) 4
    [.allocate (freshDevice.storage.claimInode 0).allocated, .allocate freshDevice.storage.allocated]

theorem reachable_freshFile : Reachable freshFile :=
  reachable_freshDevice.create (run_ifileCreate formatted_freshDevice (n := 0) (by decide))

theorem inode_freshFile : freshFile.storage.inode 0 = ⟨true, 0, 9⟩ :=
  (Disk.inode_create (by decide) takes_freshDevice (by decide)).trans (if_pos rfl)

theorem indexes_exact_iff_one_byte :
    IndexesExactly (ifileWrite 0 (fun _ ↦ 65) 1 0) freshFile ∧
      RejectsLongWrite freshFile 0 1 0 fun _ ↦ 65 :=
  (indexes_exact_iff reachable_freshFile (n := 0) (by decide) 1 0 fun _ ↦ 65).1.mpr (by decide)

/-- A byte written at the limit of the pointer block is not rejected, and a
read whose window wraps around accesses entry `-1`. -/
theorem pointer_block_left :
    Reachable freshFile ∧ (freshFile.storage.inode 0).used = true ∧
      ¬ RejectsLongWrite freshFile 0 1 2097152 (fun _ ↦ 65) ∧
      ¬ IndexesExactly (ifileRead 0 (fun _ ↦ 0) 1 18446744073709551615) freshFile := by
  refine ⟨reachable_freshFile, by rw [inode_freshFile], fun hrejects ↦ ?_, ?_⟩
  · obtain ⟨u, hwrite, -⟩ := hrejects (by decide)
    have hcode := ifileWrite_code hwrite
    omega
  · intro hexact
    have hcases :=
      (indexesExactly_ifileRead_iff reachable_freshFile.formatted (by decide)).mp hexact
    rcases hcases with hrefuse | ⟨hpos, -⟩
    · rw [UInt64.toNat_zero, inode_freshFile] at hrefuse
      exact absurd hrefuse (by decide)
    · exact absurd hpos (by decide)

end OsProjects.Filesystem
