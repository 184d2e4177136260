import OsProjects.Filesystem.Creation

/-!
# Recorded events

Which events the functions of the filesystem record, whatever the disk
contains and whether or not they return.  The global variables change in
`format` only, and an event stays in the trace once it is there.
-/

namespace OsProjects.Filesystem

open Library.Program Library.Bytes Library.FirstFit

/-- `u` has the global variables of `w` and, besides the events of `w`, only
events that satisfy `Good`. -/
def World.Adds (Good : Event → Prop) (w u : World) : Prop :=
  u.globals = w.globals ∧ ∃ events, u.trace = events ++ w.trace ∧ ∀ e ∈ events, Good e

variable {Good : Event → Prop}

instance : Std.Refl (World.Adds Good) where
  refl w := ⟨rfl, [], rfl, by simp⟩

instance : IsTrans World (World.Adds Good) where
  trans := by
    rintro w u v ⟨hu, events, htrace, hgood⟩ ⟨hv, events', htrace', hgood'⟩
    refine ⟨hv.trans hu, events' ++ events, by rw [htrace', htrace, List.append_assoc], ?_⟩
    intro e he
    rcases List.mem_append.mp he with he | he
    · exact hgood' e he
    · exact hgood e he

theorem World.Adds.advance (w : World) (d : Disk) (k : ℕ) {events : List Event}
    (h : ∀ e ∈ events, Good e) : World.Adds Good w (w.advance d k events) :=
  ⟨rfl, events, rfl, h⟩

theorem World.Adds.mem_trace {w u : World} (h : World.Adds Good w u) {e : Event}
    (he : e ∈ w.trace) : e ∈ u.trace := by
  obtain ⟨-, events, htrace, -⟩ := h
  rw [htrace]
  exact List.mem_append_right events he

abbrev Records (Good : Event → Prop) {α : Type} (x : FS α) : Prop :=
  Guarantees (World.Adds Good) x fun _ ↦ True

/-! ## Devices and buffers -/

theorem automatic_records : Records Good automatic :=
  .of_run fun w ↦ ⟨_, _, run_automatic w, .advance w _ _ (by simp), trivial⟩

theorem get_records : Records Good (get : FS World) :=
  .of_run fun w ↦ ⟨w, w, rfl, refl_of _ w, trivial⟩

theorem emit_records {e : Event} (h : Good e) : Records Good (emit e) :=
  .of_run fun w ↦ ⟨_, _, run_emit e w, .advance w _ _ (by simpa using h), trivial⟩

theorem storageReadBlock_records {n : UInt64} {data : Block} :
    Records Good (storageReadBlock n data) := by
  refine .of_run fun w ↦ ?_
  obtain ⟨code, block, hrun⟩ := run_storageReadBlock_state n data w
  exact ⟨_, _, hrun, refl_of _ w, trivial⟩

theorem storageWriteBlock_records {n : UInt64} {data : Block} :
    Records Good (storageWriteBlock n data) :=
  .of_run fun w ↦ ⟨_, _, run_storageWriteBlock n data w, .advance w _ _ (by simp), trivial⟩

theorem memcpyToBlock_records {block : Block} {offset position howMany : ℕ}
    {buffer : ℕ → UInt8} : Records Good (memcpyToBlock block offset buffer position howMany) := by
  rw [memcpyToBlock]
  split
  · exact .pure trivial
  · exact .throw _

theorem memcpyFromBlock_records {buffer : ℕ → UInt8} {position offset howMany : ℕ}
    {block : Block} :
    Records Good (memcpyFromBlock buffer position block offset howMany) := by
  rw [memcpyFromBlock]
  split
  · exact .pure trivial
  · exact .throw _

theorem indexEntry_records {position : ℕ} {index : ℤ} (h : Good (.entry position index)) :
    Guarantees (World.Adds Good) (indexEntry position index) fun i ↦
      0 ≤ index ∧ index < 512 ∧ i = index.toNat := by
  rw [indexEntry]
  refine .bind (emit_records h) fun _ _ ↦ ?_
  split
  · rename_i hbounds
    simp only [entriesPerBlock] at hbounds
    exact .pure ⟨hbounds.1, hbounds.2, rfl⟩
  · exact .throw _

theorem updateBlock_records {number : UInt64} {block : Block} {buffer : ℕ → UInt8}
    {offset position howMany : ℕ} :
    Records Good (updateBlock number block offset buffer position howMany) :=
  .bind storageReadBlock_records fun _ _ ↦ .bind memcpyToBlock_records fun _ _ ↦
    .bind storageWriteBlock_records fun _ _ ↦ .pure trivial

/-! ## The allocator -/

theorem allocateFrom_records {g : Globals} {i count : ℕ} {block : Block} :
    Records Good (allocateFrom g i count block) := by
  induction count generalizing i block with
  | zero => exact .pure trivial
  | succ count ih =>
      rw [allocateFrom]
      refine .bind storageReadBlock_records ?_
      rintro ⟨code, data⟩ -
      cases hscan : scanBlock g.firstAllocatable i data with
      | none => simpa only [hscan] using ih
      | some hit =>
          simp only [hscan]
          exact .bind storageWriteBlock_records fun _ _ ↦ .pure trivial

theorem bitmapAllocateBlock_records (h : ∀ r, Good (.allocate r)) :
    Records Good bitmapAllocateBlock := by
  refine .bind get_records fun w _ ↦ .bind automatic_records fun block _ ↦ ?_
  exact .bind allocateFrom_records fun r _ ↦ .bind (emit_records (h r)) fun _ _ ↦ .pure trivial

theorem bitmapDeallocateBlock_records {b : UInt64} : Records Good (bitmapDeallocateBlock b) :=
  .bind get_records fun _ _ ↦ .bind automatic_records fun _ _ ↦
    .bind storageReadBlock_records fun _ _ ↦
      .bind storageWriteBlock_records fun _ _ ↦ .pure trivial

/-! ## Windows of a file -/

/-- The accesses to a pointer block made by `pointers_read` and
`pointers_write` for the window of `len` bytes at `pos`. -/
inductive WindowAccess (pos len : UInt64) : ℕ → ℤ → Prop
  | first : WindowAccess pos len pos.toNat (cInt (pos.toNat / blockSize))
  | middle {k : ℕ} :
      k < (cInt ((pos + len).toNat / blockSize) - 1 - cInt (pos.toNat / blockSize)).toNat →
      WindowAccess pos len
        (pos.toNat + (blockSize - pos.toNat % blockSize + k * blockSize))
        (cInt (pos.toNat / blockSize) + 1 + k)
  | last : cInt (pos.toNat / blockSize) ≠ cInt ((pos + len).toNat / blockSize) →
      WindowAccess pos len (pos.toNat + len.toNat) (cInt ((pos + len).toNat / blockSize))

/-- The access `entry[index]` lies in the pointer block and `index` is the
exact quotient of the position by the block size. -/
def ExactAccess (position : ℕ) (index : ℤ) : Prop :=
  0 ≤ index ∧ index < 512 ∧ index = (position / blockSize : ℕ)

theorem WindowAccess.exact {pos len : UInt64} (hend : pos.toNat + len.toNat < 512 * blockSize)
    {position : ℕ} {index : ℤ} (h : WindowAccess pos len position index) :
    ExactAccess position index := by
  obtain ⟨hsum, hfirst, hlast, hle, hlt⟩ := window_arith hend
  cases h with
  | first =>
      rw [hfirst]
      simp only [blockSize] at *
      exact ⟨by omega, by omega, rfl⟩
  | @middle k hk =>
      rw [hsum, hfirst, hlast] at hk
      rw [hfirst]
      have hquotient : (pos.toNat + (blockSize - pos.toNat % blockSize + k * blockSize)) /
          blockSize = pos.toNat / blockSize + 1 + k := by
        simp only [blockSize]
        omega
      rw [ExactAccess, hquotient]
      simp only [blockSize] at *
      exact ⟨by omega, by omega, by omega⟩
  | last =>
      rw [hsum, hlast]
      simp only [blockSize] at *
      exact ⟨by omega, by omega, rfl⟩

section Window

variable {howMany pos : UInt64} {pointers : Block} {buffer : ℕ → UInt8}
variable (h : ∀ position index, WindowAccess pos howMany position index →
  Good (.entry position index))
include h

/-- The accumulator of the loop counts the bytes of the blocks before block `k`. -/
theorem pointersReadLoop_records {block : Block} :
    Records Good (forLoop (fun k acc ↦
      pointersReadBody pointers pos (cInt (pos.toNat / blockSize) + 1 + k) acc) 0
      (cInt ((pos + howMany).toNat / blockSize) - 1 - cInt (pos.toNat / blockSize)).toNat
      (block, buffer, blockSize - pos.toNat % blockSize)) := by
  refine .forLoop (I := fun k acc ↦
    acc.2.2 = blockSize - pos.toNat % blockSize + k * blockSize) (by simp) ?_
  rintro k ⟨block, buffer, position⟩ - hk rfl
  refine .bind (indexEntry_records (h _ _ (.middle (by simpa using hk)))) fun i _ ↦
    .bind storageReadBlock_records fun result _ ↦
      .bind memcpyFromBlock_records fun buffer _ ↦ .pure ?_
  rintro acc' ⟨⟩
  simp only [Nat.add_mul]
  omega

theorem pointersRead_records : Records Good (pointersRead pointers buffer howMany pos) := by
  refine .bind automatic_records fun block _ ↦
    .bind (indexEntry_records (h _ _ .first)) fun i _ ↦ .bind storageReadBlock_records ?_
  rintro ⟨code, block⟩ -
  by_cases hsame : cInt (pos.toNat / blockSize) = cInt ((pos + howMany).toNat / blockSize)
  · simp only [if_pos hsame]
    exact .bind memcpyFromBlock_records fun _ _ ↦ .pure trivial
  · simp only [if_neg hsame]
    refine .bind memcpyFromBlock_records fun buffer _ ↦ .bind (pointersReadLoop_records h) ?_
    rintro ⟨block, buffer, position⟩ -
    exact .bind (indexEntry_records (h _ _ (.last hsame))) fun i _ ↦
      .bind storageReadBlock_records fun _ _ ↦ .bind memcpyFromBlock_records fun _ _ ↦ .pure trivial

theorem pointersWriteLoop_records {block : Block} :
    Records Good (forLoop (fun k acc ↦
      pointersWriteBody pointers buffer pos (cInt (pos.toNat / blockSize) + 1 + k) acc) 0
      (cInt ((pos + howMany).toNat / blockSize) - 1 - cInt (pos.toNat / blockSize)).toNat
      (block, blockSize - pos.toNat % blockSize)) := by
  refine .forLoop (I := fun k acc ↦
    acc.2 = blockSize - pos.toNat % blockSize + k * blockSize) (by simp) ?_
  rintro k ⟨block, position⟩ - hk rfl
  refine .bind (indexEntry_records (h _ _ (.middle (by simpa using hk)))) fun i _ ↦
    .bind updateBlock_records fun block _ ↦ .pure ?_
  rintro acc' ⟨⟩
  simp only [Nat.add_mul]
  omega

theorem pointersWrite_records : Records Good (pointersWrite pointers buffer howMany pos) := by
  refine .bind automatic_records fun block _ ↦ ?_
  refine .bind (indexEntry_records (h _ _ .first)) fun i _ ↦ ?_
  split
  · exact .bind updateBlock_records fun _ _ ↦ .pure trivial
  · rename_i hne
    refine .bind updateBlock_records fun block _ ↦ .bind (pointersWriteLoop_records h) ?_
    rintro ⟨block, position⟩ -
    exact .bind (indexEntry_records (h _ _ (.last hne))) fun i _ ↦
      .bind updateBlock_records fun _ _ ↦ .pure trivial

theorem writeData_records {offset : ℕ} {buf1 : Block} :
    Records Good (writeData offset buffer howMany pos buf1) :=
  .bind automatic_records fun _ _ ↦ .bind storageReadBlock_records fun _ _ ↦
    .bind (pointersWrite_records h) fun _ _ ↦ .pure trivial

theorem ifileRead_records {n : UInt64} : Records Good (ifileRead n buffer howMany pos) := by
  refine .bind get_records fun w _ ↦ .bind automatic_records fun buf1 _ ↦
    .bind storageReadBlock_records ?_
  rintro ⟨code, buf1⟩ -
  by_cases hrefuse : inodeSize buf1 (n % cUInt64 w.globals.inodesPerBlock).toNat < pos + howMany
  · simp only [if_pos hrefuse]
    exact .pure trivial
  · simp only [if_neg hrefuse]
    exact .bind automatic_records fun buf2 _ ↦ .bind storageReadBlock_records
      fun result _ ↦ .bind (pointersRead_records h) fun _ _ ↦ .pure trivial

end Window

/-! ## Growth -/

/-- The accesses to a pointer block made by `ifile_grow` for the entries
`first` to `last`. -/
inductive GrowAccess (size : UInt64) (first last : ℕ) : ℕ → ℤ → Prop
  | take {i : ℕ} : first ≤ i → i ≤ last → GrowAccess size first last (growPosition size first i) i
  | giveBack {i k : ℕ} : first ≤ i → i ≤ last → k < (if first = 0 then i + 2 else i + 1 - first) →
      GrowAccess size first last
        (growPosition size first (UInt64.ofNat i - UInt64.ofNat k).toNat)
        (UInt64.ofNat i - UInt64.ofNat k).toNat

theorem GrowAccess.exact {size newSize : UInt64} (hgrows : size < newSize)
    (hend : newSize.toNat < 512 * blockSize) {position : ℕ} {index : ℤ}
    (h : GrowAccess size (growBounds size newSize).1 (growBounds size newSize).2 position index) :
    ExactAccess position index := by
  rw [growBounds_eq hgrows hend] at h
  have hexact : ∀ j : ℕ, size.toNat / blockSize + 1 ≤ j → j ≤ newSize.toNat / blockSize →
      ExactAccess (growPosition size (size.toNat / blockSize + 1) j) j := by
    intro j hj hlast
    have hquotient : growPosition size (size.toNat / blockSize + 1) j / blockSize = j := by
      simp only [growPosition, blockSize] at *
      omega
    rw [ExactAccess, hquotient]
    simp only [blockSize] at *
    exact ⟨by omega, by omega, trivial⟩
  cases h with
  | take hfirst hlast => exact hexact _ hfirst hlast
  | @giveBack i k hfirst hlast hk =>
      simp only at hfirst hlast hk
      rw [if_neg (Nat.succ_ne_zero _)] at hk
      have hnat : (UInt64.ofNat i - UInt64.ofNat k).toNat = i - k := by
        simp only [blockSize] at *
        rw [UInt64.toNat_sub_of_le]
        · simp only [UInt64.toNat_ofNat']
          omega
        · rw [UInt64.le_iff_toNat_le]
          simp only [UInt64.toNat_ofNat']
          omega
      rw [hnat]
      exact hexact _ (by omega) (by omega)

section Growth

variable (hallocate : ∀ r, Good (.allocate r))
include hallocate

section Body

variable {size : UInt64} {first last i : ℕ} {pointers : Block}
variable (h : ∀ position index, GrowAccess size first last position index →
  Good (.entry position index)) (hi : first ≤ i) (hlast : i ≤ last)
include h hi hlast

omit hallocate in
theorem rollback_records : Records Good (forLoop (rollbackBody size first i) 0
    (if first = 0 then i + 2 else i + 1 - first) pointers) := by
  refine .forLoop (I := fun _ _ ↦ True) trivial fun k pointers _ hk _ ↦ ?_
  rw [Nat.zero_add] at hk
  refine .bind bitmapDeallocateBlock_records fun _ _ ↦
    .bind (indexEntry_records (h _ _ (.giveBack hi hlast hk))) fun _ _ ↦ .pure ?_
  exact fun _ _ ↦ trivial

omit hallocate in
theorem growStore_records {number : ℤ} : Records Good (growStore size first i pointers number) := by
  refine .bind (indexEntry_records (h _ _ (.take hi hlast))) fun index _ ↦ ?_
  by_cases hfull : entry (setEntry pointers index (cUInt64 number)) index = cUInt64 (-1)
  · simp only [if_pos hfull]
    exact .bind (rollback_records h hi hlast) fun _ _ ↦ .pure trivial
  · simp only [if_neg hfull]
    exact .pure trivial

theorem growBody_records : Records Good (growBody size first i pointers) :=
  .bind (bitmapAllocateBlock_records hallocate) fun _ _ ↦ growStore_records h hi hlast

end Body

variable {newSize : UInt64}
  (hgrow : ∀ (size : UInt64) position index, size < newSize →
    GrowAccess size (growBounds size newSize).1 (growBounds size newSize).2 position index →
    Good (.entry position index))
include hgrow

theorem growLoop_records {size : UInt64} (hlt : size < newSize) {i count : ℕ} {pointers : Block}
    (hi : (growBounds size newSize).1 ≤ i)
    (hlast : ∀ j, i ≤ j → j < i + count → j ≤ (growBounds size newSize).2) :
    Records Good (forLoop (growBody size (growBounds size newSize).1) i count pointers) := by
  refine .forLoop (I := fun _ _ ↦ True) trivial fun j pointers hj hjlt _ ↦ ?_
  exact (growBody_records hallocate (fun position index ↦ hgrow size position index hlt)
    (hi.trans hj) (hlast j hj hjlt)).mono fun _ _ _ _ ↦ trivial

theorem ifileGrow_records {buf1 : Block} {offset : ℕ} (hlt : inodeSize buf1 offset < newSize) :
    Records Good (ifileGrow buf1 offset newSize) := by
  refine .bind automatic_records fun block _ ↦ .bind storageReadBlock_records ?_
  rintro ⟨code, block⟩ -
  exact .bind (growLoop_records hallocate hgrow hlt le_rfl fun j hj hjlt ↦ by
      simp only [growBounds] at *
      omega) fun _ _ ↦
    .bind storageWriteBlock_records fun _ _ ↦ .pure trivial

theorem growIfNeeded_records {number : UInt64} {buf1 : Block} {offset : ℕ} :
    Records Good (growIfNeeded number buf1 offset newSize) := by
  rw [growIfNeeded]
  split
  · rename_i hlt
    refine .bind (ifileGrow_records hallocate hgrow hlt) ?_
    rintro ⟨code, buf1⟩ -
    exact .bind storageWriteBlock_records fun _ _ ↦ .pure trivial
  · exact .pure trivial

end Growth

/-! ## Whole calls -/

theorem ifileCreate_records (hallocate : ∀ r, Good (.allocate r)) {n : UInt64} :
    Records Good (ifileCreate n) := by
  refine .bind get_records fun w _ ↦ .bind automatic_records fun buf1 _ ↦ ?_
  split
  · exact .pure trivial
  · exact .bind storageReadBlock_records fun _ _ ↦
      .bind (bitmapAllocateBlock_records hallocate) fun _ _ ↦
        .bind storageWriteBlock_records fun _ _ ↦ .bind automatic_records fun _ _ ↦
          .bind storageReadBlock_records fun _ _ ↦
            .bind (bitmapAllocateBlock_records hallocate) fun _ _ ↦
              .bind storageWriteBlock_records fun _ _ ↦ .pure trivial

theorem ifileWrite_records (hallocate : ∀ r, Good (.allocate r)) {n howMany toPos : UInt64}
    {buffer : ℕ → UInt8}
    (hgrow : ∀ (size : UInt64) position index, size < toPos + howMany →
      GrowAccess size (growBounds size (toPos + howMany)).1
        (growBounds size (toPos + howMany)).2 position index → Good (.entry position index))
    (hwindow : ∀ position index, WindowAccess toPos howMany position index →
      Good (.entry position index)) : Records Good (ifileWrite n buffer howMany toPos) :=
  .bind get_records fun _ _ ↦ .bind automatic_records fun _ _ ↦
    .bind storageReadBlock_records fun _ _ ↦
      .bind (growIfNeeded_records hallocate hgrow) fun _ _ ↦ writeData_records hwindow

theorem ifileWrite_exact (hallocate : ∀ r, Good (.allocate r))
    (hexact : ∀ position index, ExactAccess position index → Good (.entry position index))
    {n howMany toPos : UInt64} {buffer : ℕ → UInt8}
    (hend : toPos.toNat + howMany.toNat < 512 * blockSize) :
    Records Good (ifileWrite n buffer howMany toPos) := by
  have hsum := (window_arith hend).1
  refine ifileWrite_records hallocate (fun size position index hlt h ↦ ?_)
    fun position index h ↦ hexact _ _ (h.exact hend)
  exact hexact _ _ (h.exact hlt (by rw [hsum]; exact hend))

end OsProjects.Filesystem
