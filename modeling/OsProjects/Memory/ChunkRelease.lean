import OsProjects.Memory.FreeLists

/-!
# Releasing and moving chunks

`kfree` looks for the place of the chunk not at the address it is given but at
one below its own parameter, and never changes the heap.  `krealloc` copies to
the place that `kmalloc` returned, which is in no page.
-/

namespace OsProjects.Memory

open Library.Program Library.Bytes

def Chunk.Covers (c : Chunk) (i : ℕ) : Prop :=
  c.address.toNat ≤ i ∧ i < c.address.toNat + 16 + c.size.toNat

/-- The chunks of the page at `p`, each with its size in its header. -/
structure Heap.Partition (s : Heap) (p : UInt64) (free live : List Chunk) : Prop where
  page : p ∈ s.pages
  freeList : s.FreeList p free
  header : ∀ c ∈ live, s.word c.address = c.size
  inside : ∀ c ∈ live, p.toNat + 8 ≤ c.address.toNat ∧
    c.address.toNat + 16 + c.size.toNat ≤ p.toNat + 4096
  apart : (free ++ live).Pairwise fun c d ↦ Apart c.extent d.extent

/-! ## `kfree` -/

/-- What `kfree` is to do with the chunk `c` of the page at `p`: it returns, and
the bytes of `c` are in an ordered free list without neighbours. -/
def ReturnsChunk (base slot : UInt64) (s : Heap) (p : UInt64) (free live : List Chunk)
    (c : Chunk) : Prop :=
  ∃ fuel t, (kfree base slot (c.address + 16) fuel).run s = .ok () t ∧
    ∃ cs, t.FreeList p cs ∧ cs.Pairwise (fun d e ↦ d.address < e.address) ∧
      (∀ i, (∃ d ∈ cs, d.Covers i) ↔ (∃ d ∈ free, d.Covers i) ∨ c.Covers i) ∧
      (∀ d ∈ cs, ∀ e ∈ cs, d.address.toNat + 16 + d.size.toNat ≠ e.address.toNat) ∧
      ∀ d ∈ live, d ≠ c → ∀ i, d.Covers i → t.bytes i = s.bytes i

/-- Nothing in the heap is at the 16 bytes that `kfree` takes for the chunk, below
its parameter. -/
structure Heap.Spares (s : Heap) (slot : UInt64) : Prop where
  bound : (slot - 8 * (2 * 8)).toNat + 16 ≤ 2 ^ 64
  apart : ∀ o ∈ s.objects, Apart o ((slot - 8 * (2 * 8)).toNat, 16)

section Kfree

variable {s t : Heap} {base slot address beg : UInt64} {fuel : ℕ}

theorem Heap.Spares.not_accessible (h : s.Spares slot) :
    ¬ s.Accessible (slot - 8 * (2 * 8)) ∧ ¬ s.Accessible (slot - 8 * (2 * 8) + 8) := by
  have hbound := h.bound
  have hnext : (slot - 8 * (2 * 8) + 8).toNat = (slot - 8 * (2 * 8)).toNat + 8 :=
    toNat_add_of_le (by simp only [UInt64.reduceToNat]; omega)
  constructor
  · rintro ⟨o, ho, hle, hlt⟩
    have hapart := h.apart o ho
    simp only [Apart] at hapart
    omega
  · rintro ⟨o, ho, hle, hlt⟩
    have hapart := h.apart o ho
    simp only [Apart] at hapart
    omega

theorem kfreeBody_keeps (h : s.Spares slot) :
    Yields (kfreeBody (slot - 8 * (2 * 8)) beg) s fun next t ↦
      Sum.elim (fun _ ↦ False) (fun _ ↦ t = s) next := by
  obtain ⟨hblock, hnext⟩ := h.not_accessible
  rw [kfreeBody]
  refine yields_load_bind fun _ ↦ ?_
  split
  · refine yields_load_bind fun _ ↦ yields_load_bind fun _ ↦ ?_
    split
    · exact yields_load_bind fun _ ↦ yields_load_bind fun hload ↦ absurd hload hblock
    · refine yields_load_bind fun _ ↦ ?_
      exact (ends_bind_of_error (run_store_of_not_accessible hnext)).mpr trivial
  · exact rfl

/-- `kfree` does not return, or has changed nothing. -/
theorem kfree_keeps (h : s.Spares slot) :
    Yields (kfree base slot address fuel) s fun _ t ↦ t = s := by
  refine Ends.whileLoop (I := fun _ t ↦ t = s) (fun acc u hu ↦ ?_) (fun _ _ _ ↦ trivial) rfl
  obtain rfl := hu
  refine (kfreeBody_keeps h).mono (fun next v hv ↦ ?_) fun _ _ hE ↦ hE
  cases next with
  | inl acc' => exact hv.elim
  | inr _ => exact hv

end Kfree

/-- `kfree` returns no chunk of any page to its free list. -/
theorem kfree_never_returns_chunk {s : Heap} {p slot : UInt64} {free live : List Chunk}
    {c : Chunk} (h : s.Partition p free live) (hc : c ∈ live) (hslot : s.Spares slot)
    (base : UInt64) : ¬ ReturnsChunk base slot s p free live c := by
  rintro ⟨fuel, t, hrun, cs, hafter, -, hcovers, -⟩
  obtain rfl := (ends_iff_of_ok hrun).mp (kfree_keeps hslot)
  obtain rfl : cs = free := hafter.threaded.unique h.freeList.threaded
    (fun d hd ↦ hafter.ne_zero hd) fun d hd ↦ h.freeList.ne_zero hd
  have hself : c.Covers c.address.toNat := ⟨le_rfl, by omega⟩
  obtain ⟨d, hd, hle, hlt⟩ := (hcovers _).mpr (.inr hself)
  have hapart := (List.pairwise_append.mp h.apart).2.2 d hd c hc
  simp only [Apart, Chunk.extent] at hapart
  omega

/-- The only chunk of this page is live. -/
def filled : Heap :=
  (finalState ((blockInit firstCall).run (HeapState.init fun _ ↦ 0).heap)).write firstCall.page 0

theorem objects_filled : filled.objects = [(firstCall.page.toNat, 4096)] := by decide +kernel

theorem partition_filled : filled.Partition firstCall.page [] [⟨firstCall.page + 8, 4072⟩] where
  page := by decide +kernel
  freeList := ⟨Heap.word_write_self .., by simp, .nil⟩
  header c hc := by
    rw [List.mem_singleton.mp hc]
    decide +kernel
  inside c hc := by
    rw [List.mem_singleton.mp hc]
    decide
  apart := List.pairwise_singleton _ _

theorem kfree_never_returns_chunk_filled : ¬ ReturnsChunk firstCall.page 0x7ffe0100 filled
    firstCall.page [] [⟨firstCall.page + 8, 4072⟩] ⟨firstCall.page + 8, 4072⟩ := by
  have hslot : filled.Spares 0x7ffe0100 := by
    refine ⟨by decide, fun o ho ↦ .inl ?_⟩
    rw [objects_filled, List.mem_singleton] at ho
    subst ho
    decide
  exact kfree_never_returns_chunk partition_filled (List.mem_singleton_self _) hslot _

/-- For the only chunk of a page `kfree` follows its size as a pointer. -/
theorem size_followed :
    (∀ fuel, (kfree firstCall.page 0x7ffe0100 (firstCall.page + 8 + 16) (fuel + 1)).run filled =
      .error (.outside 4072) filled) ∧
    ¬ ReturnsChunk firstCall.page 0x7ffe0100 filled firstCall.page []
      [⟨firstCall.page + 8, 4072⟩] ⟨firstCall.page + 8, 4072⟩ := by
  have hload : (load (firstCall.page + 8)).run filled = .ok 4072 filled := by
    have hsize : filled.word (firstCall.page + 8) = 4072 :=
      partition_filled.header ⟨firstCall.page + 8, 4072⟩ (List.mem_singleton_self _)
    rw [← hsize]
    exact run_load (Heap.accessible_of_page partition_filled.page (by decide) (by decide))
  have hfault : (load 4072).run filled = .error (.outside 4072) filled :=
    run_load_of_not_accessible (by decide +kernel)
  have hlt : (4072 : UInt64) < 0x7ffe0100 - 8 * (2 * 8) := by decide
  have hbody : (kfreeBody (0x7ffe0100 - 8 * (2 * 8)) firstCall.page).run filled =
      .error (.outside 4072) filled := by
    rw [kfreeBody, run_bind_of_ok hload, if_pos hlt, run_bind_of_ok hload]
    exact run_bind_of_error hfault
  have hcall (fuel : ℕ) :
      (kfree firstCall.page 0x7ffe0100 (firstCall.page + 8 + 16) (fuel + 1)).run filled =
        .error (.outside 4072) filled := by
    have hbeg : cUInt64 (firstCall.page.toNat + ((firstCall.page + 8 + 16).toNat -
        firstCall.page.toNat : ℤ).tdiv 4096 * 4096) = firstCall.page := by decide
    simp only [kfree, hbeg, whileLoop]
    exact run_bind_of_error hbody
  refine ⟨hcall, ?_⟩
  rintro ⟨fuel, t, hrun, -⟩
  cases fuel with
  | zero => cases hrun
  | succ fuel =>
      rw [hcall fuel] at hrun
      cases hrun

/-! ## `krealloc` -/

/-- The heap, and the places and lengths that `memcpy` has read. -/
structure Copying where
  heap : Heap
  reads : List (ℕ × ℕ)

abbrev CM := EStateM HeapStop Copying

def liftHeap {α : Type} (x : HM α) : CM α := fun s ↦
  match x.run s.heap with
  | .ok a t => .ok a { s with heap := t }
  | .error e t => .error e { s with heap := t }

/-- The `n` bytes at `a` lie in an object. -/
def Heap.InObject (s : Heap) (a n : UInt64) : Prop :=
  ∃ o ∈ s.objects, o.1 ≤ a.toNat ∧ a.toNat + n.toNat ≤ o.1 + o.2

instance (s : Heap) (a n : UInt64) : Decidable (s.InObject a n) :=
  inferInstanceAs (Decidable (∃ o ∈ s.objects, _))

def Heap.copy (s : Heap) (dst src n : UInt64) : Heap :=
  { s with bytes := copyOver s.bytes dst.toNat n.toNat fun i ↦ s.bytes (src.toNat + i) }

def memcpy (dst src n : UInt64) : CM Unit := do
  let s ← get
  if n = 0 then
    return ()
  else if ¬ s.heap.InObject src n then
    throw (.outside src)
  else if ¬ s.heap.InObject dst n then
    throw (.outside dst)
  else
    set (⟨s.heap.copy dst src n, (src.toNat, n.toNat) :: s.reads⟩ : Copying)

def krealloc (env : Surroundings) (base slot address size : UInt64) (fuel : ℕ) : CM UInt64 := do
  let newDataPos ← liftHeap (kmalloc env size fuel)
  memcpy newDataPos address size
  liftHeap (kfree base slot address fuel)
  return newDataPos

/-- What `krealloc` is to do with the live chunk of `old` bytes at `address`, where
`available` says whether there is space for the new size. -/
def Reallocates (available : Prop) (env : Surroundings) (base slot : UInt64) (s : HeapState)
    (address old size : UInt64) (fuel : ℕ) : Prop :=
  let others := s.live.erase (address, old)
  ∃ a t, (krealloc env base slot address size fuel).run ⟨s.heap, []⟩ = .ok a t ∧
    (∀ c ∈ others, ∀ i < c.2.toNat, t.heap.bytes (c.1.toNat + i) = s.heap.bytes (c.1.toNat + i)) ∧
    (available → t.heap.Provides others a size ∧
      (∀ i < min old.toNat size.toNat,
        t.heap.bytes (a.toNat + i) = s.heap.bytes (address.toNat + i)) ∧
      (∀ r ∈ t.reads, r.1 + r.2 ≤ address.toNat + old.toNat) ∧ (size ≤ old → a = address)) ∧
    (¬ available → a = 0 ∧ t.heap.Provides others address old ∧
      ∀ i < old.toNat, t.heap.bytes (address.toNat + i) = s.heap.bytes (address.toNat + i))

section Krealloc

variable {α : Type} {x : HM α} {s t : Copying} {a : α}

theorem exists_run_of_liftHeap (h : (liftHeap x).run s = .ok a t) :
    ∃ u, x.run s.heap = .ok a u ∧ t = { s with heap := u } := by
  change liftHeap x s = _ at h
  rw [liftHeap] at h
  split at h
  · rename_i b u hrun
    cases h
    exact ⟨u, hrun, rfl⟩
  · cases h

theorem pages_of_memcpy {dst src n : UInt64} (h : (memcpy dst src n).run s = .ok () t) :
    t.heap.pages = s.heap.pages := by
  have hget : (get : CM Copying).run s = .ok s s := rfl
  rw [memcpy, run_bind_of_ok hget] at h
  split at h
  · cases h
    rfl
  · split at h
    · cases h
    · split at h
      · cases h
      · cases h
        rfl

end Krealloc

/-- Whether there is space or not, `krealloc` does not do what it is to do. -/
theorem krealloc_never_reallocates {available : Prop} {env : Surroundings} {s : HeapState}
    (hs : s.heap.Sound) (hfresh : env.Fresh s.heap) (base slot address old size : UInt64)
    (fuel : ℕ) : ¬ Reallocates available env base slot s address old size fuel := by
  rintro ⟨a, t, hrun, -, hspace, hnone⟩
  obtain ⟨a', u, hlift, hrest⟩ := run_bind_eq_ok_iff.mp hrun
  obtain ⟨⟨⟩, v, hcopy, hrest'⟩ := run_bind_eq_ok_iff.mp hrest
  obtain ⟨⟨⟩, w, hlift', hpure⟩ := run_bind_eq_ok_iff.mp hrest'
  cases hpure
  obtain ⟨h, hmalloc, rfl⟩ := exists_run_of_liftHeap hlift
  obtain ⟨k, hfree, rfl⟩ := exists_run_of_liftHeap hlift'
  obtain ⟨rfl, -, hpages⟩ := (ends_iff_of_ok hmalloc).mp (kmalloc_yields hs hfresh)
  have hkeeps : v.heap.Keeps k := (ends_iff_of_ok hfree).mp (kfree_yields base slot address)
  by_cases havailable : available
  · have hprovides := (hspace havailable).1
    refine hfresh.not_provides (t := k) ?_ _ hprovides
    rw [hkeeps.pages, pages_of_memcpy hcopy]
    exact hpages
  · have hheader := hfresh.header.1
    rw [(hnone havailable).1] at hheader
    exact absurd hheader (by decide)

theorem krealloc_never_reallocates_filled :
    ¬ Reallocates False secondCall firstCall.page 0x7ffe0100
      ⟨filled, [(firstCall.page + 24, 4072)]⟩ (firstCall.page + 24) 4072 8000 2 := by
  have hsound : filled.Sound := by
    refine ⟨fun o ho ↦ ?_, .inl (by decide +kernel)⟩
    rw [objects_filled, List.mem_singleton] at ho
    subst ho
    decide
  have hfresh : secondCall.Fresh filled := by
    refine ⟨?_, ?_, by decide⟩
    · simp [Surroundings.objects, secondCall, Apart]
    · rw [objects_filled]
      simp [Surroundings.objects, secondCall, Apart, firstCall]
  exact krealloc_never_reallocates hsound hfresh _ _ _ _ _ _

/-- A chunk of 4072 bytes cannot be made smaller: 100 bytes are to be copied to where
`kmalloc` had a variable. -/
theorem copied_outside_pages :
    (∃ t, (krealloc secondCall firstCall.page 0x7ffe0100 (firstCall.page + 24) 100 2).run
      ⟨filled, []⟩ = .error (.outside secondCall.header) t) ∧
    ¬ Reallocates True secondCall firstCall.page 0x7ffe0100
      ⟨filled, [(firstCall.page + 24, 4072)]⟩ (firstCall.page + 24) 4072 100 2 := by
  have htest : stopsWith (krealloc secondCall firstCall.page 0x7ffe0100 (firstCall.page + 24) 100 2)
      ⟨filled, []⟩ (.outside secondCall.header) = true := by
    decide +kernel
  obtain ⟨t, hrun⟩ := stopsWith_iff.mp htest
  refine ⟨⟨t, hrun⟩, ?_⟩
  rintro ⟨a, u, hreturned, -⟩
  rw [hrun] at hreturned
  cases hreturned

end OsProjects.Memory
