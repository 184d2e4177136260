import OsProjects.Memory.ChunkAddresses

/-!
# The free list of a page

`block_init` makes a page with one free chunk, and `try_fit_data` is to take a
new chunk from the first free chunk that holds it.  What it makes of the rest
of that free chunk begins inside the new chunk, so that it splits no page
rightly but those in which it takes nothing.
-/

namespace OsProjects.Memory

open Library.Program Library.Bytes

/-- A free chunk, with its address and the size in its header. -/
structure Chunk where
  address : UInt64
  size : UInt64

/-- The bytes of a chunk, its header of two words included. -/
def Chunk.extent (c : Chunk) : ℕ × ℕ := (c.address.toNat, 16 + c.size.toNat)

namespace Heap

/-- The word at `a` points to the first of the free chunks `cs`, and each of them
to the next. -/
def Threaded (s : Heap) : UInt64 → List Chunk → Prop
  | a, [] => s.word a = 0
  | a, c :: cs => s.word a = c.address ∧ s.word c.address = c.size ∧ Threaded s (c.address + 8) cs

/-- The free list of the page at `p`, whose first word is not part of a chunk. -/
structure FreeList (s : Heap) (p : UInt64) (cs : List Chunk) : Prop where
  threaded : s.Threaded p cs
  inside : ∀ c ∈ cs, p.toNat + 8 ≤ c.address.toNat ∧
    c.address.toNat + 16 + c.size.toNat ≤ p.toNat + 4096
  apart : cs.Pairwise fun c d ↦ Apart c.extent d.extent

end Heap

/-- The bytes of the free chunks, as a natural number. -/
def totalBytes (cs : List Chunk) : ℕ := (cs.map fun c ↦ 16 + c.size.toNat).sum

section Splits

/- When a free chunk with the first number of bytes after its header is said to
hold the second. -/
variable (fits : UInt64 → UInt64 → Prop)

/-- From `s` to `t` the new chunk has been taken out of `c`. -/
structure Carved (s t : Heap) (p size : UInt64) (before after : List Chunk) (c : Chunk) :
    Prop where
  header : t.word c.address = size
  freeList : ∃ cs, t.FreeList p cs ∧
    totalBytes cs + (16 + size.toNat) = totalBytes (before ++ c :: after) ∧
    (∀ d ∈ before ++ after, d ∈ cs) ∧
    ∀ d ∈ cs, Apart d.extent (c.address.toNat, 16 + size.toNat)

/-- `try_fit_data` returns `NULL` and leaves the page as it is if and only if no
free chunk holds the data, and takes the new chunk out of the first that does. -/
def Splits (env : Surroundings) (s : Heap) (p size : UInt64) (cs : List Chunk) (fuel : ℕ) : Prop :=
  ∃ a t, (tryFitData env size p fuel).run s = .ok a t ∧
    ((a = 0 ∧ ∀ i < 4096, t.bytes (p.toNat + i) = s.bytes (p.toNat + i)) ↔
      ∀ c ∈ cs, ¬ fits c.size size) ∧
    ∀ before c after, cs = before ++ c :: after → (∀ d ∈ before, ¬ fits d.size size) →
      fits c.size size → Carved s t p size before after c

end Splits

/-! ## Accesses inside a page -/

section Page

variable {s t : Heap} {a b p v : UInt64}

theorem Heap.accessible_of_page (hp : p ∈ s.pages) (hle : p.toNat ≤ a.toNat)
    (hlt : a.toNat + 8 ≤ p.toNat + 4096) : s.Accessible a :=
  ⟨(p.toNat, 4096), List.mem_append_left _ (List.mem_map_of_mem hp), hle, hlt⟩

theorem Heap.Accessible.write (h : s.Accessible b) (a v : UInt64) : (s.write a v).Accessible b := h

theorem run_get : (get : HM Heap).run s = .ok s s := rfl

theorem run_load (ha : s.Accessible a) : (load a).run s = .ok (s.word a) s := by
  rw [load, run_bind_of_ok run_get, if_pos ha]
  rfl

theorem run_store (ha : s.Accessible a) : (store a v).run s = .ok () (s.write a v) := by
  rw [store, run_bind_of_ok run_get, if_pos ha]
  rfl

theorem run_load_of_not_accessible (ha : ¬ s.Accessible a) :
    (load a).run s = .error (.outside a) s := by
  rw [load, run_bind_of_ok run_get, if_neg ha]
  rfl

theorem run_store_of_not_accessible (ha : ¬ s.Accessible a) :
    (store a v).run s = .error (.outside a) s := by
  rw [store, run_bind_of_ok run_get, if_neg ha]
  rfl

end Page

/-! ## Free lists -/

section Lists

variable {s t : Heap} {p a : UInt64} {cs ds before after : List Chunk} {c d : Chunk}

theorem Heap.Threaded.unique (h : s.Threaded a cs) (h' : s.Threaded a ds)
    (hcs : ∀ c ∈ cs, c.address ≠ 0) (hds : ∀ d ∈ ds, d.address ≠ 0) : cs = ds := by
  induction cs generalizing a ds with
  | nil =>
      cases ds with
      | nil => rfl
      | cons d ds => exact absurd (h'.1.symm.trans h) (hds d List.mem_cons_self)
  | cons c cs ih =>
      cases ds with
      | nil => exact absurd (h.1.symm.trans h') (hcs c List.mem_cons_self)
      | cons d ds =>
          obtain ⟨c, size⟩ := c
          obtain ⟨d, size'⟩ := d
          obtain rfl : c = d := h.1.symm.trans h'.1
          obtain rfl : size = size' := h.2.1.symm.trans h'.2.1
          rw [ih h.2.2 h'.2.2 (fun c hc ↦ hcs c (List.mem_cons_of_mem _ hc))
            fun d hd ↦ hds d (List.mem_cons_of_mem _ hd)]

theorem Heap.FreeList.ne_zero (h : s.FreeList p cs) (hc : c ∈ cs) : c.address ≠ 0 := by
  intro hzero
  have hinside := (h.inside c hc).1
  rw [hzero] at hinside
  exact absurd hinside (by simp)

/-- The word that points to what comes after `before`. -/
def link (a : UInt64) (before : List Chunk) : UInt64 :=
  before.foldl (fun _ c ↦ c.address + 8) a

@[simp] theorem link_nil : link a [] = a := rfl

@[simp] theorem link_cons : link a (c :: before) = link (c.address + 8) before := rfl

theorem Heap.Threaded.of_append (h : s.Threaded a (before ++ cs)) :
    s.Threaded (link a before) cs := by
  induction before generalizing a with
  | nil => exact h
  | cons c before ih => exact ih h.2.2

/-- The free chunks of `t` are those of `s` as far as the words are the same, and
then the chunk that the first changed word points to. -/
theorem Heap.Threaded.exists_mem {x : UInt64} (h : s.Threaded a (before ++ cs))
    (h' : t.Threaded a ds) (hsame : ∀ front d rest, before = front ++ d :: rest →
      t.word (link a front) = s.word (link a front))
    (hlink : t.word (link a before) = x) (hx : x ≠ 0) (hne : ∀ c ∈ before, c.address ≠ 0) :
    ∃ d ∈ ds, d.address = x := by
  induction before generalizing a ds with
  | nil =>
      cases ds with
      | nil => exact absurd (hlink.symm.trans h') hx
      | cons d ds => exact ⟨d, List.mem_cons_self, h'.1.symm.trans hlink⟩
  | cons c before ih =>
      have hfirst : t.word a = c.address := (hsame [] c before rfl).trans h.1
      cases ds with
      | nil => exact absurd (hfirst.symm.trans h') (hne c List.mem_cons_self)
      | cons d ds =>
          have haddress : d.address = c.address := h'.1.symm.trans hfirst
          have hrest := h'.2.2
          rw [haddress] at hrest
          obtain ⟨e, he, hex⟩ := ih h.2.2 hrest
            (fun front e rest heq ↦ hsame (c :: front) e rest (by rw [heq, List.cons_append]))
            hlink fun d hd ↦ hne d (List.mem_cons_of_mem _ hd)
          exact ⟨e, List.mem_cons_of_mem _ he, hex⟩

end Lists

/-! ## The search -/

/-- The test of `try_fit_data`, in the arithmetic of the code. -/
def Chunk.Takes (c : Chunk) (size : UInt64) : Prop := size - 2 * 8 < c.size

/-- The page after its chunk at `c`, which `pred` points to, has been split. -/
def Heap.carve (s : Heap) (pred c size : UInt64) : Heap :=
  let newFree := c + (size - 2 * 8)
  let t := s.write newFree (s.word c - (size - 2 * 8))
  (((t.write (newFree + 8) (t.word (c + 8))).write c size).write (c + 8) 0xc0dec0de).write pred
    newFree

section Search

variable {env : Surroundings} {s : Heap} {p a size : UInt64} {cs before after : List Chunk}
  {c : Chunk} {fuel : ℕ}

theorem Chunk.Takes.bounds (h : c.Takes size) (hc : c.size.toNat ≤ 4096) :
    16 ≤ size.toNat ∧ size.toNat < c.size.toNat + 16 ∧ (size - 2 * 8).toNat = size.toNat - 16 := by
  have hlt : (size - 2 * 8).toNat < c.size.toNat := h
  have hsub : (size - 2 * 8).toNat = (2 ^ 64 - 16 + size.toNat) % 2 ^ 64 := UInt64.toNat_sub ..
  have hsize := size.toNat_lt
  omega

theorem Chunk.takes_of_lt (hlow : 16 ≤ size.toNat) (h : size.toNat < c.size.toNat + 16) :
    c.Takes size := by
  have hsub : (size - 2 * 8).toNat = (2 ^ 64 - 16 + size.toNat) % 2 ^ 64 := UInt64.toNat_sub ..
  have hsize := size.toNat_lt
  change (size - 2 * 8).toNat < c.size.toNat
  omega

theorem Chunk.takes_of_le (hlow : 16 ≤ size.toNat) (h : size ≤ c.size) : c.Takes size := by
  have hle : size.toNat ≤ c.size.toNat := h
  exact takes_of_lt hlow (by omega)

/-- The words of a chunk of the page, and of what `try_fit_data` makes of it, can
be accessed. -/
structure Heap.Placed (s : Heap) (p : UInt64) (c : Chunk) : Prop where
  page : p ∈ s.pages
  bound : p.toNat + 4096 ≤ 2 ^ 64
  le : p.toNat + 8 ≤ c.address.toNat
  lt : c.address.toNat + 16 + c.size.toNat ≤ p.toNat + 4096

theorem Heap.Placed.toNat_next (h : s.Placed p c) :
    (c.address + 8).toNat = c.address.toNat + 8 := by
  have hbound := h.bound
  have hlt := h.lt
  exact toNat_add_of_le (by simp only [UInt64.reduceToNat]; omega)

theorem Heap.Placed.accessible (h : s.Placed p c) :
    s.Accessible c.address ∧ s.Accessible (c.address + 8) := by
  have hle := h.le
  have hlt := h.lt
  refine ⟨accessible_of_page h.page (by omega) (by omega), accessible_of_page h.page ?_ ?_⟩
  · rw [h.toNat_next]
    omega
  · rw [h.toNat_next]
    omega

theorem Heap.Placed.ne_zero (h : s.Placed p c) : c.address ≠ 0 := by
  intro hzero
  have hle := h.le
  rw [hzero] at hle
  exact absurd hle (by simp)

/-- Where the free chunk and its link are put, which is in the chunk that is taken. -/
theorem Heap.Placed.toNat_free (h : s.Placed p c) (htakes : c.Takes size) :
    (c.address + (size - 2 * 8)).toNat = c.address.toNat + (size.toNat - 16) ∧
      (c.address + (size - 2 * 8) + 8).toNat = c.address.toNat + (size.toNat - 16) + 8 := by
  have hle := h.le
  have hlt := h.lt
  have hbound := h.bound
  obtain ⟨hlow, hhigh, hsub⟩ := htakes.bounds (by omega)
  have hfree : (c.address + (size - 2 * 8)).toNat = c.address.toNat + (size.toNat - 16) := by
    rw [toNat_add_of_le (by omega), hsub]
  refine ⟨hfree, ?_⟩
  rw [toNat_add_of_le (by simp only [UInt64.reduceToNat]; omega), hfree]
  rfl

theorem run_tryFitBody_next (h : s.Placed p c) (hsize : s.word c.address = c.size)
    (hnot : ¬ c.Takes size) :
    (tryFitBody env size (a, c.address)).run s =
      .ok (.inl (c.address + 8, s.word (c.address + 8))) s := by
  have htest : ¬ s.word c.address > size - 2 * 8 := by rwa [hsize]
  rw [tryFitBody, if_pos h.ne_zero, run_bind_of_ok (run_load h.accessible.1), if_neg htest,
    run_bind_of_ok (run_load h.accessible.2)]
  rfl

theorem run_tryFitBody_takes (h : s.Placed p c) (hpred : s.Accessible a)
    (hsize : s.word c.address = c.size) (htakes : c.Takes size) :
    (tryFitBody env size (a, c.address)).run s = .ok (.inr env.header) (s.carve a c.address size) := by
  have htest : s.word c.address > size - 2 * 8 := by rwa [hsize]
  have hle := h.le
  have hlt := h.lt
  have hbound := h.bound
  obtain ⟨hlow, hhigh, -⟩ := htakes.bounds (by omega)
  obtain ⟨hfree, hnext⟩ := h.toNat_free htakes
  have hnewFree : s.Accessible (c.address + (size - 2 * 8)) :=
    Heap.accessible_of_page h.page (by omega) (by omega)
  have hnewNext : s.Accessible (c.address + (size - 2 * 8) + 8) :=
    Heap.accessible_of_page h.page (by omega) (by omega)
  rw [tryFitBody, if_pos h.ne_zero, run_bind_of_ok (run_load h.accessible.1), if_pos htest,
    run_bind_of_ok (run_load h.accessible.1), run_bind_of_ok (run_store hnewFree),
    run_bind_of_ok (run_load (h.accessible.2.write ..)),
    run_bind_of_ok (run_store (hnewNext.write ..)),
    run_bind_of_ok (run_store ((h.accessible.1.write ..).write ..)),
    run_bind_of_ok (run_store (((h.accessible.2.write ..).write ..).write ..)),
    run_bind_of_ok (run_store ((((hpred.write ..).write ..).write ..).write ..))]
  rfl

theorem run_tryFit_skip (hplaced : ∀ c ∈ before, s.Placed p c)
    (hthreaded : s.Threaded a (before ++ cs)) (hnot : ∀ c ∈ before, ¬ c.Takes size) :
    (whileLoop .running (tryFitBody env size) (before.length + fuel) (a, s.word a)).run s =
      (whileLoop .running (tryFitBody env size) fuel (link a before, s.word (link a before))).run
        s := by
  induction before generalizing a with
  | nil => rw [List.length_nil, Nat.zero_add, link_nil]
  | cons c before ih =>
      obtain ⟨haddress, hsize, hrest⟩ := hthreaded
      have hbody : (tryFitBody env size (a, c.address)).run s =
          .ok (.inl (c.address + 8, s.word (c.address + 8))) s :=
        run_tryFitBody_next (hplaced c List.mem_cons_self) hsize (hnot c List.mem_cons_self)
      rw [List.length_cons, Nat.succ_add, haddress, whileLoop, run_bind_of_ok hbody, link_cons]
      exact ih (fun d hd ↦ hplaced d (List.mem_cons_of_mem _ hd)) hrest
        fun d hd ↦ hnot d (List.mem_cons_of_mem _ hd)

theorem run_tryFitData_of_not_takes (hplaced : ∀ c ∈ cs, s.Placed p c)
    (hpage : s.Accessible p) (hthreaded : s.Threaded p cs) (hnot : ∀ c ∈ cs, ¬ c.Takes size)
    (hfuel : cs.length < fuel) : (tryFitData env size p fuel).run s = .ok 0 s := by
  obtain ⟨k, rfl⟩ : ∃ k, fuel = cs.length + (k + 1) := ⟨fuel - cs.length - 1, by omega⟩
  have hthreaded' : s.Threaded p (cs ++ []) := by rwa [List.append_nil]
  have hend : s.word (link p cs) = 0 := hthreaded'.of_append
  have hbody : (tryFitBody env size (link p cs, 0)).run s = .ok (.inr 0) s := rfl
  rw [tryFitData, run_bind_of_ok (run_load hpage), run_tryFit_skip hplaced hthreaded' hnot, hend,
    whileLoop, run_bind_of_ok hbody]
  rfl

theorem run_tryFitData_takes (hplaced : ∀ d ∈ before ++ c :: after, s.Placed p d)
    (hpage : s.Accessible p) (hpred : s.Accessible (link p before))
    (hthreaded : s.Threaded p (before ++ c :: after)) (hnot : ∀ d ∈ before, ¬ d.Takes size)
    (htakes : c.Takes size) (hfuel : (before ++ c :: after).length < fuel) :
    (tryFitData env size p fuel).run s =
      .ok env.header (s.carve (link p before) c.address size) := by
  rw [List.length_append, List.length_cons] at hfuel
  obtain ⟨k, rfl⟩ : ∃ k, fuel = before.length + (k + 1) := ⟨fuel - before.length - 1, by omega⟩
  obtain ⟨haddress, hsize, -⟩ := hthreaded.of_append
  have hbody : (tryFitBody env size (link p before, c.address)).run s =
      .ok (.inr env.header) (s.carve (link p before) c.address size) :=
    run_tryFitBody_takes (hplaced c (by simp)) hpred hsize htakes
  rw [tryFitData, run_bind_of_ok (run_load hpage),
    run_tryFit_skip (fun d hd ↦ hplaced d (List.mem_append_left _ hd)) hthreaded hnot, haddress,
    whileLoop, run_bind_of_ok hbody]
  rfl

end Search

/-! ## The page after a split -/

section Carve

variable {s : Heap} {p b pred size : UInt64} {cs front rest : List Chunk} {c d : Chunk}

theorem Heap.word_carve_of_apart (h : s.Placed p c) (htakes : c.Takes size)
    (hc : Apart c.extent (b.toNat, 8)) (hpred : Apart (pred.toNat, 8) (b.toNat, 8)) :
    (s.carve pred c.address size).word b = s.word b := by
  have hle := h.le
  have hlt := h.lt
  have hbound := h.bound
  obtain ⟨hlow, hhigh, -⟩ := htakes.bounds (by omega)
  obtain ⟨hfree, hnext⟩ := h.toNat_free htakes
  simp only [Apart, Chunk.extent] at hc
  rw [carve, word_write_of_apart _ hpred,
    word_write_of_apart _ (by simp only [Apart, h.toNat_next]; omega),
    word_write_of_apart _ (by simp only [Apart]; omega),
    word_write_of_apart _ (by simp only [Apart, hnext]; omega),
    word_write_of_apart _ (by simp only [Apart, hfree]; omega)]

theorem Heap.word_carve_header (h : s.Placed p c) (hpred : Apart (pred.toNat, 8) c.extent) :
    (s.carve pred c.address size).word c.address = size := by
  simp only [Apart, Chunk.extent] at hpred
  rw [carve, word_write_of_apart _ (by simp only [Apart]; omega),
    word_write_of_apart _ (by simp only [Apart, h.toNat_next]; omega), word_write_self]

theorem Heap.word_carve_link : (s.carve pred b size).word pred = b + (size - 2 * 8) :=
  word_write_self ..

theorem link_append (front rest : List Chunk) : link b (front ++ rest) = link (link b front) rest :=
  List.foldl_append ..

theorem link_cases (front : List Chunk) :
    link b front = b ∨ ∃ d ∈ front, link b front = d.address + 8 := by
  induction front generalizing b with
  | nil => exact .inl rfl
  | cons c front ih =>
      rcases ih (b := c.address + 8) with heq | ⟨d, hd, heq⟩
      · exact .inr ⟨c, List.mem_cons_self, heq⟩
      · exact .inr ⟨d, List.mem_cons_of_mem _ hd, heq⟩

theorem exists_link_eq (front : List Chunk) :
    ∃ e ∈ d :: rest, link b (front ++ d :: rest) = e.address + 8 := by
  rw [link_append, link_cons]
  rcases link_cases (b := d.address + 8) rest with heq | ⟨e, he, heq⟩
  · exact ⟨d, List.mem_cons_self, heq⟩
  · exact ⟨e, List.mem_cons_of_mem _ he, heq⟩

theorem Heap.FreeList.placed (h : s.FreeList p cs) (hp : p ∈ s.pages)
    (hbound : p.toNat + 4096 ≤ 2 ^ 64) (hc : c ∈ cs) : s.Placed p c :=
  ⟨hp, hbound, (h.inside c hc).1, (h.inside c hc).2⟩

/-- A link lies in none of the chunks that come after it. -/
theorem Heap.FreeList.apart_link (h : s.FreeList p (front ++ rest)) (hp : p ∈ s.pages)
    (hbound : p.toNat + 4096 ≤ 2 ^ 64) (hd : d ∈ rest) :
    Apart ((link p front).toNat, 8) d.extent := by
  have hinside := h.inside d (List.mem_append_right _ hd)
  rcases link_cases (b := p) front with heq | ⟨e, he, heq⟩
  · rw [heq]
    exact .inl hinside.1
  · have hplaced := h.placed hp hbound (List.mem_append_left _ he)
    have hapart := (List.pairwise_append.mp h.apart).2.2 e he d hd
    rw [heq]
    simp only [Apart, Chunk.extent, hplaced.toNat_next] at hapart ⊢
    omega

theorem Heap.FreeList.accessible_link (h : s.FreeList p (front ++ rest)) (hp : p ∈ s.pages)
    (hbound : p.toNat + 4096 ≤ 2 ^ 64) : s.Accessible (link p front) := by
  rcases link_cases (b := p) front with heq | ⟨e, he, heq⟩
  · rw [heq]
    exact accessible_of_page hp le_rfl (by omega)
  · rw [heq]
    exact (h.placed hp hbound (List.mem_append_left _ he)).accessible.2

end Carve

/-! ## Splitting -/

theorem exists_first {P : Chunk → Prop} {cs : List Chunk} (h : ∃ c ∈ cs, P c) :
    ∃ before c after, cs = before ++ c :: after ∧ (∀ d ∈ before, ¬ P d) ∧ P c := by
  classical
  obtain ⟨c, hc, hP⟩ := h
  obtain ⟨d, hd⟩ : ∃ d, cs.find? (fun c ↦ decide (P c)) = some d :=
    Option.isSome_iff_exists.mp (List.find?_isSome.mpr ⟨c, hc, decide_eq_true hP⟩)
  obtain ⟨hPd, before, after, rfl, hbefore⟩ := List.find?_eq_some_iff_append.mp hd
  exact ⟨before, d, after, rfl, fun e he ↦ by simpa using hbefore e he, of_decide_eq_true hPd⟩

section Splitting

variable {fits : UInt64 → UInt64 → Prop} {env : Surroundings} {s : Heap} {p size : UInt64}
  {cs before after : List Chunk} {c d : Chunk} {fuel : ℕ}

/-- What is left of the free chunk begins in the new chunk. -/
theorem not_carved_self (hlist : s.FreeList p (before ++ c :: after)) (hp : p ∈ s.pages)
    (hbound : p.toNat + 4096 ≤ 2 ^ 64) (htakes : c.Takes size) :
    ¬ Carved s (s.carve (link p before) c.address size) p size before after c := by
  rintro ⟨-, ds, hafter, -, -, hapart⟩
  have hc : c ∈ before ++ c :: after := by simp
  have hplaced := hlist.placed hp hbound hc
  have hle := hplaced.le
  have hlt := hplaced.lt
  obtain ⟨hlow, hhigh, -⟩ := htakes.bounds (by omega)
  obtain ⟨hfree, -⟩ := hplaced.toNat_free htakes
  have hne : c.address + (size - 2 * 8) ≠ 0 := by
    intro hzero
    rw [hzero] at hfree
    simp only [UInt64.toNat_zero] at hfree
    omega
  have hsame (front : List Chunk) (d : Chunk) (rest : List Chunk) (heq : before = front ++ d :: rest) :
      (s.carve (link p before) c.address size).word (link p front) = s.word (link p front) := by
    subst heq
    have hlist' : s.FreeList p (front ++ (d :: rest ++ c :: after)) := by
      rwa [List.append_assoc] at hlist
    have hchunk := hlist'.apart_link hp hbound (d := c) (by simp)
    obtain ⟨e, he, hlink⟩ : ∃ e ∈ d :: rest, link p (front ++ d :: rest) = e.address + 8 :=
      exists_link_eq front
    have hinside := hlist'.apart_link hp hbound (List.mem_append_left _ he)
    have hnext := (hlist'.placed hp hbound (List.mem_append_right _
      (List.mem_append_left _ he))).toNat_next
    refine Heap.word_carve_of_apart hplaced htakes hchunk.symm ?_
    rw [hlink]
    simp only [Apart, Chunk.extent, hnext] at hinside ⊢
    omega
  obtain ⟨e, he, haddress⟩ := hlist.threaded.exists_mem hafter.threaded hsame Heap.word_carve_link
    hne fun d hd ↦ hlist.ne_zero (List.mem_append_left _ hd)
  have hoverlap := hapart e he
  simp only [Apart, Chunk.extent, haddress, hfree] at hoverlap
  omega

theorem Heap.Threaded.word_eq {a : UInt64} (h : s.Threaded a cs) (hc : c ∈ cs) :
    s.word c.address = c.size := by
  induction cs generalizing a with
  | nil => cases hc
  | cons d cs ih =>
      rcases List.mem_cons.mp hc with rfl | hc
      · exact h.2.1
      · exact ih h.2.2 hc

/-- The size in the header of a later chunk is not that of the new one, which is in
the header of the chunk that has been split. -/
theorem not_carved_later {x : List Chunk} (hlist : s.FreeList p (before ++ c :: (x ++ d :: after)))
    (hp : p ∈ s.pages) (hbound : p.toNat + 4096 ≤ 2 ^ 64) (htakes : c.Takes size)
    (hne : d.size ≠ c.size) :
    ¬ Carved s (s.carve (link p before) c.address size) p size (before ++ c :: x) after d := by
  rintro ⟨hheader, ds, hafter, -, hkept, -⟩
  have hplaced := hlist.placed hp hbound (c := c) (by simp)
  have hd : d ∈ c :: (x ++ d :: after) := by simp
  have hold : s.word d.address = d.size := hlist.threaded.word_eq (List.mem_append_right _ hd)
  have hapart : Apart c.extent d.extent :=
    (List.pairwise_cons.mp (List.pairwise_append.mp hlist.apart).2.1).1 d (by simp)
  have hlink := hlist.apart_link hp hbound hd
  have hnew : (s.carve (link p before) c.address size).word d.address = s.word d.address := by
    refine Heap.word_carve_of_apart hplaced htakes ?_ ?_
    · simp only [Apart, Chunk.extent] at hapart ⊢
      omega
    · simp only [Apart, Chunk.extent] at hlink ⊢
      omega
  have hc : (s.carve (link p before) c.address size).word c.address = c.size :=
    hafter.threaded.word_eq (hkept c (by simp))
  have hsize : (s.carve (link p before) c.address size).word c.address = size :=
    Heap.word_carve_header hplaced (hlist.apart_link hp hbound List.mem_cons_self)
  exact hne (hold.symm.trans (hnew.symm.trans (hheader.trans (hsize.symm.trans hc))))

/-- If `try_fit_data` takes a chunk, what comes of it is no partition of the page. -/
theorem not_splits_of_takes (hlist : s.FreeList p cs) (hp : p ∈ s.pages)
    (hbound : p.toNat + 4096 ≤ 2 ^ 64) (hheader : env.header ≠ 0) (hfuel : cs.length < fuel)
    (hfits : ∀ f n, fits f n → n ≤ f) (htakes : ∃ c ∈ cs, c.Takes size) :
    ¬ Splits fits env s p size cs fuel := by
  rintro ⟨a, t, hrun, hnull, hcarved⟩
  obtain ⟨before, c, after, rfl, hbefore, hc⟩ := exists_first htakes
  have hplaced := hlist.placed hp hbound (c := c) (by simp)
  have hpage : s.Accessible p := Heap.accessible_of_page hp le_rfl (by omega)
  rw [run_tryFitData_takes (fun d hd ↦ hlist.placed hp hbound hd) hpage
    (hlist.accessible_link hp hbound) hlist.threaded hbefore hc hfuel] at hrun
  cases hrun
  have hfit : ∃ d ∈ before ++ c :: after, fits d.size size := by
    by_contra! hnone
    exact hheader (hnull.mpr hnone).1
  obtain ⟨before', d, after', heq, hbefore', hd⟩ := exists_first hfit
  have hresult := hcarved before' d after' heq hbefore' hd
  rcases List.append_eq_append_iff.mp heq with ⟨x, rfl, hx⟩ | ⟨x, rfl, hx⟩
  · cases x with
    | nil =>
        obtain ⟨rfl, rfl⟩ := List.cons_eq_cons.mp hx
        rw [List.append_nil] at hresult
        exact not_carved_self hlist hp hbound hc hresult
    | cons c' x =>
        obtain ⟨rfl, rfl⟩ := List.cons_eq_cons.mp hx
        refine not_carved_later hlist hp hbound hc (fun hsize ↦ ?_) hresult
        exact hbefore' c (by simp) (hsize ▸ hd)
  · have hlow := (hc.bounds (by have := hplaced.le; have := hplaced.lt; omega)).1
    have hdc : d ∈ before' ++ x ∨ d = c ∧ x = [] := by
      cases x with
      | nil => exact .inr ⟨(List.cons_eq_cons.mp hx).1, rfl⟩
      | cons d' x => exact .inl (by simp [(List.cons_eq_cons.mp hx).1])
    rcases hdc with hmem | ⟨rfl, rfl⟩
    · exact hbefore d hmem (Chunk.takes_of_le hlow (hfits _ _ hd))
    · obtain ⟨-, rfl⟩ := List.cons_eq_cons.mp hx
      rw [List.append_nil] at hlist hresult
      exact not_carved_self hlist hp hbound hc hresult

/-- `try_fit_data` keeps the partition of a page if it takes no chunk and none holds
the data.  If `size` is less than the header it takes none. -/
theorem splits_iff (hlist : s.FreeList p cs) (hp : p ∈ s.pages)
    (hbound : p.toNat + 4096 ≤ 2 ^ 64) (hheader : env.header ≠ 0) (hfuel : cs.length < fuel)
    (hfits : ∀ f n, fits f n → n ≤ f) :
    Splits fits env s p size cs fuel ↔
      (16 ≤ size.toNat ∧ ∀ c ∈ cs, c.size.toNat + 16 ≤ size.toNat) ∨
        size.toNat < 16 ∧ ∀ c ∈ cs, ¬ fits c.size size := by
  have hsizes (c : Chunk) (hc : c ∈ cs) : c.size.toNat ≤ 4096 := by
    have hinside := hlist.inside c hc
    omega
  by_cases htakes : ∃ c ∈ cs, c.Takes size
  · refine iff_of_false (not_splits_of_takes hlist hp hbound hheader hfuel hfits htakes) ?_
    obtain ⟨c, hc, htakes⟩ := htakes
    obtain ⟨hlow, hhigh, -⟩ := htakes.bounds (hsizes c hc)
    rintro (⟨-, hsmall⟩ | ⟨hlt, -⟩)
    · have hle := hsmall c hc
      omega
    · omega
  · push Not at htakes
    have hpage : s.Accessible p := Heap.accessible_of_page hp le_rfl (by omega)
    have hrun : (tryFitData env size p fuel).run s = .ok 0 s :=
      run_tryFitData_of_not_takes (fun c hc ↦ hlist.placed hp hbound hc) hpage hlist.threaded
        htakes hfuel
    constructor
    · rintro ⟨a, t, hrun', hnull, -⟩
      rw [hrun] at hrun'
      cases hrun'
      have hnone := hnull.mp ⟨rfl, fun _ _ ↦ rfl⟩
      by_cases hlow : 16 ≤ size.toNat
      · refine .inl ⟨hlow, fun c hc ↦ ?_⟩
        by_contra! hlt
        have hsmall := hsizes c hc
        exact htakes c hc (Chunk.takes_of_lt hlow hlt)
      · exact .inr ⟨by omega, hnone⟩
    · intro hcond
      have hnone (c : Chunk) (hc : c ∈ cs) : ¬ fits c.size size := by
        rcases hcond with ⟨hlow, -⟩ | ⟨-, hnone⟩
        · exact fun hfit ↦ htakes c hc (Chunk.takes_of_le hlow (hfits _ _ hfit))
        · exact hnone c hc
      refine ⟨0, s, hrun, iff_of_true ⟨rfl, fun _ _ ↦ rfl⟩ hnone, ?_⟩
      rintro before c after rfl - hfit
      exact absurd hfit (hnone c (by simp))

end Splitting

/-- Room for the data, and for the header of what is left. -/
def FitsHeader (free size : UInt64) : Prop := size.toNat + 16 ≤ free.toNat

theorem exists_block_init : ∃ s, (blockInit firstCall).run (HeapState.init fun _ ↦ 0).heap =
    .ok firstCall.page s ∧ s.pages = [firstCall.page] ∧
      s.FreeList firstCall.page [⟨firstCall.page + 8, 4072⟩] := by
  have htest : returnsWith (blockInit firstCall) (HeapState.init fun _ ↦ 0).heap
      (fun a t ↦ a = firstCall.page ∧ t.pages = [firstCall.page] ∧
        t.word firstCall.page = firstCall.page + 8 ∧ t.word (firstCall.page + 8) = 4072 ∧
          t.word (firstCall.page + 8 + 8) = 0) = true := by
    decide +kernel
  obtain ⟨a, t, hrun, ht⟩ := returnsWith_iff.mp htest
  obtain ⟨rfl, hpages, hfirst, hsize, hnext⟩ := of_decide_eq_true ht
  refine ⟨t, hrun, hpages, ⟨⟨hfirst, hsize, hnext⟩, ?_, List.pairwise_singleton _ _⟩⟩
  rintro c hc
  rw [List.mem_singleton] at hc
  subst hc
  decide

theorem splits_iff_block_init : ∃ s, s.FreeList firstCall.page [⟨firstCall.page + 8, 4072⟩] ∧
    ∀ size, Splits FitsHeader firstCall s firstCall.page size [⟨firstCall.page + 8, 4072⟩] 2 ↔
      (16 ≤ size.toNat ∧
        ∀ c ∈ [(⟨firstCall.page + 8, 4072⟩ : Chunk)], c.size.toNat + 16 ≤ size.toNat) ∨
        size.toNat < 16 ∧
          ∀ c ∈ [(⟨firstCall.page + 8, 4072⟩ : Chunk)], ¬ FitsHeader c.size size := by
  obtain ⟨s, -, hpages, hlist⟩ := exists_block_init
  refine ⟨s, hlist, fun size ↦ ?_⟩
  refine splits_iff hlist (by simp [hpages]) (by decide) (by decide) (by decide) fun f n hfit ↦ ?_
  exact UInt64.le_iff_toNat_le.mpr (le_trans (Nat.le_add_right _ _) hfit)

/-- The rest of a new page begins in its first chunk, of 100 bytes, and 8 bytes are
not found in it. -/
theorem first_chunk_overlaps : ∃ s, (blockInit firstCall).run (HeapState.init fun _ ↦ 0).heap =
    .ok firstCall.page s ∧ s.FreeList firstCall.page [⟨firstCall.page + 8, 4072⟩] ∧
      ¬ Splits FitsHeader firstCall s firstCall.page 100 [⟨firstCall.page + 8, 4072⟩] 2 ∧
        ¬ Splits FitsHeader firstCall s firstCall.page 8 [⟨firstCall.page + 8, 4072⟩] 2 := by
  have htest : returnsWith (blockInit firstCall) (HeapState.init fun _ ↦ 0).heap (fun _ s ↦
      returnsWith (tryFitData firstCall 100 firstCall.page 2) s (fun _ t ↦
        t.word firstCall.page = firstCall.page + 92) = true ∧
      returnsWith (tryFitData firstCall 8 firstCall.page 2) s (fun a t ↦
        a = 0 ∧ t.word (firstCall.page + 8) = 4072) = true) = true := by
    decide +kernel
  obtain ⟨s, hrun, -, hlist⟩ := exists_block_init
  obtain ⟨a, s', hrun', htests⟩ := returnsWith_iff.mp htest
  rw [hrun] at hrun'
  cases hrun'
  obtain ⟨hlarge, hsmall⟩ := of_decide_eq_true htests
  obtain ⟨a, t, hcall, hword⟩ := returnsWith_iff.mp hlarge
  obtain ⟨b, u, hcall', hkept⟩ := returnsWith_iff.mp hsmall
  have hfit : FitsHeader 4072 100 ∧ FitsHeader 4072 8 := by
    constructor <;> simp [FitsHeader]
  refine ⟨s, hrun, hlist, ?_, ?_⟩
  · rintro ⟨a', t', hrun', -, hcarved⟩
    rw [hcall] at hrun'
    cases hrun'
    obtain ⟨-, cs, hafter, -, -, hapart⟩ := hcarved [] _ [] rfl (by simp) hfit.1
    cases cs with
    | nil =>
        have hfirst : t.word firstCall.page = 0 := hafter.threaded
        rw [of_decide_eq_true hword] at hfirst
        exact absurd hfirst (by decide)
    | cons c cs =>
        have haddress : c.address = firstCall.page + 92 :=
          hafter.threaded.1.symm.trans (of_decide_eq_true hword)
        have hoverlap := hapart c List.mem_cons_self
        rw [Chunk.extent, haddress] at hoverlap
        simp [Apart, firstCall] at hoverlap
        omega
  · rintro ⟨b', u', hrun', -, hcarved⟩
    rw [hcall'] at hrun'
    cases hrun'
    obtain ⟨hheader, -⟩ := hcarved [] _ [] rfl (by simp) hfit.2
    have hsame := of_decide_eq_true hkept
    rw [hsame.2] at hheader
    exact absurd hheader (by decide)

end OsProjects.Memory
