import OsProjects.Memory.Kmalloc

/-!
# The addresses of chunks

`try_fit_data` returns `NULL` or the address of its variable, and never `NULL`
for a new page: the size in the only free chunk of a page is its pointer, and
its pointer is the size.
-/

namespace OsProjects.Memory

open Library.Program Library.Bytes Library.Runs

/-! ## Loads and stores -/

/-- If `x` returns, then with a result and a heap that satisfy `Q`. -/
abbrev Yields {α : Type} (x : HM α) (s : Heap) (Q : α → Heap → Prop) : Prop :=
  Ends x s Q fun _ _ ↦ True

section Accesses

variable {α β : Type} {s : Heap} {a v : UInt64} {f : UInt64 → HM β} {R : β → Heap → Prop}

theorem Yields.bind {x : HM α} {f : α → HM β} {Q : α → Heap → Prop} (h : Yields x s Q)
    (hf : ∀ a t, Q a t → Yields (f a) t R) : Yields (x >>= f) s R :=
  Ends.bind h hf fun _ _ _ ↦ trivial

theorem yields_load : Yields (load a) s fun v t ↦ v = s.word a ∧ t = s ∧ s.Accessible a := by
  refine ends_get_bind.mpr ?_
  by_cases ha : s.Accessible a
  · rw [if_pos ha]
    exact ⟨rfl, rfl, ha⟩
  · rw [if_neg ha]
    trivial

theorem yields_store : Yields (store a v) s fun _ t ↦ t = s.write a v := by
  refine ends_get_bind.mpr ?_
  by_cases ha : s.Accessible a
  · rw [if_pos ha]
    exact rfl
  · rw [if_neg ha]
    trivial

theorem yields_load_bind (h : s.Accessible a → Yields (f (s.word a)) s R) :
    Yields (load a >>= f) s R := by
  refine yields_load.bind fun _ _ hload ↦ ?_
  obtain ⟨rfl, rfl, ha⟩ := hload
  exact h ha

theorem yields_store_bind {f : Unit → HM β} (h : Yields (f ()) (s.write a v) R) :
    Yields (store a v >>= f) s R := by
  refine yields_store.bind fun _ _ hstore ↦ ?_
  obtain rfl := hstore
  exact h

end Accesses

/-- The same objects, and the same end of the list. -/
structure Heap.Keeps (s t : Heap) : Prop where
  pages : t.pages = s.pages
  nodes : t.nodes = s.nodes
  tail : t.tail = s.tail

section Keeps

variable {env : Surroundings} {s t u : Heap} {size : UInt64} {fuel : ℕ}

theorem Heap.Keeps.refl : s.Keeps s := ⟨rfl, rfl, rfl⟩

theorem Heap.Keeps.trans (h : s.Keeps t) (h' : t.Keeps u) : s.Keeps u :=
  ⟨h'.pages.trans h.pages, h'.nodes.trans h.nodes, h'.tail.trans h.tail⟩

theorem Heap.Keeps.write (h : s.Keeps t) (a v : UInt64) : s.Keeps (t.write a v) :=
  ⟨h.pages, h.nodes, h.tail⟩

/-- `try_fit_data` returns `NULL` or the address of its variable. -/
def Surroundings.Answers (env : Surroundings) (a : UInt64) : Prop := a = 0 ∨ a = env.header

theorem tryFitBody_yields (acc : UInt64 × UInt64) (h : s.Keeps t) :
    Yields (tryFitBody env size acc) t fun next u ↦
      s.Keeps u ∧ Sum.elim (fun _ ↦ True) env.Answers next := by
  obtain ⟨pred, freeList⟩ := acc
  rw [tryFitBody]
  by_cases hnull : freeList ≠ 0
  · rw [if_pos hnull]
    refine yields_load_bind fun _ ↦ ?_
    split
    · refine yields_load_bind fun _ ↦ yields_store_bind <| yields_load_bind fun _ ↦
        yields_store_bind <| yields_store_bind <| yields_store_bind <| yields_store_bind ?_
      exact ⟨((((h.write ..).write ..).write ..).write ..).write .., .inr rfl⟩
    · exact yields_load_bind fun _ ↦ ⟨h, trivial⟩
  · rw [if_neg hnull]
    exact ⟨h, .inl rfl⟩

theorem tryFitData_yields (page : UInt64) (h : s.Keeps t) :
    Yields (tryFitData env size page fuel) t fun a u ↦ s.Keeps u ∧ env.Answers a := by
  refine yields_load_bind fun _ ↦ ?_
  refine Ends.whileLoop (I := fun _ u ↦ s.Keeps u) (fun acc u hu ↦ ?_) (fun _ _ _ ↦ trivial) h
  refine (tryFitBody_yields acc hu).mono (fun next v hv ↦ ?_) fun _ _ hE ↦ hE
  cases next with
  | inl acc' => exact hv.1
  | inr a => exact hv

theorem kmallocBody_yields (current : UInt64) (h : s.Keeps t) :
    Yields (kmallocBody env size fuel current) t fun next u ↦
      s.Keeps u ∧ Sum.elim (fun _ ↦ True) (fun p ↦ ∀ a ∈ p, a = env.header) next := by
  rw [kmallocBody]
  by_cases hnull : current ≠ 0
  · rw [if_pos hnull]
    refine (tryFitData_yields current h).bind fun a u hu ↦ ?_
    obtain ⟨hkeeps, hanswer⟩ := hu
    by_cases ha : a ≠ 0
    · rw [if_pos ha]
      refine ⟨hkeeps, ?_⟩
      rintro b ⟨⟩
      exact hanswer.resolve_left ha
    · rw [if_neg ha]
      exact yields_load_bind fun _ ↦ ⟨hkeeps, trivial⟩
  · rw [if_neg hnull]
    exact ⟨h, by simp⟩

theorem kfreeBody_yields (block beg : UInt64) (h : s.Keeps t) :
    Yields (kfreeBody block beg) t fun _ u ↦ s.Keeps u := by
  rw [kfreeBody]
  refine yields_load_bind fun _ ↦ ?_
  split
  · refine yields_load_bind fun _ ↦ yields_load_bind fun _ ↦ ?_
    split
    · exact yields_load_bind fun _ ↦ yields_load_bind fun _ ↦ yields_store_bind <| h.write ..
    · exact yields_load_bind fun _ ↦ yields_store_bind <| yields_store_bind <|
        (h.write ..).write ..
  · exact h

theorem kfree_yields (base slot address : UInt64) :
    Yields (kfree base slot address fuel) s fun _ t ↦ s.Keeps t := by
  refine Ends.whileLoop (I := fun _ t ↦ s.Keeps t) (fun beg t ht ↦ ?_) (fun _ _ _ ↦ trivial) .refl
  refine (kfreeBody_yields _ beg ht).mono (fun next u hu ↦ ?_) fun _ _ hE ↦ hE
  cases next with
  | inl beg' => exact hu
  | inr _ => exact hu

end Keeps

/-! ## A new page -/

namespace Heap

variable {s t : Heap} {a b : UInt64}

theorem word_write_self (s : Heap) (a v : UInt64) : (s.write a v).word a = v := by
  have hvalue : leValue (fun i ↦ copyOver s.bytes a.toNat 8 (leByte v.toNat) (a.toNat + i)) 8 =
      v.toNat := by
    refine leValue_eq v.toNat_lt fun i hi ↦ ?_
    simp only [copyOver]
    rw [if_pos (by omega), Nat.add_sub_cancel_left]
  rw [word, write, hvalue, UInt64.ofNat_toNat]

theorem word_write_of_apart (v : UInt64) (h : Apart (a.toNat, 8) (b.toNat, 8)) :
    (s.write a v).word b = s.word b := by
  simp only [Apart] at h
  rw [word, word, leValue_congr fun i hi ↦ ?_]
  simp only [write, copyOver]
  rw [if_neg (by omega)]

/-- Nothing is at the first addresses, and the list ends with one of its nodes. -/
structure Sound (s : Heap) : Prop where
  bounds : ∀ o ∈ s.objects, 4096 ≤ o.1 ∧ o.1 + o.2 ≤ 2 ^ 64
  tail : s.tail = 0 ∨ s.tail ∈ s.nodes

theorem Keeps.objects (h : s.Keeps t) : t.objects = s.objects := by
  rw [Heap.objects, h.pages, h.nodes, Heap.objects]

theorem Sound.keeps (hs : s.Sound) (h : s.Keeps t) : t.Sound :=
  ⟨h.objects.symm ▸ hs.bounds, by rw [h.tail, h.nodes]; exact hs.tail⟩

theorem Sound.not_accessible (hs : s.Sound) (ha : a.toNat + 8 ≤ 4096) : ¬ s.Accessible a := by
  rintro ⟨o, ho, hle, -⟩
  have hbound := (hs.bounds o ho).1
  omega

end Heap

theorem Surroundings.Fresh.keeps {env : Surroundings} {s t : Heap} (hfresh : env.Fresh s)
    (h : s.Keeps t) : env.Fresh t :=
  ⟨hfresh.apart, h.objects.symm ▸ hfresh.new, hfresh.bounds⟩

theorem toNat_add_of_le {a k : UInt64} (h : a.toNat + k.toNat < 2 ^ 64) :
    (a + k).toNat = a.toNat + k.toNat := by
  rw [UInt64.toNat_add, Nat.mod_eq_of_lt h]

/-- From `s` to `u` a page has been obtained and put at the end of the list, if
there was room for its node. -/
structure Prepared (env : Surroundings) (s u : Heap) : Prop where
  pages : u.pages = env.page :: s.pages
  nodes : u.nodes = if env.node = 0 then s.nodes else env.node :: s.nodes
  tail : u.tail = if env.node = 0 then s.tail else env.node
  list : env.node ≠ 0 → u.word env.node = env.page
  first : u.word env.page = env.page + 8
  next : u.word (env.page + 8) = 4072

section NewPage

variable {env : Surroundings} {s t u : Heap} {size : UInt64} {fuel : ℕ}

theorem blockInit_yields (hpage : env.page.toNat + 4096 ≤ 2 ^ 64) :
    Yields (blockInit env) s fun b t ↦ b = env.page ∧ t.pages = env.page :: s.pages ∧
      t.nodes = s.nodes ∧ t.tail = s.tail ∧ t.word env.page = env.page + 8 ∧
      t.word (env.page + 8) = 4072 := by
  have h8 : (env.page + 8).toNat = env.page.toNat + 8 := toNat_add_of_le (by simp; omega)
  have h16 : (env.page + 16).toNat = env.page.toNat + 16 := toNat_add_of_le (by simp; omega)
  have hpalloc : (pallocPage env).run s = .ok env.page { s with pages := env.page :: s.pages } := rfl
  rw [blockInit]
  refine (ends_bind_of_ok hpalloc).mpr ?_
  refine yields_store_bind <| yields_store_bind <| yields_store_bind ?_
  refine ⟨rfl, rfl, rfl, rfl, ?_, ?_⟩
  · rw [Heap.word_write_of_apart _ (.inr (by simp only [h16]; omega)),
      Heap.word_write_of_apart _ (.inr (by simp only [h8]; omega)), Heap.word_write_self]
  · rw [Heap.word_write_of_apart _ (.inr (by simp only [h8, h16]; omega)), Heap.word_write_self]
    rfl

theorem linkTail_yields (newNode : UInt64) : Yields (linkTail newNode) s fun _ t ↦ s.Keeps t ∧
    ∀ b : UInt64, (s.tail ≠ 0 → Apart ((s.tail + 16).toNat, 8) (b.toNat, 8)) →
      t.word b = s.word b := by
  refine ends_get_bind.mpr ?_
  by_cases htail : s.tail ≠ 0
  · rw [if_pos htail]
    refine yields_store.mono (fun _ t ht ↦ ?_) fun _ _ _ ↦ trivial
    obtain rfl := ht
    exact ⟨Heap.Keeps.refl.write .., fun b hb ↦ Heap.word_write_of_apart _ (hb htail)⟩
  · rw [if_neg htail]
    exact ⟨.refl, fun _ _ ↦ rfl⟩

/-- The place of the node that `ll_insert_tail` writes to, and of the node
before it. -/
structure Linkable (env : Surroundings) (s : Heap) : Prop where
  node : env.node ≠ 0 → env.node.toNat + 24 ≤ 2 ^ 64 ∧
    Apart (env.node.toNat, 24) (env.page.toNat, 4096)
  tail : s.tail ≠ 0 → s.tail.toNat + 24 ≤ 2 ^ 64 ∧
    Apart (s.tail.toNat, 24) (env.page.toNat, 4096) ∧
    (env.node ≠ 0 → Apart (s.tail.toNat, 24) (env.node.toNat, 24))

/-- The heap after the assignments of `ll_insert_tail` to its new node. -/
def Heap.putNode (s : Heap) (n data : UInt64) : Heap :=
  (({ s with nodes := n :: s.nodes }.write n data).write (n + 8) s.tail).write (n + 16) 0

theorem Heap.word_putNode_of_apart (s : Heap) {n b : UInt64} (data : UInt64)
    (hn : n.toNat + 24 ≤ 2 ^ 64) (h : Apart (n.toNat, 24) (b.toNat, 8)) :
    (s.putNode n data).word b = s.word b := by
  have h8 : (n + 8).toNat = n.toNat + 8 := toNat_add_of_le (by simp; omega)
  have h16 : (n + 16).toNat = n.toNat + 16 := toNat_add_of_le (by simp; omega)
  simp only [Apart] at h
  rw [putNode, word_write_of_apart _ (by simp only [Apart, h16]; omega),
    word_write_of_apart _ (by simp only [Apart, h8]; omega),
    word_write_of_apart _ (by simp only [Apart]; omega)]
  rfl

theorem Heap.word_putNode_self (s : Heap) {n : UInt64} (data : UInt64)
    (hn : n.toNat + 24 ≤ 2 ^ 64) : (s.putNode n data).word n = data := by
  have h8 : (n + 8).toNat = n.toNat + 8 := toNat_add_of_le (by simp; omega)
  have h16 : (n + 16).toNat = n.toNat + 16 := toNat_add_of_le (by simp; omega)
  rw [putNode, word_write_of_apart _ (by simp only [Apart, h16]; omega),
    word_write_of_apart _ (by simp only [Apart, h8]; omega), word_write_self]

theorem llInsertTail_yields (data : UInt64) (hlink : Linkable env s) :
    Yields (llInsertTail env data) s fun a u ↦ a = env.node ∧ u.pages = s.pages ∧
      (u.nodes = if env.node = 0 then s.nodes else env.node :: s.nodes) ∧
      (u.tail = if env.node = 0 then s.tail else env.node) ∧
      (env.node ≠ 0 → u.word env.node = data) ∧
      ∀ b : UInt64, env.page.toNat ≤ b.toNat → b.toNat + 8 ≤ env.page.toNat + 4096 →
        u.word b = s.word b := by
  have hmalloc : (mallocNode env).run s = .ok env.node { s with
      nodes := if env.node = 0 then s.nodes else env.node :: s.nodes } := rfl
  rw [llInsertTail]
  refine (ends_bind_of_ok hmalloc).mpr ?_
  by_cases hnode : env.node = 0
  · rw [if_pos hnode]
    exact ⟨rfl, rfl, rfl, (if_pos hnode).symm, fun hne ↦ absurd hnode hne, fun b _ _ ↦ rfl⟩
  · obtain ⟨hbound, hpage⟩ := hlink.node hnode
    simp only [if_neg hnode]
    refine yields_store_bind (ends_get_bind.mpr ?_)
    refine yields_store_bind <| yields_store_bind ?_
    change Yields _ (s.putNode env.node data) _
    refine (linkTail_yields env.node).bind fun _ t ht ↦ ?_
    obtain ⟨hkeeps, hwords⟩ := ht
    have htail : s.tail ≠ 0 → (s.tail + 16).toNat = s.tail.toNat + 16 := fun h ↦
      toNat_add_of_le (by have := (hlink.tail h).1; simp; omega)
    refine ⟨rfl, hkeeps.pages, hkeeps.nodes, rfl, fun _ ↦ ?_, fun b hle hlt ↦ ?_⟩
    · have hself := hwords env.node fun h ↦ by
        have hapart := (hlink.tail h).2.2 hnode
        simp only [Apart] at hapart
        change Apart ((s.tail + 16).toNat, 8) _
        simp only [Apart, htail h]
        omega
      exact hself.trans (s.word_putNode_self data hbound)
    · have hkeep := hwords b fun h ↦ by
        have hapart := (hlink.tail h).2.1
        simp only [Apart] at hapart
        change Apart ((s.tail + 16).toNat, 8) _
        simp only [Apart, htail h]
        omega
      refine hkeep.trans (s.word_putNode_of_apart data hbound ?_)
      simp only [Apart] at hpage ⊢
      omega

theorem Surroundings.Fresh.page (hfresh : env.Fresh s) :
    4096 ≤ env.page.toNat ∧ env.page.toNat + 4096 ≤ 2 ^ 64 :=
  hfresh.bounds (env.page.toNat, 4096) (by simp [objects])

theorem Surroundings.Fresh.header (hfresh : env.Fresh s) :
    4096 ≤ env.header.toNat ∧ env.header.toNat + 8 ≤ 2 ^ 64 :=
  hfresh.bounds (env.header.toNat, 8) (by simp [objects])

theorem Surroundings.mem_objects_node (hnode : env.node ≠ 0) :
    (env.node.toNat, 24) ∈ env.objects := by
  simp [objects, hnode]

theorem Heap.mem_objects_node {n : UInt64} (h : n ∈ s.nodes) : (n.toNat, 24) ∈ s.objects :=
  List.mem_append_right _ (List.mem_map_of_mem h)

theorem Surroundings.Fresh.linkable (hs : s.Sound) (hfresh : env.Fresh s) : Linkable env s := by
  refine ⟨fun hnode ↦ ⟨?_, ?_⟩, fun htail ↦ ?_⟩
  · exact (hfresh.bounds _ (Surroundings.mem_objects_node hnode)).2
  · have hapart := (List.pairwise_cons.mp hfresh.apart).1 (env.node.toNat, 24) (by simp [hnode])
    exact hapart.symm
  · have hmem := Heap.mem_objects_node (hs.tail.resolve_left htail)
    refine ⟨(hs.bounds _ hmem).2, ?_, fun hnode ↦ ?_⟩
    · exact (hfresh.new (env.page.toNat, 4096) (by simp [objects]) _ hmem).symm
    · exact (hfresh.new _ (Surroundings.mem_objects_node hnode) _ hmem).symm

theorem insertBlock_yields (hs : s.Sound) (hfresh : env.Fresh s) :
    Yields (blockInit env >>= llInsertTail env) s fun a u ↦ a = env.node ∧ Prepared env s u := by
  have hpage := hfresh.page.2
  have h8 : (env.page + 8).toNat = env.page.toNat + 8 := toNat_add_of_le (by simp; omega)
  refine (blockInit_yields hpage).bind fun b t ht ↦ ?_
  obtain ⟨rfl, hpages, hnodes, htail, hfirst, hnext⟩ := ht
  have hlink : Linkable env t := by
    have hlink := hfresh.linkable hs
    exact ⟨hlink.node, by rw [htail]; exact hlink.tail⟩
  refine (llInsertTail_yields env.page hlink).mono (fun a u hu ↦ ?_) fun _ _ _ ↦ trivial
  obtain ⟨ha, hpages', hnodes', htail', hlist, hwords⟩ := hu
  refine ⟨ha, hpages'.trans hpages, by rw [hnodes', hnodes], by rw [htail', htail], hlist, ?_, ?_⟩
  · rw [hwords _ le_rfl (by omega), hfirst]
  · rw [hwords _ (by omega) (by omega), hnext]

theorem Prepared.sound (h : Prepared env s u) (hs : s.Sound) (hfresh : env.Fresh s) : u.Sound := by
  refine ⟨fun o ho ↦ ?_, ?_⟩
  · rw [Heap.objects, h.pages, h.nodes] at ho
    have hcases : o ∈ env.objects ∨ o ∈ s.objects := by
      by_cases hnode : env.node = 0
      · simp only [hnode, if_true, List.map_cons, List.cons_append, List.mem_cons] at ho
        exact ho.imp (fun h ↦ by simp [Surroundings.objects, h]) id
      · simp only [hnode, if_false, List.map_cons, List.cons_append, List.mem_cons,
          List.mem_append] at ho
        rcases ho with rfl | ho | rfl | ho
        · exact .inl (by simp [Surroundings.objects])
        · exact .inr (List.mem_append_left _ ho)
        · exact .inl (Surroundings.mem_objects_node hnode)
        · exact .inr (List.mem_append_right _ ho)
    exact hcases.elim (hfresh.bounds o) (hs.bounds o)
  · rw [h.tail, h.nodes]
    split
    · exact hs.tail
    · exact .inr (List.mem_cons_self ..)

/-- In a new page `try_fit_data` fits the data, or follows the size of the free
chunk as a pointer. -/
theorem Prepared.tryFitData_yields (h : Prepared env s u) (hu : u.Sound)
    (hpage : 4096 ≤ env.page.toNat) :
    Yields (tryFitData env size env.node fuel) u fun a _ ↦ a = env.header := by
  refine yields_load_bind fun hnode ↦ ?_
  have hne : env.node ≠ 0 := by
    intro heq
    exact hu.not_accessible (by rw [heq]; decide) hnode
  rw [h.list hne]
  refine Ends.whileLoop (I := fun acc t ↦ t = u ∧
    (acc = (env.node, env.page) ∨ acc = (env.page + 8, 4072))) (fun acc t ht ↦ ?_)
    (fun _ _ _ ↦ trivial) ⟨rfl, .inl rfl⟩
  obtain ⟨rfl, rfl | rfl⟩ := ht
  · have hnonzero : env.page ≠ 0 := by
      intro heq
      rw [heq] at hpage
      exact absurd hpage (by decide)
    rw [tryFitBody, if_pos hnonzero]
    refine yields_load_bind fun _ ↦ ?_
    split
    · exact yields_load_bind fun _ ↦ yields_store_bind <| yields_load_bind fun _ ↦
        yields_store_bind <| yields_store_bind <| yields_store_bind <| yields_store_bind rfl
    · refine yields_load_bind fun _ ↦ ⟨rfl, .inr ?_⟩
      rw [h.next]
  · rw [tryFitBody, if_pos (by decide)]
    exact yields_load_bind fun hfree ↦ absurd hfree (hu.not_accessible (by decide))

/-! ## Runs -/

theorem Yields.and {α : Type} {x : HM α} {P Q : α → Heap → Prop} (h : Yields x s P)
    (h' : Yields x s Q) : Yields x s fun a t ↦ P a t ∧ Q a t := by
  cases hrun : x.run s with
  | ok a t => exact (ends_iff_of_ok hrun).mpr ⟨(ends_iff_of_ok hrun).mp h, (ends_iff_of_ok hrun).mp h'⟩
  | error e t => exact (ends_iff_of_error hrun).mpr trivial

/-- `kmalloc` returns the address of the variable, after it has obtained a page
or without. -/
theorem kmalloc_yields (hs : s.Sound) (hfresh : env.Fresh s) :
    Yields (kmalloc env size fuel) s fun a t ↦ a = env.header ∧ t.Sound ∧
      (t.pages = s.pages ∨ t.pages = env.page :: s.pages) := by
  have hloop : Yields (whileLoop .running (kmallocBody env size fuel) fuel s.head) s fun p t ↦
      s.Keeps t ∧ ∀ a ∈ p, a = env.header := by
    refine Ends.whileLoop (I := fun _ t ↦ s.Keeps t) (fun current t ht ↦ ?_)
      (fun _ _ _ ↦ trivial) .refl
    refine (kmallocBody_yields current ht).mono (fun next u hu ↦ ?_) fun _ _ hE ↦ hE
    cases next with
    | inl current' => exact hu.1
    | inr p => exact hu
  rw [kmalloc]
  refine ends_get_bind.mpr (hloop.bind fun p t ht ↦ ?_)
  obtain ⟨hkeeps, hanswer⟩ := ht
  cases p with
  | some a => exact ⟨hanswer a rfl, hs.keeps hkeeps, .inl hkeeps.pages⟩
  | none =>
      have hsound := hs.keeps hkeeps
      have hfresh' := hfresh.keeps hkeeps
      simp only [← bind_assoc]
      refine (insertBlock_yields hsound hfresh').bind fun current u hu ↦ ?_
      obtain ⟨rfl, hprepared⟩ := hu
      have hsound' := hprepared.sound hsound hfresh'
      have hfit := (hprepared.tryFitData_yields hsound' hfresh.page.1).and
        (@tryFitData_yields env _ _ size fuel env.node .refl)
      refine hfit.mono (fun a v hv ↦ ?_) fun _ _ _ ↦ trivial
      obtain ⟨ha, hkeeps', -⟩ := hv
      refine ⟨ha, hsound'.keeps hkeeps', .inr ?_⟩
      rw [hkeeps'.pages, hprepared.pages, hkeeps.pages]

/-- The variable is in no page. -/
theorem Surroundings.Fresh.not_provides (hfresh : env.Fresh s)
    (hpages : t.pages = s.pages ∨ t.pages = env.page :: s.pages) (live : List (UInt64 × UInt64)) :
    ¬ t.Provides live env.header size := by
  intro h
  obtain ⟨p, hp, hle, hlt⟩ := h.start
  have hcases : p = env.page ∨ p ∈ s.pages := by
    rcases hpages with hpages | hpages <;> rw [hpages] at hp
    · exact .inr hp
    · exact List.mem_cons.mp hp
  have hapart : Apart (p.toNat, 4096) (env.header.toNat, 8) := by
    rcases hcases with rfl | hp
    · exact (List.pairwise_cons.mp hfresh.apart).1 _ (List.mem_cons_self ..)
    · have hmem : (p.toNat, 4096) ∈ s.objects :=
        List.mem_append_left _ (List.mem_map_of_mem hp)
      exact (hfresh.new (env.header.toNat, 8) (by simp [objects]) _ hmem).symm
  simp only [Apart] at hapart
  omega

end NewPage

theorem sound_of_run {base : UInt64} {bytes : ℕ → UInt8} {calls : List HeapCall} {s : HeapState}
    (hrun : Run (HeapStep base) (.init bytes) calls s) : s.heap.Sound := by
  refine hrun.invariant (P := fun s ↦ s.heap.Sound) ⟨by simp [HeapState.init, Heap.objects], .inl rfl⟩
    fun t call u ht hstep ↦ ?_
  cases hstep with
  | kmalloc hfresh hcall => exact ((ends_iff_of_ok hcall).mp (kmalloc_yields ht hfresh)).2.1
  | kfree hlive hcall => exact ht.keeps ((ends_iff_of_ok hcall).mp (kfree_yields _ _ _))

/-- Whatever calls have been made, `kmalloc` does not return, or returns an
address at which no bytes were allocated. -/
theorem kmalloc_never_allocates {base : UInt64} {bytes : ℕ → UInt8} {calls : List HeapCall}
    {s : HeapState} (hrun : Run (HeapStep base) (.init bytes) calls s) {env : Surroundings}
    (hfresh : env.Fresh s.heap) (size : UInt64) (fuel : ℕ) : ¬ Allocates env size fuel s := by
  rintro ⟨a, t, hcall, hright⟩
  obtain ⟨rfl, -, hpages⟩ := (ends_iff_of_ok hcall).mp (kmalloc_yields (sound_of_run hrun) hfresh)
  have hheader := hfresh.header.1
  rcases hright with hnull | hprovides
  · rw [hnull] at hheader
    exact absurd hheader (by decide)
  · exact hfresh.not_provides hpages s.live hprovides

def firstCall : Surroundings := ⟨0x400000, 0x600000, 0x7ffe0000⟩

def secondCall : Surroundings := ⟨0x401000, 0x600018, 0x7ffe0000⟩

theorem fresh_firstCall (bytes : ℕ → UInt8) : firstCall.Fresh (HeapState.init bytes).heap := by
  refine ⟨?_, by simp [HeapState.init, Heap.objects], by decide⟩
  simp [Surroundings.objects, firstCall, Apart]

theorem kmalloc_never_allocates_second : ∃ s,
    Run (HeapStep 0x400000) (.init fun _ ↦ 0) [.kmalloc 100] s ∧ secondCall.Fresh s.heap ∧
      ∀ size fuel, ¬ Allocates secondCall size fuel s := by
  have htest : returnsWith (kmalloc firstCall 100 2) (HeapState.init fun _ ↦ 0).heap
      (fun _ t ↦ t.pages = [0x400000] ∧ t.nodes = [0x600000]) = true := by
    decide +kernel
  obtain ⟨a, t, hcall, ht⟩ := returnsWith_iff.mp htest
  obtain ⟨hpages, hnodes⟩ := of_decide_eq_true ht
  have hrun : Run (HeapStep 0x400000) (.init fun _ ↦ 0) [.kmalloc 100] _ :=
    .snoc .nil (.kmalloc (fresh_firstCall _) hcall)
  have hfresh : secondCall.Fresh t := by
    refine ⟨?_, ?_, by decide⟩
    · simp [Surroundings.objects, secondCall, Apart]
    · rw [Heap.objects, hpages, hnodes]
      simp [Surroundings.objects, secondCall, Apart]
  exact ⟨_, hrun, hfresh, kmalloc_never_allocates hrun hfresh⟩

/-- The first 100 bytes are said to be in a frame that is gone, and eight bytes
are looked for at the address 4072. -/
theorem chunk_outside_pages :
    (∃ t, (kmalloc firstCall 100 2).run (HeapState.init fun _ ↦ 0).heap =
      .ok firstCall.header t ∧ firstCall.header ≠ 0 ∧
        ¬ t.Provides [] firstCall.header 100) ∧
    ∃ t, (kmalloc firstCall 8 2).run (HeapState.init fun _ ↦ 0).heap =
      .error (.outside 4072) t := by
  constructor
  · have htest : returnsWith (kmalloc firstCall 100 2) (HeapState.init fun _ ↦ 0).heap
        (fun a t ↦ a = firstCall.header ∧ t.pages = [firstCall.page]) = true := by
      decide +kernel
    obtain ⟨a, t, hcall, ht⟩ := returnsWith_iff.mp htest
    obtain ⟨rfl, hpages⟩ := of_decide_eq_true ht
    exact ⟨t, hcall, by decide, (fresh_firstCall fun _ ↦ 0).not_provides (.inr hpages) []⟩
  · have htest : stopsWith (kmalloc firstCall 8 2) (HeapState.init fun _ ↦ 0).heap
        (.outside 4072) = true := by
      decide +kernel
    exact stopsWith_iff.mp htest

end OsProjects.Memory
