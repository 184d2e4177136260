import OsProjects.Lists.LinkedList

/-!
# Operations on well-formed lists

What the functions of `ll_double.c` do to the nodes of a well-formed list.
-/

namespace OsProjects.Lists.LinkedList

open Library.Chains

variable {ρ : Type} {list : LinkedList ρ} {as bs : List Addr} {a c : Addr} {data : ρ}

/-! ## Fields -/

section Fields

variable (p : Option Addr)

@[simp] theorem next_setNext : ((list.setNext a p).node c).next =
    if c = a then p else (list.node c).next := by
  by_cases hc : c = a
  · simp [setNext, setNode, hc]
  · simp [setNext, setNode, hc]

@[simp] theorem prev_setNext : ((list.setNext a p).node c).prev = (list.node c).prev := by
  by_cases hc : c = a
  · simp [setNext, setNode, hc]
  · simp [setNext, setNode, hc]

@[simp] theorem data_setNext : ((list.setNext a p).node c).data = (list.node c).data := by
  by_cases hc : c = a
  · simp [setNext, setNode, hc]
  · simp [setNext, setNode, hc]

@[simp] theorem prev_setPrev : ((list.setPrev a p).node c).prev =
    if c = a then p else (list.node c).prev := by
  by_cases hc : c = a
  · simp [setPrev, setNode, hc]
  · simp [setPrev, setNode, hc]

@[simp] theorem next_setPrev : ((list.setPrev a p).node c).next = (list.node c).next := by
  by_cases hc : c = a
  · simp [setPrev, setNode, hc]
  · simp [setPrev, setNode, hc]

@[simp] theorem data_setPrev : ((list.setPrev a p).node c).data = (list.node c).data := by
  by_cases hc : c = a
  · simp [setPrev, setNode, hc]
  · simp [setPrev, setNode, hc]

@[simp] theorem head_setNext : (list.setNext a p).head = list.head := rfl

@[simp] theorem tail_setNext : (list.setNext a p).tail = list.tail := rfl

@[simp] theorem head_setPrev : (list.setPrev a p).head = list.head := rfl

@[simp] theorem tail_setPrev : (list.setPrev a p).tail = list.tail := rfl

end Fields

/-! ## Insertion -/

theorem head_llInsertHead : (llInsertHead list (some a) data).2.head = some a := by
  obtain ⟨head, tail, node⟩ := list
  cases head <;> cases tail <;> rfl

theorem tail_llInsertHead : (llInsertHead list (some a) data).2.tail = list.tail.or (some a) := by
  obtain ⟨head, tail, node⟩ := list
  cases head <;> cases tail <;> rfl

theorem node_llInsertHead_eq : (llInsertHead list (some a) data).2.node =
    match list.head with
    | some head => ((list.setNode a ⟨data, none, list.head⟩).setPrev head (some a)).node
    | none => (list.setNode a ⟨data, none, list.head⟩).node := by
  obtain ⟨head, tail, node⟩ := list
  cases head <;> cases tail <;> rfl

theorem node_llInsertHead (hne : list.head ≠ some a) :
    (llInsertHead list (some a) data).2.node c =
      if c = a then ⟨data, none, list.head⟩
      else if list.head = some c then { list.node c with prev := some a } else list.node c := by
  rw [node_llInsertHead_eq]
  cases hhead : list.head with
  | none =>
      by_cases hc : c = a
      · simp [setNode, hc]
      · simp [setNode, hc]
  | some b =>
      have hba : b ≠ a := fun heq ↦ hne (by rw [hhead, heq])
      by_cases hc : c = a
      · subst hc
        simp [setPrev, setNode, hba.symm]
      · by_cases hcb : c = b
        · subst hcb
          simp [setPrev, setNode, hc]
        · simp [setPrev, setNode, hc, hcb, Ne.symm hcb]

theorem Linked.head_ne (h : list.Linked as) (hnew : a ∉ as) : list.head ≠ some a := by
  rw [h.head_eq]
  intro hhead
  exact hnew (List.mem_of_mem_head? hhead)

theorem Linked.insertHead (h : list.Linked as) (hnew : a ∉ as) :
    (llInsertHead list (some a) data).2.Linked (a :: as) := by
  have hnode (c : Addr) : (llInsertHead list (some a) data).2.node c =
      if c = a then ⟨data, none, list.head⟩
      else if list.head = some c then { list.node c with prev := some a } else list.node c :=
    node_llInsertHead (h.head_ne hnew)
  constructor
  · rw [head_llInsertHead]
    apply h.next.cons hnew
    · rw [hnode, if_pos rfl]
    · intro c hc hca
      rw [hnode, if_neg hca]
      split <;> rfl
  · rw [tail_llInsertHead, List.reverse_cons]
    cases as with
    | nil =>
        rw [h.tail_eq]
        have hlast := congrArg Node.prev (hnode a)
        rw [if_pos rfl] at hlast
        exact ⟨rfl, hlast⟩
    | cons b bs =>
        have hne : b ≠ a := fun heq ↦ hnew (heq ▸ List.mem_cons_self)
        have hprev := h.prev
        have htail : list.tail.or (some a) = list.tail := by
          cases htail : list.tail with
          | none =>
              rw [h.tail_eq] at htail
              simp at htail
          | some d => rfl
        rw [List.reverse_cons] at hprev ⊢
        rw [htail, List.append_assoc]
        apply hprev.snoc
        · simpa [and_comm] using hnew
        · rw [hnode, if_pos rfl]
        · rw [hnode, if_neg hne, h.head_eq, List.head?_cons, if_pos rfl]
        · intro c hca hcb
          rw [hnode, if_neg hca, if_neg]
          rw [h.head_eq]
          exact fun heq ↦ hcb (Option.some.inj heq).symm

theorem data_llInsertHead (hne : list.head ≠ some a) :
    ((llInsertHead list (some a) data).2.node c).data =
      if c = a then data else (list.node c).data := by
  rw [node_llInsertHead hne]
  by_cases hc : c = a
  · rw [if_pos hc, if_pos hc]
  · rw [if_neg hc, if_neg hc]
    split <;> rfl

/-- What is inserted at the tail is inserted at the head of the mirror image. -/
theorem llInsertTail_eq : (llInsertTail list (some a) data).2 =
    (llInsertHead list.mirror (some a) data).2.mirror := by
  obtain ⟨head, tail, node⟩ := list
  ext : 1
  · cases head <;> cases tail <;> rfl
  · cases head <;> cases tail <;> rfl
  · have hset : ((mirror ⟨head, tail, node⟩).setNode a ⟨data, none, tail⟩).mirror =
        setNode ⟨head, tail, node⟩ a ⟨data, tail, none⟩ := mirror_setNode _
    cases tail with
    | none => cases head <;> exact (congrArg LinkedList.node hset).symm
    | some b =>
        have hlink : (((mirror ⟨head, some b, node⟩).setNode a ⟨data, none, some b⟩).setPrev b
            (some a)).mirror =
            (setNode ⟨head, some b, node⟩ a ⟨data, some b, none⟩).setNext b (some a) := by
          rw [mirror_setPrev, hset]
        cases head <;> exact (congrArg LinkedList.node hlink).symm

theorem Linked.mirror (h : list.Linked as) : list.mirror.Linked as.reverse := by
  rw [linked_mirror, List.reverse_reverse]
  exact h

theorem Linked.insertTail (h : list.Linked as) (hnew : a ∉ as) :
    (llInsertTail list (some a) data).2.Linked (as ++ [a]) := by
  have hmirror : (llInsertHead list.mirror (some a) data).2.Linked (a :: as.reverse) :=
    h.mirror.insertHead fun hmem ↦ hnew (List.mem_reverse.mp hmem)
  rw [llInsertTail_eq, linked_mirror, List.reverse_append]
  exact hmirror

theorem Linked.data_insertTail (h : list.Linked as) (hnew : a ∉ as) :
    ((llInsertTail list (some a) data).2.node c).data =
      if c = a then data else (list.node c).data := by
  have hne := h.mirror.head_ne fun hmem ↦ hnew (List.mem_reverse.mp hmem)
  rw [llInsertTail_eq]
  exact data_llInsertHead hne

/-! ## Search -/

theorem searchFrom_eq [DecidableEq ρ] (list : LinkedList ρ) (data : ρ) {p : Option Addr}
    {fuel : ℕ} (h : Chain (fun a ↦ (list.node a).next) p as) (hfuel : as.length < fuel) :
    searchFrom list data fuel p = some (as.find? fun a ↦ data = (list.node a).data) := by
  induction as generalizing p fuel with
  | nil =>
      obtain rfl : p = none := h
      cases fuel with
      | zero => cases hfuel
      | succ fuel => rfl
  | cons a as ih =>
      obtain ⟨rfl, hnext⟩ := h
      cases fuel with
      | zero => cases hfuel
      | succ fuel =>
          rw [searchFrom]
          by_cases hdata : data = (list.node a).data
          · rw [if_pos hdata, List.find?_cons_of_pos (by simpa using hdata)]
          · rw [if_neg hdata, List.find?_cons_of_neg (by simpa using hdata)]
            apply ih hnext
            exact Nat.lt_of_succ_lt_succ hfuel

theorem searchFrom_mono [DecidableEq ρ] {p r : Option Addr} {fuel fuel' : ℕ} (hle : fuel ≤ fuel')
    (h : searchFrom list data fuel p = some r) : searchFrom list data fuel' p = some r := by
  induction fuel generalizing p fuel' with
  | zero => cases h
  | succ fuel ih =>
      cases fuel' with
      | zero => omega
      | succ fuel' =>
          cases p with
          | none => exact h
          | some a =>
              rw [searchFrom] at h ⊢
              split at h
              · rwa [if_pos ‹_›]
              · rw [if_neg ‹_›]
                exact ih (by omega) h

theorem Linked.llSearch_eq [DecidableEq ρ] (h : list.Linked as) (data : ρ) {fuel : ℕ}
    (hfuel : as.length < fuel) :
    llSearch list data fuel = some (as.find? fun a ↦ data = (list.node a).data) :=
  searchFrom_eq list data h.next hfuel

/-! ## Removal -/

theorem data_unlink : ((unlink list a).node c).data = (list.node c).data := by
  rw [unlink]
  cases hprev : (list.node a).prev with
  | none => cases hnext : (list.node a).next <;> simp
  | some p =>
      dsimp only
      split <;> simp

section Unlink

variable (hne : (list.node a).prev ≠ some a)

include hne

theorem next_unlink : ((unlink list a).node c).next =
    if (list.node a).prev = some c then (list.node a).next else (list.node c).next := by
  rw [unlink]
  cases hprev : (list.node a).prev with
  | none => cases hnext : (list.node a).next <;> simp
  | some p =>
      have hpa : a ≠ p := fun heq ↦ hne (by rw [hprev, heq])
      cases hnext : (list.node a).next <;> simp [hnext, hpa, eq_comm]

theorem prev_unlink : ((unlink list a).node c).prev =
    if (list.node a).next = some c then (list.node a).prev else (list.node c).prev := by
  rw [unlink]
  cases hprev : (list.node a).prev with
  | none => cases hnext : (list.node a).next <;> simp [hprev, eq_comm]
  | some p =>
      have hpa : a ≠ p := fun heq ↦ hne (by rw [hprev, heq])
      cases hnext : (list.node a).next <;> simp [hnext, hpa, hprev, eq_comm]

theorem head_unlink : (unlink list a).head =
    if (list.node a).prev = none then (list.node a).next else list.head := by
  rw [unlink]
  cases hprev : (list.node a).prev with
  | none => cases hnext : (list.node a).next <;> simp
  | some p =>
      have hpa : a ≠ p := fun heq ↦ hne (by rw [hprev, heq])
      cases hnext : (list.node a).next <;> simp [hnext, hpa]

theorem tail_unlink : (unlink list a).tail =
    if (list.node a).next = none then (list.node a).prev else list.tail := by
  rw [unlink]
  cases hprev : (list.node a).prev with
  | none => cases hnext : (list.node a).next <;> simp [hprev]
  | some p =>
      have hpa : a ≠ p := fun heq ↦ hne (by rw [hprev, heq])
      cases hnext : (list.node a).next <;> simp [hnext, hpa, hprev]

end Unlink

theorem Linked.prev_ne (h : list.Linked (as ++ a :: bs)) : (list.node a).prev ≠ some a := by
  intro hself
  rw [h.prev_eq] at hself
  have hnodup := h.next.nodup
  rw [List.nodup_append] at hnodup
  exact hnodup.2.2 a (List.mem_of_getLast? hself) a List.mem_cons_self rfl

/-- Taking out a node writes what follows it before it, in both directions. -/
theorem Linked.unlink (h : list.Linked (as ++ a :: bs)) : (unlink list a).Linked (as ++ bs) := by
  have hprev := h.prev_eq
  have hnext := h.next_eq
  have hne := h.prev_ne
  constructor
  · have hchain : Chain (fun c ↦ ((Lists.unlink list a).node c).next)
        (if as = [] then (list.node a).next else list.head) (as ++ bs) := by
      apply h.next.remove
      · intro c hc
        rw [next_unlink hne, hprev, if_pos hc]
      · intro c _ hc
        rw [next_unlink hne, hprev, if_neg hc]
    rw [head_unlink hne, hprev]
    simpa using hchain
  · have hback := h.prev
    rw [List.reverse_append, List.reverse_cons, List.append_assoc, List.singleton_append] at hback
    have hchain : Chain (fun c ↦ ((Lists.unlink list a).node c).prev)
        (if bs.reverse = [] then (list.node a).prev else list.tail) (bs.reverse ++ as.reverse) := by
      apply hback.remove
      · intro c hc
        rw [List.getLast?_reverse] at hc
        rw [prev_unlink hne, hnext, if_pos hc]
      · intro c _ hc
        rw [List.getLast?_reverse] at hc
        rw [prev_unlink hne, hnext, if_neg hc]
    rw [tail_unlink hne, hnext, List.reverse_append]
    simpa using hchain

/-- `ll_remove_head` and `ll_remove_tail` take out a node at an end. -/
theorem Linked.llRemoveHead_eq (h : list.Linked ([] ++ a :: bs)) :
    llRemoveHead list = (some a, Lists.unlink list a) := by
  have hprev : (list.node a).prev = none := h.prev_eq
  have hhead : list.head = some a := h.head_eq
  rw [llRemoveHead, hhead, Lists.unlink, hprev]
  cases hnext : (list.node a).next <;> simp [hnext, hprev]

theorem Linked.llRemoveTail_eq (h : list.Linked (as ++ [a])) :
    llRemoveTail list = (some a, Lists.unlink list a) := by
  have hnext : (list.node a).next = none := h.next_eq
  have hne := h.prev_ne
  rw [llRemoveTail, h.tail_eq, List.getLast?_concat, Lists.unlink, hnext]
  cases hprev : (list.node a).prev with
  | none => simp [hprev, hnext]
  | some p =>
      have hpa : a ≠ p := fun heq ↦ hne (by rw [hprev, heq])
      simp only [hprev, next_setNext, if_neg hpa, hnext, prev_setNext]
      rfl

theorem llRemoveHead_nil (h : list.Linked []) : llRemoveHead list = (none, list) := by
  rw [llRemoveHead, h.head_eq, List.head?_nil]

theorem llRemoveTail_nil (h : list.Linked []) : llRemoveTail list = (none, list) := by
  rw [llRemoveTail, h.tail_eq, List.getLast?_nil]

end OsProjects.Lists.LinkedList
