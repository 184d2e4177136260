import OsProjects.Server.RequestList
import Mathlib.Data.Set.Insert

/-!
# The list of requests as a queue

Insertions at the head and removals at the tail should make the list a queue.
The queue is stated on its own, and runs of the two functions are compared
with it.
-/

namespace OsProjects.Server

open Library.Chains Library.Runs

variable {ρ : Type}

/-! ## Queues -/

inductive Call (ρ : Type)
  | insert (newNode : Addr) (data : ρ)
  | remove

/-- A queue: what waits, the oldest first, and what the removals delivered. -/
structure Fifo (ρ : Type) where
  waiting : List ρ
  delivered : List (Option ρ)

namespace Fifo

def empty : Fifo ρ := ⟨[], []⟩

def apply (q : Fifo ρ) : Call ρ → Fifo ρ
  | .insert _ data => { q with waiting := q.waiting ++ [data] }
  | .remove => ⟨q.waiting.tail, q.delivered ++ [q.waiting.head?]⟩

def applyAll (calls : List (Call ρ)) : Fifo ρ := calls.foldl apply empty

@[simp] theorem applyAll_nil : applyAll ([] : List (Call ρ)) = empty := rfl

@[simp] theorem applyAll_snoc (calls : List (Call ρ)) (c : Call ρ) :
    applyAll (calls ++ [c]) = (applyAll calls).apply c := by
  simp [applyAll]

end Fifo

def inserted (calls : List (Call ρ)) : List ρ :=
  calls.filterMap fun
    | .insert _ data => some data
    | .remove => none

theorem inserted_eq (calls : List (Call ρ)) :
    inserted calls =
      (Fifo.applyAll calls).delivered.reduceOption ++ (Fifo.applyAll calls).waiting := by
  induction calls using List.reverseRecOn with
  | nil => rfl
  | append_singleton calls c ih =>
      have hsplit : inserted (calls ++ [c]) = inserted calls ++ inserted [c] :=
        List.filterMap_append ..
      rw [hsplit, ih, Fifo.applyAll_snoc, List.append_assoc]
      cases c with
      | insert newNode data => rfl
      | remove =>
          cases hwaiting : (Fifo.applyAll calls).waiting with
          | nil => simp [Fifo.apply, hwaiting, inserted, List.reduceOption_append]
          | cons d ds => simp [Fifo.apply, hwaiting, inserted, List.reduceOption_append]

/-! ## Runs of the list -/

structure Session (ρ : Type) where
  list : RequestList ρ
  allocated : Set Addr
  /-- The data of the nodes that `ll_remove_tail` has returned. -/
  returned : List (Option ρ)

inductive Step (s : Session ρ) : Call ρ → Session ρ → Prop
  | insert {newNode : Addr} {data : ρ} : newNode ∉ s.allocated →
      Step s (.insert newNode data)
        ⟨llInsertHead s.list newNode data, insert newNode s.allocated, s.returned⟩
  | remove :
      Step s .remove ⟨(llRemoveTail s.list).2, s.allocated,
        s.returned ++ [(llRemoveTail s.list).1.map fun a ↦ (s.list.node a).data]⟩

/-- The memory may contain anything when `ll_init` is called. -/
def start (list : RequestList ρ) : Session ρ := ⟨llInit list, ∅, []⟩

/-- The list is well formed and its nodes hold what waits in the queue. -/
structure Session.Represents (s : Session ρ) (q : Fifo ρ) : Prop where
  returned : s.returned = q.delivered
  nodes : ∃ as, s.list.Linked as ∧
    Chain (fun a ↦ (s.list.node a).next) s.list.head as.reverse ∧
    as.map (fun a ↦ (s.list.node a).data) = q.waiting ∧ ∀ a ∈ as, a ∈ s.allocated

theorem represents_start (list : RequestList ρ) : (start list).Represents .empty :=
  ⟨rfl, [], RequestList.linked_llInit, rfl, rfl, by simp⟩

theorem Session.Represents.wellFormed {s : Session ρ} {q : Fifo ρ} (h : s.Represents q) :
    s.list.WellFormed := by
  obtain ⟨as, hlinked, hnext, -⟩ := h.nodes
  exact ⟨as, hnext, hlinked.prev⟩

theorem Session.Represents.insert {s : Session ρ} {q : Fifo ρ} (h : s.Represents q)
    {newNode : Addr} {data : ρ} (hnew : newNode ∉ s.allocated) :
    Session.Represents ⟨llInsertHead s.list newNode data, insert newNode s.allocated, s.returned⟩
      (q.apply (.insert newNode data)) := by
  obtain ⟨as, hlinked, hnext, hdata, hmem⟩ := h.nodes
  have hfresh : newNode ∉ as := fun ha ↦ hnew (hmem newNode ha)
  refine ⟨h.returned, as ++ [newNode], hlinked.insert hfresh, hlinked.next_insert hfresh hnext,
    ?_, fun a ha ↦ ?_⟩
  · rw [hlinked.map_data_insert hfresh, hdata]
    rfl
  · rcases List.mem_append.mp ha with ha | ha
    · exact Set.mem_insert_of_mem _ (hmem a ha)
    · exact List.mem_singleton.mp ha ▸ Set.mem_insert ..

theorem Session.Represents.remove {s : Session ρ} {q : Fifo ρ} (h : s.Represents q)
    (hshort : q.waiting.length ≤ 1) :
    Session.Represents ⟨(llRemoveTail s.list).2, s.allocated,
        s.returned ++ [(llRemoveTail s.list).1.map fun a ↦ (s.list.node a).data]⟩
      (q.apply .remove) := by
  obtain ⟨as, hlinked, hnext, hdata, hmem⟩ := h.nodes
  have hlength : as.length ≤ 1 := by rwa [← hdata, List.length_map] at hshort
  cases as with
  | nil =>
      rw [RequestList.llRemoveTail_nil hlinked]
      refine ⟨?_, [], hlinked, hnext, ?_, hmem⟩
      · simp [Fifo.apply, ← hdata, h.returned]
      · simp [Fifo.apply, ← hdata]
  | cons a as =>
      obtain rfl : as = [] := List.length_eq_zero_iff.mp (by simpa using hlength)
      rw [RequestList.llRemoveTail_singleton hlinked]
      refine ⟨?_, [], RequestList.linked_llInit, rfl, ?_, by simp⟩
      · simp [Fifo.apply, ← hdata, h.returned]
      · simp [Fifo.apply, ← hdata]

theorem Session.Represents.not_wellFormed {s : Session ρ} {q : Fifo ρ} (h : s.Represents q)
    (hlong : 1 < q.waiting.length) : ¬ (llRemoveTail s.list).2.WellFormed := by
  obtain ⟨as, hlinked, hnext, hdata, -⟩ := h.nodes
  have hlength : 1 < as.length := by rwa [← hdata, List.length_map] at hlong
  match as, hlength with
  | a :: b :: as, _ =>
      rintro ⟨bs, hnext', hprev'⟩
      have hprev := RequestList.prev_llRemoveTail hlinked
      obtain rfl := hprev'.unique hprev
      -- the links in the other direction have not changed
      rw [RequestList.llRemoveTail_cons_cons hlinked] at hnext'
      have hsame : Chain (fun c ↦ ((s.list.setPrev b none).node c).next) s.list.head
          (a :: b :: as).reverse :=
        hnext.congr fun c _ ↦ RequestList.next_setPrev none c
      have heq := congrArg List.length (hnext'.unique hsame)
      simp at heq

theorem Session.Represents.step {s t : Session ρ} {q : Fifo ρ} {c : Call ρ} (h : s.Represents q)
    (hstep : Step s c t) (hshort : c = .remove → q.waiting.length ≤ 1) :
    t.Represents (q.apply c) := by
  cases hstep with
  | insert hnew => exact h.insert hnew
  | remove => exact h.remove (hshort rfl)

/-- In a run that stays well formed a removal is made from a short list. -/
theorem Session.Represents.length_le {s t : Session ρ} {q : Fifo ρ} (h : s.Represents q)
    (hwell : t.list.WellFormed) (hstep : Step s .remove t) : q.waiting.length ≤ 1 := by
  by_contra! hlong
  cases hstep
  exact h.not_wellFormed hlong hwell

theorem represents_of_run {list : RequestList ρ} {calls past : List (Call ρ)} {s : Session ρ}
    (hshort : ∀ past t u, past ++ [.remove] <+: calls → Run Step (start list) past t →
      t.Represents (Fifo.applyAll past) → Step t .remove u →
        (Fifo.applyAll past).waiting.length ≤ 1)
    (hpast : past <+: calls) (hrun : Run Step (start list) past s) :
    s.Represents (Fifo.applyAll past) := by
  refine hrun.invariant_of_prefix (P := fun past s ↦ s.Represents (Fifo.applyAll past)) hpast
    (represents_start list) ?_
  intro past t c u hpart hfirst ht hstep
  rw [Fifo.applyAll_snoc]
  refine ht.step hstep fun hremove ↦ ?_
  subst hremove
  exact hshort past t u hpart hfirst ht hstep

/-- The list behaves as a queue and stays well formed through a run exactly if
every removal is made while at most one request waits. -/
theorem list_fifo_iff {list : RequestList ρ} {calls : List (Call ρ)} {s : Session ρ}
    (h : Run Step (start list) calls s) :
    (∀ past t, past <+: calls → Run Step (start list) past t →
      t.list.WellFormed ∧ t.returned = (Fifo.applyAll past).delivered) ↔
    ∀ past rest, calls = past ++ .remove :: rest →
      (Fifo.applyAll past).waiting.length ≤ 1 := by
  constructor
  · intro hgood past rest heq
    have hshort : ∀ past t u, past ++ [.remove] <+: calls → Run Step (start list) past t →
        t.Represents (Fifo.applyAll past) → Step t .remove u →
          (Fifo.applyAll past).waiting.length ≤ 1 :=
      fun past t u hpart hrun ht hstep ↦
        ht.length_le (hgood _ u hpart (.snoc hrun hstep)).1 hstep
    rw [← List.singleton_append, ← List.append_assoc] at heq
    have hpart : past ++ [.remove] <+: calls := heq ▸ List.prefix_append ..
    rw [heq] at h
    obtain ⟨u, hrun, -⟩ := h.exists_of_append
    obtain ⟨t, hfirst, hstep⟩ := hrun.exists_of_snoc
    have ht := represents_of_run hshort ((List.prefix_append ..).trans hpart) hfirst
    exact ht.length_le (hgood _ u hpart hrun).1 hstep
  · intro hshort past t hpast hrun
    have hrepresents : t.Represents (Fifo.applyAll past) := by
      refine represents_of_run (fun past t u hpart _ _ _ ↦ ?_) hpast hrun
      obtain ⟨rest, hrest⟩ := hpart
      refine hshort past rest ?_
      rw [← hrest, List.append_assoc]
      rfl
    exact ⟨hrepresents.wellFormed, hrepresents.returned⟩

def emptyList : RequestList ℕ := ⟨none, none, fun _ ↦ ⟨0, none, none⟩⟩

theorem list_fifo_iff_two :
    ∃ t, Run Step (start emptyList) [.insert 1 10, .remove, .insert 2 20, .remove] t ∧
      t.list.WellFormed ∧ t.returned = [some 10, some 20] := by
  have hfirst : Run Step (start emptyList) [.insert 1 10, .remove] _ :=
    .snoc (.snoc .nil (.insert (by simp [start]))) .remove
  have hrun : Run Step (start emptyList) [.insert 1 10, .remove, .insert 2 20, .remove] _ :=
    .snoc (.snoc hfirst (.insert (by simp [start]))) .remove
  refine ⟨_, hrun, (list_fifo_iff hrun).mpr (fun past rest heq ↦ ?_) _ _ List.prefix_rfl hrun⟩
  rcases past with _ | ⟨_, _ | ⟨_, _ | ⟨_, _ | ⟨_, past⟩⟩⟩⟩
  · cases heq
  · cases heq
    decide
  · cases heq
  · cases heq
    decide
  · have hlength := congrArg List.length heq
    simp at hlength

theorem third_request_lost :
    ∃ s, Run Step (start emptyList)
        [.insert 1 10, .insert 2 20, .insert 3 30, .remove, .remove, .remove] s ∧
      s.returned = [some 10, some 20, none] ∧
      (Fifo.applyAll [.insert 1 10, .insert 2 20, .insert 3 30, .remove, .remove,
        .remove]).delivered = [some 10, some 20, some 30] := by
  refine ⟨_, .snoc (.snoc (.snoc (.snoc (.snoc (.snoc .nil (.insert ?_)) (.insert ?_))
    (.insert ?_)) .remove) .remove) .remove, rfl, rfl⟩
  all_goals simp [start]

end OsProjects.Server
