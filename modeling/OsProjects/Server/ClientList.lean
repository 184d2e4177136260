import OsProjects.Lists.Operations
import OsProjects.Server.Passes
import Mathlib.Data.Fintype.EquivFin

/-!
# The list of clients

The doubly linked list in which the state machine server keeps its clients, with
the memory that they take.  A client is on the list from its insertion until it
is freed, and the loop that removes the dead ones frees each of them once.
-/

namespace OsProjects.Server

open Library.Chains Library.Bytes Library.Runs

/-- The list of `clients_statemachine.c`, the clients that are allocated, the
arguments of `free`, and whether memory has been freed that was not allocated. -/
structure ClientHeap where
  list : Lists.LinkedList Client
  allocated : Finset Lists.Addr
  freed : List Lists.Addr
  undefined : Bool

namespace ClientHeap

/-- The memory may contain anything when `init` is called. -/
def init (list : Lists.LinkedList Client) : ClientHeap := ⟨Lists.llInit list, ∅, [], false⟩

def client (s : ClientHeap) (a : Lists.Addr) : Client := (s.list.node a).data

def setClient (s : ClientHeap) (a : Lists.Addr) (client : Client) : ClientHeap :=
  { s with list := s.list.setData a client }

/-- What `finish_client` does to the client at `a`. -/
def finishClient (s : ClientHeap) (a : Lists.Addr) : ClientHeap :=
  s.setClient a { s.client a with socket := -1 }

def free (s : ClientHeap) (a : Lists.Addr) : ClientHeap where
  list := s.list
  allocated := s.allocated.erase a
  freed := s.freed ++ [a]
  undefined := s.undefined || decide (a ∉ s.allocated)

/-- `insert_client`, with the result of `malloc` and what the memory contained. -/
def insertClient (s : ClientHeap) (socket : ℤ) (newClient : Option Lists.Addr)
    (buffer : Buffer bufferSize) : ℤ × ClientHeap :=
  match newClient with
  | none => (0, s)
  | some a => (1, { s with
      list := (Lists.llInsertHead s.list (some a) (makeClient socket buffer)).2
      allocated := insert a s.allocated })

/-- The loop of `ll_search`, over the sockets. -/
def searchClient (s : ClientHeap) (socket : ℤ) (fuel : ℕ) : Option (Option Lists.Addr) :=
  Lists.llSearch (s.list.map Client.socket) socket fuel

def removeClient (s : ClientHeap) (socket : ℤ) (fuel : ℕ) : Option (ℤ × ClientHeap) :=
  (s.searchClient socket fuel).map fun
    | none => (0, s)
    | some foundClient => (1, { s with list := Lists.unlink s.list foundClient }.free foundClient)

/-- The loop `while(remove_client(-1))`, which is not left when its iterations,
or those of a search, are over. -/
def removeDead (fuel : ℕ) : ℕ → ClientHeap → Option ClientHeap
  | 0, _ => none
  | iterations + 1, s => do
      let (result, t) ← s.removeClient (-1) fuel
      if result = 0 then
        some t
      else
        removeDead fuel iterations t

end ClientHeap

inductive ClientAction
  | insertClient (socket : ℤ) (newClient : Option Lists.Addr) (buffer : Buffer bufferSize)
  | finishClient (a : Lists.Addr)
  | removeClient (socket : ℤ)

/-- Memory is fresh when `malloc` returns it.  The search of `remove_client` has
come to its end. -/
inductive ClientStep (s : ClientHeap) : ClientAction → ClientHeap → Prop
  | insertClient {socket : ℤ} {newClient : Option Lists.Addr} {buffer : Buffer bufferSize} :
      (∀ a ∈ newClient, a ∉ s.allocated) →
      ClientStep s (.insertClient socket newClient buffer) (s.insertClient socket newClient buffer).2
  | finishClient {a : Lists.Addr} : a ∈ s.allocated →
      ClientStep s (.finishClient a) (s.finishClient a)
  | removeClient {socket result : ℤ} {fuel : ℕ} {t : ClientHeap} :
      s.removeClient socket fuel = some (result, t) → ClientStep s (.removeClient socket) t

namespace ClientHeap

variable {s t : ClientHeap} {as bs : List Lists.Addr} {a b : Lists.Addr} {socket : ℤ} {fuel : ℕ}

/-- The clients `as` are linked in both directions, and are those that are allocated. -/
structure Owns (s : ClientHeap) (as : List Lists.Addr) : Prop where
  linked : s.list.Linked as
  allocated : ∀ a, a ∈ as ↔ a ∈ s.allocated
  defined : s.undefined = false

theorem owns_init (list : Lists.LinkedList Client) : (init list).Owns [] where
  linked := Lists.LinkedList.linked_llInit
  allocated _ := by simp [init]
  defined := rfl

theorem Owns.nodup (h : s.Owns as) : as.Nodup := h.linked.next.nodup

theorem client_setClient (client : Client) :
    (s.setClient a client).client b = if b = a then client else s.client b := by
  rw [setClient, ClientHeap.client, Lists.LinkedList.node_setData]
  split
  · rfl
  · rfl

theorem Owns.setClient (h : s.Owns as) (client : Client) : (s.setClient a client).Owns as :=
  ⟨h.linked.setData, h.allocated, h.defined⟩

section Insert

variable (hnew : a ∉ s.allocated) (buffer : Buffer bufferSize)

include hnew

theorem Owns.insertClient (h : s.Owns as) :
    (s.insertClient socket (some a) buffer).2.Owns (a :: as) where
  linked := by
    apply h.linked.insertHead
    rwa [h.allocated]
  allocated b := by
    rw [ClientHeap.insertClient, Finset.mem_insert, List.mem_cons, h.allocated]
  defined := h.defined

theorem Owns.client_insertClient (h : s.Owns as) :
    (s.insertClient socket (some a) buffer).2.client b =
      if b = a then makeClient socket buffer else s.client b := by
  apply Lists.LinkedList.data_llInsertHead
  apply h.linked.head_ne
  rwa [h.allocated]

end Insert

/-! ## Removal -/

/-- The heap after the node at `a` has been taken out of the list and freed. -/
def remove (s : ClientHeap) (a : Lists.Addr) : ClientHeap :=
  { s with list := Lists.unlink s.list a }.free a

@[simp] theorem client_remove : (s.remove a).client b = s.client b :=
  Lists.LinkedList.data_unlink

@[simp] theorem freed_remove : (s.remove a).freed = s.freed ++ [a] := rfl

theorem Owns.remove (h : s.Owns (as ++ a :: bs)) : (s.remove a).Owns (as ++ bs) where
  linked := h.linked.unlink
  allocated b := by
    have hnodup := List.nodup_middle.mp h.nodup
    have hmem := h.allocated b
    rw [List.mem_append, List.mem_cons] at hmem
    change _ ↔ b ∈ s.allocated.erase a
    rw [Finset.mem_erase, ← hmem, List.mem_append]
    constructor
    · intro hb
      refine ⟨?_, by tauto⟩
      rintro rfl
      exact (List.nodup_cons.mp hnodup).1 (List.mem_append.mpr hb)
    · tauto
  defined := by
    have ha : a ∈ s.allocated := (h.allocated a).mp (by simp)
    change (s.undefined || decide (a ∉ s.allocated)) = false
    simp [h.defined, ha]

theorem Owns.searchClient_eq (h : s.Owns as) (socket : ℤ) (hfuel : as.length < fuel) :
    s.searchClient socket fuel = some (as.find? fun a ↦ socket = (s.client a).socket) :=
  (h.linked.map Client.socket).llSearch_eq socket hfuel

/-- `remove_client` takes out the first client with the socket. -/
theorem Owns.removeClient_cases (h : s.Owns as) (socket : ℤ) (hfuel : as.length < fuel) :
    (s.removeClient socket fuel = some (0, s) ∧ ∀ a ∈ as, (s.client a).socket ≠ socket) ∨
      ∃ before a after, as = before ++ a :: after ∧ (s.client a).socket = socket ∧
        (∀ b ∈ before, (s.client b).socket ≠ socket) ∧
        s.removeClient socket fuel = some (1, s.remove a) := by
  rw [removeClient, h.searchClient_eq socket hfuel]
  cases hfind : as.find? fun a ↦ socket = (s.client a).socket with
  | none =>
      refine .inl ⟨rfl, ?_⟩
      intro a ha heq
      have hnot := List.find?_eq_none.mp hfind a ha
      simp [heq] at hnot
  | some a =>
      obtain ⟨ha, before, after, hsplit, hbefore⟩ := List.find?_eq_some_iff_append.mp hfind
      refine .inr ⟨before, a, after, hsplit, (of_decide_eq_true ha).symm, ?_, rfl⟩
      intro b hb heq
      have hnot := hbefore b hb
      simp [heq] at hnot

theorem removeClient_mono {fuel' : ℕ} {r : ℤ × ClientHeap} (hle : fuel ≤ fuel')
    (h : s.removeClient socket fuel = some r) : s.removeClient socket fuel' = some r := by
  obtain ⟨found, hsearch, hr⟩ := Option.map_eq_some_iff.mp h
  exact Option.map_eq_some_iff.mpr ⟨found, Lists.LinkedList.searchFrom_mono hle hsearch, hr⟩

theorem Owns.step {action : ClientAction} (h : s.Owns as) (hstep : ClientStep s action t) :
    ∃ bs, t.Owns bs := by
  cases hstep with
  | @insertClient socket newClient buffer hnew =>
      cases newClient with
      | none => exact ⟨as, h⟩
      | some a => exact ⟨a :: as, h.insertClient (hnew a rfl) buffer⟩
  | finishClient ha => exact ⟨as, h.setClient _⟩
  | @removeClient socket result fuel t hremove =>
      have hmono := removeClient_mono (Nat.le_add_right fuel (as.length + 1)) hremove
      rcases h.removeClient_cases socket (by omega : as.length < fuel + (as.length + 1)) with
        ⟨hnone, -⟩ | ⟨before, a, after, rfl, -, -, hsome⟩
      · rw [hnone] at hmono
        cases hmono
        exact ⟨as, h⟩
      · rw [hsome] at hmono
        cases hmono
        exact ⟨before ++ after, h.remove⟩

/-! ## The sweep -/

/-- By induction on the iterations, each of which but the last frees the first
dead client that is left. -/
theorem Owns.removeDead {iterations : ℕ} (h : s.Owns as) (hfuel : as.length < fuel)
    (hiterations : as.length < iterations) :
    ∃ t, removeDead fuel iterations s = some t ∧
      t.Owns (as.filter fun a ↦ (s.client a).socket ≠ -1) ∧
      (∀ b, t.client b = s.client b) ∧
      t.freed = s.freed ++ as.filter fun a ↦ (s.client a).socket = -1 := by
  induction iterations generalizing s as with
  | zero => cases hiterations
  | succ iterations ih =>
      rcases h.removeClient_cases (-1) hfuel with
        ⟨hremove, hlive⟩ | ⟨before, a, after, rfl, hdead, hbefore, hremove⟩
      · have hkeep : (as.filter fun a ↦ (s.client a).socket ≠ -1) = as :=
          List.filter_eq_self.mpr (by simpa using hlive)
        have hnone : (as.filter fun a ↦ (s.client a).socket = -1) = [] :=
          List.filter_eq_nil_iff.mpr (by simpa using hlive)
        refine ⟨s, ?_, by rwa [hkeep], fun b ↦ rfl, by rw [hnone, List.append_nil]⟩
        simp [ClientHeap.removeDead, hremove]
      · have hlength : (before ++ a :: after).length = (before ++ after).length + 1 := by
          simp [Nat.add_assoc]
        obtain ⟨t, hrun, howns, hclient, hfreed⟩ :=
          ih h.remove (by omega) (by omega : (before ++ after).length < iterations)
        have hlive : (before.filter fun b ↦ (s.client b).socket = -1) = [] :=
          List.filter_eq_nil_iff.mpr (by simpa using hbefore)
        refine ⟨t, ?_, ?_, fun b ↦ (hclient b).trans client_remove, ?_⟩
        · simpa [ClientHeap.removeDead, hremove] using hrun
        · simpa [hdead] using howns
        · rw [hfreed]
          simp [hdead, hlive]

theorem owns_of_run {list : Lists.LinkedList Client} {actions : List ClientAction}
    (h : Run ClientStep (init list) actions s) : ∃ as, s.Owns as := by
  induction h with
  | nil => exact ⟨[], owns_init list⟩
  | snoc _ hstep ih =>
      obtain ⟨as, howns⟩ := ih
      exact howns.step hstep

/-- Through every sequence of calls the list is well formed and consists of the clients
that are allocated.  Every call of `remove_client` returns, and the sweep leaves those whose
socket is not -1 and frees each of the others once. -/
theorem client_list_exact {list : Lists.LinkedList Client} {actions : List ClientAction}
    (h : Run ClientStep (init list) actions s) :
    ∃ as, s.Owns as ∧ as.Nodup ∧
      (∀ socket fuel, as.length < fuel → (s.removeClient socket fuel).isSome) ∧
      ∀ fuel iterations, as.length < fuel → as.length < iterations →
        ∃ t, removeDead fuel iterations s = some t ∧
          t.Owns (as.filter fun a ↦ (s.client a).socket ≠ -1) ∧
          (∀ a ∈ as, t.client a = s.client a) ∧
          t.freed = s.freed ++ as.filter fun a ↦ (s.client a).socket = -1 := by
  obtain ⟨as, howns⟩ := owns_of_run h
  refine ⟨as, howns, howns.nodup, ?_, ?_⟩
  · intro socket fuel hfuel
    rcases howns.removeClient_cases socket hfuel with ⟨hremove, -⟩ | ⟨_, _, _, -, -, -, hremove⟩
    · rw [hremove]
      rfl
    · rw [hremove]
      rfl
  · intro fuel iterations hfuel hiterations
    obtain ⟨t, hrun, hrest, hclient, hfreed⟩ := howns.removeDead hfuel hiterations
    exact ⟨t, hrun, hrest, fun a _ ↦ hclient a, hfreed⟩

def noClients : Lists.LinkedList Client :=
  ⟨none, none, fun _ ↦ ⟨makeClient (-1) fun _ ↦ 0, none, none⟩⟩

/-- Three clients are inserted, the last and the first of them are finished. -/
theorem client_list_exact_three : ∃ s t,
    Run ClientStep (init noClients) [.insertClient 4 (some 16) fun _ ↦ 0,
      .insertClient 5 (some 32) fun _ ↦ 0, .insertClient 6 (some 48) fun _ ↦ 0,
      .finishClient 48, .finishClient 16] s ∧
    removeDead 4 4 s = some t ∧ t.Owns [32] ∧ t.freed = [48, 16] := by
  have hinsert (s : ClientHeap) (socket : ℤ) (a : Lists.Addr) (hnew : a ∉ s.allocated) :
      ClientStep s (.insertClient socket (some a) fun _ ↦ 0)
        (s.insertClient socket (some a) fun _ ↦ 0).2 :=
    .insertClient fun b hb ↦ Option.some.inj hb ▸ hnew
  have hempty : Run ClientStep (init noClients) [] (init noClients) := .nil
  have hinserted := ((hempty.snoc (hinsert _ 4 16 (by decide))).snoc
    (hinsert _ 5 32 (by decide))).snoc (hinsert _ 6 48 (by decide))
  have hrun := (hinserted.snoc (.finishClient (by decide : 48 ∈ _))).snoc
    (.finishClient (by decide : 16 ∈ _))
  obtain ⟨as, howns, -, -, hsweep⟩ := client_list_exact hrun
  obtain rfl : as = [48, 32, 16] :=
    howns.linked.unique ⟨⟨rfl, rfl, rfl, rfl⟩, ⟨rfl, rfl, rfl, rfl⟩⟩
  obtain ⟨t, hremove, hrest, -, hfreed⟩ := hsweep 4 4 (by decide) (by decide)
  exact ⟨_, t, hrun, hremove, hrest, hfreed⟩

/-! ## The clients of the server -/

/-- The clients on the list, from its head, are those of the server, and as many have been
freed as it has removed. -/
def Represents (s : ClientHeap) (server : ServerState) : Prop :=
  ∃ as, s.Owns as ∧ as.map s.client = server.clients.map Served.client ∧
    s.freed.length = server.removed.length

/-- What an action of the server does to the heap. -/
inductive HeapStep (s : ClientHeap) : ServerAction → ClientHeap → Prop
  | insertClient {socket : ℤ} {buffer : Buffer bufferSize} {a : Lists.Addr} : a ∉ s.allocated →
      HeapStep s (.insertClient socket buffer) (s.insertClient socket (some a) buffer).2
  | handleClient {i : ℕ} {env : Environment} {a : Lists.Addr} {c u : Connection} :
      a ∈ s.allocated → c.client = s.client a → HandleCall c env u →
      HeapStep s (.handleClient i env) (s.setClient a u.client)
  | endPass {t : ClientHeap} {iterations : ℕ} :
      ClientHeap.removeDead iterations iterations s = some t → HeapStep s .endPass t

section Represents

variable {server server' : ServerState} {action : ServerAction}

theorem represents_init (list : Lists.LinkedList Client) : (init list).Represents .init :=
  ⟨[], owns_init list, rfl, rfl⟩

theorem Represents.insertClient (h : s.Represents server) (hnew : a ∉ s.allocated)
    (buffer : Buffer bufferSize) : (s.insertClient socket (some a) buffer).2.Represents
      (server.insertClient socket buffer) := by
  obtain ⟨as, howns, hclients, hfreed⟩ := h
  refine ⟨a :: as, howns.insertClient hnew buffer, ?_, hfreed⟩
  rw [ServerState.insertClient, List.map_cons, List.map_cons, howns.client_insertClient hnew,
    if_pos rfl, ← hclients]
  congr 1
  apply List.map_congr_left
  intro b hb
  rw [howns.client_insertClient hnew, if_neg]
  rintro rfl
  exact hnew ((howns.allocated _).mp hb)

/-- A call of `handle_client` writes the client back that it has been given. -/
theorem Represents.handle {i : ℕ} {env : Environment} (h : s.Represents server)
    (hhandle : server.handle i env = some server') :
    ∃ a ∈ s.allocated, ∃ c u, c.client = s.client a ∧ HandleCall c env u ∧
      (s.setClient a u.client).Represents server' := by
  obtain ⟨as, howns, hclients, hfreed⟩ := h
  obtain ⟨c, before, after, u, hsplit, -, hcall, rfl⟩ := ServerState.handle_eq_some hhandle
  rw [hsplit, List.map_append, List.map_cons] at hclients
  obtain ⟨front, rest, rfl, hfront, hrest⟩ := List.map_eq_append_iff.mp hclients
  obtain ⟨a, back, rfl, ha, hback⟩ := List.map_eq_cons_iff.mp hrest
  have hnodup := List.nodup_cons.mp (List.nodup_middle.mp howns.nodup)
  refine ⟨a, (howns.allocated a).mp (by simp), c.connection server.operationsCompleted, u,
    ha.symm, hcall, front ++ a :: back, howns.setClient _, ?_, hfreed⟩
  have hother : ∀ bs : List Lists.Addr, a ∉ bs →
      bs.map (s.setClient a u.client).client = bs.map s.client := by
    intro bs ha
    apply List.map_congr_left
    intro b hb
    rw [client_setClient, if_neg]
    rintro rfl
    exact ha hb
  have hnot := hnodup.1
  rw [List.mem_append, not_or] at hnot
  rw [List.map_append, List.map_cons, hother front hnot.1, hother back hnot.2, client_setClient,
    if_pos rfl, hfront, hback, List.map_append, List.map_cons]
  rfl

/-- The sweep of the list is that of the server. -/
theorem Represents.removeDead (h : s.Represents server) : ∃ t iterations,
    ClientHeap.removeDead iterations iterations s = some t ∧ t.Represents server.endPass := by
  obtain ⟨as, howns, hclients, hfreed⟩ := h
  obtain ⟨t, hrun, hrest, hclient, htfreed⟩ :=
    howns.removeDead (Nat.lt_succ_self _) (Nat.lt_succ_self _)
  have hsame : t.client = s.client := funext hclient
  have hfilter (P : Client → Bool) :
      (as.filter fun a ↦ P (s.client a)).map s.client =
        (server.clients.filter fun c ↦ P c.client).map Served.client := by
    change (as.filter (P ∘ s.client)).map s.client =
      (server.clients.filter (P ∘ Served.client)).map Served.client
    rw [← List.filter_map, ← List.filter_map, hclients]
  refine ⟨t, _, hrun, _, hrest, ?_, ?_⟩
  · rw [ServerState.endPass_eq, hsame, hfilter fun c ↦ c.socket ≠ -1, List.map_map]
    rfl
  · have hdead := congrArg List.length (hfilter fun c ↦ c.socket = -1)
    rw [List.length_map, List.length_map] at hdead
    rw [ServerState.endPass_eq, htfreed, List.length_append, List.length_append, hfreed, hdead]

theorem Represents.step (h : s.Represents server) (hstep : server.step action = some server') :
    ∃ t, HeapStep s action t ∧ t.Represents server' := by
  cases action with
  | insertClient socket buffer =>
      cases hstep
      obtain ⟨a, hnew⟩ := Infinite.exists_notMem_finset s.allocated
      exact ⟨_, .insertClient hnew, h.insertClient hnew buffer⟩
  | handleClient i env =>
      obtain ⟨a, ha, c, u, hclient, hcall, hrepresents⟩ := h.handle hstep
      exact ⟨_, .handleClient ha hclient hcall, hrepresents⟩
  | endPass =>
      cases hstep
      obtain ⟨t, iterations, hremove, hrepresents⟩ := h.removeDead
      exact ⟨t, .endPass hremove, hrepresents⟩

/-- Every run of the server is one on its list of clients. -/
theorem heap_simulates_server {actions : List ServerAction} (list : Lists.LinkedList Client)
    (hrun : Run ServerStep .init actions server) :
    ∃ s, Run HeapStep (init list) actions s ∧ s.Represents server := by
  induction hrun with
  | nil => exact ⟨init list, .nil, represents_init list⟩
  | snoc _ hlast ih =>
      obtain ⟨s, hheap, hrepresents⟩ := ih
      obtain ⟨t, hstep, hnext⟩ := hrepresents.step hlast.2
      exact ⟨t, hheap.snoc hstep, hnext⟩

end Represents

end ClientHeap

end OsProjects.Server
