import OsProjects.Server.ClientList
import Mathlib.Data.Finset.Dedup
import Mathlib.Order.Bounds.Basic

/-!
# What the event loop watches

The sets and the number of descriptors that the state machine server passes to
`select`.  The loop over the clients adds the pointers to them where it should
add their sockets, and starts the maximum afresh with every client.
-/

namespace OsProjects.Server

open Library.Chains Library.Program Library.Bytes

def fdSetSize : ℤ := 1024

def IsDescriptor (fd : ℤ) : Prop := 0 ≤ fd ∧ fd < fdSetSize

instance (fd : ℤ) : Decidable (IsDescriptor fd) := inferInstanceAs (Decidable (_ ∧ _))

/-- `FD_SET`, which is undefined for what is no descriptor of a set. -/
def fdSet (fd : ℤ) (set : Finset ℤ) : Option (Finset ℤ) :=
  if IsDescriptor fd then some (insert fd set) else none

/-- `set_read`, `set_write` and `maximum_descriptor`. -/
structure Watch where
  setRead : Finset ℤ
  setWrite : Finset ℤ
  maximumDescriptor : ℤ

namespace ClientHeap

section Loop

/- How the implementation converts a pointer to an `int`. -/
variable (pointerToInt : Lists.Addr → ℤ) (s : ClientHeap)

/-- The body of the loop over the clients. -/
def watchClient (current : Lists.Addr) (w : Watch) : Option Watch := do
  let client := s.client current
  let w := { w with maximumDescriptor := client.socket }
  let setRead ←
    if client.state = .recvRequest then fdSet (pointerToInt current) w.setRead
    else some w.setRead
  let setWrite ←
    if client.state = .sendReply then fdSet (pointerToInt current) w.setWrite
    else some w.setWrite
  let maximumDescriptor :=
    if w.maximumDescriptor < client.socket then client.socket else w.maximumDescriptor
  return ⟨setRead, setWrite, maximumDescriptor⟩

/-- The loop, which is not left when `fuel` iterations are over. -/
def watchFrom : ℕ → Option Lists.Addr → Watch → Option Watch
  | 0, _, _ => none
  | _ + 1, none, w => some w
  | fuel + 1, some current, w => do
      let w ← s.watchClient pointerToInt current w
      watchFrom fuel (s.list.node current).next w

/-- The first steps of an iteration of `server_statemachine`, up to `select`, with the
value of `nfds`. -/
def watch (acceptSocket : ℤ) (fuel : ℕ) : Option (Watch × ℤ) := do
  let setRead ← fdSet acceptSocket ∅
  let w ← s.watchFrom pointerToInt fuel s.list.head ⟨setRead, ∅, 0⟩
  if w.maximumDescriptor < 2 ^ 31 - 1 then
    some (w, w.maximumDescriptor + 1)
  else
    -- the sum is no `int`
    none

end Loop

def socket (s : ClientHeap) (a : Lists.Addr) : ℤ := (s.client a).socket

/-- What `f` says of the clients in a state. -/
def inState (s : ClientHeap) (state : ClientState) (f : Lists.Addr → ℤ)
    (as : List Lists.Addr) : Finset ℤ :=
  ((as.filter fun a ↦ (s.client a).state = state).map f).toFinset

/-- The right descriptors are watched for the clients `as`. -/
structure Watches (s : ClientHeap) (as : List Lists.Addr) (acceptSocket : ℤ) (w : Watch)
    (nfds : ℤ) : Prop where
  read : w.setRead = insert acceptSocket (s.inState .recvRequest s.socket as)
  write : w.setWrite = s.inState .sendReply s.socket as
  nfds : IsGreatest (insert acceptSocket {x | ∃ a ∈ as, s.socket a = x}) (nfds - 1)

/-- The pointers to the clients happen to be the sockets, and the last client in the
list has the greatest one. -/
structure Watchable (pointerToInt : Lists.Addr → ℤ) (s : ClientHeap) (as : List Lists.Addr)
    (acceptSocket : ℤ) : Prop where
  accept : IsDescriptor acceptSocket
  clients : ∀ a ∈ as, IsDescriptor (pointerToInt a)
  read : insert acceptSocket (s.inState .recvRequest pointerToInt as) =
    insert acceptSocket (s.inState .recvRequest s.socket as)
  write : s.inState .sendReply pointerToInt as = s.inState .sendReply s.socket as
  last : as = [] ∧ acceptSocket = 0 ∨
    ∃ a, as.getLast? = some a ∧ s.socket a < 2 ^ 31 - 1 ∧ acceptSocket ≤ s.socket a ∧
      ∀ b ∈ as, s.socket b ≤ s.socket a

variable {pointerToInt : Lists.Addr → ℤ} {s : ClientHeap} {as : List Lists.Addr} {a : Lists.Addr}
  {state : ClientState} {f : Lists.Addr → ℤ} {p : Option Lists.Addr} {w : Watch} {fuel : ℕ}
  {acceptSocket : ℤ}

theorem mem_inState {x : ℤ} :
    x ∈ s.inState state f as ↔ ∃ a ∈ as, (s.client a).state = state ∧ f a = x := by
  simp [inState, and_assoc]

@[simp] theorem inState_nil : s.inState state f [] = ∅ := rfl

theorem inState_cons : s.inState state f (a :: as) =
    s.inState state f [a] ∪ s.inState state f as := by
  ext x
  simp [mem_inState]

/-- One client is added to one of the sets, and the maximum is forgotten. -/
theorem watchClient_eq : s.watchClient pointerToInt a w =
    if IsDescriptor (pointerToInt a) then
      some ⟨w.setRead ∪ s.inState .recvRequest pointerToInt [a],
        w.setWrite ∪ s.inState .sendReply pointerToInt [a], s.socket a⟩
    else none := by
  by_cases hfd : IsDescriptor (pointerToInt a)
  · cases hstate : (s.client a).state with
    | recvRequest => simp [watchClient, fdSet, hfd, hstate, inState, socket]
    | sendReply => simp [watchClient, fdSet, hfd, hstate, inState, socket]
  · cases hstate : (s.client a).state with
    | recvRequest => simp [watchClient, fdSet, hfd, hstate]
    | sendReply => simp [watchClient, fdSet, hfd, hstate]

theorem watchFrom_eq (h : Chain (fun a ↦ (s.list.node a).next) p as) (hfuel : as.length < fuel) :
    s.watchFrom pointerToInt fuel p w =
      if ∀ a ∈ as, IsDescriptor (pointerToInt a) then
        some ⟨w.setRead ∪ s.inState .recvRequest pointerToInt as,
          w.setWrite ∪ s.inState .sendReply pointerToInt as,
          (as.getLast?.map s.socket).getD w.maximumDescriptor⟩
      else none := by
  induction as generalizing p w fuel with
  | nil =>
      obtain rfl : p = none := h
      cases fuel with
      | zero => cases hfuel
      | succ fuel => simp [watchFrom]
  | cons a as ih =>
      obtain ⟨rfl, hnext⟩ := h
      cases fuel with
      | zero => cases hfuel
      | succ fuel =>
          have hrest (w : Watch) := ih (w := w) hnext (Nat.lt_of_succ_lt_succ hfuel)
          rw [watchFrom, watchClient_eq]
          by_cases hfd : IsDescriptor (pointerToInt a)
          · have hcons (state : ClientState) : s.inState state pointerToInt (a :: as) =
                s.inState state pointerToInt [a] ∪ s.inState state pointerToInt as := inState_cons
            rw [if_pos hfd, Option.bind_eq_bind, Option.bind_some, hrest, hcons, hcons]
            simp [hfd, Finset.union_assoc, List.getLast?_cons]
          · simp [hfd]

/-- What `select` is called with. -/
theorem watch_eq (h : s.list.Linked as) (hfuel : as.length < fuel) :
    s.watch pointerToInt acceptSocket fuel =
      if IsDescriptor acceptSocket ∧ (∀ a ∈ as, IsDescriptor (pointerToInt a)) ∧
          (as.getLast?.map s.socket).getD 0 < 2 ^ 31 - 1 then
        some (⟨insert acceptSocket (s.inState .recvRequest pointerToInt as),
            s.inState .sendReply pointerToInt as, (as.getLast?.map s.socket).getD 0⟩,
          (as.getLast?.map s.socket).getD 0 + 1)
      else none := by
  rw [watch, fdSet]
  by_cases haccept : IsDescriptor acceptSocket
  · rw [if_pos haccept, Option.bind_eq_bind, Option.bind_some, watchFrom_eq h.next hfuel]
    by_cases hclients : ∀ a ∈ as, IsDescriptor (pointerToInt a)
    · rw [if_pos hclients]
      simp [haccept, eq_true hclients]
    · simp [hclients]
  · simp [haccept]

/-- The maximum that is left over is the right one exactly if the last client in the list
has it. -/
theorem isGreatest_last_iff : IsGreatest (insert acceptSocket {x | ∃ a ∈ as, s.socket a = x})
      ((as.getLast?.map s.socket).getD 0) ↔
    as = [] ∧ acceptSocket = 0 ∨ ∃ a, as.getLast? = some a ∧ acceptSocket ≤ s.socket a ∧
      ∀ b ∈ as, s.socket b ≤ s.socket a := by
  rcases List.eq_nil_or_concat as with rfl | ⟨front, a, rfl⟩
  · constructor
    · rintro ⟨hmem, -⟩
      have haccept : 0 = acceptSocket := by simpa using hmem
      exact .inl ⟨rfl, haccept.symm⟩
    · rintro (⟨-, rfl⟩ | ⟨a, hlast, -⟩)
      · simp
      · cases hlast
  · rw [List.concat_eq_append, List.getLast?_concat]
    constructor
    · rintro ⟨-, hbound⟩
      refine .inr ⟨a, rfl, hbound (.inl rfl), ?_⟩
      intro b hb
      exact hbound (.inr ⟨b, hb, rfl⟩)
    · rintro (⟨hnil, -⟩ | ⟨b, hlast, haccept, hclients⟩)
      · simp at hnil
      · cases hlast
        refine ⟨.inr ⟨a, by simp, rfl⟩, ?_⟩
        rintro x (rfl | ⟨b, hb, rfl⟩)
        · exact haccept
        · exact hclients b hb

/-- An iteration watches the right descriptors exactly for watchable lists. -/
theorem event_loop_watches_iff (h : s.list.Linked as) (hfuel : as.length < fuel) :
    (∃ w nfds, s.watch pointerToInt acceptSocket fuel = some (w, nfds) ∧
      Watches s as acceptSocket w nfds) ↔ Watchable pointerToInt s as acceptSocket := by
  rw [watch_eq h hfuel]
  constructor
  · rintro ⟨w, nfds, hwatch, hread, hwrite, hnfds⟩
    split at hwatch
    · obtain ⟨haccept, hclients, hlt⟩ := ‹_ ∧ _›
      cases hwatch
      rw [Int.add_sub_cancel, isGreatest_last_iff] at hnfds
      refine ⟨haccept, hclients, hread, hwrite, ?_⟩
      rcases hnfds with hnil | ⟨a, hlast, hgreatest⟩
      · exact .inl hnil
      · rw [hlast] at hlt
        exact .inr ⟨a, hlast, hlt, hgreatest⟩
    · cases hwatch
  · rintro ⟨haccept, hclients, hread, hwrite, hlast⟩
    have hlt : (as.getLast?.map s.socket).getD 0 < 2 ^ 31 - 1 := by
      rcases hlast with ⟨rfl, -⟩ | ⟨a, hlast, hlt, -⟩
      · norm_num
      · rwa [hlast]
    rw [if_pos ⟨haccept, hclients, hlt⟩]
    refine ⟨_, _, rfl, hread, hwrite, ?_⟩
    rw [Int.add_sub_cancel, isGreatest_last_iff]
    rcases hlast with hnil | ⟨a, hlast, -, hgreatest⟩
    · exact .inl hnil
    · exact .inr ⟨a, hlast, hgreatest⟩

/-- Two clients with the sockets 16 and 32, at addresses that are converted to these. -/
def twoAligned : ClientHeap :=
  (((init noClients).insertClient 32 (some 0x100000020) fun _ ↦ 0).2.insertClient 16
    (some 0x200000010) fun _ ↦ 0).2

/-- The first of the two is sent a reply. -/
def oneReplying : ClientHeap :=
  twoAligned.setClient 0x200000010 { twoAligned.client 0x200000010 with state := .sendReply }

theorem event_loop_watches_both : ∃ w nfds,
    oneReplying.watch cInt 3 3 = some (w, nfds) ∧ w.setRead = {3, 32} ∧ w.setWrite = {16} ∧
      nfds = 33 ∧ Watches oneReplying [0x200000010, 0x100000020] 3 w nfds := by
  have hlinked : twoAligned.list.Linked [0x200000010, 0x100000020] :=
    ⟨⟨rfl, rfl, rfl⟩, ⟨rfl, rfl, rfl⟩⟩
  have hwatchable : Watchable cInt oneReplying [0x200000010, 0x100000020] 3 := by
    refine ⟨by decide, by decide, by decide +kernel, by decide +kernel, ?_⟩
    exact .inr ⟨0x100000020, rfl, by decide +kernel, by decide +kernel, by decide +kernel⟩
  have hnfds : (oneReplying.watch cInt 3 3).map Prod.snd = some 33 := by decide +kernel
  obtain ⟨w, nfds, hwatch, hwatches⟩ :=
    (event_loop_watches_iff hlinked.setData (Nat.lt_succ_self 2)).mpr hwatchable
  rw [hwatch] at hnfds
  exact ⟨w, nfds, hwatch, hwatches.read, hwatches.write, Option.some.inj hnfds, hwatches⟩

/-- The clients with the sockets 4 and 5, in the order in which they are inserted. -/
def twoReceiving : ClientHeap :=
  (((init noClients).insertClient 4 (some 0x100000010) fun _ ↦ 0).2.insertClient 5
    (some 0x200000020) fun _ ↦ 0).2

/-- The numbers 16 and 32 are watched for the sockets 4 and 5, of which `nfds` leaves out
the second. -/
theorem event_loop_watches_pointers :
    twoReceiving.list.Linked [0x200000020, 0x100000010] ∧
    [0x200000020, 0x100000010].map twoReceiving.socket = [5, 4] ∧
    (twoReceiving.watch cInt 3 3).map (fun r ↦ (r.1.setRead, r.1.setWrite, r.2)) =
      some ({3, 16, 32}, ∅, 5) ∧
    ¬ ∃ w nfds, twoReceiving.watch cInt 3 3 = some (w, nfds) ∧
      Watches twoReceiving [0x200000020, 0x100000010] 3 w nfds := by
  have hwatch : (twoReceiving.watch cInt 3 3).map (fun r ↦ (r.1.setRead, r.1.setWrite, r.2)) =
      some ({3, 16, 32}, ∅, 5) := by decide +kernel
  refine ⟨⟨⟨rfl, rfl, rfl⟩, ⟨rfl, rfl, rfl⟩⟩, rfl, hwatch, ?_⟩
  rintro ⟨w, nfds, hrun, -, -, -, hbound⟩
  rw [hrun, Option.map_some, Option.some_inj, Prod.mk.injEq, Prod.mk.injEq] at hwatch
  obtain ⟨-, -, rfl⟩ := hwatch
  have hlarge : (5 : ℤ) ≤ 5 - 1 := hbound (.inr ⟨0x200000020, by simp, rfl⟩)
  omega

end ClientHeap

end OsProjects.Server
