import OsProjects.Library.Interleaving
import OsProjects.Server.RequestList
import Mathlib.Data.Set.Insert

/-!
# The thread pool

The threads of `thread_pool.c`: consumers, threads that call `put_request`, and
threads that call `finish_threads`.  Each call of the library and each access to
`queue_size`, `finish` or the list is one step.  A waiting thread may wake up
whenever the mutex is free, with or without a signal.
-/

namespace OsProjects.Server

open Library.Chains Library.Runs Library.Interleaving

/-- Where a thread is in the code. -/
inductive Pc (κ : Type)
  /-- `while(finish == 0)` -/
  | loop
  | lock
  /-- `while(queue_size == 0)` -/
  | test
  | wait
  /-- Inside `pthread_cond_wait`, without the mutex. -/
  | waiting
  /-- `if(finish == 1)` -/
  | woken
  | leave
  | remove
  | decrement (request : κ)
  | unlock (request : κ)
  | serve (request : κ)
  | exited
  /-- Outside of the functions of the thread pool. -/
  | idle
  | putLock (client : κ)
  | putInsert (client : κ)
  | putIncrement
  | putSignal
  | putUnlock
  | finishLock
  | finishSet
  | finishBroadcast
  | finishUnlock
  | join

/-- The global variables of `thread_pool.c`, and what has happened to the
requests. -/
structure Pool (T κ : Type) where
  owner : Option T
  queueSize : ℤ
  finish : ℤ
  list : RequestList κ
  allocated : Set Addr
  accepted : List κ
  taken : List (T × κ)
  /-- A call has been made whose behaviour is undefined. -/
  undefined : Bool

variable {T κ : Type}

def Pc.Unlocks : Pc κ → Prop
  | .leave | .unlock _ | .putUnlock | .finishUnlock => True
  | _ => False

def Pc.Locks : Pc κ → Prop
  | .lock | .putLock _ | .finishLock => True
  | _ => False

inductive ThreadStep (t : T) : Pc κ → Pool T κ → Pc κ → Pool T κ → Prop
  -- `consumer`
  | enter {g : Pool T κ} : g.finish = 0 → ThreadStep t .loop g .lock g
  | exit {g : Pool T κ} : g.finish ≠ 0 → ThreadStep t .loop g .exited g
  | lock {g : Pool T κ} : g.owner = none → ThreadStep t .lock g .test { g with owner := some t }
  | empty {g : Pool T κ} : g.queueSize = 0 → ThreadStep t .test g .wait g
  | nonempty {g : Pool T κ} : g.queueSize ≠ 0 → ThreadStep t .test g .loop g
  | wait {g : Pool T κ} : g.owner = some t →
      ThreadStep t .wait g .waiting { g with owner := none }
  | waitUnlocked {g : Pool T κ} : g.owner ≠ some t →
      ThreadStep t .wait g .wait { g with undefined := true }
  | wake {g : Pool T κ} : g.owner = none →
      ThreadStep t .waiting g .woken { g with owner := some t }
  | finished {g : Pool T κ} : g.finish = 1 → ThreadStep t .woken g .leave g
  | proceed {g : Pool T κ} : g.finish ≠ 1 → ThreadStep t .woken g .remove g
  | leave {g : Pool T κ} : g.owner = some t →
      ThreadStep t .leave g .loop { g with owner := none }
  | remove {g : Pool T κ} {a : Addr} {list : RequestList κ} :
      llRemoveTail g.list = (some a, list) →
      ThreadStep t .remove g (.decrement (list.node a).data)
        { g with list := list, taken := g.taken ++ [(t, (list.node a).data)] }
  | removeNull {g : Pool T κ} : (llRemoveTail g.list).1 = none →
      ThreadStep t .remove g .remove { g with undefined := true }
  | decrement {g : Pool T κ} {request : κ} :
      ThreadStep t (.decrement request) g (.unlock request)
        { g with queueSize := g.queueSize - 1 }
  | unlock {g : Pool T κ} {request : κ} : g.owner = some t →
      ThreadStep t (.unlock request) g (.serve request) { g with owner := none }
  | serve {g : Pool T κ} {request : κ} : ThreadStep t (.serve request) g .test g
  -- `put_request`
  | put {g : Pool T κ} (client : κ) : ThreadStep t .idle g (.putLock client) g
  | putLock {g : Pool T κ} {client : κ} : g.owner = none →
      ThreadStep t (.putLock client) g (.putInsert client) { g with owner := some t }
  | putInsert {g : Pool T κ} {client : κ} (newNode : Addr) : newNode ∉ g.allocated →
      ThreadStep t (.putInsert client) g .putIncrement
        { g with
          list := llInsertHead g.list newNode client
          allocated := insert newNode g.allocated
          accepted := g.accepted ++ [client] }
  | putIncrement {g : Pool T κ} :
      ThreadStep t .putIncrement g .putSignal { g with queueSize := g.queueSize + 1 }
  | putSignal {g : Pool T κ} : ThreadStep t .putSignal g .putUnlock g
  | putUnlock {g : Pool T κ} : g.owner = some t →
      ThreadStep t .putUnlock g .idle { g with owner := none }
  -- `finish_threads`
  | finish {g : Pool T κ} : ThreadStep t .idle g .finishLock g
  | finishLock {g : Pool T κ} : g.owner = none →
      ThreadStep t .finishLock g .finishSet { g with owner := some t }
  | finishSet {g : Pool T κ} : ThreadStep t .finishSet g .finishBroadcast { g with finish := 1 }
  | finishBroadcast {g : Pool T κ} : ThreadStep t .finishBroadcast g .finishUnlock g
  | finishUnlock {g : Pool T κ} : g.owner = some t →
      ThreadStep t .finishUnlock g .join { g with owner := none }
  -- any of them
  | unlockUnowned {g : Pool T κ} {pc : Pc κ} : pc.Unlocks → g.owner ≠ some t →
      ThreadStep t pc g pc { g with undefined := true }

/-- A step of a thread that satisfies the condition `allowed`.  After undefined
behaviour there are no steps. -/
def PoolStep (allowed : T → Pc κ → Pool T κ → Prop) (t : T) (pc : Pc κ) (g : Pool T κ)
    (pc' : Pc κ) (g' : Pool T κ) : Prop :=
  g.undefined = false ∧ allowed t pc g ∧ ThreadStep t pc g pc' g'

/-- `start_threads`: the threads of `consumers` begin with `consumer`. -/
def started (consumers : T → Prop) [DecidablePred consumers] (list : RequestList κ) :
    Config T (Pc κ) (Pool T κ) where
  locals t := if consumers t then .loop else .idle
  shared := ⟨none, 0, 0, llInit list, ∅, [], [], false⟩

/-! ## The lock discipline -/

section Discipline

/-- No thread calls `pthread_mutex_lock` while it holds the mutex, or waits or
unlocks while it does not. -/
structure Disciplined (c : Config T (Pc κ) (Pool T κ)) : Prop where
  lock : ∀ t, (c.locals t).Locks → c.shared.owner ≠ some t
  wait : ∀ t, c.locals t = .wait → c.shared.owner = some t
  unlock : ∀ t, (c.locals t).Unlocks → c.shared.owner = some t

/-- A consumer that has just locked the mutex finds the queue empty, and one
that comes back from a request does not. -/
def TestsRight (t : T) (pc : Pc κ) (g : Pool T κ) : Prop :=
  pc = .test → (g.owner = some t ↔ g.queueSize = 0)

/-- Which threads hold the mutex, as far as the place in the code tells. -/
def Ownership (t : T) (pc : Pc κ) (g : Pool T κ) : Prop :=
  match pc with
  | .test => True
  | .wait | .woken | .leave | .remove | .decrement _ | .unlock _ | .putInsert _ | .putIncrement
  | .putSignal | .putUnlock | .finishSet | .finishBroadcast | .finishUnlock => g.owner = some t
  | _ => g.owner ≠ some t

theorem Ownership.own {t : T} {pc pc' : Pc κ} {g g' : Pool T κ} (h : Ownership t pc g)
    (htest : TestsRight t pc g) (hstep : ThreadStep t pc g pc' g') : Ownership t pc' g' := by
  cases hstep <;> simp_all [Ownership, TestsRight]

theorem ThreadStep.owner {t : T} {pc pc' : Pc κ} {g g' : Pool T κ}
    (hstep : ThreadStep t pc g pc' g') : g'.owner = g.owner ∨
      g.owner = none ∧ g'.owner = some t ∨ g.owner = some t ∧ g'.owner = none := by
  cases hstep <;> simp_all

theorem ThreadStep.owner_iff {t u : T} {pc pc' : Pc κ} {g g' : Pool T κ} (hne : u ≠ t)
    (hstep : ThreadStep t pc g pc' g') : g'.owner = some u ↔ g.owner = some u := by
  rcases hstep.owner with heq | ⟨hnone, hsome⟩ | ⟨hsome, hnone⟩
  · rw [heq]
  · simp [hnone, hsome, Ne.symm hne]
  · simp [hnone, hsome, Ne.symm hne]

theorem Ownership.other {t u : T} {pc pc' k : Pc κ} {g g' : Pool T κ} (hne : u ≠ t)
    (h : Ownership u k g) (hstep : ThreadStep t pc g pc' g') : Ownership u k g' := by
  have hiff := hstep.owner_iff hne
  have hsame : Ownership u k g' ↔ Ownership u k g := by cases k <;> simp [Ownership, hiff]
  exact hsame.mpr h

theorem Ownership.start (consumers : T → Prop) [DecidablePred consumers] (list : RequestList κ)
    (t : T) : Ownership t ((started consumers list).locals t) (started consumers list).shared := by
  simp only [started]
  split <;> simp [Ownership]

/-- The mutex is used correctly in every run in which all tests of the consumers
come out right. -/
theorem pool_disciplined [DecidableEq T] {consumers : T → Prop} [DecidablePred consumers]
    {list : RequestList κ} {l : List T} {c : Config T (Pc κ) (Pool T κ)}
    (h : Run (Moves (PoolStep TestsRight)) (started consumers list) l c) : Disciplined c := by
  have hannotated : Annotated (fun _ ↦ True) Ownership c := by
    refine Annotated.run ⟨trivial, Ownership.start consumers list⟩ h ?_ ?_
    · intro t pc g pc' g' _ hpc hstep
      exact ⟨trivial, hpc.own hstep.2.1 hstep.2.2⟩
    · intro t u pc k g pc' g' hne _ _ hk hstep
      exact hk.other hne hstep.2.2
  constructor
  · intro t hlocks
    have hpc := hannotated.locals t
    cases heq : c.locals t <;> simp_all [Pc.Locks, Ownership]
  · intro t hwait
    have hpc := hannotated.locals t
    rwa [hwait] at hpc
  · intro t hunlocks
    have hpc := hannotated.locals t
    cases heq : c.locals t <;> simp_all [Pc.Unlocks, Ownership]

/-- The condition leaves out no test that is harmless: the thread that makes it
goes on to lock the mutex it holds, or to wait without it. -/
theorem exists_undisciplined [DecidableEq T] {c : Config T (Pc κ) (Pool T κ)} {t : T}
    (hfinish : c.shared.finish = 0) (hdefined : c.shared.undefined = false)
    (hpc : c.locals t = .test) (hwrong : ¬ TestsRight t .test c.shared) :
    ∃ l d, Run (Moves (PoolStep fun _ _ _ ↦ True)) c l d ∧ ¬ Disciplined d := by
  simp only [TestsRight, forall_const] at hwrong
  have htest : GoesTo (PoolStep fun _ _ _ ↦ True) c t .test c.shared := .start hpc
  by_cases hqueue : c.shared.queueSize = 0
  · obtain ⟨l, hrun⟩ := htest.step ⟨hdefined, trivial, .empty hqueue⟩
    refine ⟨l, _, hrun, fun hdisciplined ↦ ?_⟩
    have hwait := hdisciplined.wait t (Function.update_self ..)
    exact hwrong ⟨fun _ ↦ hqueue, fun _ ↦ hwait⟩
  · have howner : c.shared.owner = some t := by
      by_contra hother
      exact hwrong ⟨fun h ↦ absurd h hother, fun h ↦ absurd h hqueue⟩
    have hloop := htest.step ⟨hdefined, trivial, .nonempty hqueue⟩
    obtain ⟨l, hrun⟩ := hloop.step ⟨hdefined, trivial, .enter hfinish⟩
    refine ⟨l, _, hrun, fun hdisciplined ↦ ?_⟩
    refine hdisciplined.lock t ?_ howner
    simp [Pc.Locks]

def emptyRequests : RequestList Unit := ⟨none, none, fun _ ↦ ⟨(), none, none⟩⟩

/-- A consumer waits for a request and removes it, and the next one is put meanwhile. -/
theorem pool_disciplined_request : ∃ l c,
    Run (Moves (PoolStep TestsRight)) (started (· = true) emptyRequests) l c ∧
      c.locals true = .unlock () ∧ c.locals false = .putLock () ∧ c.shared.accepted = [()] ∧
        Disciplined c := by
  have hstart : Turn (PoolStep TestsRight) (started (· = true) emptyRequests) _ true .loop _ :=
    .start rfl
  have hlocked := (hstart.step ⟨rfl, nofun, .enter rfl⟩).step ⟨rfl, nofun, .lock rfl⟩
  have hwaiting := (hlocked.step ⟨rfl, fun _ ↦ by simp [started], .empty rfl⟩).step
    ⟨rfl, nofun, .wait rfl⟩
  have hput := ((hwaiting.next (u := false) rfl).step ⟨rfl, nofun, .put ()⟩).step
    ⟨rfl, nofun, .putLock rfl⟩
  have hinserted := (hput.step ⟨rfl, nofun, .putInsert 0 (by simp [started])⟩).step
    ⟨rfl, nofun, .putIncrement⟩
  have hunlocked := (hinserted.step ⟨rfl, nofun, .putSignal⟩).step ⟨rfl, nofun, .putUnlock rfl⟩
  have hwoken := ((hunlocked.next (u := true) rfl).step ⟨rfl, nofun, .wake rfl⟩).step
    ⟨rfl, nofun, .proceed (by simp [started])⟩
  have hremoved := (hwoken.step ⟨rfl, nofun, .remove rfl⟩).step ⟨rfl, nofun, .decrement⟩
  obtain ⟨l, hrun⟩ := (hremoved.next (u := false) rfl).step ⟨rfl, nofun, .put ()⟩
  exact ⟨l, _, hrun, rfl, rfl, rfl, pool_disciplined hrun⟩

theorem consumer_locks_twice :
    ∃ c, Run (Moves (PoolStep fun _ _ _ ↦ True)) (started (· = true) emptyRequests)
        [false, false, false, false, false, false, true, true, true, true] c ∧
      c.locals true = .lock ∧ c.shared.owner = some true ∧ ¬ Disciplined c := by
  have hrun : Run (Moves (PoolStep fun _ _ _ ↦ True)) (started (· = true) emptyRequests)
      [false, false, false, false, false, false, true, true, true, true] _ :=
    .snoc (.snoc (.snoc (.snoc (.snoc (.snoc (.snoc (.snoc (.snoc (.snoc .nil
      (.of_locals (k := .idle) rfl ⟨rfl, trivial, .put ()⟩))
      (.of_locals (k := .putLock ()) rfl ⟨rfl, trivial, .putLock rfl⟩))
      (.of_locals (k := .putInsert ()) rfl ⟨rfl, trivial, .putInsert 0 (by simp [started])⟩))
      (.of_locals (k := .putIncrement) rfl ⟨rfl, trivial, .putIncrement⟩))
      (.of_locals (k := .putSignal) rfl ⟨rfl, trivial, .putSignal⟩))
      (.of_locals (k := .putUnlock) rfl ⟨rfl, trivial, .putUnlock rfl⟩))
      (.of_locals (k := .loop) rfl ⟨rfl, trivial, .enter rfl⟩))
      (.of_locals (k := .lock) rfl ⟨rfl, trivial, .lock rfl⟩))
      (.of_locals (k := .test) rfl ⟨rfl, trivial, .nonempty (by simp [started])⟩))
      (.of_locals (k := .loop) rfl ⟨rfl, trivial, .enter rfl⟩)
  refine ⟨_, hrun, rfl, rfl, fun hdisciplined ↦ ?_⟩
  exact hdisciplined.lock true trivial rfl

end Discipline

end OsProjects.Server
