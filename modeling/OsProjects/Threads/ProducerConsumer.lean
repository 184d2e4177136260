import OsProjects.Threads.MutualExclusion

/-!
# Producers and consumers

The loops of `producer-consumer1.c` and `producer-consumer2.c` in any number of
threads.  Only the holder of `queue_lock` reads or writes `queue_size`, so that
the value it reads is still there when it writes, and a consumer that has found
the queue not empty finds it so until it has consumed.
-/

namespace OsProjects.Threads

open Library.Runs Library.Interleaving

/-- The mutex `queue_lock`.  There is one condition variable, `queue_not_empty`. -/
def queueLock : Mutex Unit Unit := .user ()

/-- What the loops consist of.  Messages and `usleep` are left out. -/
inductive Statement
  | call (call : Call Unit Unit)
  /-- The reading of `queue_size++` or `queue_size--`, and the writing. -/
  | load
  | store (change : ℤ)
  /-- `while(queue_size == 0)` with `thread_cond_wait(&queue_not_empty, &queue_lock)` -/
  | waitWhileEmpty
  /-- `if(queue_size == 0)` with a message, and `queue_size--` otherwise -/
  | consumeUnlessEmpty

def increment : List Statement := [.load, .store 1]

def decrement : List Statement := [.load, .store (-1)]

/-! ## `producer-consumer1.c` -/

def producer1 : List Statement :=
  [.call (.lock ())] ++ increment ++ [.call (.unlock ()), .call .yield]

def consumer1 : List Statement :=
  [.call (.lock ()), .consumeUnlessEmpty, .call (.unlock ()), .call .yield]

/-! ## `producer-consumer2.c` -/

def producer2 : List Statement :=
  [.call (.lock ())] ++ increment ++ [.call (.signal ()), .call (.unlock ())]

def consumer2 : List Statement :=
  [.call (.lock ()), .waitWhileEmpty] ++ decrement ++ [.call (.unlock ())]

/-! ## Interleaving -/

inductive Loop
  | producer1
  | consumer1
  | producer2
  | consumer2

def Loop.body : Loop → List Statement
  | .producer1 => Threads.producer1
  | .consumer1 => Threads.consumer1
  | .producer2 => Threads.producer2
  | .consumer2 => Threads.consumer2

/-- What a thread has still to do in its loop, the value it has read, and the call it
has made. -/
structure LoopThread where
  todo : List Statement
  register : ℤ
  thread : Thread Unit Unit

/-- The locks and `queue_size`, and how many productions and consumptions have been
completed, which they are with the writing of `queue_size`. -/
structure Queue where
  locked : Locks Unit Unit
  queueSize : ℤ
  productions : ℕ
  consumptions : ℕ

/-- `queue_size` after a production or a consumption. -/
def Queue.write (g : Queue) (value change : ℤ) : Queue :=
  { g with
    queueSize := value
    productions := if 0 < change then g.productions + 1 else g.productions
    consumptions := if 0 < change then g.consumptions else g.consumptions + 1 }

variable {T : Type}

/-- A step of a thread.  `thread_yield` in `thread_cond_wait` may return at any time. -/
inductive LoopStep (loop : T → Loop) (t : T) (l : LoopThread) (g : Queue) :
    LoopThread → Queue → Prop
  | again : l.thread.todo = [] → l.todo = [] →
      LoopStep loop t l g { l with todo := (loop t).body } g
  | call {call : Call Unit Unit} {rest : List Statement} : l.thread.todo = [] →
      l.todo = .call call :: rest →
      LoopStep loop t l g { l with todo := rest, thread := l.thread.begin call } g
  | sync {thread : Thread Unit Unit} {locked : Locks Unit Unit} : l.thread.todo ≠ [] →
      SyncStep t l.thread g.locked thread locked →
      LoopStep loop t l g { l with thread := thread } { g with locked := locked }
  | load {rest : List Statement} : l.thread.todo = [] → l.todo = .load :: rest →
      LoopStep loop t l g { l with todo := rest, register := g.queueSize } g
  | store {change : ℤ} {rest : List Statement} : l.thread.todo = [] →
      l.todo = .store change :: rest →
      LoopStep loop t l g { l with todo := rest } (g.write (l.register + change) change)
  | wait {rest : List Statement} : l.thread.todo = [] → l.todo = .waitWhileEmpty :: rest →
      g.queueSize = 0 →
      LoopStep loop t l g { l with todo := .call (.wait () ()) :: l.todo } g
  | goOn {rest : List Statement} : l.thread.todo = [] → l.todo = .waitWhileEmpty :: rest →
      g.queueSize ≠ 0 → LoopStep loop t l g { l with todo := rest } g
  | skip {rest : List Statement} : l.thread.todo = [] → l.todo = .consumeUnlessEmpty :: rest →
      g.queueSize = 0 → LoopStep loop t l g { l with todo := rest } g
  | consume {rest : List Statement} : l.thread.todo = [] → l.todo = .consumeUnlessEmpty :: rest →
      g.queueSize ≠ 0 → LoopStep loop t l g { l with todo := decrement ++ rest } g

/-- The threads are about to begin with their loops. -/
def loopsStarted (T : Type) : Config T LoopThread Queue :=
  ⟨fun _ ↦ ⟨[], 0, .idle⟩, ⟨fun _ ↦ false, 0, 0, 0⟩⟩

/-! ## What a thread may do -/

/-- A thread that holds the lock or not, with this `queue_size` and this value read,
may do what follows.  What it knows it forgets when it calls a function. -/
def Safe : List Statement → Prop → ℤ → ℤ → Prop
  | [], owns, _, _ => ¬ owns
  | .call (.lock _) :: rest, owns, _, _ => ¬ owns ∧ ∀ q ≥ 0, ∀ r, Safe rest True q r
  | .call (.unlock _) :: rest, owns, _, _ => owns ∧ ∀ q ≥ 0, ∀ r, Safe rest False q r
  | .call (.wait _ _) :: rest, owns, _, _ => owns ∧ ∀ q ≥ 0, ∀ r, Safe rest True q r
  | .call _ :: rest, owns, _, _ => ∀ q ≥ 0, ∀ r, Safe rest owns q r
  | .load :: rest, owns, q, _ => owns ∧ Safe rest owns q q
  | .store change :: rest, owns, q, r =>
      owns ∧ r = q ∧ (change = 1 ∨ change = -1 ∧ 0 < q) ∧ Safe rest owns (q + change) r
  | .waitWhileEmpty :: rest, owns, _, _ => owns ∧ ∀ q > 0, ∀ r, Safe rest owns q r
  | .consumeUnlessEmpty :: rest, owns, _, _ =>
      owns ∧ ∀ q ≥ 0, ∀ r, Safe rest owns q r

theorem safe_body (loop : Loop) (q r : ℤ) : Safe loop.body False q r := by
  cases loop with
  | producer1 => simp [Loop.body, producer1, increment, Safe]
  | consumer1 => simp [Loop.body, consumer1, Safe]
  | producer2 => simp [Loop.body, producer2, increment, Safe]
  | consumer2 => simp [Loop.body, consumer2, decrement, Safe]

/-- What holds when the call of a thread returns. -/
def Resumes (todo : List Statement) (held : Set (Mutex Unit Unit)) : Prop :=
  ∀ q ≥ 0, ∀ r, Safe todo (queueLock ∈ held) q r

theorem Resumes.of_mem {todo : List Statement} {held : Set (Mutex Unit Unit)}
    (h : ∀ q ≥ 0, ∀ r, Safe todo True q r) (hmem : queueLock ∈ held) : Resumes todo held := by
  intro q hq r
  rw [eq_true hmem]
  exact h q hq r

theorem Resumes.of_not_mem {todo : List Statement} {held : Set (Mutex Unit Unit)}
    (h : ∀ q ≥ 0, ∀ r, Safe todo False q r) (hmem : queueLock ∉ held) : Resumes todo held := by
  intro q hq r
  rw [eq_false hmem]
  exact h q hq r

/-- A call that a thread may make releases only what it holds then, and the thread may
go on when it returns. -/
theorem releases_of_safe {call : Call Unit Unit} {rest : List Statement} {q r : ℤ}
    {held : Set (Mutex Unit Unit)} (h : Safe (.call call :: rest) (queueLock ∈ held) q r) :
    Releases (Resumes rest) call.body held := by
  cases call with
  | lock m => exact fun _ ↦ .of_mem h.2 (Set.mem_insert _ held)
  | unlock m => exact ⟨h.1, .of_not_mem h.2 fun hmem ↦ hmem.2 rfl⟩
  | wait c m =>
      intro _
      have hmutex : queueLock ∈ insert (.internal c) held := Set.mem_insert_of_mem _ h.1
      refine ⟨hmutex, ⟨Set.mem_insert _ _, nofun⟩, fun _ ↦ ?_⟩
      exact .of_mem h.2 (Set.mem_insert _ _)
  | signal c =>
      have hrest : Releases (Resumes rest) [] held := h
      exact releases_threadCondSignal hrest
  | broadcast c =>
      have hrest : Releases (Resumes rest) [.signalAgain c] held := h
      exact releases_threadCondSignal hrest
  | create => exact h
  | yield => exact h
  | exit => exact h
  | join target => exact h

/-- Without the lock it does not matter how many there are in the queue. -/
theorem Safe.of_not_owns {todo : List Statement} {owns : Prop} {q q' r : ℤ}
    (h : Safe todo owns q r) (howns : ¬ owns) : Safe todo owns q' r := by
  cases todo with
  | nil => exact h
  | cons statement rest =>
      cases statement with
      | call call => cases call <;> exact h
      | load => exact absurd h.1 howns
      | store change => exact absurd h.1 howns
      | waitWhileEmpty => exact absurd h.1 howns
      | consumeUnlessEmpty => exact absurd h.1 howns

/-! ## The invariant -/

/-- What a thread is going to do is safe, now or when its call returns. -/
structure LoopThread.Sound (l : LoopThread) (queueSize : ℤ) : Prop where
  idle : l.thread.todo = [] → Safe l.todo (queueLock ∈ l.thread.held) queueSize l.register
  busy : l.thread.todo ≠ [] → Releases (Resumes l.todo) l.thread.todo l.thread.held

theorem LoopThread.Sound.of_idle {l : LoopThread} {queueSize : ℤ} (htodo : l.thread.todo = [])
    (h : Safe l.todo (queueLock ∈ l.thread.held) queueSize l.register) : l.Sound queueSize :=
  ⟨fun _ ↦ h, fun hne ↦ absurd htodo hne⟩

theorem LoopThread.Sound.of_releases {l : LoopThread} {queueSize : ℤ} (hqueue : 0 ≤ queueSize)
    (h : Releases (Resumes l.todo) l.thread.todo l.thread.held) : l.Sound queueSize := by
  refine ⟨fun htodo ↦ ?_, fun _ ↦ h⟩
  rw [htodo] at h
  exact h queueSize hqueue l.register

theorem LoopThread.Sound.safe {l : LoopThread} {queueSize : ℤ} {todo : List Statement}
    (h : l.Sound queueSize) (hidle : l.thread.todo = []) (htodo : l.todo = todo) :
    Safe todo (queueLock ∈ l.thread.held) queueSize l.register := by
  rw [← htodo]
  exact h.idle hidle

theorem LoopThread.Sound.of_not_mem {l : LoopThread} {queueSize queueSize' : ℤ}
    (h : l.Sound queueSize) (hmem : queueLock ∉ l.thread.held) : l.Sound queueSize' :=
  ⟨fun htodo ↦ (h.idle htodo).of_not_owns hmem, h.busy⟩

structure Queue.Counted (g : Queue) : Prop where
  nonneg : 0 ≤ g.queueSize
  counted : g.queueSize = g.productions - g.consumptions

/-- A production and a consumption keep the count, the latter of what is there. -/
theorem Queue.Counted.write {g : Queue} (h : g.Counted) {change : ℤ}
    (hchange : change = 1 ∨ change = -1 ∧ 0 < g.queueSize) :
    (g.write (g.queueSize + change) change).Counted := by
  have hnonneg := h.nonneg
  have hcounted := h.counted
  rcases hchange with rfl | ⟨rfl, hpositive⟩
  · refine ⟨?_, ?_⟩
    · simp only [Queue.write]
      omega
    · simp only [Queue.write, Int.zero_lt_one, if_true]
      omega
  · refine ⟨?_, ?_⟩
    · simp only [Queue.write]
      omega
    · simp only [Queue.write]
      rw [if_neg (by decide), if_neg (by decide)]
      omega

structure LoopsSound (c : Config T LoopThread Queue) : Prop extends c.shared.Counted where
  owned : Owned (fun t ↦ (c.locals t).thread.held) c.shared.locked
  threads : ∀ t, (c.locals t).Sound c.shared.queueSize

/-- A step of a thread, from what it holds and what it is going to do. -/
theorem LoopStep.sound {loop : T → Loop} {t : T} {l l' : LoopThread} {g g' : Queue}
    (hstep : LoopStep loop t l g l' g') (hg : g.Counted) (hl : l.Sound g.queueSize)
    (hlocked : ∀ m ∈ l.thread.held, g.locked m = true) :
    Holding l.thread.held g.locked l'.thread.held g'.locked ∧ g'.Counted ∧
      l'.Sound g'.queueSize ∧ (g'.queueSize = g.queueSize ∨ queueLock ∈ l.thread.held) := by
  have hnonneg := hg.nonneg
  cases hstep with
  | again htodo hend =>
      have howns : queueLock ∉ l.thread.held := hl.safe htodo hend
      refine ⟨.same, hg, .of_idle htodo ?_, .inl rfl⟩
      rw [eq_false howns]
      exact safe_body (loop t) _ _
  | call htodo hcall =>
      have hsafe := hl.safe htodo hcall
      exact ⟨.same, hg, .of_releases hnonneg (releases_of_safe hsafe), .inl rfl⟩
  | sync hbusy hsync =>
      have hreleases := hl.busy hbusy
      cases hsync with
      | call hidle => exact absurd hidle hbusy
      | other hcommand hnone hmay =>
          rw [hcommand] at hreleases
          have hrest := releases_append_of_mayContinue hmay
            (releases_of_mutexStep hcommand hnone hreleases)
          exact ⟨.same, hg, .of_releases hnonneg hrest, .inl rfl⟩
      | mutex hmutex =>
          obtain ⟨hholding, hrest, -⟩ := holding_of_mutexStep hmutex hreleases hlocked
          exact ⟨hholding, ⟨hg.nonneg, hg.counted⟩, .of_releases hnonneg hrest, .inl rfl⟩
  | load htodo hload =>
      obtain ⟨-, hrest⟩ := hl.safe htodo hload
      exact ⟨.same, hg, .of_idle htodo hrest, .inl rfl⟩
  | store htodo hstore =>
      obtain ⟨howns, hregister, hchange, hrest⟩ := hl.safe htodo hstore
      rw [hregister] at hrest ⊢
      exact ⟨.same, hg.write hchange, .of_idle htodo hrest, .inr howns⟩
  | wait htodo hwait hempty =>
      obtain ⟨howns, hrest⟩ := hl.safe htodo hwait
      refine ⟨.same, hg, .of_idle htodo ?_, .inl rfl⟩
      dsimp only
      rw [hwait]
      refine ⟨howns, fun q _ r ↦ ⟨trivial, fun q' hq' r' ↦ ?_⟩⟩
      have hwoken := hrest q' hq' r'
      rwa [eq_true howns] at hwoken
  | goOn htodo hwait hne =>
      obtain ⟨-, hrest⟩ := hl.safe htodo hwait
      exact ⟨.same, hg, .of_idle htodo (hrest _ (by omega) _), .inl rfl⟩
  | skip htodo htest hempty =>
      obtain ⟨-, hrest⟩ := hl.safe htodo htest
      exact ⟨.same, hg, .of_idle htodo (hrest _ (by omega) _), .inl rfl⟩
  | consume htodo htest hne =>
      obtain ⟨howns, hrest⟩ := hl.safe htodo htest
      refine ⟨.same, hg, .of_idle htodo ?_, .inl rfl⟩
      exact ⟨howns, howns, rfl, .inr ⟨rfl, by omega⟩, hrest _ (by omega) _⟩

variable [DecidableEq T] {loop : T → Loop} {c d : Config T LoopThread Queue}

theorem LoopsSound.moves (h : LoopsSound c) {t : T} (hmoves : Moves (LoopStep loop) c t d) :
    LoopsSound d := by
  cases hmoves with
  | @intro l g hstep =>
      obtain ⟨hholding, hcounted, hsound, hqueue⟩ := hstep.sound h.toCounted (h.threads t)
        fun m hm ↦ (h.owned.locked_iff m).mpr ⟨t, hm⟩
      have hheld : (fun l : LoopThread ↦ l.thread.held) ∘ Function.update c.locals t l =
          Function.update (fun u ↦ (c.locals u).thread.held) t l.thread.held :=
        Function.comp_update ..
      refine ⟨hcounted, ?_, fun u ↦ ?_⟩
      · have howned := h.owned.step hholding
        rwa [← hheld] at howned
      · dsimp only
        by_cases hu : u = t
        · subst hu
          rwa [Function.update_self]
        · have hother := h.threads u
          rw [Function.update_of_ne hu]
          rcases hqueue with hsame | howns
          · rwa [hsame]
          · exact hother.of_not_mem fun hmem ↦ hu (h.owned.unique _ u t hmem howns)

omit [DecidableEq T] in
theorem loopsSound_loopsStarted : LoopsSound (loopsStarted T) where
  nonneg := le_rfl
  counted := rfl
  owned := ⟨nofun, by simp [loopsStarted, Thread.idle]⟩
  threads _ := .of_idle rfl id

/-- However the loops interleave, no update of `queue_size` is lost, and no consumer
decrements it when it is 0. -/
theorem no_update_lost {ts : List T} (hrun : Run (Moves (LoopStep loop)) (loopsStarted T) ts c) :
    (c.shared.locked queueLock = false →
      c.shared.queueSize = c.shared.productions - c.shared.consumptions) ∧
    (∀ t rest, (c.locals t).thread.todo = [] → (c.locals t).todo = .store (-1) :: rest →
      0 < c.shared.queueSize ∧ (c.locals t).register = c.shared.queueSize) ∧
    0 ≤ c.shared.queueSize := by
  have hsound := hrun.invariant loopsSound_loopsStarted fun _ _ _ h hmoves ↦ h.moves hmoves
  refine ⟨fun _ ↦ hsound.counted, fun t rest htodo hstore ↦ ?_, hsound.nonneg⟩
  obtain ⟨-, hregister, hchange, -⟩ := (hsound.threads t).safe htodo hstore
  exact ⟨(hchange.resolve_left (by decide)).2, hregister⟩

/-- A consumer waits, and is given the lock back when a producer has gone through its loop. -/
theorem no_update_lost_waiting : ∃ (ts ts' : List Bool) (c d : Config Bool LoopThread Queue),
    Run (Moves (LoopStep fun t ↦ if t then .consumer2 else .producer2)) (loopsStarted Bool) ts c ∧
      (c.locals true).todo = [.store (-1), .call (.unlock ())] ∧ 0 < c.shared.queueSize ∧
      (c.locals true).register = c.shared.queueSize ∧
    Run (Moves (LoopStep fun t ↦ if t then .consumer2 else .producer2)) c ts' d ∧
      d.shared.locked queueLock = false ∧ d.shared.productions = 1 ∧ d.shared.consumptions = 1 ∧
      d.shared.queueSize = d.shared.productions - d.shared.consumptions := by
  let step := LoopStep fun t : Bool ↦ if t then .consumer2 else .producer2
  have hstart : Turn step (loopsStarted Bool) _ true ⟨[], 0, .idle⟩ ⟨fun _ ↦ false, 0, 0, 0⟩ :=
    .start rfl
  have hlock := (hstart.step (.again rfl rfl)).step (.call rfl rfl)
  have hlocked := (hlock.step (.sync nofun (.mutex rfl))).step (.sync nofun (.mutex rfl))
  have hwait := (hlocked.step (.wait rfl rfl rfl)).step (.call rfl rfl)
  have hinternal := (hwait.step (.sync nofun (.mutex rfl))).step (.sync nofun (.mutex rfl))
  have hblocked := (hinternal.step (.sync nofun (.skip rfl rfl rfl))).step
    (.sync nofun (.skip rfl rfl rfl))
  have hwaiting := (hblocked.step (.sync nofun (.mutex rfl))).step (.sync nofun (.mutex rfl))
  have hproducer := hwaiting.next (u := false) (k := ⟨[], 0, .idle⟩) rfl
  have htaken := (((hproducer.step (.again rfl rfl)).step (.call rfl rfl)).step
    (.sync nofun (.mutex rfl))).step (.sync nofun (.mutex rfl))
  have hproduced := (htaken.step (.load rfl rfl)).step (.store rfl rfl)
  have hsignal := (hproduced.step (.call rfl rfl)).step (.sync nofun (.mutex rfl))
  have hremoved := (hsignal.step (.sync nofun (.mutex rfl))).step (.sync nofun (.skip rfl rfl rfl))
  have hsignalled := (hremoved.step (.sync nofun (.skip rfl rfl rfl))).step
    (.sync nofun (.mutex rfl))
  -- `thread_yield` returns while the producer has the lock
  have hspins := ((hsignalled.next (u := true) rfl).step (.sync nofun (.skip rfl rfl rfl))).step
    (.sync nofun (.mutex rfl))
  have hunlocked := ((hspins.next (u := false) rfl).step (.call rfl rfl)).step
    (.sync nofun (.mutex rfl))
  have hresumed := ((hunlocked.next (u := true) rfl).step (.sync nofun (.mutex rfl))).step
    (.sync nofun (.mutex rfl))
  obtain ⟨⟨ts, hread⟩, hturn⟩ :=
    ((hresumed.step (.goOn rfl rfl (by decide))).step (.load rfl rfl)).split
  obtain ⟨hpositive, hregister⟩ := (no_update_lost hread).2.1 true [.call (.unlock ())] rfl rfl
  obtain ⟨ts', hreturns⟩ := ((hturn.step (.store rfl rfl)).step (.call rfl rfl)).step
    (.sync nofun (.mutex rfl))
  refine ⟨ts, ts', _, _, hread, rfl, hpositive, hregister, hreturns, rfl, rfl, rfl, ?_⟩
  exact (no_update_lost (hread.append hreturns)).1 rfl

end OsProjects.Threads
