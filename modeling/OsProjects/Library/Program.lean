import Mathlib.Algebra.Group.Int.Defs
import Mathlib.Algebra.Group.Nat.Defs
import Mathlib.Data.Int.Notation
import Mathlib.Data.Nat.Notation
import Mathlib.Logic.Function.Iterate
import Mathlib.Order.Defs.Unbundled
import Mathlib.Tactic.Common

/-!
# Stateful programs that may fault

A C function is a computation over a state that either returns or stops at a
fault, where the language gives no meaning to the rest of the run.  Both
outcomes carry the state reached, so that what happened before a fault can
still be described.  This file fixes the composition rules and one counted
loop with `break`.
-/

namespace OsProjects.Library.Program

/-! ## Conversions between C integers -/

/-- The value of an unsigned expression converted to a 32-bit `int`. -/
def cInt (n : ℕ) : ℤ := Int.bmod n (2 ^ 32)

/-- The value of a signed expression converted to `uint64_t`. -/
def cUInt64 (z : ℤ) : UInt64 := UInt64.ofNat (z % 2 ^ 64).toNat

theorem cInt_eq_self_iff {n : ℕ} : cInt n = n ↔ n < 2 ^ 31 := by
  unfold cInt
  rw [Int.bmod_def]
  split <;> omega

theorem cInt_of_lt {n : ℕ} (h : n < 2 ^ 31) : cInt n = n := cInt_eq_self_iff.mpr h

theorem toNat_cUInt64 (z : ℤ) : (cUInt64 z).toNat = (z % 2 ^ 64).toNat := by
  rw [cUInt64, UInt64.toNat_ofNat']
  omega

theorem toNat_cUInt64_natCast {n : ℕ} (h : n < 2 ^ 64) : (cUInt64 n).toNat = n := by
  rw [toNat_cUInt64]
  omega

theorem cUInt64_natCast (n : ℕ) : cUInt64 n = UInt64.ofNat n := by
  apply UInt64.toNat_inj.mp
  rw [toNat_cUInt64, UInt64.toNat_ofNat']
  omega

theorem cUInt64_add (y z : ℤ) : cUInt64 (y + z) = cUInt64 y + cUInt64 z := by
  apply UInt64.toNat_inj.mp
  rw [UInt64.toNat_add]
  simp only [toNat_cUInt64]
  omega

theorem cUInt64_sub (y z : ℤ) : cUInt64 (y - z) = cUInt64 y - cUInt64 z := by
  rw [UInt64.eq_sub_iff_add_eq, ← cUInt64_add, Int.sub_add_cancel]

/-- An access outside an array of `length` elements, which the language leaves
undefined. -/
inductive Fault
  | outOfBounds (length : ℕ) (index : ℤ)

/-! ## Composition -/

variable {ε σ α β τ : Type}

def finalState : EStateM.Result ε σ α → σ
  | .ok _ s => s
  | .error _ s => s

@[simp] theorem finalState_ok (a : α) (s : σ) :
    finalState (.ok a s : EStateM.Result ε σ α) = s := rfl

@[simp] theorem finalState_error (e : ε) (s : σ) :
    finalState (.error e s : EStateM.Result ε σ α) = s := rfl

theorem run_bind_of_ok {x : EStateM ε σ α} {f : α → EStateM ε σ β} {s t : σ} {a : α}
    (h : x.run s = .ok a t) : (x >>= f).run s = (f a).run t := by
  rw [EStateM.run_bind, h]

theorem run_bind_of_error {x : EStateM ε σ α} {f : α → EStateM ε σ β} {s t : σ} {e : ε}
    (h : x.run s = .error e t) : (x >>= f).run s = .error e t := by
  rw [EStateM.run_bind, h]

theorem run_bind_eq_ok_iff {x : EStateM ε σ α} {f : α → EStateM ε σ β} {s u : σ} {b : β} :
    (x >>= f).run s = .ok b u ↔ ∃ a t, x.run s = .ok a t ∧ (f a).run t = .ok b u := by
  cases h : x.run s with
  | ok a t =>
      rw [run_bind_of_ok h]
      constructor
      · intro hf
        exact ⟨a, t, rfl, hf⟩
      · rintro ⟨a', t', hx, hf⟩
        cases hx
        exact hf
  | error e t =>
      rw [run_bind_of_error h]
      simp

theorem finalState_bind {P : σ → Prop} {x : EStateM ε σ α} {f : α → EStateM ε σ β} {s : σ}
    (hx : P (finalState (x.run s)))
    (hf : ∀ a t, x.run s = .ok a t → P t → P (finalState ((f a).run t))) :
    P (finalState ((x >>= f).run s)) := by
  cases h : x.run s with
  | ok a t =>
      rw [run_bind_of_ok h]
      exact hf a t h (by simpa [h] using hx)
  | error e t =>
      rw [run_bind_of_error h]
      simpa [h] using hx

/-! ## Total correctness -/

/-- From `s` the computation returns, with a value and a state that satisfy `Q`. -/
def Returns (x : EStateM ε σ α) (s : σ) (Q : α → σ → Prop) : Prop :=
  ∃ a t, x.run s = .ok a t ∧ Q a t

variable {x : EStateM ε σ α} {s : σ} {P Q : α → σ → Prop}

theorem Returns.of_run {a : α} {t : σ} (h : x.run s = .ok a t) (hQ : Q a t) :
    Returns x s Q := ⟨a, t, h, hQ⟩

theorem Returns.pure {a : α} (hQ : Q a s) : Returns (pure a : EStateM ε σ α) s Q :=
  ⟨a, s, rfl, hQ⟩

theorem Returns.mono (h : Returns x s P) (hPQ : ∀ a t, P a t → Q a t) : Returns x s Q := by
  obtain ⟨a, t, hrun, hP⟩ := h
  exact ⟨a, t, hrun, hPQ a t hP⟩

theorem Returns.bind {f : α → EStateM ε σ β} {R : β → σ → Prop} (h : Returns x s P)
    (hf : ∀ a t, P a t → Returns (f a) t R) : Returns (x >>= f) s R := by
  obtain ⟨a, t, hrun, hP⟩ := h
  obtain ⟨b, u, hrest, hR⟩ := hf a t hP
  exact ⟨b, u, by rw [run_bind_of_ok hrun, hrest], hR⟩

theorem Returns.bind_run {f : α → EStateM ε σ β} {R : β → σ → Prop} {a : α} {t : σ}
    (h : x.run s = .ok a t) (hf : Returns (f a) t R) : Returns (x >>= f) s R := by
  obtain ⟨b, u, hrest, hR⟩ := hf
  exact ⟨b, u, by rw [run_bind_of_ok h, hrest], hR⟩

theorem Returns.of_run_eq {y : EStateM ε σ α} {t : σ} (h : x.run s = y.run t)
    (hy : Returns y t Q) : Returns x s Q := by
  obtain ⟨a, u, hrun, hQ⟩ := hy
  exact ⟨a, u, by rw [h, hrun], hQ⟩

theorem Returns.of_eq {a : α} {t : σ} (h : Returns x s Q) (hrun : x.run s = .ok a t) : Q a t := by
  obtain ⟨a', t', hrun', hQ⟩ := h
  rw [hrun] at hrun'
  cases hrun'
  exact hQ

/-- `Returns` for a decidable description, as a test that can be run. -/
def returnsWith (x : EStateM ε σ α) (s : σ) (q : α → σ → Bool) : Bool :=
  match x.run s with
  | .ok a t => q a t
  | .error _ _ => false

theorem returnsWith_iff {q : α → σ → Bool} :
    returnsWith x s q = true ↔ Returns x s fun a t ↦ q a t = true := by
  rw [returnsWith, Returns]
  cases x.run s <;> simp

def stopsWith [DecidableEq ε] (x : EStateM ε σ α) (s : σ) (e : ε) : Bool :=
  match x.run s with
  | .ok _ _ => false
  | .error e' _ => decide (e' = e)

theorem stopsWith_iff [DecidableEq ε] {e : ε} :
    stopsWith x s e = true ↔ ∃ t, x.run s = .error e t := by
  rw [stopsWith]
  cases x.run s <;> simp

/-! ## Both outcomes -/

/-- The run of `x` from `s` returns with a value and a state that satisfy `Q`, or
stops with an error and a state that satisfy `E`. -/
def Ends (x : EStateM ε σ α) (s : σ) (Q : α → σ → Prop) (E : ε → σ → Prop) : Prop :=
  match x.run s with
  | .ok a t => Q a t
  | .error e t => E e t

section Ends

variable {E E' : ε → σ → Prop}

theorem ends_iff_of_ok {a : α} {t : σ} (h : x.run s = .ok a t) : Ends x s Q E ↔ Q a t := by
  rw [Ends, h]

theorem ends_iff_of_error {e : ε} {t : σ} (h : x.run s = .error e t) : Ends x s Q E ↔ E e t := by
  rw [Ends, h]

theorem Ends.of_run_eq {y : EStateM ε σ α} {t : σ} (h : x.run s = y.run t)
    (hy : Ends y t Q E) : Ends x s Q E := by
  rwa [Ends, h]

theorem returns_iff_ends : Returns x s Q ↔ Ends x s Q fun _ _ ↦ False := by
  rw [Ends]
  constructor
  · rintro ⟨a, t, hrun, hQ⟩
    rwa [hrun]
  · intro h
    cases hrun : x.run s with
    | ok a t =>
        rw [hrun] at h
        exact ⟨a, t, hrun, h⟩
    | error e t =>
        rw [hrun] at h
        exact h.elim

theorem Returns.and_ends (h : Returns x s P) (h' : Ends x s Q E) :
    Returns x s fun a t ↦ P a t ∧ Q a t := by
  obtain ⟨a, t, hrun, hP⟩ := h
  exact ⟨a, t, hrun, hP, (ends_iff_of_ok hrun).mp h'⟩

theorem Ends.mono (h : Ends x s P E) (hPQ : ∀ a t, P a t → Q a t)
    (hEE : ∀ e t, E e t → E' e t) : Ends x s Q E' := by
  cases hrun : x.run s with
  | ok a t => exact (ends_iff_of_ok hrun).mpr (hPQ a t ((ends_iff_of_ok hrun).mp h))
  | error e t => exact (ends_iff_of_error hrun).mpr (hEE e t ((ends_iff_of_error hrun).mp h))

theorem Ends.bind {f : α → EStateM ε σ β} {R : β → σ → Prop} (h : Ends x s P E)
    (hf : ∀ a t, P a t → Ends (f a) t R E') (hE : ∀ e t, E e t → E' e t) :
    Ends (x >>= f) s R E' := by
  cases hrun : x.run s with
  | ok a t =>
      rw [Ends, run_bind_of_ok hrun]
      exact hf a t ((ends_iff_of_ok hrun).mp h)
  | error e t =>
      rw [Ends, run_bind_of_error hrun]
      exact hE e t ((ends_iff_of_error hrun).mp h)

section Basic

variable {R : β → σ → Prop} {f : α → EStateM ε σ β} {g : σ → σ} {a : α}

@[simp] theorem ends_pure : Ends (pure a) s Q E ↔ Q a s := Iff.rfl

@[simp] theorem ends_throw {e : ε} : Ends (throw e) s Q E ↔ E e s := Iff.rfl

@[simp] theorem ends_pure_bind : Ends (pure a >>= f) s R E ↔ Ends (f a) s R E := Iff.rfl

@[simp] theorem ends_get_bind {f : σ → EStateM ε σ β} :
    Ends (get >>= f) s R E ↔ Ends (f s) s R E := Iff.rfl

@[simp] theorem ends_modify {R : PUnit → σ → Prop} :
    Ends (modify g) s R E ↔ R ⟨⟩ (g s) := Iff.rfl

@[simp] theorem ends_modify_bind {f : PUnit → EStateM ε σ β} :
    Ends (modify g >>= f) s R E ↔ Ends (f ⟨⟩) (g s) R E := Iff.rfl

theorem ends_bind_of_ok {t : σ} (h : x.run s = .ok a t) :
    Ends (x >>= f) s R E ↔ Ends (f a) t R E := by
  rw [Ends, run_bind_of_ok h, Ends]

theorem ends_bind_of_error {e : ε} {t : σ} (h : x.run s = .error e t) :
    Ends (x >>= f) s R E ↔ E e t := by
  rw [Ends, run_bind_of_error h]

end Basic

theorem Ends.finalState {P : σ → Prop} (h : Ends x s (fun _ ↦ P) fun _ ↦ P) :
    P (finalState (x.run s)) := by
  rw [Ends] at h
  cases hrun : x.run s with
  | ok a t => rwa [hrun] at h
  | error e t => rwa [hrun] at h

end Ends

/-! ## Counted loops -/

/-- `for (i = start; i < start + count; i++)` with an accumulator for the
variables assigned in the body.  `ForInStep.done` is a `break`. -/
def forLoop (body : ℕ → τ → EStateM ε σ (ForInStep τ)) : ℕ → ℕ → τ → EStateM ε σ τ
  | _, 0, acc => pure acc
  | i, count + 1, acc => do
      match ← body i acc with
      | .yield acc => forLoop body (i + 1) count acc
      | .done acc => pure acc

variable {body : ℕ → τ → EStateM ε σ (ForInStep τ)}

theorem run_forLoop_of_yield {i count : ℕ} {acc acc' : τ} {s t : σ}
    (h : (body i acc).run s = .ok (.yield acc') t) :
    (forLoop body i (count + 1) acc).run s = (forLoop body (i + 1) count acc').run t := by
  rw [forLoop, run_bind_of_ok h]

theorem run_forLoop_of_done {i count : ℕ} {acc acc' : τ} {s t : σ}
    (h : (body i acc).run s = .ok (.done acc') t) :
    (forLoop body i (count + 1) acc).run s = .ok acc' t := by
  rw [forLoop, run_bind_of_ok h]
  rfl

theorem run_forLoop_iterate {g : σ → σ} {acc : τ}
    (h : ∀ i s, (body i acc).run s = .ok (.yield acc) (g s))
    {start count : ℕ} {s : σ} : (forLoop body start count acc).run s = .ok acc (g^[count] s) := by
  induction count generalizing start s with
  | zero => rfl
  | succ count ih => rw [run_forLoop_of_yield (h start s), ih, Function.iterate_succ_apply]

/-- A loop whose body always continues under an invariant runs all its
iterations and ends with the invariant at the upper bound. -/
theorem Returns.forLoop {I : ℕ → τ → σ → Prop} {start count : ℕ} {acc : τ} {s : σ}
    (hinit : I start acc s)
    (hstep : ∀ i acc s, start ≤ i → i < start + count → I i acc s →
      Returns (body i acc) s fun next t ↦ ∃ acc', next = .yield acc' ∧ I (i + 1) acc' t) :
    Returns (forLoop body start count acc) s (I (start + count)) := by
  induction count generalizing start acc s with
  | zero => exact ⟨acc, s, rfl, hinit⟩
  | succ count ih =>
      obtain ⟨next, s₁, hbody, acc₁, rfl, hnext⟩ :=
        hstep start acc s (Nat.le_refl start) (by omega) hinit
      obtain ⟨acc₂, s₂, hrun, hI⟩ :=
        ih hnext fun i acc s hi hlt ↦ hstep i acc s (by omega) (by omega)
      refine ⟨acc₂, s₂, ?_, ?_⟩
      · rw [run_forLoop_of_yield hbody, hrun]
      · rwa [Nat.add_right_comm, Nat.add_assoc] at hI

/-! ## Unbounded loops -/

/-- A `while` loop.  The body goes on with the variables assigned in it (`.inl`)
or leaves the loop with a value (`.inr`); a loop that has not been left when
`fuel` iterations are over is reported as `running`. -/
def whileLoop (running : ε) (body : τ → EStateM ε σ (τ ⊕ β)) : ℕ → τ → EStateM ε σ β
  | 0, _ => throw running
  | fuel + 1, acc => do
      match ← body acc with
      | .inl acc => whileLoop running body fuel acc
      | .inr b => pure b

section WhileLoop

variable {running : ε} {body : τ → EStateM ε σ (τ ⊕ β)} {I : τ → σ → Prop} {R : β → σ → Prop}

/-- A loop whose iterations decrease a number is left if it may make more
iterations than that number. -/
theorem Ends.whileLoop_of_lt {E : ε → σ → Prop} (variant : τ → σ → ℕ)
    (hstep : ∀ acc s, I acc s → Ends (body acc) s (fun next t ↦
      Sum.elim (fun acc' ↦ I acc' t ∧ variant acc' t < variant acc s) (fun b ↦ R b t) next) E)
    {fuel : ℕ} {acc : τ} {s : σ} (hinit : I acc s) (hfuel : variant acc s < fuel) :
    Ends (whileLoop running body fuel acc) s R E := by
  induction fuel generalizing acc s with
  | zero => omega
  | succ fuel ih =>
      refine (hstep acc s hinit).bind (fun next t hnext ↦ ?_) fun _ _ hE ↦ hE
      cases next with
      | inl acc' =>
          obtain ⟨hI, hlt⟩ := hnext
          exact ih hI (by omega)
      | inr b => exact hnext

theorem Ends.whileLoop {E : ε → σ → Prop}
    (hstep : ∀ acc s, I acc s →
      Ends (body acc) s (fun next t ↦ Sum.elim (fun acc ↦ I acc t) (fun b ↦ R b t) next) E)
    (hrunning : ∀ acc s, I acc s → E running s) {fuel : ℕ} {acc : τ} {s : σ} (hinit : I acc s) :
    Ends (whileLoop running body fuel acc) s R E := by
  induction fuel generalizing acc s with
  | zero => exact hrunning acc s hinit
  | succ fuel ih =>
      refine (hstep acc s hinit).bind (fun next t hnext ↦ ?_) fun _ _ hE ↦ hE
      cases next with
      | inl acc' => exact ih hnext
      | inr b => exact hnext

/-- Iterations that go on, with the variables `A` and the states `S`, can be skipped. -/
theorem run_whileLoop_of_continues {A : ℕ → τ} {S : ℕ → σ} {count fuel : ℕ}
    (h : ∀ i < count, (body (A i)).run (S i) = .ok (.inl (A (i + 1))) (S (i + 1))) :
    (Program.whileLoop running body (count + fuel) (A 0)).run (S 0) =
      (Program.whileLoop running body fuel (A count)).run (S count) := by
  induction count generalizing fuel with
  | zero => rw [Nat.zero_add]
  | succ count ih =>
      have hskip : (Program.whileLoop running body (count + (fuel + 1)) (A 0)).run (S 0) =
          (Program.whileLoop running body (fuel + 1) (A count)).run (S count) :=
        ih fun i hi ↦ h i (Nat.lt_succ_of_lt hi)
      have hlast := h count (Nat.lt_succ_self count)
      rw [Nat.succ_add_eq_add_succ, hskip, Program.whileLoop, run_bind_of_ok hlast]

/-- A loop that is over does not use more fuel. -/
theorem run_whileLoop_add {fuel n : ℕ} {acc : τ} {s : σ}
    (h : ∀ t, (Program.whileLoop running body fuel acc).run s ≠ .error running t) :
    (Program.whileLoop running body (fuel + n) acc).run s =
      (Program.whileLoop running body fuel acc).run s := by
  induction fuel generalizing acc s with
  | zero => exact absurd rfl (h s)
  | succ fuel ih =>
      rw [Nat.add_right_comm, Program.whileLoop, Program.whileLoop]
      rw [Program.whileLoop] at h
      cases hbody : (body acc).run s with
      | error e t => rw [run_bind_of_error hbody, run_bind_of_error hbody]
      | ok next t =>
          rw [run_bind_of_ok hbody, run_bind_of_ok hbody]
          rw [run_bind_of_ok hbody] at h
          cases next with
          | inl acc' => exact ih h
          | inr b => rfl

/-- Loops whose bodies are the same under an invariant are the same. -/
theorem run_whileLoop_congr {body' : τ → EStateM ε σ (τ ⊕ β)}
    (hsame : ∀ acc s, I acc s → (body acc).run s = (body' acc).run s)
    (hstep : ∀ acc s acc' t, I acc s → (body acc).run s = .ok (.inl acc') t → I acc' t)
    {fuel : ℕ} {acc : τ} {s : σ} (hinit : I acc s) :
    (Program.whileLoop running body fuel acc).run s =
      (Program.whileLoop running body' fuel acc).run s := by
  induction fuel generalizing acc s with
  | zero => rfl
  | succ fuel ih =>
      have hbody' := hsame acc s hinit
      rw [Program.whileLoop, Program.whileLoop]
      cases hbody : (body acc).run s with
      | error e t => rw [run_bind_of_error hbody, run_bind_of_error (hbody' ▸ hbody)]
      | ok next t =>
          rw [run_bind_of_ok hbody, run_bind_of_ok (hbody' ▸ hbody)]
          cases next with
          | inl acc' => exact ih (hstep acc s acc' t hinit hbody)
          | inr b => rfl

theorem Returns.whileLoop (variant : τ → σ → ℕ)
    (hstep : ∀ acc s, I acc s → Returns (body acc) s fun next t ↦
      Sum.elim (fun acc' ↦ I acc' t ∧ variant acc' t < variant acc s) (fun b ↦ R b t) next)
    {fuel : ℕ} {acc : τ} {s : σ} (hinit : I acc s) (hfuel : variant acc s < fuel) :
    Returns (whileLoop running body fuel acc) s R := by
  rw [returns_iff_ends]
  refine Ends.whileLoop_of_lt variant (fun acc s h ↦ ?_) hinit hfuel
  exact returns_iff_ends.mp (hstep acc s h)

end WhileLoop

/-! ## Faults -/

/-- If `x` stops at a fault, it does so in a state that satisfies `P`. -/
def FaultsIn (P : σ → Prop) (x : EStateM ε σ α) : Prop := ∀ s e t, x.run s = .error e t → P t

section Faults

variable {P : σ → Prop}

theorem FaultsIn.of_run (h : ∀ s, ∃ a t, x.run s = .ok a t) : FaultsIn P x := by
  intro s e t hrun
  obtain ⟨a, u, hok⟩ := h s
  rw [hok] at hrun
  cases hrun

theorem FaultsIn.pure (a : α) : FaultsIn P (pure a : EStateM ε σ α) := by
  apply FaultsIn.of_run
  intro s
  exact ⟨a, s, rfl⟩

theorem FaultsIn.bind {f : α → EStateM ε σ β} (hx : FaultsIn P x) (hf : ∀ a, FaultsIn P (f a)) :
    FaultsIn P (x >>= f) := by
  intro s e u hrun
  cases h : x.run s with
  | ok a t =>
      rw [run_bind_of_ok h] at hrun
      exact hf a t e u hrun
  | error e' t =>
      rw [run_bind_of_error h] at hrun
      cases hrun
      exact hx s _ _ h

theorem FaultsIn.forLoop {start count : ℕ} {acc : τ} (h : ∀ i acc, FaultsIn P (body i acc)) :
    FaultsIn P (forLoop body start count acc) := by
  induction count generalizing start acc with
  | zero => exact .pure acc
  | succ count ih =>
      refine .bind (h start acc) fun next ↦ ?_
      cases next with
      | done acc' => exact .pure acc'
      | yield acc' => exact ih

theorem FaultsIn.finalState_bind {f : α → EStateM ε σ β} (hx : FaultsIn P x) {s : σ}
    (hf : ∀ a t, x.run s = .ok a t → P (finalState ((f a).run t))) :
    P (finalState ((x >>= f).run s)) := by
  cases h : x.run s with
  | ok a t =>
      rw [run_bind_of_ok h]
      exact hf a t h
  | error e t =>
      rw [run_bind_of_error h]
      exact hx s e t h

end Faults

/-! ## Guarantees -/

/-- Every run of `x`, returning or not, makes a transition of `R`, and if it
returns its value satisfies `Q`. -/
def Guarantees (R : σ → σ → Prop) (x : EStateM ε σ α) (Q : α → Prop) : Prop :=
  ∀ s, R s (finalState (x.run s)) ∧ ∀ a t, x.run s = .ok a t → Q a

section Guarantees

variable {R : σ → σ → Prop} {A A' : α → Prop} {B : β → Prop}

theorem Guarantees.mono (h : Guarantees R x A) (hA : ∀ a, A a → A' a) : Guarantees R x A' :=
  fun s ↦ ⟨(h s).1, fun a t hrun ↦ hA a ((h s).2 a t hrun)⟩

theorem Guarantees.of_run (h : ∀ s, ∃ a t, x.run s = .ok a t ∧ R s t ∧ A a) :
    Guarantees R x A := by
  intro s
  obtain ⟨a, t, hrun, hR, hA⟩ := h s
  rw [hrun]
  refine ⟨hR, fun b u heq ↦ ?_⟩
  cases heq
  exact hA

theorem Guarantees.pure [Std.Refl R] {a : α} (hA : A a) :
    Guarantees R (pure a : EStateM ε σ α) A :=
  .of_run fun s ↦ ⟨a, s, rfl, refl_of R s, hA⟩

theorem Guarantees.throw [Std.Refl R] (e : ε) :
    Guarantees R (throw e : EStateM ε σ α) A := by
  intro s
  refine ⟨refl_of R s, fun a t hrun ↦ ?_⟩
  cases hrun

theorem Guarantees.bind [IsTrans σ R] {f : α → EStateM ε σ β} (hx : Guarantees R x A)
    (hf : ∀ a, A a → Guarantees R (f a) B) : Guarantees R (x >>= f) B := by
  intro s
  obtain ⟨hR, hA⟩ := hx s
  cases h : x.run s with
  | ok a t =>
      rw [run_bind_of_ok h]
      rw [h] at hR
      obtain ⟨hR', hB⟩ := hf a (hA a t h) t
      exact ⟨trans_of R hR hR', hB⟩
  | error e t =>
      rw [run_bind_of_error h]
      rw [h] at hR
      exact ⟨hR, by rintro b u ⟨⟩⟩

theorem Guarantees.forLoop [Std.Refl R] [IsTrans σ R] {I : ℕ → τ → Prop} {start count : ℕ}
    {acc : τ} (hinit : I start acc)
    (hstep : ∀ i acc, start ≤ i → i < start + count → I i acc →
      Guarantees R (body i acc) fun next ↦ ∀ acc', next = .yield acc' → I (i + 1) acc') :
    Guarantees R (forLoop body start count acc) fun _ ↦ True := by
  induction count generalizing start acc with
  | zero => exact .pure trivial
  | succ count ih =>
      refine .bind (hstep start acc (Nat.le_refl start) (by omega) hinit) fun next hnext ↦ ?_
      cases next with
      | done acc' => exact .pure trivial
      | yield acc' =>
          exact ih (hnext acc' rfl) fun i acc hi hlt ↦ hstep i acc (by omega) (by omega)

end Guarantees

end OsProjects.Library.Program
