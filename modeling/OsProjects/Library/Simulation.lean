import OsProjects.Library.Program

/-!
# Programs and the abstract programs they simulate

An abstract program is a partial function of an abstract state.  A stateful program
simulates it from related states if it returns the same value in related states, or
faults where the abstract program has no result.
-/

namespace OsProjects.Library.Program

variable {ε σ τ α β ι : Type} {R : σ → τ → Prop}

def Simulates (R : σ → τ → Prop) (x : EStateM ε σ α) (y : StateT τ Option α) (s : σ) (t : τ) :
    Prop :=
  match y.run t with
  | some (a, t') => ∃ s', x.run s = .ok a s' ∧ R s' t'
  | none => ∃ e s', x.run s = .error e s'

theorem Simulates.of_some {x : EStateM ε σ α} {y : StateT τ Option α} {s s' : σ} {t t' : τ}
    {a : α} (hx : x.run s = .ok a s') (hy : y.run t = some (a, t')) (h : R s' t') :
    Simulates R x y s t := by
  rw [Simulates, hy]
  exact ⟨s', hx, h⟩

theorem Simulates.of_none {x : EStateM ε σ α} {y : StateT τ Option α} {s s' : σ} {t : τ} {e : ε}
    (hx : x.run s = .error e s') (hy : y.run t = none) : Simulates R x y s t := by
  rw [Simulates, hy]
  exact ⟨e, s', hx⟩

theorem Simulates.mono {R' : σ → τ → Prop} {x : EStateM ε σ α} {y : StateT τ Option α} {s : σ}
    {t : τ} (h : Simulates R x y s t) (hRR' : ∀ s t, R s t → R' s t) : Simulates R' x y s t := by
  rw [Simulates] at h ⊢
  split at h
  · obtain ⟨s', hx, hR⟩ := h
    exact ⟨s', hx, hRR' _ _ hR⟩
  · exact h

theorem Simulates.pure {a : α} {s : σ} {t : τ} (h : R s t) :
    Simulates R (pure a : EStateM ε σ α) (pure a) s t :=
  .of_some rfl rfl h

theorem Simulates.bind {x : EStateM ε σ α} {y : StateT τ Option α} {f : α → EStateM ε σ β}
    {g : α → StateT τ Option β} {s : σ} {t : τ} (h : Simulates R x y s t)
    (hrest : ∀ a s' t', x.run s = .ok a s' → y.run t = some (a, t') → R s' t' →
      Simulates R (f a) (g a) s' t') : Simulates R (x >>= f) (y >>= g) s t := by
  rw [Simulates] at h
  cases hy : y.run t with
  | none =>
      rw [hy] at h
      obtain ⟨e, s', hx⟩ := h
      refine .of_none (run_bind_of_error hx) ?_
      rw [StateT.run_bind, hy]
      rfl
  | some result =>
      rw [hy] at h
      obtain ⟨s', hx, hR⟩ := h
      have hf := hrest _ _ _ hx hy hR
      rw [Simulates] at hf ⊢
      rw [run_bind_of_ok hx, StateT.run_bind, hy]
      exact hf

/-- Each action of the list satisfies `P` in the states in which it is run. -/
def Admitted (P : ι → σ → τ → Prop) (x : ι → EStateM ε σ α) (y : ι → StateT τ Option α) :
    List ι → σ → τ → Prop
  | [], _, _ => True
  | i :: l, s, t => P i s t ∧
      ∀ a s' t', (x i).run s = .ok a s' → (y i).run t = some (a, t') → Admitted P x y l s' t'

/-- A sequence of actions simulates the sequence of the abstract ones. -/
theorem Simulates.mapM {P : ι → σ → τ → Prop} {x : ι → EStateM ε σ α}
    {y : ι → StateT τ Option α} {l : List ι} {s : σ} {t : τ}
    (hstep : ∀ i s t, R s t → P i s t → Simulates R (x i) (y i) s t) (hR : R s t)
    (hadmitted : Admitted P x y l s t) : Simulates R (l.mapM x) (l.mapM y) s t := by
  induction l generalizing s t with
  | nil => exact .pure hR
  | cons i l ih =>
      obtain ⟨hP, hrest⟩ := hadmitted
      rw [List.mapM_cons, List.mapM_cons]
      refine (hstep i s t hR hP).bind fun a s' t' hx hy hR' ↦ ?_
      exact (ih hR' (hrest a s' t' hx hy)).bind fun as s'' t'' _ _ hR'' ↦ .pure hR''

/-! ## Two programs side by side -/

variable {σ' γ δ : Type}

/-- From `s` and `s'` both programs return, with values and states that `Q` relates. -/
def Together (x : EStateM ε σ α) (y : EStateM ε σ' β) (s : σ) (s' : σ')
    (Q : α → σ → β → σ' → Prop) : Prop :=
  ∃ a t b t', x.run s = .ok a t ∧ y.run s' = .ok b t' ∧ Q a t b t'

variable {x : EStateM ε σ α} {y : EStateM ε σ' β} {s : σ} {s' : σ'}
  {P Q : α → σ → β → σ' → Prop}

theorem Together.of_run {a : α} {t : σ} {b : β} {t' : σ'} (hx : x.run s = .ok a t)
    (hy : y.run s' = .ok b t') (hQ : Q a t b t') : Together x y s s' Q :=
  ⟨a, t, b, t', hx, hy, hQ⟩

theorem Together.bind {f : α → EStateM ε σ γ} {g : β → EStateM ε σ' δ}
    {R : γ → σ → δ → σ' → Prop} (h : Together x y s s' P)
    (hrest : ∀ a t b t', P a t b t' → Together (f a) (g b) t t' R) :
    Together (x >>= f) (y >>= g) s s' R := by
  obtain ⟨a, t, b, t', hx, hy, hP⟩ := h
  obtain ⟨c, u, d, u', hf, hg, hR⟩ := hrest a t b t' hP
  exact ⟨c, u, d, u', by rw [run_bind_of_ok hx, hf], by rw [run_bind_of_ok hy, hg], hR⟩

theorem Together.returns {a : α} {t : σ} (h : Together x y s s' Q) (hrun : x.run s = .ok a t) :
    Returns y s' (Q a t) := by
  obtain ⟨a', t', b, u, hx, hy, hQ⟩ := h
  rw [hrun] at hx
  cases hx
  exact ⟨b, u, hy, hQ⟩

end OsProjects.Library.Program
