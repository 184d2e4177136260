import Mathlib.Data.List.Induction
import Mathlib.Tactic.Common

/-!
# Finite runs of labelled steps

A system is a relation `step s a t`: from `s` the action `a` may lead to `t`.
Runs grow at their end, so that every rule about them is an induction on the
last step.
-/

namespace OsProjects.Library.Runs

variable {σ ι : Type*} {step : σ → ι → σ → Prop}

/-- `Run step s l t`: the actions `l` may lead from `s` to `t`. -/
inductive Run (step : σ → ι → σ → Prop) (s : σ) : List ι → σ → Prop
  | nil : Run step s [] s
  | snoc {l : List ι} {t u : σ} {a : ι} : Run step s l t → step t a u → Run step s (l ++ [a]) u

theorem Run.invariant {P : σ → Prop} {s t : σ} {l : List ι} (hrun : Run step s l t)
    (hinit : P s) (hstep : ∀ t a u, P t → step t a u → P u) : P t := by
  induction hrun with
  | nil => exact hinit
  | snoc _ hlast ih => exact hstep _ _ _ ih hlast

/-- What holds initially and is kept by every step of the sequence `all` holds
after every part of it. -/
theorem Run.invariant_of_prefix {P : List ι → σ → Prop} {s t : σ} {all l : List ι}
    (hrun : Run step s l t) (hpart : l <+: all) (hinit : P [] s)
    (hstep : ∀ past t a u, past ++ [a] <+: all → Run step s past t → P past t → step t a u →
      P (past ++ [a]) u) : P l t := by
  induction hrun with
  | nil => exact hinit
  | snoc hfirst hlast ih =>
      have hpast := ih ((List.prefix_append ..).trans hpart)
      exact hstep _ _ _ _ hpart hfirst hpast hlast

theorem Run.exists_of_snoc {s u : σ} {l : List ι} {a : ι} (hrun : Run step s (l ++ [a]) u) :
    ∃ t, Run step s l t ∧ step t a u := by
  generalize hall : l ++ [a] = all at hrun
  cases hrun with
  | nil => simp at hall
  | snoc hfirst hlast =>
      obtain ⟨rfl, hsame⟩ := List.append_inj' hall rfl
      cases hsame
      exact ⟨_, hfirst, hlast⟩

theorem Run.exists_of_append {s u : σ} {l k : List ι} (hrun : Run step s (l ++ k) u) :
    ∃ t, Run step s l t ∧ Run step t k u := by
  induction k using List.reverseRecOn generalizing u with
  | nil =>
      rw [List.append_nil] at hrun
      exact ⟨u, hrun, .nil⟩
  | append_singleton k a ih =>
      rw [← List.append_assoc] at hrun
      obtain ⟨v, hfirst, hlast⟩ := hrun.exists_of_snoc
      obtain ⟨t, hbefore, hafter⟩ := ih hfirst
      exact ⟨t, hbefore, .snoc hafter hlast⟩

theorem Run.append {s t u : σ} {l k : List ι} (hfirst : Run step s l t)
    (hsecond : Run step t k u) : Run step s (l ++ k) u := by
  induction hsecond with
  | nil => simpa using hfirst
  | snoc _ hlast ih =>
      rw [← List.append_assoc]
      exact .snoc ih hlast

/-- A partial function of the state that is folded over the actions makes a run. -/
theorem Run.of_foldlM {f : σ → ι → Option σ} {s t : σ} {l : List ι} (h : l.foldlM f s = some t) :
    Run (fun s a t ↦ f s a = some t) s l t := by
  induction l using List.reverseRecOn generalizing t with
  | nil =>
      cases h
      exact .nil
  | append_singleton l a ih =>
      rw [List.foldlM_append] at h
      obtain ⟨u, hu, hlast⟩ := Option.bind_eq_some_iff.mp h
      rw [List.foldlM_cons] at hlast
      obtain ⟨v, hv, hlast⟩ := Option.bind_eq_some_iff.mp hlast
      cases hlast
      exact .snoc (ih hu) hv

end OsProjects.Library.Runs
