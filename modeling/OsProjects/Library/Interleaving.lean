import OsProjects.Library.Runs
import Mathlib.Logic.Function.Basic

/-!
# Interleaved threads

Threads with a local state each share one global state, and a step of the
system is a step of one of them.  An annotation of the local states is kept by
all interleavings if every step establishes the annotation of its own thread
and preserves those of the others.
-/

namespace OsProjects.Library.Interleaving

open Runs

variable {T L G : Type*} [DecidableEq T]

structure Config (T L G : Type*) where
  locals : T → L
  shared : G

inductive Moves (step : T → L → G → L → G → Prop) (c : Config T L G) : T → Config T L G → Prop
  | intro {t : T} {l : L} {g : G} : step t (c.locals t) c.shared l g →
      Moves step c t ⟨Function.update c.locals t l, g⟩

theorem Moves.of_locals {step : T → L → G → L → G → Prop} {c : Config T L G} {t : T} {k l : L}
    {g : G} (hlocal : c.locals t = k) (hstep : step t k c.shared l g) :
    Moves step c t ⟨Function.update c.locals t l, g⟩ := by
  subst hlocal
  exact .intro hstep

/-- From `c` the system gets to a state in which it is the turn of `t`, in its local state
`l`, and the other threads are in the states given. -/
def Turn (step : T → L → G → L → G → Prop) (c : Config T L G) (locals : T → L) (t : T) (l : L)
    (g : G) : Prop :=
  ∃ ts, Run (Moves step) c ts ⟨Function.update locals t l, g⟩

theorem Turn.start {step : T → L → G → L → G → Prop} {c : Config T L G} {t : T} {l : L}
    (hlocal : c.locals t = l) : Turn step c c.locals t l c.shared := by
  subst hlocal
  refine ⟨[], ?_⟩
  rw [Function.update_eq_self]
  exact .nil

theorem Turn.step {step : T → L → G → L → G → Prop} {c : Config T L G} {locals : T → L} {t : T}
    {l l' : L} {g g' : G} (h : Turn step c locals t l g) (hstep : step t l g l' g') :
    Turn step c locals t l' g' := by
  obtain ⟨ts, hrun⟩ := h
  have hmoves : Moves step ⟨Function.update locals t l, g⟩ t
      ⟨Function.update (Function.update locals t l) t l', g'⟩ :=
    .of_locals (Function.update_self ..) hstep
  rw [Function.update_idem] at hmoves
  exact ⟨ts ++ [t], .snoc hrun hmoves⟩

/-- It becomes the turn of `u`. -/
theorem Turn.next {step : T → L → G → L → G → Prop} {c : Config T L G} {locals : T → L}
    {t u : T} {k l : L} {g : G} (h : Turn step c locals t l g)
    (hlocal : Function.update locals t l u = k) :
    Turn step c (Function.update locals t l) u k g := by
  obtain ⟨ts, hrun⟩ := h
  refine ⟨ts, ?_⟩
  rwa [← hlocal, Function.update_eq_self]

/-- A turn ends a run, and others begin there. -/
theorem Turn.split {step : T → L → G → L → G → Prop} {c : Config T L G} {locals : T → L} {t : T}
    {l : L} {g : G} (h : Turn step c locals t l g) :
    (∃ ts, Run (Moves step) c ts ⟨Function.update locals t l, g⟩) ∧
      Turn step ⟨Function.update locals t l, g⟩ locals t l g :=
  ⟨h, [], .nil⟩

/-- From `c` the thread `t` can go on alone to the local state `l` and the shared
state `g`. -/
def GoesTo (step : T → L → G → L → G → Prop) (c : Config T L G) (t : T) (l : L) (g : G) : Prop :=
  ∃ ts, Run (Moves step) c ts ⟨Function.update c.locals t l, g⟩

theorem GoesTo.start {step : T → L → G → L → G → Prop} {c : Config T L G} {t : T} {l : L}
    (hlocal : c.locals t = l) : GoesTo step c t l c.shared :=
  Turn.start hlocal

theorem GoesTo.step {step : T → L → G → L → G → Prop} {c : Config T L G} {t : T} {l l' : L}
    {g g' : G} (h : GoesTo step c t l g) (hstep : step t l g l' g') : GoesTo step c t l' g' :=
  Turn.step h hstep

/-- The shared state satisfies `I`, and the local state of each thread its own
annotation `J`. -/
structure Annotated (I : G → Prop) (J : T → L → G → Prop) (c : Config T L G) : Prop where
  shared : I c.shared
  locals : ∀ t, J t (c.locals t) c.shared

variable {step : T → L → G → L → G → Prop} {I : G → Prop} {J : T → L → G → Prop}

theorem Annotated.moves {c d : Config T L G} {t : T} (h : Annotated I J c)
    (hmoves : Moves step c t d)
    (hown : ∀ t l g l' g', I g → J t l g → step t l g l' g' → I g' ∧ J t l' g')
    (hother : ∀ t u l k g l' g', u ≠ t → I g → J t l g → J u k g → step t l g l' g' →
      J u k g') : Annotated I J d := by
  cases hmoves with
  | @intro l g hstep =>
      obtain ⟨hI, hJ⟩ := hown _ _ _ _ _ h.shared (h.locals t) hstep
      refine ⟨hI, fun u ↦ ?_⟩
      by_cases hu : u = t
      · subst hu
        simpa using hJ
      · simpa [hu] using hother t u _ _ _ _ _ hu h.shared (h.locals t) (h.locals u) hstep

/-- Annotations that no step violates hold after every run. -/
theorem Annotated.run {c d : Config T L G} {l : List T} (h : Annotated I J c)
    (hrun : Run (Moves step) c l d)
    (hown : ∀ t l g l' g', I g → J t l g → step t l g l' g' → I g' ∧ J t l' g')
    (hother : ∀ t u l k g l' g', u ≠ t → I g → J t l g → J u k g → step t l g l' g' →
      J u k g') : Annotated I J d :=
  hrun.invariant h fun _ _ _ hc hmoves ↦ hc.moves hmoves hown hother

end OsProjects.Library.Interleaving
