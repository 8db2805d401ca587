import Mathlib.Order.Basic

/-!
# Runs of labelled steps

The states that steps lead to, when each is allowed where it is taken.
-/

namespace Runs

variable {S L : Type} {α : Type} {step : S → L → S → Prop} {start I : S → Prop} {allowed : S → L → Prop} {s s' s'' : S}

inductive Run (step : S → L → S → Prop) (start : S → Prop) (allowed : S → L → Prop) : S → Prop
  | start {s : S} (h : start s) : Run step start allowed s
  | step {s s' : S} {l : L} (h : Run step start allowed s) (hs : step s l s') (ha : allowed s l) : Run step start allowed s'

inductive Path (step : S → L → S → Prop) (allowed : S → L → Prop) : S → S → Prop
  | refl (s : S) : Path step allowed s s
  | tail {s s' s'' : S} {l : L} (h : Path step allowed s s') (hs : step s' l s'') (ha : allowed s' l) :
      Path step allowed s s''

theorem Path.single {l : L} (hs : step s l s') (ha : allowed s l) : Path step allowed s s' := .tail (.refl s) hs ha

theorem Path.trans (h : Path step allowed s s') (h' : Path step allowed s' s'') : Path step allowed s s'' := by
  induction h' with
  | refl => exact h
  | tail _ hs ha ih => exact .tail ih hs ha

theorem Run.append (h : Run step start allowed s) (hp : Path step allowed s s') : Run step start allowed s' := by
  induction hp with
  | refl => exact h
  | tail _ hs ha ih => exact .step ih hs ha

/-- What holds at the start and is kept by every step holds in every run. -/
theorem Run.invariant (h : Run step start allowed s) (hstart : ∀ s, start s → I s)
    (hstep : ∀ s l s', I s → step s l s' → allowed s l → I s') : I s := by
  induction h with
  | start h => exact hstart _ h
  | step _ hs ha ih => exact hstep _ _ _ ih hs ha

theorem Path.invariant (h : Path step allowed s s') (hs : I s)
    (hstep : ∀ s l s', I s → step s l s' → allowed s l → I s') : I s' := by
  induction h with
  | refl => exact hs
  | tail _ hs' ha ih => exact hstep _ _ _ ih hs' ha

/-- What no step from a state with the invariant decreases grows along a path. -/
theorem Path.grows [Preorder α] {f : S → α} (h : Path step allowed s s') (hs : I s)
    (hstep : ∀ s l s', I s → step s l s' → allowed s l → I s' ∧ f s ≤ f s') : f s ≤ f s' := by
  induction h with
  | refl => exact le_refl _
  | tail hp hs' ha ih =>
    have hI := hp.invariant hs fun a l b ha hab hl => (hstep a l b ha hab hl).1
    exact le_trans ih (hstep _ _ _ hI hs' ha).2

end Runs
