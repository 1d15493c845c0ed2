import Mathlib.Order.Basic

/-! # Runs of a labelled step relation

A run is a finite sequence of labelled steps. A property that every step
preserves holds at the end of every run that starts with it.
-/

namespace LinuxKernel

variable {σ α : Type*} {step : σ → α → σ → Prop} {s t u : σ} {a : α} {as : List α}

/-- The finite runs of a labelled step relation, with the labels in order. -/
inductive Run (step : σ → α → σ → Prop) : σ → List α → σ → Prop where
  | nil (s : σ) : Run step s [] s
  | cons {s t u : σ} {a : α} {as : List α} : step s a t → Run step t as u → Run step s (a :: as) u

namespace Run

theorem invariant {I : σ → Prop} (hI : ∀ {s a t}, I s → step s a t → I t)
    (h : Run step s as t) (hs : I s) : I t := by
  induction h with
  | nil => exact hs
  | cons hst _ ih => exact ih (hI hs hst)

theorem mono {step' : σ → α → σ → Prop} (himp : ∀ {s a t}, step s a t → step' s a t)
    (h : Run step s as t) : Run step' s as t := by
  induction h with
  | nil => exact .nil _
  | cons hst _ ih => exact .cons (himp hst) ih

theorem append {bs : List α} (h : Run step s as t) (h' : Run step t bs u) :
    Run step s (as ++ bs) u := by
  induction h with
  | nil => exact h'
  | cons hst _ ih => exact .cons hst (ih h')

/-- The runs of a step function. -/
theorem of_foldlM {f : σ → α → Option σ} (h : as.foldlM f s = some t) :
    Run (fun s a t => f s a = some t) s as t := by
  induction as generalizing s with
  | nil =>
    cases h
    exact .nil _
  | cons a as ih =>
    obtain ⟨u, hu, htail⟩ := Option.bind_eq_some_iff.mp h
    exact .cons hu (ih htail)

end Run

end LinuxKernel
