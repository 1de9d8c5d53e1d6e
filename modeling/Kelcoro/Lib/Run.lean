import Mathlib.Data.List.Basic

namespace kelcoro.lib

/-- The finite runs of a system whose steps are labelled. -/
inductive Run {σ α : Type} (step : σ → α → σ → Prop) : σ → List α → σ → Prop
  | nil (s : σ) : Run step s [] s
  | cons {s s₁ s' : σ} {a : α} {as : List α} (hstep : step s a s₁) (hrun : Run step s₁ as s') :
      Run step s (a :: as) s'

namespace Run

variable {σ α : Type} {step : σ → α → σ → Prop} {s s' : σ} {as : List α}

theorem append {s₁ : σ} {bs : List α} (hrun : Run step s as s₁) (hrest : Run step s₁ bs s') :
    Run step s (as ++ bs) s' := by
  induction hrun with
  | nil => exact hrest
  | cons hstep _ ih => exact .cons hstep (ih hrest)

theorem of_append {bs : List α} (hrun : Run step s (as ++ bs) s') : ∃ s₁, Run step s as s₁ ∧ Run step s₁ bs s' := by
  induction as generalizing s with
  | nil => exact ⟨s, .nil s, hrun⟩
  | cons a as ih =>
    cases hrun with
    | cons hstep hrest =>
      obtain ⟨s₁, hrun, hrun'⟩ := ih hrest
      exact ⟨s₁, .cons hstep hrun, hrun'⟩

theorem unique {s₁ : σ} (hstep : ∀ s a s₁ s₂, step s a s₁ → step s a s₂ → s₁ = s₂) (hrun : Run step s as s')
    (hrun₁ : Run step s as s₁) : s' = s₁ := by
  induction hrun with
  | nil =>
    cases hrun₁
    rfl
  | cons h _ ih =>
    cases hrun₁ with
    | cons h₁ hrest =>
      obtain rfl := hstep _ _ _ _ h h₁
      exact ih hrest

theorem mono {step' : σ → α → σ → Prop} (hrun : Run step s as s') (hstep : ∀ s a s', step s a s' → step' s a s') :
    Run step' s as s' := by
  induction hrun with
  | nil => exact .nil _
  | cons h _ ih => exact .cons (hstep _ _ _ h) ih

/-- What every step preserves holds in every state a run comes to. -/
theorem invariant (hrun : Run step s as s') (Inv : σ → Prop)
    (hpres : ∀ s a s', Inv s → step s a s' → Inv s') (hs : Inv s) : Inv s' := by
  induction hrun with
  | nil => exact hs
  | cons hstep _ ih => exact ih (hpres _ _ _ hs hstep)

/-- Forward simulation of runs by a system with the same labels. -/
theorem simulates {τ : Type} {step' : τ → α → τ → Prop} (R : σ → τ → Prop)
    (hsim : ∀ s a s₁ t, R s t → step s a s₁ → ∃ t₁, step' t a t₁ ∧ R s₁ t₁) {t : τ} (hrun : Run step s as s')
    (hst : R s t) : ∃ t', Run step' t as t' ∧ R s' t' := by
  induction hrun generalizing t with
  | nil => exact ⟨t, .nil t, hst⟩
  | cons hstep _ ih =>
    obtain ⟨t₁, hstep', hst₁⟩ := hsim _ _ _ _ hst hstep
    obtain ⟨t', hrun', hst'⟩ := ih hst₁
    exact ⟨t', .cons hstep' hrun', hst'⟩

/-- Runs of a system are runs of another one that sees a part of it. -/
theorem project {τ β : Type} {step' : τ → β → τ → Prop} (view : σ → τ) (label : α → β)
    (hstep : ∀ s a s', step s a s' → step' (view s) (label a) (view s')) (hrun : Run step s as s') :
    Run step' (view s) (as.map label) (view s') := by
  induction hrun with
  | nil => exact .nil _
  | cons h _ ih => exact .cons (hstep _ _ _ h) ih

/-- An invariant with a measure that every step decreases bounds the length of
the runs. -/
theorem measured {m : Nat} (hrun : Run step s as s') (Inv : Nat → σ → Prop)
    (hdec : ∀ m s a s', Inv m s → step s a s' → ∃ m', m' < m ∧ Inv m' s') (hs : Inv m s) :
    ∃ m', as.length + m' ≤ m ∧ Inv m' s' := by
  induction hrun generalizing m with
  | nil => exact ⟨m, by simp, hs⟩
  | cons hstep _ ih =>
    obtain ⟨m₁, hlt, hs₁⟩ := hdec _ _ _ _ hs hstep
    obtain ⟨m', hle, hs'⟩ := ih hs₁
    exact ⟨m', by simp only [List.length_cons]; omega, hs'⟩

/-- The run that takes the given steps, if each of them can be taken. -/
theorem of_foldlM {f : σ → α → Option σ} (hf : ∀ s a s', f s a = some s' → step s a s')
    (h : as.foldlM f s = some s') : Run step s as s' := by
  induction as generalizing s with
  | nil =>
    cases h
    exact .nil _
  | cons a as ih =>
    rw [List.foldlM_cons] at h
    obtain ⟨s₁, hstep, hrest⟩ := Option.bind_eq_some_iff.mp h
    exact .cons (hf s a s₁ hstep) (ih hrest)

end Run

end kelcoro.lib
