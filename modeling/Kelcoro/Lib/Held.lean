import Mathlib

namespace kelcoro.lib

variable {τ ρ : Type} {holds : τ → Option ρ} {G G' : ρ → Prop} {t : τ} {r : ρ}

/-- Parties that hold at most one thing each. What there is, is held by exactly one. -/
structure Held (holds : τ → Option ρ) (G : ρ → Prop) : Prop where
  iff : ∀ r, G r ↔ ∃ t, holds t = some r
  one : ∀ t t' r, holds t = some r → holds t' = some r → t = t'

namespace Held

theorem congr (h : Held holds G) (hG : ∀ r, G' r ↔ G r) : Held holds G' where
  iff r := (hG r).trans (h.iff r)
  one := h.one

variable [DecidableEq τ]

/-- A party gives back what it holds, or keeps it if it is still there. -/
theorem goes (h : Held holds G) (ht : holds t = some r) (hothers : ∀ r', r' ≠ r → (G' r' ↔ G r')) [Decidable (G' r)] :
    Held (Function.update holds t (if G' r then some r else none)) G' where
  iff r' := by
    by_cases hr : r' = r
    · subst hr
      refine ⟨fun hG => ⟨t, by simp [hG]⟩, fun ⟨t', ht'⟩ => ?_⟩
      by_cases htt : t' = t
      · subst htt
        by_contra hG
        simp [hG] at ht'
      · rw [Function.update_of_ne htt] at ht'
        exact absurd (h.one t' t r' ht' ht) htt
    · rw [hothers r' hr, h.iff r']
      constructor
      · rintro ⟨t', ht'⟩
        have htt : t' ≠ t := by
          rintro rfl
          cases ht.symm.trans ht'
          exact hr rfl
        exact ⟨t', by rwa [Function.update_of_ne htt]⟩
      · rintro ⟨t', ht'⟩
        by_cases htt : t' = t
        · subst htt
          by_cases hG : G' r
          · simp [hG, Ne.symm hr] at ht'
          · simp [hG] at ht'
        · exact ⟨t', by rwa [Function.update_of_ne htt] at ht'⟩
  one t₁ t₂ r' h₁ h₂ := by
    have hold : ∀ t', Function.update holds t (if G' r then some r else none) t' = some r' → holds t' = some r' := by
      intro t' ht'
      by_cases htt : t' = t
      · subst htt
        by_cases hG : G' r
        · simp only [hG, if_true, Function.update_self] at ht'
          rw [← ht', ht]
        · simp [hG] at ht'
      · rwa [Function.update_of_ne htt] at ht'
    exact h.one t₁ t₂ r' (hold t₁ h₁) (hold t₂ h₂)

/-- A party that holds nothing takes what is new. -/
theorem enters (h : Held holds G) (ht : holds t = none) (hr : ¬ G r) (hG : ∀ r', G' r' ↔ r' = r ∨ G r') :
    Held (Function.update holds t (some r)) G' where
  iff r' := by
    rw [hG, h.iff r']
    constructor
    · rintro (rfl | ⟨t', ht'⟩)
      · exact ⟨t, by simp⟩
      · have htt : t' ≠ t := by
          rintro rfl
          cases ht.symm.trans ht'
        exact ⟨t', by rwa [Function.update_of_ne htt]⟩
    · rintro ⟨t', ht'⟩
      by_cases htt : t' = t
      · subst htt
        simp only [Function.update_self, Option.some.injEq] at ht'
        exact .inl ht'.symm
      · exact .inr ⟨t', by rwa [Function.update_of_ne htt] at ht'⟩
  one t₁ t₂ r' h₁ h₂ := by
    have hnew : holds t₁ ≠ some r ∧ holds t₂ ≠ some r := by
      constructor <;> exact fun hsome => hr ((h.iff r).mpr ⟨_, hsome⟩)
    by_cases h₁t : t₁ = t <;> by_cases h₂t : t₂ = t
    · rw [h₁t, h₂t]
    · rw [h₁t, Function.update_self] at h₁
      rw [Function.update_of_ne h₂t, ← h₁] at h₂
      exact absurd h₂ hnew.2
    · rw [h₂t, Function.update_self] at h₂
      rw [Function.update_of_ne h₁t, ← h₂] at h₁
      exact absurd h₁ hnew.1
    · rw [Function.update_of_ne h₁t] at h₁
      rw [Function.update_of_ne h₂t] at h₂
      exact h.one t₁ t₂ r' h₁ h₂

end Held

end kelcoro.lib
