import Kelcoro.Lib.Run
import Mathlib

namespace kelcoro.lib

/-- Two sums that differ in one summand. -/
theorem sum_of_ne {ι : Type} [DecidableEq ι] {s : Finset ι} {i : ι} {f g : ι → Nat} (hi : i ∈ s)
    (hother : ∀ j, j ≠ i → g j = f j) : ∑ j ∈ s, g j + f i = ∑ j ∈ s, f j + g i := by
  have hrest : ∑ j ∈ s.erase i, g j = ∑ j ∈ s.erase i, f j :=
    Finset.sum_congr rfl fun j hj => hother j (Finset.ne_of_mem_erase hj)
  rw [← Finset.add_sum_erase _ _ hi, ← Finset.add_sum_erase _ f hi, hrest]
  omega

namespace Run

variable {σ α : Type} {step : σ → α → σ → Prop} {s s' : σ} {as : List α}

/-- A potential pays for some steps, and others may raise it: there are as many of
the former as the latter and the potential at the beginning allow. -/
theorem paid {m : Int} (hrun : Run step s as s') (Pot : Int → σ → Prop) (own : α → Bool) (costs : α → Nat)
    (hstep : ∀ m s a s', Pot m s → step s a s' → ∃ m', m' + (own a).toNat ≤ m + costs a ∧ Pot m' s') (hs : Pot m s) :
    ∃ m', as.countP own + m' ≤ m + (as.map costs).sum ∧ Pot m' s' := by
  induction hrun generalizing m with
  | nil => exact ⟨m, by simp, hs⟩
  | @cons s s₁ s' a as h _ ih =>
    obtain ⟨m₁, hle, hs₁⟩ := hstep _ _ _ _ hs h
    obtain ⟨m', hle', hs'⟩ := ih hs₁
    refine ⟨m', ?_, hs'⟩
    cases hown : own a with
    | false =>
      rw [hown, Bool.toNat_false] at hle
      rw [List.countP_cons_of_neg (by simp [hown]), List.map_cons, List.sum_cons]
      omega
    | true =>
      rw [hown, Bool.toNat_true] at hle
      rw [List.countP_cons_of_pos hown, List.map_cons, List.sum_cons]
      omega

/-- A run is a run of the steps whose labels it has. -/
theorem restrict (hrun : Run step s as s') {P : α → Prop} (has : ∀ a ∈ as, P a) :
    Run (fun s a s' => step s a s' ∧ P a) s as s' := by
  induction hrun with
  | nil => exact .nil _
  | cons h _ ih => exact .cons ⟨h, has _ (by simp)⟩ (ih fun a ha => has a (by simp [ha]))

/-- What a step brings about stays when every step keeps it. -/
theorem since {a : α} (hrun : Run step s as s') (Inv P : σ → Prop)
    (hinv : ∀ s a s', Inv s → step s a s' → Inv s') (hstep : ∀ s s', Inv s → step s a s' → P s')
    (hkeep : ∀ s b s', Inv s → P s → step s b s' → P s') (hs : Inv s) (ha : a ∈ as) : P s' := by
  obtain ⟨before, after, rfl⟩ := List.append_of_mem ha
  obtain ⟨s₁, hbefore, hafter⟩ := hrun.of_append
  have hs₁ : Inv s₁ := hbefore.invariant Inv hinv hs
  cases hafter with
  | cons h hrest =>
    have hend := hrest.invariant (fun s => Inv s ∧ P s)
      (fun s b s' hs hb => ⟨hinv s b s' hs.1 hb, hkeep s b s' hs.1 hs.2 hb⟩) ⟨hinv _ _ _ hs₁ h, hstep _ _ hs₁ h⟩
    exact hend.2

/-- What every step keeps, except those of a kind, still holds, or a step of that kind was
taken. -/
theorem kept_or_taken (hrun : Run step s as s') (P : σ → Prop) (Q : σ → α → σ → Prop)
    (hkeep : ∀ s a s', a ∈ as → P s → step s a s' → P s' ∨ Q s a s') (hs : P s) :
    P s' ∨ ∃ before a after s₁ s₂, as = before ++ a :: after ∧ Run step s before s₁ ∧ step s₁ a s₂ ∧ Q s₁ a s₂ ∧
      Run step s₂ after s' := by
  induction hrun with
  | nil => exact Or.inl hs
  | @cons s s₁ s' a as h hrest ih =>
    obtain hs₁ | htaken := hkeep _ _ _ (by simp) hs h
    · obtain hs' | ⟨before, b, after, s₂, s₃, rfl, hbefore, hb, hQ, hafter⟩ :=
        ih (fun s b s' hb => hkeep s b s' (List.mem_cons_of_mem _ hb)) hs₁
      · exact Or.inl hs'
      · exact Or.inr ⟨a :: before, b, after, s₂, s₃, rfl, .cons h hbefore, hb, hQ, hafter⟩
    · exact Or.inr ⟨[], a, as, s, s₁, rfl, .nil s, h, htaken, hrest⟩

end Run

end kelcoro.lib
