import Mathlib

namespace kelcoro.lib

/-- Objects that may hold a handle: `none` is no object, `some none` is an
object with an empty handle. -/
abbrev Objects := Nat → Option (Option Nat)

namespace Objects

variable (o : Objects) (a b c f g : Nat)

/-- Object `a` holds the handle of `f`. -/
def Holds : Prop := o a = some (some f)

def Held : Prop := ∃ a, o.Holds a f

/-- No handle is held twice. -/
def Unique : Prop := ∀ a b f, o.Holds a f → o.Holds b f → a = b

/-- Object `a` gets the handle of `f`. -/
def give : Objects := Function.update o a (some (some f))

/-- The handle of an object becomes empty, or the object ends. -/
def drop (value : Option Unit) : Objects := Function.update o a (value.map fun _ => none)

/-- `a.handle = std::exchange(b.handle, nullptr)`. -/
def exchange : Objects := Function.update (Function.update o b (some none)) a (o b)

/-- `std::swap(a.handle, b.handle)`. -/
def swap : Objects := Function.update (Function.update o a (o b)) b (o a)

instance : Decidable (o.Holds a f) := inferInstanceAs (Decidable (o a = some (some f)))

instance (P : Nat → Prop) [DecidablePred P] : Decidable (∀ f, o.Holds a f → P f) :=
  match h : o a with
  | none => .isTrue fun _ hf => nomatch h.symm.trans hf
  | some none => .isTrue fun _ hf => nomatch h.symm.trans hf
  | some (some f) => decidable_of_iff (P f) ⟨fun hP _ hf => Option.some.inj (Option.some.inj (h.symm.trans hf)) ▸ hP,
      fun hall => hall f h⟩

variable {o a b c f g}

theorem holds_give : (o.give a f).Holds c g ↔ if c = a then f = g else o.Holds c g := by
  by_cases hc : c = a
  · simp [Holds, give, hc]
  · simp [Holds, give, hc]

theorem holds_drop {value : Option Unit} : (o.drop a value).Holds c f ↔ c ≠ a ∧ o.Holds c f := by
  by_cases hc : c = a
  · subst hc
    cases value <;> simp [Holds, drop]
  · simp [Holds, drop, hc]

theorem holds_exchange :
    (o.exchange a b).Holds c f ↔ if c = a then o.Holds b f else c ≠ b ∧ o.Holds c f := by
  by_cases hc : c = a
  · simp [Holds, exchange, hc]
  · by_cases hb : c = b
    · subst hb
      simp [Holds, exchange, hc]
    · simp [Holds, exchange, hc, hb]

theorem holds_swap :
    (o.swap a b).Holds c f ↔ o.Holds (Equiv.swap a b c) f := by
  unfold Holds swap
  by_cases hb : c = b
  · subst hb
    simp
  · by_cases ha : c = a
    · subst ha
      simp [hb]
    · simp [ha, hb, Equiv.swap_apply_of_ne_of_ne]

theorem not_holds_of_none (ha : o a = none) : ¬ ∃ f, o.Holds a f := by
  rintro ⟨f, hf⟩
  cases ha.symm.trans hf

theorem not_holds_drop {value : Option Unit} : ¬ ∃ f, (o.drop a value).Holds a f := by
  rintro ⟨f, hf⟩
  exact (holds_drop.mp hf).1 rfl

theorem Unique.give (h : o.Unique) (hf : ¬ o.Held f) : (o.give a f).Unique := by
  intro c d g hc hd
  rw [holds_give] at hc hd
  by_cases hca : c = a <;> by_cases hda : d = a <;> simp only [hca, hda, if_true, if_false] at hc hd ⊢
  · exact absurd ⟨d, hc ▸ hd⟩ hf
  · exact absurd ⟨c, hd ▸ hc⟩ hf
  · exact h c d g hc hd

theorem held_give (ha : ¬ ∃ f, o.Holds a f) : (o.give a f).Held g ↔ o.Held g ∨ g = f := by
  constructor
  · rintro ⟨c, hc⟩
    rw [holds_give] at hc
    by_cases hca : c = a
    · rw [if_pos hca] at hc
      exact Or.inr hc.symm
    · rw [if_neg hca] at hc
      exact Or.inl ⟨c, hc⟩
  · rintro (⟨c, hc⟩ | rfl)
    · have hca : c ≠ a := by
        rintro rfl
        exact ha ⟨g, hc⟩
      exact ⟨c, holds_give.mpr (by rwa [if_neg hca])⟩
    · exact ⟨a, holds_give.mpr (by rw [if_pos rfl])⟩

theorem Unique.drop {value : Option Unit} (h : o.Unique) : (o.drop a value).Unique := by
  intro c d f hc hd
  rw [holds_drop] at hc hd
  exact h c d f hc.2 hd.2

theorem held_drop {value : Option Unit} (h : o.Unique) (ha : o.Holds a g) :
    (o.drop a value).Held f ↔ o.Held f ∧ f ≠ g := by
  constructor
  · rintro ⟨c, hc⟩
    rw [holds_drop] at hc
    refine ⟨⟨c, hc.2⟩, ?_⟩
    rintro rfl
    exact hc.1 (h c a f hc.2 ha)
  · rintro ⟨⟨c, hc⟩, hne⟩
    refine ⟨c, holds_drop.mpr ⟨?_, hc⟩⟩
    rintro rfl
    unfold Holds at ha hc
    rw [ha] at hc
    cases hc
    exact hne rfl

theorem held_drop_empty {value : Option Unit} (ha : ¬ ∃ f, o.Holds a f) :
    (o.drop a value).Held f ↔ o.Held f := by
  constructor
  · rintro ⟨c, hc⟩
    exact ⟨c, (holds_drop.mp hc).2⟩
  · rintro ⟨c, hc⟩
    refine ⟨c, holds_drop.mpr ⟨?_, hc⟩⟩
    rintro rfl
    exact ha ⟨f, hc⟩

theorem Unique.exchange (h : o.Unique) : (o.exchange a b).Unique := by
  intro c d f hc hd
  rw [holds_exchange] at hc hd
  by_cases hca : c = a <;> by_cases hda : d = a <;> simp only [hca, hda, if_true, if_false] at hc hd ⊢
  · exact absurd (h _ _ f hd.2 hc) hd.1
  · exact absurd (h _ _ f hc.2 hd) hc.1
  · exact h c d f hc.2 hd.2

theorem held_exchange (ha : ¬ ∃ f, o.Holds a f) : (o.exchange a b).Held f ↔ o.Held f := by
  constructor
  · rintro ⟨c, hc⟩
    rw [holds_exchange] at hc
    by_cases hca : c = a
    · rw [if_pos hca] at hc
      exact ⟨b, hc⟩
    · rw [if_neg hca] at hc
      exact ⟨c, hc.2⟩
  · rintro ⟨c, hc⟩
    have hca : c ≠ a := by
      rintro rfl
      exact ha ⟨f, hc⟩
    by_cases hcb : c = b
    · subst hcb
      exact ⟨a, holds_exchange.mpr (by rwa [if_pos rfl])⟩
    · exact ⟨c, holds_exchange.mpr (by rw [if_neg hca]; exact ⟨hcb, hc⟩)⟩

theorem Unique.swap (h : o.Unique) : (o.swap a b).Unique := by
  intro c d f hc hd
  rw [holds_swap] at hc hd
  exact (Equiv.swap a b).injective (h _ _ f hc hd)

theorem held_swap : (o.swap a b).Held f ↔ o.Held f := by
  constructor
  · rintro ⟨c, hc⟩
    exact ⟨_, holds_swap.mp hc⟩
  · rintro ⟨c, hc⟩
    exact ⟨Equiv.swap a b c, holds_swap.mpr (by rwa [Equiv.swap_apply_self])⟩

end Objects

end kelcoro.lib
