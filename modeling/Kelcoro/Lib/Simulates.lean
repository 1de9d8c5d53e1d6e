import Mathlib.Order.Basic
import Kelcoro.Lib.Returns

namespace kelcoro.lib

/-- Forward simulation of partial computations: whenever `x` has a result, `y`
has a related one. -/
def Simulates {α β : Type} (R : α → β → Prop) (x : Option α) (y : Option β) : Prop :=
  ∀ a, x = some a → ∃ b, y = some b ∧ R a b

namespace Simulates

variable {α β α' β' : Type} {R : α → β → Prop} {S : α' → β' → Prop} {x : Option α} {y : Option β}

theorem some {a : α} {b : β} (hab : R a b) : Simulates R (.some a) (.some b) :=
  fun _ ha => ⟨b, rfl, Option.some.inj ha ▸ hab⟩

theorem none (y : Option β) : Simulates R .none y :=
  fun _ ha => by cases ha

/-- Sequencing: the continuations are compared on related results. -/
theorem bind {k : α → Option α'} {k' : β → Option β'} (hxy : Simulates R x y)
    (hk : ∀ a b, R a b → Simulates S (k a) (k' b)) : Simulates S (x >>= k) (y >>= k') := by
  intro a' ha'
  obtain ⟨a, ha, hka⟩ := Option.bind_eq_some_iff.mp ha'
  obtain ⟨b, hb, hab⟩ := hxy a ha
  obtain ⟨b', hb', hab'⟩ := hk a b hab a' hka
  exact ⟨b', by rw [hb]; exact hb', hab'⟩

/-- A computation that only the first of two programs makes. -/
theorem bind_left {k : α → Option α'} {z : Option β'} (hk : ∀ a, x = .some a → Simulates S (k a) z) :
    Simulates S (x >>= k) z := by
  intro a' ha'
  obtain ⟨a, ha, hka⟩ := Option.bind_eq_some_iff.mp ha'
  exact hk a ha a' hka

theorem map {f : α → α'} {f' : β → β'} (hxy : Simulates R x y) (hf : ∀ a b, R a b → S (f a) (f' b)) :
    Simulates S (x.map f) (y.map f') := by
  intro a' ha'
  obtain ⟨a, ha, rfl⟩ := Option.map_eq_some_iff.mp ha'
  obtain ⟨b, hb, hab⟩ := hxy a ha
  exact ⟨f' b, by rw [hb]; rfl, hf a b hab⟩

theorem ite {c : Prop} [Decidable c] {x₁ x₂ : Option α} {y₁ y₂ : Option β} (hthen : c → Simulates R x₁ y₁)
    (helse : ¬ c → Simulates R x₂ y₂) : Simulates R (if c then x₁ else x₂) (if c then y₁ else y₂) := by
  split
  · exact hthen ‹c›
  · exact helse ‹¬ c›

/-- What returns is simulated by a computation that does, if more fuel does not
change its result. -/
theorem exists_returns {f : Nat → Option α} {g : Nat → Option β} {a : α} (hf : Returns f a)
    (hfg : ∀ n, Simulates R (f n) (g n)) (hg : ∀ n b, g n = .some b → g (n + 1) = .some b) :
    ∃ b, Returns g b ∧ R a b := by
  obtain ⟨bound, hf⟩ := hf
  obtain ⟨b, hb, hab⟩ := hfg bound a (hf bound (Nat.le_refl bound))
  refine ⟨b, ⟨bound, fun n hn => ?_⟩, hab⟩
  induction hn with
  | refl => exact hb
  | step _ ih => exact hg _ b ih

/-- Computations with fuel that both return do so with related results. -/
theorem returns {f : Nat → Option α} {g : Nat → Option β} {a : α} {b : β} (hf : Returns f a) (hg : Returns g b)
    (hfg : ∀ n, Simulates R (f n) (g n)) : R a b := by
  obtain ⟨n, hfn, hgn⟩ := hf.both hg
  obtain ⟨b', hb', hab⟩ := hfg n a hfn
  obtain rfl := Option.some.inj (hgn.symm.trans hb')
  exact hab

end Simulates

end kelcoro.lib
