import Mathlib.Order.Basic

namespace kelcoro.lib

/-- A computation that is cut off by a fuel argument returns `x` when every
large enough fuel gives `x`. Termination is part of the statement: a body that
never returns satisfies it for no `x`. -/
def Returns {α : Type} (f : Nat → Option α) (x : α) : Prop :=
  ∃ bound, ∀ n, bound ≤ n → f n = some x

namespace Returns

variable {α β : Type}

theorem const {r : Option α} {x : α} (h : r = some x) : Returns (fun _ => r) x :=
  ⟨0, fun _ _ => h⟩

/-- One unit of fuel is spent on entering a call. -/
theorem of_succ {f : Nat → Option α} {x : α} (h : Returns (fun n => f (n + 1)) x) :
    Returns f x := by
  obtain ⟨bound, h⟩ := h
  refine ⟨bound + 1, fun n hn => ?_⟩
  obtain ⟨m, rfl⟩ : ∃ m, n = m + 1 := ⟨n - 1, by omega⟩
  exact h m (by omega)

/-- A call that makes no further ones. -/
theorem of_last {f : Nat → Option α} {x : α} (h : ∀ n, f (n + 1) = some x) : Returns f x :=
  of_succ ⟨0, fun n _ => h n⟩

theorem congr {f g : Nat → Option α} {x : α} (h : Returns f x) (hfg : ∀ n, g n = f n) :
    Returns g x := by
  obtain ⟨bound, h⟩ := h
  exact ⟨bound, fun n hn => (hfg n).trans (h n hn)⟩

/-- A computation that ends as soon as another one does. -/
theorem imp {f : Nat → Option α} {g : Nat → Option β} {x : α} {y : β} (h : Returns f x)
    (hfg : ∀ n, f n = some x → g n = some y) : Returns g y := by
  obtain ⟨bound, h⟩ := h
  exact ⟨bound, fun n hn => hfg n (h n hn)⟩

/-- Sequencing: the continuation runs on the value the first computation
returned, with the same fuel. -/
theorem bind {f : Nat → Option α} {g : Nat → α → Option β} {x : α} {y : β}
    (hf : Returns f x) (hg : Returns (fun n => g n x) y) :
    Returns (fun n => f n >>= g n) y := by
  obtain ⟨b₁, hf⟩ := hf
  obtain ⟨b₂, hg⟩ := hg
  refine ⟨max b₁ b₂, fun n hn => ?_⟩
  have h₁ := hf n (by omega)
  have h₂ := hg n (by omega)
  simpa only [h₁, Option.bind_eq_bind, Option.bind_some] using h₂

/-- Two computations that return do so with one fuel. -/
theorem both {f : Nat → Option α} {g : Nat → Option β} {x : α} {y : β} (hf : Returns f x)
    (hg : Returns g y) : ∃ n, f n = some x ∧ g n = some y := by
  obtain ⟨b₁, hf⟩ := hf
  obtain ⟨b₂, hg⟩ := hg
  exact ⟨max b₁ b₂, hf _ (by omega), hg _ (by omega)⟩

/-- The returned value does not depend on the fuel. -/
theorem unique {f : Nat → Option α} {x y : α} (hx : Returns f x) (hy : Returns f y) : x = y := by
  obtain ⟨n, h₁, h₂⟩ := hx.both hy
  exact Option.some.inj (h₁.symm.trans h₂)

end Returns

end kelcoro.lib
