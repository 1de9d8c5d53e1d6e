import Mathlib

namespace kelcoro.lib

variable {α : Type}

/-- Memory in which objects are constructed and destroyed, one at a time. They are
numbered in the order in which they are constructed. -/
structure Place (α : Type) where
  object : Option α
  constructed : Nat
  destroyed : List Nat

namespace Place

def empty : Place α where
  object := none
  constructed := 0
  destroyed := []

def construct_at (p : Place α) (a : α) : Option (Place α) :=
  if p.object.isSome then none
  else some { p with
    object := some a
    constructed := p.constructed + 1 }

/-- The object that lives there is given another value. -/
def assign (p : Place α) (a : α) : Option (Place α) :=
  if p.object.isSome then some { p with object := some a } else none

def destroy_at (p : Place α) : Option (Place α) :=
  if p.object.isSome then
    some { p with
      object := none
      destroyed := p.destroyed ++ [p.constructed - 1] }
  else none

/-- Every object but the one that lives there has been destroyed once. -/
def Kept (p : Place α) : Prop :=
  p.destroyed ++ (if p.object.isSome then [p.constructed - 1] else []) = List.range p.constructed

variable {p p' : Place α} {a : α}

theorem empty_kept : (empty : Place α).Kept := rfl

theorem Kept.construct_at (h : p.Kept) (hp : p.construct_at a = some p') : p'.Kept := by
  simp only [Place.construct_at, Option.ite_none_left_eq_some, Option.some.injEq] at hp
  obtain ⟨hnone, rfl⟩ := hp
  simp only [Kept, if_neg hnone, List.append_nil] at h
  simp [Kept, h, List.range_succ]

theorem Kept.assign (h : p.Kept) (hp : p.assign a = some p') : p'.Kept := by
  simp only [Place.assign, Option.ite_none_right_eq_some, Option.some.injEq] at hp
  obtain ⟨hsome, rfl⟩ := hp
  simpa [Kept, hsome] using h

theorem Kept.destroy_at (h : p.Kept) (hp : p.destroy_at = some p') : p'.Kept := by
  simp only [Place.destroy_at, Option.ite_none_right_eq_some, Option.some.injEq] at hp
  obtain ⟨hsome, rfl⟩ := hp
  simpa [Kept, hsome] using h

end Place

end kelcoro.lib
