import Mathlib

namespace kelcoro.lib

open Finset

/-- How a sum over parties changes when one of them moves. -/
theorem sum_moved {M : Type} [AddCommMonoid M] {f g : Nat → M} {n i : Nat} (hi : i < n)
    (hsame : ∀ j, j ≠ i → g j = f j) :
    ∑ j ∈ range n, g j + f i = ∑ j ∈ range n, f j + g i := by
  have hmem : i ∈ range n := mem_range.mpr hi
  have hrest : ∑ j ∈ (range n).erase i, g j = ∑ j ∈ (range n).erase i, f j :=
    sum_congr rfl fun j hj => hsame j (ne_of_mem_erase hj)
  rw [← add_sum_erase _ g hmem, ← add_sum_erase _ f hmem, hrest]
  abel

/-- A log in which no event comes too late after an earlier one stays so when
the new event does not. -/
theorem pairwise_snoc {α : Type} {R : α → α → Prop} {log : List α} {e : α} (h : log.Pairwise R)
    (he : ∀ a ∈ log, R a e) : (log ++ [e]).Pairwise R :=
  List.pairwise_append.mpr ⟨h, List.pairwise_singleton R e, fun a ha b hb => by
    cases List.mem_singleton.mp hb
    exact he a ha⟩

theorem length_le_of_parties {l : List Nat} {n : Nat} (hnodup : l.Nodup) (hlt : ∀ i ∈ l, i < n) :
    l.length ≤ n := by
  have hsubset : l ⊆ List.range n := fun i hi => List.mem_range.mpr (hlt i hi)
  simpa using (hnodup.subperm hsubset).length_le

/-- A list in which no party is twice has as many members as there are parties iff
it has all of them. -/
theorem length_eq_iff_parties {l : List Nat} {n : Nat} (hnodup : l.Nodup) (hlt : ∀ i ∈ l, i < n) :
    l.length = n ↔ ∀ i, i < n → i ∈ l := by
  have hsubset : l ⊆ List.range n := fun i hi => List.mem_range.mpr (hlt i hi)
  have hsubperm := hnodup.subperm hsubset
  constructor
  · intro hlength i hi
    have hperm := hsubperm.perm_of_length_le (by simp [hlength])
    exact hperm.mem_iff.mpr (List.mem_range.mpr hi)
  · intro hall
    have hall' : List.range n ⊆ l := fun i hi => hall i (List.mem_range.mp hi)
    have hle := (List.nodup_range.subperm hall').length_le
    rw [List.length_range] at hle
    exact le_antisymm (length_le_of_parties hnodup hlt) hle

end kelcoro.lib
