import Mathlib

namespace kelcoro.lib

variable {α : Type}

/-- Following `next` from `p` meets the nodes of the list in order and then
comes to `q`. -/
def Segment (next : α → Option α) : Option α → List α → Option α → Prop
  | p, [], q => p = q
  | p, x :: xs, q => p = some x ∧ Segment next (next x) xs q

/-- The list that starts at `p` and ends with a null pointer. -/
abbrev Linked (next : α → Option α) (p : Option α) (nodes : List α) : Prop :=
  Segment next p nodes none

namespace Segment

variable {next next' : α → Option α} {p q : Option α} {xs ys : List α} {x : α}

@[simp] theorem nil_iff : Segment next p [] q ↔ p = q := Iff.rfl

@[simp] theorem cons_iff :
    Segment next p (x :: xs) q ↔ p = some x ∧ Segment next (next x) xs q := Iff.rfl

/-- Only the links of the list's own nodes matter. -/
theorem congr (h : Segment next p xs q) (hsame : ∀ x ∈ xs, next' x = next x) :
    Segment next' p xs q := by
  induction xs generalizing p with
  | nil => exact h
  | cons x xs ih =>
    obtain ⟨hp, hrest⟩ := h
    rw [← hsame x (by simp)] at hrest
    exact ⟨hp, ih hrest fun y hy => hsame y (by simp [hy])⟩

theorem append_iff : Segment next p (xs ++ ys) q ↔ ∃ r, Segment next p xs r ∧ Segment next r ys q := by
  induction xs generalizing p with
  | nil => simp
  | cons x xs ih => simp [ih, and_assoc]

theorem append {r : Option α} (hxs : Segment next p xs r) (hys : Segment next r ys q) :
    Segment next p (xs ++ ys) q :=
  append_iff.mpr ⟨r, hxs, hys⟩

/-- Redirecting the link of the last node redirects the list. -/
theorem set_last [DecidableEq α] (h : Segment next p (xs ++ [x]) q) (hx : x ∉ xs) (q' : Option α) :
    Segment (Function.update next x q') p (xs ++ [x]) q' := by
  obtain ⟨r, hxs, hr⟩ := append_iff.mp h
  have hxs' : Segment (Function.update next x q') p xs r := by
    apply hxs.congr
    intro y hy
    have hne : y ≠ x := by
      rintro rfl
      exact hx hy
    exact Function.update_of_ne hne _ _
  apply hxs'.append
  exact ⟨hr.1, by simp⟩

theorem null_iff : Segment next none xs none ↔ xs = [] := by
  cases xs <;> simp

/-- The links determine the nodes of a null-terminated list. -/
theorem unique (hxs : Linked next p xs) (hys : Linked next p ys) : xs = ys := by
  induction xs generalizing p ys with
  | nil =>
    cases nil_iff.mp hxs
    exact (null_iff.mp hys).symm
  | cons x xs ih =>
    obtain ⟨rfl, hrest⟩ := hxs
    cases ys with
    | nil => cases hys
    | cons y ys =>
      obtain ⟨heq, hrest'⟩ := hys
      cases heq
      rw [ih hrest hrest']

/-- A list that ends is acyclic: a node met twice would be followed by the same
nodes both times. -/
theorem nodup (h : Linked next p xs) : xs.Nodup := by
  induction xs generalizing p with
  | nil => exact List.nodup_nil
  | cons x xs ih =>
    have hrest : Linked next (next x) xs := h.2
    refine List.nodup_cons.mpr ⟨fun hx => ?_, ih hrest⟩
    obtain ⟨before, after, hsplit⟩ := List.append_of_mem hx
    have hboth := hrest
    rw [hsplit] at hboth
    obtain ⟨r, -, hr⟩ := append_iff.mp hboth
    have hsame : xs = after := unique hrest hr.2
    have hlength := congrArg List.length (hsame.symm.trans hsplit)
    simp only [List.length_append, List.length_cons] at hlength
    omega

end Segment

end kelcoro.lib
