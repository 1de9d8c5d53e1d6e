import Mathlib.Data.List.Basic

namespace kelcoro.lib

variable {ε : Type} {Follows : List ε → ε → Prop}

/-- A log, the newest event first, each event of which may follow the ones
before it. -/
def Lawful (Follows : List ε → ε → Prop) : List ε → Prop
  | [] => True
  | e :: log => Follows log e ∧ Lawful Follows log

namespace Lawful

@[simp] theorem nil : Lawful Follows [] := trivial

theorem follows {log later earlier : List ε} {e : ε} (h : Lawful Follows log)
    (hsplit : log = later ++ e :: earlier) : Follows earlier e := by
  induction later generalizing log with
  | nil =>
    subst hsplit
    exact h.1
  | cons x later ih =>
    subst hsplit
    exact ih h.2 rfl

/-- What was said of the whole log could have been said before its last events. -/
theorem of_split {log later earlier : List ε} {e : ε} (h : Lawful Follows log)
    (hsplit : log = later ++ e :: earlier) : Lawful Follows earlier := by
  induction later generalizing log with
  | nil =>
    subst hsplit
    exact h.2
  | cons x later ih =>
    subst hsplit
    exact ih h.2 rfl

/-- An event that nothing may follow is the newest one. -/
theorem newest {log later earlier : List ε} {e : ε} (h : Lawful Follows log)
    (hlast : ∀ (log : List ε) (e' : ε), e ∈ log → ¬ Follows log e')
    (hsplit : log = later ++ e :: earlier) : later = [] := by
  cases later with
  | nil => rfl
  | cons x later =>
    subst hsplit
    exact absurd h.1 (hlast _ x (by simp))

end Lawful

end kelcoro.lib
