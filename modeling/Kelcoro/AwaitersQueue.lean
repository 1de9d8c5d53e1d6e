import Kelcoro.Lib.LinkedList
import Mathlib

namespace kelcoro.awaiters_queue

open kelcoro.lib

/-- An intrusive queue, and the `next` fields of the nodes it is used with. When
`first` is null, `last` has no meaning. -/
structure Queue (α : Type) where
  first : Option α
  last : Option α
  next : α → Option α

variable {α : Type} [DecidableEq α]

def Queue.construct : Queue α := { first := none, last := none, next := fun _ => none }

namespace Queue

variable (q : Queue α)

def empty : Bool := q.first.isNone

/-- `push_list(first_, last_)`. -/
def push_list (first last : α) : Queue α :=
  match q.first with
  | some _ =>
    { q with
      next := match q.last with
        | some l => Function.update q.next l (some first)
        | none => q.next
      last := some last }
  | none => { q with first := some first, last := some last }

def push (node : α) : Queue α :=
  { q with next := Function.update q.next node none }.push_list node node

/-- `pop_all()`, and what it returns. -/
def pop_all : Option α × Queue α := (q.first, { q with first := none })

/-- The queue holds the nodes, the first pushed one first. -/
structure Holds (nodes : List α) : Prop where
  linked : Linked q.next q.first nodes
  last : ∀ before l, nodes = before ++ [l] → q.last = some l

variable {q} {nodes : List α} {v : α}

omit [DecidableEq α] in
theorem Holds.empty_iff (h : q.Holds nodes) : q.first = none ↔ nodes = [] := by
  cases nodes with
  | nil => simp [Segment.nil_iff.mp h.linked]
  | cons x xs => simp [h.linked.1]

omit [DecidableEq α] in
theorem construct_holds : (construct : Queue α).Holds [] where
  linked := rfl
  last before l hsplit := by simp at hsplit

theorem Holds.push (h : q.Holds nodes) (hv : v ∉ nodes) : (q.push v).Holds (nodes ++ [v]) := by
  have hlinked : Linked (Function.update q.next v none) q.first nodes := by
    apply h.linked.congr
    intro x hx
    apply Function.update_of_ne
    rintro rfl
    exact hv hx
  rcases List.eq_nil_or_concat' nodes with rfl | ⟨before, l, rfl⟩
  · have hfirst : q.first = none := Segment.nil_iff.mp h.linked
    refine ⟨?_, ?_⟩
    · simp [Queue.push, push_list, hfirst]
    · intro before l hsplit
      obtain ⟨-, hl⟩ := List.append_inj' hsplit rfl
      cases hl
      simp [Queue.push, push_list, hfirst]
  · have hlast : q.last = some l := h.last before l rfl
    obtain ⟨f, hfirst⟩ : ∃ f, q.first = some f := by
      rw [← Option.ne_none_iff_exists']
      intro hnone
      simpa using h.empty_iff.mp hnone
    have hlv : l ≠ v := by
      rintro rfl
      simp at hv
    have hnodup := h.linked.nodup
    have hbefore : l ∉ before := fun hmem =>
      (List.nodup_append.mp hnodup).2.2 l hmem l (by simp) rfl
    refine ⟨?_, ?_⟩
    · have hset := hlinked.set_last hbefore (some v)
      simp only [Queue.push, push_list, hfirst, hlast]
      rw [hfirst] at hset
      apply hset.append
      exact ⟨rfl, by simp [Ne.symm hlv]⟩
    · intro before' l' hsplit
      obtain ⟨-, hl⟩ := List.append_inj' hsplit rfl
      cases hl
      simp [Queue.push, push_list, hfirst, hlast]

/-- A list elsewhere is not disturbed. -/
theorem Holds.push_linked (h : q.Holds nodes) {p : Option α} {others : List α}
    (hothers : Linked q.next p others) (hv : v ∉ others) (happart : nodes.Disjoint others) :
    Linked (q.push v).next p others := by
  have hfirst : Linked (Function.update q.next v none) p others := by
    apply hothers.congr
    intro x hx
    apply Function.update_of_ne
    rintro rfl
    exact hv hx
  unfold Queue.push push_list
  cases hq : q.first with
  | none => simpa [hq] using hfirst
  | some f =>
    cases hl : q.last with
    | none => simpa [hl] using hfirst
    | some l =>
      dsimp only
      apply hfirst.congr
      intro x hx
      apply Function.update_of_ne
      rintro rfl
      rcases List.eq_nil_or_concat' nodes with rfl | ⟨before, l', rfl⟩
      · cases (h.empty_iff.mpr rfl).symm.trans hq
      · have hlast := (h.last before l' rfl).symm.trans hl
        cases hlast
        exact happart (by simp) hx

omit [DecidableEq α] in
theorem Holds.pop_all (h : q.Holds nodes) :
    Linked q.pop_all.2.next q.pop_all.1 nodes ∧ q.pop_all.2.Holds [] :=
  ⟨h.linked, rfl, fun before l hsplit => by simp at hsplit⟩

end Queue

end kelcoro.awaiters_queue
