import Kelcoro.Lib.LinkedList
import Mathlib

namespace kelcoro.thread_pool

open kelcoro.lib

/-- A `task_queue`. When `first` is null, `last` has no meaning. -/
structure Queue (α : Type) where
  first : Option α
  last : Option α
  deriving DecidableEq, Repr

variable {α : Type} [DecidableEq α]

namespace Queue

/-- The node whose `next` a push writes. -/
def tail (q : Queue α) : Option α := q.first.bind fun _ => q.last

/-- `push_list(first_, last_)`, with the `next` fields of all nodes. -/
def push_list (q : Queue α) (next : α → Option α) (first last : α) : (α → Option α) × Queue α :=
  match q.first with
  | some _ =>
    (match q.last with
      | some l => Function.update next l (some first)
      | none => next, { q with last := some last })
  | none => (next, { first := some first, last := some last })

/-- The queue holds the nodes, the first pushed one first. -/
structure Holds (q : Queue α) (next : α → Option α) (nodes : List α) : Prop where
  linked : Linked next q.first nodes
  last : ∀ before l, nodes = before ++ [l] → q.last = some l

variable {q : Queue α} {next next' : α → Option α} {nodes : List α} {v first last : α}

omit [DecidableEq α] in
theorem Holds.congr (h : q.Holds next nodes) (hsame : ∀ x ∈ nodes, next' x = next x) :
    q.Holds next' nodes :=
  ⟨h.linked.congr hsame, h.last⟩

omit [DecidableEq α] in
/-- The queue is empty, or has a last node. -/
theorem Holds.cases (h : q.Holds next nodes) :
    (nodes = [] ∧ q.first = none) ∨
      ∃ before l f, nodes = before ++ [l] ∧ q.first = some f ∧ q.last = some l := by
  rcases List.eq_nil_or_concat' nodes with rfl | ⟨before, l, rfl⟩
  · exact Or.inl ⟨rfl, h.linked⟩
  · have hlast := h.last before l rfl
    have hlinked := h.linked
    cases hfirst : q.first with
    | none =>
      rw [hfirst] at hlinked
      exact absurd (Segment.null_iff.mp hlinked) (by simp)
    | some f => exact Or.inr ⟨before, l, f, rfl, rfl, hlast⟩

omit [DecidableEq α] in
theorem Holds.tail_mem (h : q.Holds next nodes) (htail : q.tail = some v) : v ∈ nodes := by
  rcases h.cases with ⟨-, hfirst⟩ | ⟨before, l, f, rfl, hfirst, hlast⟩
  · simp [tail, hfirst] at htail
  · obtain rfl : l = v := by simpa [tail, hfirst, hlast] using htail
    simp

/-- Only the link of a node in the queue is written. -/
theorem Holds.push_list_next (h : q.Holds next nodes) (hv : v ∉ nodes) :
    (q.push_list next first last).1 v = next v := by
  rcases h.cases with ⟨-, hfirst⟩ | ⟨before, l, f, rfl, hfirst, hlast⟩
  · simp [push_list, hfirst]
  · have hvl : v ≠ l := by
      rintro rfl
      simp at hv
    simp [push_list, hfirst, hlast, hvl]

/-- A list of other nodes is added at the end. -/
theorem Holds.push_list (h : q.Holds next nodes) {news before : List α} (hnews : Linked next (some first) news)
    (hlast : news = before ++ [last]) (happart : nodes.Disjoint news) :
    (q.push_list next first last).2.Holds (q.push_list next first last).1 (nodes ++ news) := by
  have hend : ∀ before' l', nodes ++ news = before' ++ [l'] → l' = last := by
    intro before' l' hsplit
    rw [hlast, ← List.append_assoc] at hsplit
    exact (List.singleton_inj.mp (List.append_inj' hsplit rfl).2).symm
  rcases h.cases with ⟨rfl, hfirst⟩ | ⟨before', l, f, rfl, hfirst, hl⟩
  · refine ⟨?_, fun before' l' hsplit => ?_⟩
    · simpa [Queue.push_list, hfirst] using hnews
    · simp [Queue.push_list, hfirst, hend before' l' hsplit]
  · have hnodup := h.linked.nodup
    have hbefore : l ∉ before' := fun hmem =>
      (List.nodup_append.mp hnodup).2.2 l hmem l (by simp) rfl
    have hlinked := h.linked
    rw [hfirst] at hlinked
    refine ⟨?_, fun before'' l'' hsplit => ?_⟩
    · simp only [Queue.push_list, hfirst, hl]
      apply (hlinked.set_last hbefore (some first)).append
      apply hnews.congr
      intro x hx
      apply Function.update_of_ne
      rintro rfl
      exact happart (by simp) hx
    · simp [Queue.push_list, hfirst, hend before'' l'' hsplit]

omit [DecidableEq α] in
theorem Holds.popped (q : Queue α) (next : α → Option α) : ({ q with first := none } : Queue α).Holds next [] :=
  ⟨rfl, fun before l hsplit => by simp at hsplit⟩

end Queue

end kelcoro.thread_pool
