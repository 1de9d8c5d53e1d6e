import Kelcoro.Lib.LinkedList
import Mathlib

namespace kelcoro.nonowner_lockfree_stack

open kelcoro.lib

/-- The nodes a stack can point to. `closed_marker` is never a real node. -/
inductive Node (α : Type) where
  | closed_marker
  | of (node : α)
  deriving DecidableEq, Repr

/-- The stack's one atomic, and the `next` fields of the nodes it is used with. -/
structure Stack (α : Type) where
  top : Option (Node α)
  next : Node α → Option (Node α)

variable {α : Type} [DecidableEq α]

/-- `nonowner_lockfree_stack(bool closed)`. -/
def Stack.construct (closed : Bool) : Stack α where
  top := if closed then some .closed_marker else none
  next := fun _ => none

namespace Stack

variable (s : Stack α) (node : α)

def closed : Bool := s.top = some .closed_marker

/-- `value_ptr->next = top.load()`, which is also what a `compare_exchange_weak`
does when it fails. -/
def load : Stack α := { s with next := Function.update s.next (.of node) s.top }

/-- `top.compare_exchange_weak(value_ptr->next, value_ptr)`, when it does not
fail spuriously. -/
def compare_exchange : Bool × Stack α :=
  if s.top = s.next (.of node) then (true, { s with top := some (.of node) })
  else (false, s.load node)

/-- `close()`, and what it returns. -/
def close : Option (Node α) × Stack α :=
  let t := s.top
  (if t = some .closed_marker then none else t, { s with top := some .closed_marker })

/-- The stack is open and holds the nodes, the last pushed one first. -/
structure Holds (nodes : List α) : Prop where
  opened : s.top ≠ some .closed_marker
  linked : Linked s.next s.top (nodes.map .of)

variable {s node} {nodes : List α}

@[simp] theorem load_top : (s.load node).top = s.top := rfl

@[simp] theorem load_next_self : (s.load node).next (.of node) = s.top := by simp [load]

theorem load_next_of_ne {x : Node α} (hne : x ≠ .of node) : (s.load node).next x = s.next x :=
  Function.update_of_ne hne ..

omit [DecidableEq α] in
/-- A `compare_exchange_weak` that succeeds pushes the node. -/
theorem Holds.push (h : s.Holds nodes) (htop : s.top = s.next (.of node)) :
    ({ s with top := some (.of node) } : Stack α).Holds (node :: nodes) where
  opened := by simp
  linked := ⟨rfl, htop ▸ h.linked⟩

/-- `close` hands out the nodes of an open stack. -/
theorem Holds.close (h : s.Holds nodes) :
    Linked s.close.2.next s.close.1 (nodes.map .of) := by
  unfold Stack.close
  simp only [if_neg h.opened]
  exact h.linked

theorem close_closed (h : s.top = some .closed_marker) : s.close.1 = none := by
  simp [close, h]

@[simp] theorem close_top : s.close.2.top = some .closed_marker := rfl

@[simp] theorem close_next : s.close.2.next = s.next := rfl

end Stack

end kelcoro.nonowner_lockfree_stack
