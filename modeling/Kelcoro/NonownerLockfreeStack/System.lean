import Kelcoro.Lib.Run
import Kelcoro.NonownerLockfreeStack
import Mathlib

namespace kelcoro.nonowner_lockfree_stack

open kelcoro.lib

variable {α : Type} [DecidableEq α]

namespace Stack

/-- What `push_stack` does before and after a failed exchange:
`last->next = top.load()`. -/
def load_last (s : Stack α) (last : Node α) : Stack α :=
  { s with next := Function.update s.next last s.top }

/-- `top.compare_exchange_weak(last->next, other_top)`. -/
def compare_exchange_list (s : Stack α) (first last : Node α) : Bool × Stack α :=
  if s.top = s.next last then (true, { s with top := some first }) else (false, s.load_last last)

/-- `try_pop_all()`, and what it returns. -/
def try_pop_all (s : Stack α) : Option (Node α) × Stack α := (s.top, { s with top := none })

end Stack

/-- The operations on a stack. `nodes` are the nodes of the list that starts at
the pointer `push_stack` is given. -/
inductive Op (α : Type) where
  | push (node : α)
  | try_push (node : α)
  | push_stack (nodes : List α)
  | try_pop_all
  | close
  deriving DecidableEq, Repr

/-- What a call does next: one access to the atomic, or one step along the list
that `push_stack` was given. -/
inductive Pc (α : Type) where
  | push_load (node : α)
  | push_exchange (node : α)
  | try_push_load (node : α)
  | try_push_exchange (node : α)
  | walk (first last : Node α)
  | list_load (first last : Node α)
  | list_exchange (first last : Node α)
  | pop
  | close
  | returned
  deriving DecidableEq, Repr

/-- A call, with the nodes it is about to push. -/
structure Call (α : Type) where
  pc : Pc α
  nodes : List α
  deriving DecidableEq, Repr

/-- A successful exchange of the top: the nodes it pushed, or the pointer it
handed out and the links at that moment. -/
inductive Event (α : Type) where
  | pushed (nodes : List α)
  | popped (top : Option (Node α)) (next : Node α → Option (Node α))
  | closed (top : Option (Node α)) (next : Node α → Option (Node α))

/-- What a stack is for: the nodes in it after the events of a log, the newest
event first. -/
def content : List (Event α) → List α
  | [] => []
  | .pushed nodes :: log => nodes ++ content log
  | .popped .. :: _ => []
  | .closed .. :: _ => []

/-- A stack, the calls on it, the nodes in it or about to be pushed, and the log
of the exchanges, the newest first. -/
structure State (α : Type) where
  stack : Stack α
  calls : Nat → Call α
  begun : Nat
  busy : α → Bool
  log : List (Event α)

def idle : Call α := { pc := .returned, nodes := [] }

omit [DecidableEq α] in
def construct (closed : Bool) : State α where
  stack := Stack.construct closed
  calls := fun _ => idle
  begun := 0
  busy := fun _ => false
  log := []

namespace State

def goto (s : State α) (i : Nat) (pc : Pc α) : State α :=
  { s with calls := Function.update s.calls i { s.calls i with pc := pc } }

/-- The call is over; its nodes are in the stack. -/
def pushed (s : State α) (i : Nat) : State α :=
  { s with
    calls := Function.update s.calls i idle
    log := .pushed (s.calls i).nodes :: s.log }

/-- The call is over; its nodes belong to the caller again. -/
def refused (s : State α) (i : Nat) : State α :=
  { s with
    calls := Function.update s.calls i idle
    busy := fun v => if v ∈ (s.calls i).nodes then false else s.busy v }

/-- The call is over; the nodes of the stack belong to its caller. -/
def delivered (s : State α) (i : Nat) (e : Event α) : State α :=
  { s with
    calls := Function.update s.calls i idle
    busy := fun v => if v ∈ content s.log then false else s.busy v
    log := e :: s.log }

end State

/-- The next step of call `i`. -/
def run (s : State α) (i : Nat) : Option (State α) :=
  match (s.calls i).pc with
  | .push_load node => some ({ s with stack := s.stack.load node }.goto i (.push_exchange node))
  | .push_exchange node =>
    match s.stack.compare_exchange node with
    | (true, stack) => some ({ s with stack := stack }.pushed i)
    | (false, stack) => some { s with stack := stack }
  | .try_push_load node =>
    some ({ s with stack := s.stack.load node }.goto i (.try_push_exchange node))
  | .try_push_exchange node =>
    if s.stack.next (.of node) = some .closed_marker then some (s.refused i)
    else match s.stack.compare_exchange node with
      | (true, stack) => some ({ s with stack := stack }.pushed i)
      | (false, stack) => some { s with stack := stack }
  | .walk first last =>
    match s.stack.next last with
    | some next => some (s.goto i (.walk first next))
    | none => some (s.goto i (.list_load first last))
  | .list_load first last =>
    some ({ s with stack := s.stack.load_last last }.goto i (.list_exchange first last))
  | .list_exchange first last =>
    match s.stack.compare_exchange_list first last with
    | (true, stack) => some ({ s with stack := stack }.pushed i)
    | (false, stack) => some { s with stack := stack }
  | .pop =>
    let (top, stack) := s.stack.try_pop_all
    some ({ s with stack := stack }.delivered i (.popped top stack.next))
  | .close =>
    let (top, stack) := s.stack.close
    some ({ s with stack := stack }.delivered i (.closed top stack.next))
  | .returned => none

/-- `compare_exchange_weak` of call `i` fails although it need not. -/
def spurious (s : State α) (i : Nat) : Option (State α) :=
  match (s.calls i).pc with
  | .push_exchange node => some { s with stack := s.stack.load node }
  | .try_push_exchange node =>
    if s.stack.next (.of node) = some .closed_marker then none
    else some { s with stack := s.stack.load node }
  | .list_exchange _ last => some { s with stack := s.stack.load_last last }
  | _ => none

/-- Where a call starts. -/
def Op.start : Op α → Call α
  | .push node => { pc := .push_load node, nodes := [node] }
  | .try_push node => { pc := .try_push_load node, nodes := [node] }
  | .push_stack [] => idle
  | .push_stack (first :: rest) => { pc := .walk (.of first) (.of first), nodes := first :: rest }
  | .try_pop_all => { pc := .pop, nodes := [] }
  | .close => { pc := .close, nodes := [] }

/-- What can happen. `link` is the owner of a node writing its `next` field. -/
inductive Action (α : Type) where
  | call (op : Op α)
  | run (i : Nat)
  | spurious (i : Nat)
  | link (node : α) (next : Option (Node α))

def step (s : State α) : Action α → Option (State α)
  | .call op =>
    some { s with
      calls := Function.update s.calls s.begun op.start
      begun := s.begun + 1
      busy := fun v => if v ∈ op.start.nodes then true else s.busy v }
  | .run i => run s i
  | .spurious i => spurious s i
  | .link node next =>
    some { s with stack := { s.stack with next := Function.update s.stack.next (.of node) next } }

/-- A call for which the stack must stay open. -/
def Pc.NeedsOpen : Pc α → Prop
  | .push_load _ | .push_exchange _ | .walk _ _ | .list_load _ _ | .list_exchange _ _ | .pop => True
  | _ => False

/-- The preconditions: a node is pushed only while it is in no stack, a list
given to `push_stack` is one, and only `try_push` and `close` may meet a closed
stack. -/
def Allowed (s : State α) : Action α → Prop
  | .call (.push node) => s.stack.closed = false ∧ s.busy node = false
  | .call (.try_push node) => s.busy node = false
  | .call (.push_stack nodes) => s.stack.closed = false ∧ (∀ v ∈ nodes, s.busy v = false) ∧
      Linked s.stack.next (nodes.head?.map .of) (nodes.map .of)
  | .call .try_pop_all => s.stack.closed = false
  | .call .close => True
  | .run i => (s.calls i).pc = .close → ∀ j, ¬ (s.calls j).pc.NeedsOpen
  | .spurious _ => True
  | .link node _ => s.busy node = false

def Step (s : State α) (a : Action α) (s' : State α) : Prop :=
  Allowed s a ∧ step s a = some s'

end kelcoro.nonowner_lockfree_stack
