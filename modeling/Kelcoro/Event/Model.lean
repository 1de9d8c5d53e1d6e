import Kelcoro.Lib.Waiters
import Kelcoro.NonownerLockfreeStack.System
import Mathlib

namespace kelcoro.event

open kelcoro.lib kelcoro.lib.waiters kelcoro.nonowner_lockfree_stack

/-- What a `notify_all` does next: the exchange of the top (call `c` on the
stack), and for each node the write of its `input`, the read of its `next` and
the `attach`. -/
inductive NotifyPc (α : Type) where
  | idle
  | pop (c : Nat)
  | loop (top : Option (Node α))
  | next (top : Node α)
  | attach (top : Node α) (next : Option (Node α))
  | returned (result : Bool)
  deriving DecidableEq, Repr

structure Notify (α I : Type) where
  pc : NotifyPc α
  input : Option I

/-- An event: its stack of subscribers with the calls on it, the fields of the
nodes (a subscription is named by the `task` of its node), the calls of
`notify_all`, the nodes that an executor has and those that are in use, what the
resumed coroutines got, and the log of what happened. -/
structure State (α I : Type) where
  subscribers : nonowner_lockfree_stack.State α
  task : α → Nat
  input : α → Option I
  notifies : Nat → Notify α I
  attached : List α
  used : α → Bool
  received : Nat → Option I
  entered : Nat
  taken : Nat
  log : List waiters.Event

variable {α I : Type} [DecidableEq α]

omit [DecidableEq α] in
def construct : State α I where
  subscribers := nonowner_lockfree_stack.construct false
  task := fun _ => 0
  input := fun _ => none
  notifies := fun _ => { pc := .idle, input := none }
  attached := []
  used := fun _ => false
  received := fun _ => none
  entered := 0
  taken := 0
  log := []

namespace State

def goto (s : State α I) (k : Nat) (pc : NotifyPc α) : State α I :=
  { s with notifies := Function.update s.notifies k { s.notifies k with pc := pc } }

end State

/-- `co_await event` with an awaiter at `v`, up to `subscribers.push(this)`. -/
def subscribe (s : State α I) (v : α) : Option (State α I) :=
  if s.used v then none
  else (step s.subscribers (.call (.push v))).map fun subscribers =>
    { s with
      subscribers := subscribers
      task := Function.update s.task v s.entered
      used := Function.update s.used v true
      entered := s.entered + 1 }

/-- The push of a subscription goes on (`a` is a step of it); with the exchange
that succeeds the coroutine has subscribed. -/
def push (s : State α I) (c : Nat) (a : Action α) : Option (State α I) :=
  match (s.subscribers.calls c).nodes with
  | [v] => (step s.subscribers a).map fun subscribers =>
      { s with
        subscribers := subscribers
        log := if (subscribers.calls c).pc = .returned then .enters (s.task v) :: s.log else s.log }
  | _ => none

/-- `notify_all(exe, input)`, up to the exchange of the top. -/
def notify_all (s : State α I) (input : I) : Option (State α I) :=
  (step s.subscribers (.call .try_pop_all)).map fun subscribers =>
    { s with
      subscribers := subscribers
      notifies := Function.update s.notifies s.taken { pc := .pop s.subscribers.begun, input := some input }
      taken := s.taken + 1 }

/-- The next step of call `k` of `notify_all`. Without an input (`event<void>`)
`attach_list` does the same without the write. -/
def run (s : State α I) (k : Nat) : Option (State α I) :=
  match (s.notifies k).pc with
  | .idle => none
  | .pop c => (step s.subscribers (.run c)).map fun subscribers =>
      let s' := { s with subscribers := subscribers, log := .takes k :: s.log }
      match s.subscribers.stack.top with
      | none => s'.goto k (.returned false)
      | some top => s'.goto k (.loop (some top))
  | .loop none => some (s.goto k (.returned true))
  | .loop (some .closed_marker) => none
  | .loop (some (.of v)) =>
    some ({ s with input := Function.update s.input v (s.notifies k).input }.goto k (.next (.of v)))
  | .next top => some (s.goto k (.attach top (s.subscribers.stack.next top)))
  | .attach .closed_marker _ => none
  | .attach (.of v) next =>
    some ({ s with attached := v :: s.attached, log := .attaches (s.task v) k :: s.log }.goto k (.loop next))
  | .returned _ => none

/-- The executor resumes a coroutine, which takes its input; its node may be
used again. -/
def resume (s : State α I) (v : α) : Option (State α I) :=
  if v ∈ s.attached then
    some { s with
      attached := s.attached.erase v
      used := Function.update s.used v false
      received := Function.update s.received (s.task v) (s.input v) }
  else none

/-- Whoever has a node that is no subscriber any more writes its `next`. -/
def relink (s : State α I) (v : α) (next : Option (Node α)) : Option (State α I) :=
  if s.used v = false ∨ v ∈ s.attached then
    (step s.subscribers (.link v next)).map fun subscribers => { s with subscribers := subscribers }
  else none

/-- Memory that is no node is used for something else. -/
def overwrite (s : State α I) (v : α) (input : Option I) : Option (State α I) :=
  if s.used v then none else some { s with input := Function.update s.input v input }

/-- What can happen. -/
inductive Act (α I : Type) where
  | subscribe (v : α)
  | push (c : Nat)
  | push_spurious (c : Nat)
  | notify_all (input : I)
  | run (k : Nat)
  | resume (v : α)
  | relink (v : α) (next : Option (Node α))
  | overwrite (v : α) (input : Option I)

def Step (s : State α I) (a : Act α I) (s' : State α I) : Prop :=
  match a with
  | .subscribe v => subscribe s v = some s'
  | .push c => push s c (.run c) = some s'
  | .push_spurious c => push s c (.spurious c) = some s'
  | .notify_all input => notify_all s input = some s'
  | .run k => run s k = some s'
  | .resume v => resume s v = some s'
  | .relink v next => relink s v next = some s'
  | .overwrite v input => overwrite s v input = some s'

end kelcoro.event
