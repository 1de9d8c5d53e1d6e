import Kelcoro.Lib.Calls
import Kelcoro.Task.Destroyed
import Mathlib

namespace kelcoro.task.calls

open kelcoro.lib kelcoro.return_block

/-- How a body awaits a task that it has called: as an lvalue, as an rvalue, or with
`wait()`. -/
inductive Awaited where
  | ref
  | value
  | wait
  deriving DecidableEq, Repr

variable {C V E A R : Type}

namespace Awaited

def call : Awaited → Call
  | .ref => .co_await_ref
  | .value => .co_await_value
  | .wait => .wait

/-- What the body gets. -/
def answer (kind : Awaited) (o : Read V E) : Option (Read V E) := if kind.call.reads then some o else none

end Awaited

/-- What a body does next. It may await a task that it calls, or something else that
suspends it until it is resumed with an answer. -/
inductive Command (C V E A R : Type) where
  | co_return (how : Return V E)
  | throw (e : E)
  | co_await (c : C) (kind : Awaited) (k : Option (Read V E) → C)
  | await (a : A) (k : R → C)

/-- The type of the coroutine has that `co_return`. -/
def Fits : Return V E → Specialization → Prop
  | .value _, .object | .value _, .reference => True
  | .return_exception _, .object | .return_exception _, .reference => True
  | .void, .void => True
  | _, _ => False

/-- What a body that ends so leaves to the one that waits. -/
def outcome : Return V E → Read V E
  | .value v => .returned (some v)
  | .void => .returned none
  | .return_exception e => .threw e
  | .rvo => .undefined

/-- The bodies of coroutines; `c` is a place in one. -/
structure Program (C V E A R : Type) where
  spec : C → Specialization
  command : C → Command C V E A R
  fits : ∀ c how, command c = .co_return how → Fits how (spec c)
  after_co_await : ∀ c c' kind k, command c = .co_await c' kind k → ∀ o, spec (k o) = spec c
  after_await : ∀ c a k, command c = .await a k → ∀ x, spec (k x) = spec c

/-- The same bodies as functions that call each other. -/
def Program.function (P : Program C V E A R) (c : C) : Instr C A R (Read V E) :=
  match P.command c with
  | .co_return how => .returns (outcome how)
  | .throw e => .returns (.threw e)
  | .co_await c kind k => .calls c fun o => k (kind.answer o)
  | .await a k => .asks a k

/-- Tasks whose bodies await each other. A coroutine that another one of these waits
for is in the hands of a temporary there; the others are in the hands of their
callers. -/
structure System (C V E A R : Type) where
  tasks : State V E
  points : Nat → Point C A R (Read V E)
  /-- The coroutine behind `who_waits`, when it is one of these. -/
  who : Nat → Option Nat
  /-- The coroutine on behalf of which this one was called. -/
  root : Nat → Nat
  bodies : Nat → Option C
  /-- What was awaited on behalf of a coroutine, and the answers. -/
  trace : Nat → List (A × R)

def construct : System C V E A R where
  tasks := task.construct V E
  points := fun _ => .done .undefined
  who := fun _ => none
  root := fun f => f
  bodies := fun _ => none
  trace := fun _ => []

/-- A coroutine is called and not awaited by one of these, something is done with it
by its caller, a coroutine goes on, and is resumed with the answer to what it awaited. -/
inductive Action (C V E R : Type) where
  | spawn (c : C)
  | caller (r : Nat) (op : Op V E)
  | go (f : Nat)
  | resume (f : Nat) (x : R)

/-- What the caller does. -/
def OfCaller : Op V E → Prop
  | .destruct | .co_await _ | .get | .start | .start_and_detach _ => True
  | .co_await_result _ | .drop_result | .destroy => True
  | _ => False

instance (op : Op V E) : Decidable (OfCaller op) :=
  match op with
  | .destruct | .co_await _ | .get | .start | .start_and_detach _ => .isTrue trivial
  | .co_await_result _ | .drop_result | .destroy => .isTrue trivial
  | .resume | .suspend | .use _ | .unhandled_exception _ _ | .final_suspend | .transfer_control => .isFalse id

/-- It is done through the task or without it. -/
def caller_action (r : Nat) (op : Op V E) : task.Action V E := if op.OfTask then .call r op else .frame r op

namespace System

variable (left : E → Option E) (moved : V → V) (s : System C V E A R)

def goto (f : Nat) (p : Point C A R (Read V E)) : System C V E A R :=
  { s with points := Function.update s.points f p }

/-- Coroutine `f` goes on, with its frame changed. -/
def put (f : Nat) (frame : Frame V E) (p : Point C A R (Read V E)) : System C V E A R :=
  { s with
    tasks := s.tasks.put f frame
    points := Function.update s.points f p }

/-- The state after some actions on the tasks. -/
def take (as : List (task.Action V E)) : Option (System C V E A R) :=
  (as.foldlM (task.step left moved) s.tasks).map fun tasks => { s with tasks := tasks }

end System

section Step

variable (P : Program C V E A R) (left : E → Option E) (moved : V → V) (s : System C V E A R)

/-- `co_await c()`. The task is a temporary, and control is transferred to its
coroutine. -/
def co_await (f : Nat) (c : C) (kind : Awaited) (k : Option (Read V E) → C) : Option (System C V E A R) :=
  (s.take left moved [.create s.tasks.created (P.spec c), .frame f .suspend,
      .call s.tasks.created (.co_await kind.call)]).map fun s' =>
    { s' with
      points := Function.update (Function.update s.points s.tasks.created (.goes_on c)) f
        (.calls s.tasks.created fun o => k (kind.answer o))
      who := Function.update s.who s.tasks.created (some f)
      root := Function.update s.root s.tasks.created (s.root f) }

/-- `co_await transfer_control_to{who_waits}`. A coroutine that called this one takes
the result, and the temporary is destroyed. -/
def transfer_control (f : Nat) : Option (System C V E A R) :=
  match s.who f with
  | none => s.take left moved [.frame f .transfer_control]
  | some p =>
    match s.points p with
    | .calls _ k =>
      (s.take left moved [.frame f .transfer_control, .frame p .resume, .call f .destruct]).map fun s' =>
        s'.goto p (.goes_on (k (result_or_rethrow left (s.tasks.frames f).promise.block).1))
    | _ => none

/-- A coroutine that is not suspended goes on. -/
def go (f : Nat) : Option (System C V E A R) :=
  match (s.tasks.frames f).pc, s.points f with
  | .running, .goes_on c =>
    match P.command c with
    | .co_await c kind k => co_await P left moved s f c kind k
    | .await a k => (s.take left moved [.frame f .suspend]).map fun s' => s'.goto f (.asks a k)
    | .co_return how =>
      (s.take left moved [.frame f (.use (.co_return how))]).map fun s' => s'.goto f (.done (outcome how))
    | .throw e =>
      (s.take left moved [.frame f (.unhandled_exception e false)]).map fun s' => s'.goto f (.done (.threw e))
  | .running, .done _ => s.take left moved [.frame f .final_suspend]
  | .ending, .done _ => transfer_control left moved s f
  | _, _ => none

def step : Action C V E R → Option (System C V E A R)
  | .spawn c =>
    (s.take left moved [.create s.tasks.created (P.spec c)]).map fun s' =>
      { s' with
        points := Function.update s.points s.tasks.created (.goes_on c)
        who := Function.update s.who s.tasks.created none
        root := Function.update s.root s.tasks.created s.tasks.created
        bodies := Function.update s.bodies s.tasks.created (some c)
        trace := Function.update s.trace s.tasks.created [] }
  | .caller r op => if s.bodies r ≠ none ∧ OfCaller op then s.take left moved [caller_action r op] else none
  | .go f => go P left moved s f
  | .resume f x =>
    match s.points f with
    | .asks a k =>
      (s.take left moved [.frame f .resume]).map fun s' =>
        { s'.goto f (.goes_on (k x)) with
          trace := Function.update s.trace (s.root f) (s.trace (s.root f) ++ [(a, x)]) }
    | _ => none

/-- The callers meet the preconditions of tasks, and only coroutines go on. -/
def Allowed : Action C V E R → Prop
  | .spawn _ => True
  | .caller r op => task.Allowed s.tasks (caller_action r op)
  | .go f | .resume f _ => f < s.tasks.created

instance [DecidableEq V] [DecidableEq E] (a : Action C V E R) : Decidable (Allowed s a) :=
  match a with
  | .spawn _ => .isTrue trivial
  | .caller r op => inferInstanceAs (Decidable (task.Allowed s.tasks (caller_action r op)))
  | .go f | .resume f _ => inferInstanceAs (Decidable (f < s.tasks.created))

def Step (s : System C V E A R) (a : Action C V E R) (s' : System C V E A R) : Prop :=
  Allowed s a ∧ step P left moved s a = some s'

end Step

end kelcoro.task.calls
