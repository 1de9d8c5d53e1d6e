import Kelcoro.Lib.Run
import Kelcoro.NonownerLockfreeStack
import Mathlib

namespace kelcoro.latch

open kelcoro.nonowner_lockfree_stack

/-- The calls that are made on a latch. -/
inductive Op where
  | count_down (n : Int)
  | wait
  | arrive_and_wait (n : Int)
  deriving DecidableEq, Repr

/-- What a call does next: one atomic operation, or one `attach`. An `assert`
that loads the counter is an operation of its own. -/
inductive Pc where
  | arrive_assert (n : Int)
  | await_ready
  | try_push_load
  | try_push_exchange
  | push_load (n : Int)
  | push_exchange (n : Int)
  | count_down_assert (n : Int)
  | fetch_sub (n : Int)
  | close
  | attach_list (top : Option (Node Nat))
  | attach (top : Node Nat) (next : Option (Node Nat))
  | returned
  deriving DecidableEq, Repr

/-- The coroutine of a `wait` or `arrive_and_wait`: not suspended yet, with its
node pushed, attached to the executor, resumed by it, or not suspended at all. -/
inductive Status where
  | running
  | waiting
  | attached
  | resumed
  | passed
  deriving DecidableEq, Repr

structure Call where
  op : Op
  pc : Pc
  status : Status
  deriving DecidableEq, Repr

/-- The latch, the calls on it (the node of an awaiter is named after its call),
how often each node was attached, and the sum of all `n` so far. -/
structure State where
  stack : Stack Nat
  counter : Int
  calls : Nat → Call
  begun : Nat
  attaches : Nat → Nat
  decrements : Int
  aborted : Bool

def idle : Call := { op := .wait, pc := .returned, status := .running }

/-- `latch(count, e)`, before any call. -/
def construct (count : Int) : State where
  stack := Stack.construct (count = 0)
  counter := count
  calls := fun _ => idle
  begun := 0
  attaches := fun _ => 0
  decrements := 0
  aborted := false

namespace State

def put (s : State) (i : Nat) (c : Call) : State :=
  { s with calls := Function.update s.calls i c }

def goto (s : State) (i : Nat) (pc : Pc) : State :=
  s.put i { s.calls i with pc := pc }

/-- The coroutine goes on without having been suspended. -/
def pass (s : State) (i : Nat) : State :=
  s.put i { s.calls i with pc := .returned, status := .passed }

/-- The node of the coroutine is in the stack from now on. -/
def suspend (s : State) (i : Nat) (pc : Pc) : State :=
  s.put i { s.calls i with pc := pc, status := .waiting }

/-- `e.attach(node)`. -/
def attach (s : State) (i : Nat) : State :=
  { s.put i { s.calls i with status := .attached } with
    attaches := Function.update s.attaches i (s.attaches i + 1) }

/-- A failed assertion or an access to a node that is gone. -/
def abort (s : State) : State := { s with aborted := true }

end State

/-- Where a call starts. -/
def Op.start : Op → Pc
  | .count_down n => .count_down_assert n
  | .wait => .await_ready
  | .arrive_and_wait n => .arrive_assert n

def Op.decrement : Op → Int
  | .count_down n => n
  | .wait => 0
  | .arrive_and_wait n => n

/-- The node of a coroutine that was resumed does not exist any more. -/
def alive (s : State) : Node Nat → Bool
  | .closed_marker => true
  | .of j => (s.calls j).status ≠ .resumed

/-- The next operation of call `i`. -/
def run (s : State) (i : Nat) : Option State :=
  match (s.calls i).pc with
  | .arrive_assert n =>
    if 0 ≤ n ∧ n ≤ s.counter then
      if n = 0 then some (s.goto i .await_ready) else some (s.goto i (.push_load n))
    else some s.abort
  | .await_ready => if s.stack.closed then some (s.pass i) else some (s.goto i .try_push_load)
  | .try_push_load => some ({ s with stack := s.stack.load i }.goto i .try_push_exchange)
  | .try_push_exchange =>
    if s.stack.next (.of i) = some .closed_marker then some (s.pass i)
    else match s.stack.compare_exchange i with
      | (true, stack) => some ({ s with stack := stack }.suspend i .returned)
      | (false, stack) => some { s with stack := stack }
  | .push_load n => some ({ s with stack := s.stack.load i }.goto i (.push_exchange n))
  | .push_exchange n =>
    match s.stack.compare_exchange i with
    | (true, stack) => some ({ s with stack := stack }.suspend i (.count_down_assert n))
    | (false, stack) => some { s with stack := stack }
  | .count_down_assert n =>
    if 0 ≤ n ∧ n ≤ s.counter then some (s.goto i (.fetch_sub n)) else some s.abort
  | .fetch_sub n =>
    let c := s.counter
    let s := { s with counter := c - n }
    if n ≤ c then
      if c = n then some (s.goto i .close) else some (s.goto i .returned)
    else some s.abort
  | .close =>
    let (top, stack) := s.stack.close
    some ({ s with stack := stack }.goto i (.attach_list top))
  | .attach_list none => some (s.goto i .returned)
  | .attach_list (some top) =>
    if alive s top then some (s.goto i (.attach top (s.stack.next top))) else some s.abort
  | .attach .closed_marker _ => some s.abort
  | .attach (.of j) next => some ((s.attach j).goto i (.attach_list next))
  | .returned => none

/-- `compare_exchange_weak` of call `i` fails although it need not. -/
def spurious (s : State) (i : Nat) : Option State :=
  match (s.calls i).pc with
  | .try_push_exchange =>
    if s.stack.next (.of i) = some .closed_marker then none
    else some { s with stack := s.stack.load i }
  | .push_exchange _ => some { s with stack := s.stack.load i }
  | _ => none

/-- What can happen to a latch. An executor links the nodes attached to it as it
likes, and resumes their coroutines. -/
inductive Action where
  | call (op : Op)
  | run (i : Nat)
  | spurious (i : Nat)
  | relink (i : Nat) (next : Option (Node Nat))
  | resume (i : Nat)
  deriving DecidableEq, Repr

/-- One step from an initial count. A call is made with its precondition: no
negative `n`, and no more decrements than the count allows. -/
def step (count : Int) (s : State) : Action → Option State
  | .call op =>
    if 0 ≤ op.decrement ∧ s.decrements + op.decrement ≤ count then
      some { s.put s.begun { op := op, pc := op.start, status := .running } with
        begun := s.begun + 1
        decrements := s.decrements + op.decrement }
    else none
  | .run i => if s.aborted then none else run s i
  | .spurious i => if s.aborted then none else spurious s i
  | .relink i next =>
    if (s.calls i).status = .attached ∨ (s.calls i).status = .resumed then
      some { s with stack := { s.stack with next := Function.update s.stack.next (.of i) next } }
    else none
  | .resume i =>
    if (s.calls i).status = .attached then some (s.put i { s.calls i with status := .resumed })
    else none

def Step (count : Int) (s : State) (a : Action) (s' : State) : Prop :=
  step count s a = some s'

end kelcoro.latch
