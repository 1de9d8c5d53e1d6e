import Kelcoro.Lib.Run
import Kelcoro.AttachList
import Mathlib

namespace kelcoro.gate

open kelcoro.lib kelcoro.lib.waiters kelcoro.attach_list

variable {α : Type} [DecidableEq α]

/-- A gate, its close waiters and the calls of `leave` in progress, the awaiters
that `close` has made, and what `is_closed()` and `active_count()` were whenever a
coroutine continued after `co_await close()`. -/
structure State (α : Type) where
  count : Nat
  close_waiters : Waiters α
  close_requested : Bool
  made : α → Bool
  continued : List (Bool × Nat)

omit [DecidableEq α] in
def construct : State α where
  count := 0
  close_waiters := attach_list.construct
  close_requested := false
  made := fun _ => false
  continued := []

namespace State

variable (s : State α)

def is_closed : Bool := s.close_requested

def active_count : Nat := s.count

/-- A coroutine goes on after its `co_await`. -/
def go_on : State α := { s with continued := (s.is_closed, s.active_count) :: s.continued }

/-- The next iteration of the innermost `attach_list`: the executor resumes the
coroutine at once. -/
def iterate : Option (State α) :=
  match s.close_waiters.iterate with
  | none => none
  | some waiters =>
    match waiters.attached with
    | [] => some { s with close_waiters := waiters }
    | v :: _ => (waiters.resume v).map fun waiters => { s with close_waiters := waiters }.go_on

end State

/-- What the coroutines that run can do, one at a time. `enter`, `hold` and the
operations of a holder come down to `try_enter` and `leave`; `co_await` is on an
awaiter at `v` that `close` has made; `iterate` is the return to the innermost
`leave`; and memory that is no waiter's node is used for something else. -/
inductive Action (α : Type) where
  | try_enter
  | leave
  | close (v : α)
  | co_await (v : α)
  | reopen
  | iterate
  | relink (v : α) (next : Option α)

def step (s : State α) : Action α → Option (State α)
  | .try_enter => if s.is_closed then some s else some { s with count := s.count + 1 }
  | .leave =>
    if s.count = 0 then none
    else
      let s := { s with count := s.count - 1 }
      if s.is_closed ∧ s.count = 0 then { s with close_waiters := s.close_waiters.take }.iterate
      else some s
  | .close v =>
    if s.close_waiters.busy v then none
    else some { s with close_requested := true, made := Function.update s.made v true }
  | .co_await v =>
    if s.made v = false ∨ s.close_waiters.busy v then none
    else if s.count = 0 then some s.go_on
    else some { s with close_waiters := s.close_waiters.suspend v }
  | .reopen =>
    if s.count = 0 ∧ s.close_waiters.queue.empty then some { s with close_requested := false } else none
  | .iterate => s.iterate
  | .relink v next => (s.close_waiters.relink v next).map fun waiters => { s with close_waiters := waiters }

def Step (s : State α) (a : Action α) (s' : State α) : Prop := step s a = some s'

end kelcoro.gate
