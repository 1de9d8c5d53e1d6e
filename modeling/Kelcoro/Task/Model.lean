import Kelcoro.Lib.Owned
import Kelcoro.Lib.Run
import Kelcoro.ReturnBlock.Model
import Mathlib

namespace kelcoro.task

open kelcoro.lib kelcoro.return_block

/-- `who_waits`. The coroutine that waits makes the call `c` when it is resumed. -/
inductive WhoWaits where
  | null
  | noop
  | owner (c : Call)
  deriving DecidableEq, Repr

/-- Where a coroutine is. It is `ending` from `on_end` to its last suspension. -/
inductive Pc where
  | initial_suspend
  | running
  | suspended
  | ending
  | final_suspend
  | destroyed
  deriving DecidableEq, Repr

/-- Who has the handle: a task, its `start_result`, the caller of
`start_and_detach(true)`, nobody. -/
inductive Holder where
  | task_object
  | start_result (awaited : Bool)
  | caller
  | nobody
  deriving DecidableEq, Repr

/-- What happens to a frame: it is accessed, functions of its context are invoked,
its body goes on or is over, a coroutine is suspended on it or resumed by it, it is
destroyed. -/
inductive Access where
  | accessed
  | on_owner_setted
  | on_start
  | stepped
  | on_ignored_exception
  | finished
  | on_end
  | awaited
  | resumed
  | destroyed
  deriving DecidableEq, Repr

/-- A frame, and all that happened to it, the newest first. -/
structure Frame (V E : Type) where
  pc : Pc
  who_waits : WhoWaits
  holder : Holder
  promise : Promise V E
  log : List Access

variable {V E : Type}

namespace Frame

variable (left : E → Option E) (moved : V → V)

def construct (spec : Specialization) : Frame V E where
  pc := .initial_suspend
  who_waits := .null
  holder := .task_object
  promise := .construct spec
  log := []

def access (frame : Frame V E) (e : Access) : Frame V E := { frame with log := e :: frame.log }

def done (frame : Frame V E) : Prop := frame.pc = .final_suspend

instance (frame : Frame V E) : Decidable frame.done := inferInstanceAs (Decidable (frame.pc = .final_suspend))

/-- The coroutine is not in progress any more. A handle of a frame that has destroyed itself dangles. -/
def stopped (frame : Frame V E) : Prop := frame.done ∨ frame.pc = .destroyed

instance (frame : Frame V E) : Decidable frame.stopped := inferInstanceAs (Decidable (frame.done ∨ frame.pc = .destroyed))

/-- `handle.resume()`. -/
def resume (frame : Frame V E) : Frame V E := { frame with pc := .running }.access .stepped

/-- `handle.destroy()`. Who has the handle of the frame still has it, unless it gives it up. -/
def destroy (frame : Frame V E) : Frame V E := { frame with pc := .destroyed }.access .destroyed

/-- A call on a task that is done. -/
def read (frame : Frame V E) (c : Call) : Frame V E :=
  { frame with promise := { frame.promise with block := (call left moved frame.promise.block c).2 } }.access .accessed

def prepare_task_to_start (frame : Frame V E) (owner : WhoWaits) : Frame V E :=
  ({ frame with who_waits := owner }.access .on_owner_setted).access .on_start

/-- `starter::await_suspend`, and that of `wait_with_proxy_owner`, whose proxy only
the context sees. -/
def await_suspend (frame : Frame V E) (c : Call) : Frame V E :=
  ((frame.access .awaited).prepare_task_to_start (.owner c)).resume

/-- `co_await` of a task, of its `wait()` or of its `wait_with_proxy_owner`. -/
def co_await (frame : Frame V E) (c : Call) : Frame V E :=
  if frame.done then (frame.access .accessed).read left moved c else (frame.access .accessed).await_suspend c

/-- `get()`, whose `do_blocking_wait` waits for a task that is not done, before the result is read. -/
def get (frame : Frame V E) : Frame V E :=
  if frame.done then (frame.access .accessed).read left moved .get else (frame.access .accessed).await_suspend .get

def start (frame : Frame V E) : Frame V E :=
  ({ frame with who_waits := .noop, holder := .start_result false }.access .on_start).resume

/-- `start_and_detach`, which begins with `detach()`. -/
def start_and_detach (frame : Frame V E) (stop_at_end : Bool) : Frame V E :=
  let frame := { frame with who_waits := .null }.access .accessed
  if frame.done then
    if stop_at_end then { frame with holder := .caller } else { frame with holder := .nobody }.destroy
  else
    ({ frame with
      who_waits := if stop_at_end then .noop else .null
      holder := if stop_at_end then .caller else .nobody }.access .on_start).resume

/-- `co_await` of a `start_result` or of its `wait()`. -/
def co_await_result (frame : Frame V E) (c : Call) : Frame V E :=
  let frame := { frame with holder := .start_result true }.access .accessed
  if frame.done then frame.read left moved c else (frame.access .awaited).prepare_task_to_start (.owner c)

/-- `~start_result()`. -/
def drop_result (frame : Frame V E) : Frame V E :=
  let frame := { frame with holder := .nobody }.access .accessed
  if frame.done then frame.destroy else { frame with who_waits := .null }

/-- `unhandled_exception()`. When `on_ignored_exception` throws, the exception leaves
the coroutine, which is done then. -/
def unhandled_exception (frame : Frame V E) (e : E) (rethrows : Bool) : Option (Frame V E) :=
  if frame.who_waits = .null then
    let frame := frame.access .on_ignored_exception
    if rethrows then some ({ frame with pc := .final_suspend }.access .finished)
    else (frame.promise.use (.throw e)).map fun p => { frame with promise := p }
  else (frame.promise.use (.throw e)).map fun p => { frame with promise := p }

/-- `final_suspend()` up to its `on_end`. -/
def final_suspend (frame : Frame V E) : Frame V E :=
  ({ frame with pc := .ending }.access .finished).access .on_end

/-- `co_await transfer_control_to{who_waits}`. -/
def transfer_control (frame : Frame V E) : Frame V E :=
  match frame.who_waits with
  | .null => frame.destroy
  | .noop => { frame with pc := .final_suspend }
  | .owner c => ({ frame with pc := .final_suspend }.access .resumed).read left moved c

end Frame

/-- What is done with a frame, by its task, by its `start_result`, by the caller of
`start_and_detach(true)`, by the one who resumes it, and by itself. -/
inductive Op (V E : Type) where
  | destruct
  | co_await (c : Call)
  | get
  | start
  | start_and_detach (stop_at_end : Bool)
  | co_await_result (c : Call)
  | drop_result
  | destroy
  | resume
  | suspend
  | use (u : Use V E)
  | unhandled_exception (e : E) (rethrows : Bool)
  | final_suspend
  | transfer_control
  deriving DecidableEq, Repr

namespace Op

/-- The operation is one of a task. -/
def OfTask : Op V E → Prop
  | .destruct | .co_await _ | .get | .start | .start_and_detach _ => True
  | _ => False

/-- The task does not hold the frame after that. -/
def releases : Op V E → Bool
  | .destruct | .start | .start_and_detach _ => true
  | _ => false

instance (op : Op V E) : Decidable op.OfTask :=
  match op with
  | .destruct | .co_await _ | .get | .start | .start_and_detach _ => .isTrue trivial
  | .co_await_result _ | .drop_result | .destroy | .resume | .suspend | .use _ | .unhandled_exception _ _
  | .final_suspend | .transfer_control => .isFalse id

end Op

/-- The operation, where the state of the coroutine makes it possible. -/
def Frame.step (left : E → Option E) (moved : V → V) (frame : Frame V E) : Op V E → Option (Frame V E)
  | .destruct | .destroy => some { frame with holder := .nobody }.destroy
  | .co_await c => some (frame.co_await left moved c)
  | .get => some (frame.get left moved)
  | .start => some frame.start
  | .start_and_detach stop_at_end => some (frame.start_and_detach stop_at_end)
  | .co_await_result c => some (frame.co_await_result left moved c)
  | .drop_result => some frame.drop_result
  | .resume => if frame.pc = .suspended then some frame.resume else none
  | .suspend =>
    if frame.pc = .running ∧ frame.promise.completed = none then some { frame with pc := .suspended } else none
  | .use (.throw _) => none
  | .use u =>
    if frame.pc = .running then (frame.promise.use u).map fun p => { frame with promise := p } else none
  | .unhandled_exception e rethrows => if frame.pc = .running then frame.unhandled_exception e rethrows else none
  | .final_suspend =>
    if frame.pc = .running ∧ frame.promise.completed ≠ none then some frame.final_suspend else none
  | .transfer_control => if frame.pc = .ending then some (frame.transfer_control left moved) else none

/-- The preconditions: a task is started once, destroyed and read when it is not in
progress, a `start_result` is awaited once and not destroyed while a coroutine is
suspended on it, and the caller of `start_and_detach(true)` waits for the end. That the
frame is not destroyed by then is not one of them. -/
def Frame.Allows (frame : Frame V E) : Op V E → Prop
  | .destruct => frame.pc = .initial_suspend ∨ frame.stopped
  | .co_await _ | .get | .start_and_detach _ => frame.pc = .initial_suspend ∨ frame.done
  | .start => frame.pc = .initial_suspend
  | .co_await_result _ => frame.holder = .start_result false
  | .drop_result => frame.holder = .start_result false ∨ frame.holder = .start_result true ∧ frame.stopped
  | .destroy => frame.holder = .caller ∧ frame.stopped
  | _ => True

instance (frame : Frame V E) (op : Op V E) : Decidable (frame.Allows op) :=
  match op with
  | .destruct => inferInstanceAs (Decidable (frame.pc = .initial_suspend ∨ frame.stopped))
  | .co_await _ | .get | .start_and_detach _ => inferInstanceAs (Decidable (frame.pc = .initial_suspend ∨ frame.done))
  | .start => inferInstanceAs (Decidable (frame.pc = .initial_suspend))
  | .co_await_result _ => inferInstanceAs (Decidable (frame.holder = .start_result false))
  | .drop_result => inferInstanceAs
      (Decidable (frame.holder = .start_result false ∨ frame.holder = .start_result true ∧ frame.stopped))
  | .destroy => inferInstanceAs (Decidable (frame.holder = .caller ∧ frame.stopped))
  | .resume | .suspend | .use _ | .unhandled_exception _ _ | .final_suspend | .transfer_control => .isTrue trivial

/-- The frames created so far and the task objects. -/
abbrev State (V E : Type) := Owned (Frame V E) Unit

def construct (V E : Type) : State V E where
  frames := fun _ => Frame.construct .void
  created := 0
  objects := fun _ => none
  owner := ()

/-- What can happen: task objects are made, moved from and assigned, a coroutine is
called, something is done through a task, or with a frame. -/
inductive Action (V E : Type) where
  | construct (a : Nat)
  | create (a : Nat) (spec : Specialization)
  | move_construct (a other : Nat)
  | move_assign (a other : Nat)
  | call (a : Nat) (op : Op V E)
  | frame (f : Nat) (op : Op V E)
  deriving DecidableEq, Repr

/-- The task object after an operation that releases its handle. -/
def release (s : State V E) (a : Nat) : Op V E → Objects
  | .destruct => s.objects.drop a none
  | .start | .start_and_detach _ => s.objects.drop a (some ())
  | _ => s.objects

def step (left : E → Option E) (moved : V → V) (s : State V E) : Action V E → Option (State V E)
  | .construct a => some { s with objects := s.objects.drop a (some ()) }
  | .create a spec => some (s.start a (Frame.construct spec))
  | .move_construct a other => some { s with objects := (s.objects.drop a (some ())).swap a other }
  | .move_assign a other => some { s with objects := s.objects.swap a other }
  | .call a op =>
    if op.OfTask then
      match s.objects a with
      | some (some f) =>
        ((s.frames f).step left moved op).map fun frame => { s.put f frame with objects := release s a op }
      | _ => some { s with objects := release s a op }
    else none
  | .frame f op =>
    if f < s.created ∧ ¬ op.OfTask then ((s.frames f).step left moved op).map fun frame => s.put f frame else none

/-- Objects are used while they exist, and an empty task is only destroyed or
detached. -/
def Allowed (s : State V E) : Action V E → Prop
  | .construct a | .create a _ => s.objects a = none
  | .move_construct a other => s.objects a = none ∧ s.objects other ≠ none
  | .move_assign a other => s.objects a ≠ none ∧ s.objects other ≠ none
  | .call a op => s.objects a ≠ none ∧ (∀ f, s.objects.Holds a f → (s.frames f).Allows op) ∧
      ((∀ f, ¬ s.objects.Holds a f) → op = .destruct ∨ ∃ stop_at_end, op = .start_and_detach stop_at_end)
  | .frame f op => (s.frames f).Allows op

instance [DecidableEq V] [DecidableEq E] (s : State V E) (a : Action V E) : Decidable (Allowed s a) :=
  match a with
  | .construct a | .create a _ => inferInstanceAs (Decidable (s.objects a = none))
  | .move_construct a other => inferInstanceAs (Decidable (s.objects a = none ∧ s.objects other ≠ none))
  | .move_assign a other => inferInstanceAs (Decidable (s.objects a ≠ none ∧ s.objects other ≠ none))
  | .call a op => inferInstanceAs (Decidable (s.objects a ≠ none ∧ (∀ f, s.objects.Holds a f → (s.frames f).Allows op) ∧
      ((∀ f, s.objects.Holds a f → False) → op = .destruct ∨ ∃ stop_at_end, op = .start_and_detach stop_at_end)))
  | .frame f op => inferInstanceAs (Decidable ((s.frames f).Allows op))

def Step (left : E → Option E) (moved : V → V) (s : State V E) (a : Action V E) (s' : State V E) : Prop :=
  Allowed s a ∧ step left moved s a = some s'

end kelcoro.task
