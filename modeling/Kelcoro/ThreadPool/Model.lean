import Kelcoro.Lib.Run
import Kelcoro.ThreadPool.TaskQueue
import Mathlib

namespace kelcoro.thread_pool

open kelcoro.lib

inductive schedule_errc where
  | ok
  | cancelled
  deriving DecidableEq, Repr

/-- The handle in a node: none in a deadpill, and the job of `push_deadpill` has
its pill in its frame. -/
inductive Task (α : Type) where
  | null
  | coroutine
  | push_deadpill (pill : α)
  deriving DecidableEq, Repr

/-- Where a `cancel_tasks` is: before an iteration of the loop, or about to resume
the task of the node at `v`. -/
inductive Cancel (α : Type) where
  | loop (top : Option α)
  | resume (v : α) (task : Task α) (top : Option α)
  deriving DecidableEq, Repr

/-- Where a `default_worker_job` is: at `pop_all_not_empty`, at an iteration of the
inner loop, about to resume a task, in a task that it has resumed, in the
`cancel_tasks` at its end. -/
inductive Worker (α : Type) where
  | pop
  | run (top : α)
  | resume (v : α) (task : Task α) (top : Option α)
  | busy (top : Option α)
  | cancel (c : Cancel α)
  | exited
  deriving DecidableEq, Repr

/-- Where the thread is that stops the pool. `wait_stop` joins the threads and
cancels what is in the queues; the destructor pushes its pill to each queue, joins
the thread and cancels what is in the queue, and cancels all queues at the end.
Without a `Cancel` it is about to call `pop_all`. -/
inductive Stop (α : Type) where
  | running
  | wait_join (i : Nat)
  | wait_cancel (i : Nat) (c : Option (Cancel α))
  | waited
  | push (i : Nat) (pill : α)
  | join (i : Nat) (pill : α)
  | cancel (i : Nat) (pill : α) (c : Option (Cancel α))
  | drain (i : Nat) (pill : α) (c : Option (Cancel α))
  | returned
  deriving DecidableEq, Repr

/-- What happens to the nodes: node `v` is attached to queue `q`, a pill is made,
the pool accesses a node, the coroutine of a node is resumed by the loop of a
worker or by a `cancel_tasks`, the memory of a pill is gone. -/
inductive Event (α : Type) where
  | attached (v : α) (q : Nat)
  | pill (v : α)
  | touched (v : α)
  | resumed (v : α) (status : schedule_errc) (worker : Option Nat)
  | destroyed (v : α)
  deriving DecidableEq, Repr

/-- What a piece of memory is: nothing to the pool, a node that was attached to
queue `q` and whose coroutine was not resumed yet, a deadpill. -/
inductive Life where
  | gone
  | node (q : Nat)
  | pill
  deriving DecidableEq, Repr

/-- A pool with the fields of the nodes. -/
structure State (α : Type) where
  next : α → Option α
  task : α → Task α
  status : α → schedule_errc
  queues : Nat → Queue α
  workers : Nat → Worker α
  stop : Stop α
  log : List (Event α)

variable {α : Type} [DecidableEq α]

/-- What `v` is after the events of a log. -/
def life (v : α) : List (Event α) → Life
  | [] => .gone
  | .attached w q :: log => if w = v then .node q else life v log
  | .pill w :: log => if w = v then .pill else life v log
  | .touched _ :: log => life v log
  | .resumed w _ _ :: log => if w = v then .gone else life v log
  | .destroyed w :: log => if w = v then .gone else life v log

omit [DecidableEq α] in
def construct : State α where
  next := fun _ => none
  task := fun _ => .null
  status := fun _ => .ok
  queues := fun _ => { first := none, last := none }
  workers := fun _ => .pop
  stop := .running
  log := []

namespace State

def record (s : State α) (e : Event α) : State α := { s with log := e :: s.log }

def goto (s : State α) (w : Nat) (pc : Worker α) : State α :=
  { s with workers := Function.update s.workers w pc }

/-- `push_list(first_, last_)` on queue `q`. -/
def push_list (s : State α) (q : Nat) (first last : α) : State α :=
  let (next, queue) := (s.queues q).push_list s.next first last
  { s with
    next := next
    queues := Function.update s.queues q queue
    log := match (s.queues q).tail with
      | some l => .touched l :: s.log
      | none => s.log }

/-- `attach(node)` of queue `q`. -/
def attach (s : State α) (v : α) (q : Nat) : State α :=
  { s with
    next := Function.update s.next v none
    task := Function.update s.task v .coroutine
    status := Function.update s.status v .ok
    log := .attached v q :: s.log }.push_list q v v

/-- `push_deadpill(q)`, with a pill at `p` and its own node at `u`. -/
def push_deadpill (s : State α) (p u : α) (q : Nat) : State α :=
  { s with
    next := Function.update (Function.update s.next u none) p (some u)
    task := Function.update (Function.update s.task u (.push_deadpill p)) p .null
    status := Function.update (Function.update s.status u .ok) p .ok
    log := .attached u q :: .pill p :: s.log }.push_list q p u

/-- `pop_all()` of queue `q`; what it returns is the first node. -/
def pop_all (s : State α) (q : Nat) : State α :=
  { s with queues := Function.update s.queues q { s.queues q with first := none } }

/-- The coroutine of the node at `v` is resumed, by worker `w` or by `cancel_tasks`.
The job of `push_deadpill` ends. -/
def resume (s : State α) (v : α) (task : Task α) (worker : Option Nat) : State α :=
  match task with
  | .push_deadpill p => (s.record (.resumed v (s.status v) worker)).record (.destroyed p)
  | _ => s.record (.resumed v (s.status v) worker)

/-- The next step of a `cancel_tasks` that is not at its end. -/
def cancel (s : State α) : Cancel α → Option (Cancel α × State α)
  | .loop none => none
  | .loop (some v) =>
    let s' := { s with status := Function.update s.status v .cancelled }.record (.touched v)
    match s.task v with
    | .null => some (.loop (s.next v), s')
    | task => some (.resume v task (s.next v), s')
  | .resume v task top => some (.loop top, s.resume v task none)

end State

/-- The next step of worker `w`. A task that it has resumed returns to it when it
likes. -/
def run (s : State α) (w : Nat) : Option (State α) :=
  match s.workers w with
  | .pop =>
    match (s.queues w).first with
    | none => none
    | some top => some ((s.pop_all w).goto w (.run top))
  | .run v =>
    match s.task v with
    | .null => some ((s.record (.touched v)).goto w (.cancel (.loop (s.next v))))
    | task => some ((s.record (.touched v)).goto w (.resume v task (s.next v)))
  | .resume v task top => some ((s.resume v task (some w)).goto w (.busy top))
  | .busy none => some (s.goto w .pop)
  | .busy (some top) => some (s.goto w (.run top))
  | .cancel (.loop none) => some (s.goto w .exited)
  | .cancel c => (s.cancel c).map fun (c, s) => s.goto w (.cancel c)
  | .exited => none

/-- `cancel_tasks(queues[i].pop_all())`, where `place` is where it is in the code. -/
def State.cancel_queue (s : State α) (i : Nat) (c : Option (Cancel α)) (place : Option (Cancel α) → Stop α)
    (done : Stop α) : Option (State α) :=
  match c with
  | none => some { s.pop_all i with stop := place (some (.loop (s.queues i).first)) }
  | some (.loop none) => some { s with stop := done }
  | some c => (s.cancel c).map fun (c, s) => { s with stop := place (some c) }

/-- The next step of the thread that stops the pool of `n` workers. -/
def stop (n : Nat) (s : State α) : Option (State α) :=
  match s.stop with
  | .running | .waited | .returned => none
  | .wait_join i =>
    if i < n then
      if s.workers i = .exited then some { s with stop := .wait_join (i + 1) } else none
    else some { s with stop := .wait_cancel 0 none }
  | .wait_cancel i c =>
    if i < n then s.cancel_queue i c (.wait_cancel i) (.wait_cancel (i + 1) none)
    else some { s with stop := .waited }
  | .push i p =>
    if i < n then
      some { { s with next := Function.update s.next p none }.push_list i p p with stop := .join i p }
    else some { s with stop := .drain 0 p none }
  | .join i p => if s.workers i = .exited then some { s with stop := .cancel i p none } else none
  | .cancel i p c => s.cancel_queue i c (.cancel i p) (.push (i + 1) p)
  | .drain i p c =>
    if i < n then s.cancel_queue i c (.drain i p) (.drain (i + 1) p none)
    else some ({ s with stop := .returned }.record (.destroyed p))

/-- Who uses the pool: a thread outside of it, or a task that a worker has resumed. -/
inductive User where
  | outside
  | worker (w : Nat)
  deriving DecidableEq, Repr

/-- Nobody outside uses a pool that is being stopped, and a task that was resumed
with `cancelled` does not use it. -/
def State.MayUse (s : State α) : User → Prop
  | .outside => s.stop = .running
  | .worker w => ∃ top, s.workers w = .busy top

instance (s : State α) (user : User) : Decidable (s.MayUse user) :=
  match user with
  | .outside => inferInstanceAs (Decidable (s.stop = .running))
  | .worker w =>
    match h : s.workers w with
    | .busy top => .isTrue ⟨top, h⟩
    | .pop | .run _ | .resume _ _ _ | .cancel _ | .exited => .isFalse fun ⟨top, hbusy⟩ => by
      cases h.symm.trans hbusy

/-- What can happen: a node is attached to queue `q` (by `attach`, `jump_on` or
`schedule`, which choose it by a hash), the pill of a `request_stop` for queue `q`
is pushed, memory that is no node is used for something else, a worker goes on,
`wait_stop` or the destructor is called, and goes on. -/
inductive Action (α : Type) where
  | attach (user : User) (v : α) (q : Nat)
  | push_deadpill (user : User) (p u : α) (q : Nat)
  | overwrite (v : α) (next : Option α) (task : Task α) (status : schedule_errc)
  | run (w : Nat)
  | wait_stop
  | destroy (pill : α)
  | stop
  deriving DecidableEq, Repr

def step (n : Nat) (s : State α) : Action α → Option (State α)
  | .attach _ v q => if q < n ∧ life v s.log = .gone then some (s.attach v q) else none
  | .push_deadpill _ p u q =>
    if q < n ∧ p ≠ u ∧ life p s.log = .gone ∧ life u s.log = .gone then some (s.push_deadpill p u q) else none
  | .overwrite v next task status =>
    if life v s.log = .gone then
      some { s with
        next := Function.update s.next v next
        task := Function.update s.task v task
        status := Function.update s.status v status }
    else none
  | .run w => if w < n then run s w else none
  | .wait_stop => if s.stop = .running then some { s with stop := .wait_join 0 } else none
  | .destroy p =>
    if life p s.log = .gone then
      let s' := { s with
        task := Function.update s.task p .null
        status := Function.update s.status p .ok }.record (.pill p)
      match s.stop with
      | .running => some { s' with stop := .push 0 p }
      | .waited => some { s' with stop := .drain 0 p none }
      | _ => none
    else none
  | .stop => stop n s

/-- The preconditions of the calls. -/
def Allowed (s : State α) : Action α → Prop
  | .attach user _ _ | .push_deadpill user _ _ _ => s.MayUse user
  | _ => True

instance (s : State α) (a : Action α) : Decidable (Allowed s a) :=
  match a with
  | .attach user _ _ | .push_deadpill user _ _ _ => inferInstanceAs (Decidable (s.MayUse user))
  | .overwrite _ _ _ _ | .run _ | .wait_stop | .destroy _ | .stop => .isTrue trivial

def Step (n : Nat) (s : State α) (a : Action α) (s' : State α) : Prop :=
  Allowed s a ∧ step n s a = some s'

end kelcoro.thread_pool
