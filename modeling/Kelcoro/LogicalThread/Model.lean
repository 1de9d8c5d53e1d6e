import Kelcoro.Lib.Owned
import Kelcoro.Lib.Run
import Mathlib

namespace kelcoro.logical_thread

open kelcoro.lib

inductive Side where
  | coroutine
  | owner
  deriving DecidableEq, Repr

/-- What happens to a coroutine frame. -/
inductive Access where
  | touched (by_side : Side)
  | finished
  | destroyed (by_side : Side)
  deriving DecidableEq, Repr

/-- What a coroutine does next: its body, or one of the accesses of its final
suspend. -/
inductive CoroutinePc where
  | body
  | exchange
  | notify_one
  | destroy
  | returned
  deriving DecidableEq, Repr

/-- A frame, and all accesses to it, the newest first. -/
structure Frame where
  pc : CoroutinePc
  flag : Bool
  stop_requested : Bool
  log : List Access
  deriving DecidableEq, Repr

/-- What is left to do with object `a` when its coroutine was joined. -/
inductive After where
  | nothing
  | destruct
  | assign (other : Nat)
  deriving DecidableEq, Repr

/-- What the owner does next. `cancel` is the `request_stop` of
`try_cancel_and_join`, `assert_done` the assertion of `join`. -/
inductive OwnerPc where
  | idle
  | request_stop (a f : Nat)
  | cancel (a f : Nat) (after : After)
  | wait (a f : Nat) (after : After)
  | assert_done (a f : Nat) (after : After)
  | destroy (a f : Nat) (after : After)
  | exchange (a f : Nat)
  | notify_one (a f : Nat)
  | destroy_detached (a f : Nat)
  deriving DecidableEq, Repr

/-- The owner's operations on its objects. `start` calls a coroutine function. -/
inductive Op where
  | construct (a : Nat)
  | start (a : Nat)
  | request_stop (a : Nat)
  | move_construct (a other : Nat)
  | move_assign (a other : Nat)
  | swap (a other : Nat)
  | join (a : Nat)
  | detach (a : Nat)
  | destruct (a : Nat)
  deriving DecidableEq, Repr

/-- The frames created so far, the objects of the owner, and what it does. -/
abbrev State := Owned Frame OwnerPc

def Frame.construct : Frame :=
  { pc := .body, flag := false, stop_requested := false, log := [] }

def construct : State where
  frames := fun _ => Frame.construct
  created := 0
  objects := fun _ => none
  owner := .idle

namespace Frame

def access (frame : Frame) (e : Access) : Frame := { frame with log := e :: frame.log }

def goto (frame : Frame) (pc : CoroutinePc) : Frame := { frame with pc := pc }

/-- `flag.exchange(true)`. -/
def exchange (frame : Frame) (side : Side) : Bool × Frame :=
  (frame.flag, { frame with flag := true }.access (.touched side))

end Frame

/-- `handle_ = nullptr`, and what is left to do after `join`. -/
def After.finish (after : After) (o : Objects) (a : Nat) : Objects :=
  match after with
  | .nothing => o.drop a (some ())
  | .destruct => o.drop a none
  | .assign other => (o.drop a (some ())).exchange a other

def finish (s : State) (a : Nat) (after : After) : State :=
  { s with objects := after.finish s.objects a, owner := .idle }

/-- The next access of the coroutine `f` after its body. -/
def final_suspend (s : State) (f : Nat) : Option State :=
  let frame := s.frames f
  match frame.pc with
  | .body => none
  | .exchange =>
    match frame.exchange .coroutine with
    | (false, frame) => some (s.put f (frame.goto .notify_one))
    | (true, frame) => some (s.put f (frame.goto .destroy))
  | .notify_one => some (s.put f ((frame.access (.touched .coroutine)).goto .returned))
  | .destroy => some (s.put f ((frame.access (.destroyed .coroutine)).goto .returned))
  | .returned => none

/-- `try_cancel_and_join`, and then what is left to do. -/
def try_cancel_and_join (s : State) (a : Nat) (after : After) : State :=
  match s.objects a with
  | some (some f) => s.goto (.cancel a f after)
  | _ => finish s a after

/-- An operation begins; those without accesses to a frame are over at once. -/
def call (s : State) : Op → State
  | .construct a => { s with objects := s.objects.drop a (some ()) }
  | .start a => s.start a Frame.construct
  | .request_stop a =>
    match s.objects a with
    | some (some f) => s.goto (.request_stop a f)
    | _ => s
  | .move_construct a other => { s with objects := s.objects.exchange a other }
  | .move_assign a other => try_cancel_and_join s a (.assign other)
  | .swap a other => { s with objects := s.objects.swap a other }
  | .join a =>
    match s.objects a with
    | some (some f) => s.goto (.wait a f .nothing)
    | _ => s
  | .detach a =>
    match s.objects a with
    | some (some f) => s.goto (.exchange a f)
    | _ => s
  | .destruct a => try_cancel_and_join s a .destruct

/-- The next access of the owner. -/
def own (s : State) : Option State :=
  match s.owner with
  | .idle => none
  | .request_stop _ f =>
    let frame := { s.frames f with stop_requested := true }
    some ((s.put f (frame.access (.touched .owner))).goto .idle)
  | .cancel a f after =>
    let frame := { s.frames f with stop_requested := true }
    some ((s.put f (frame.access (.touched .owner))).goto (.wait a f after))
  | .wait a f after =>
    let s' := s.put f ((s.frames f).access (.touched .owner))
    if (s.frames f).flag then some (s'.goto (.assert_done a f after))
    else some (s'.goto (.wait a f after))
  | .assert_done a f after =>
    some ((s.put f ((s.frames f).access (.touched .owner))).goto (.destroy a f after))
  | .destroy a f after =>
    some (finish (s.put f ((s.frames f).access (.destroyed .owner))) a after)
  | .exchange a f =>
    match (s.frames f).exchange .owner with
    | (false, frame) => some ((s.put f frame).goto (.notify_one a f))
    | (true, frame) => some ((s.put f frame).goto (.destroy_detached a f))
  | .notify_one a f => some (finish (s.put f ((s.frames f).access (.touched .owner))) a .nothing)
  | .destroy_detached a f =>
    some (finish (s.put f ((s.frames f).access (.destroyed .owner))) a .nothing)

/-- What can happen: the owner begins an operation or does its next access, and
a coroutine works on its frame, finishes its body, or does its next access. -/
inductive Action where
  | call (op : Op)
  | own
  | body (f : Nat)
  | finish (f : Nat)
  | final_suspend (f : Nat)
  deriving DecidableEq, Repr

def step (s : State) : Action → Option State
  | .call op => if s.owner = .idle then some (call s op) else none
  | .own => own s
  | .body f =>
    if f < s.created ∧ (s.frames f).pc = .body then
      some (s.put f ((s.frames f).access (.touched .coroutine)))
    else none
  | .finish f =>
    if f < s.created ∧ (s.frames f).pc = .body then
      some (s.put f (((s.frames f).access .finished).goto .exchange))
    else none
  | .final_suspend f => if f < s.created then final_suspend s f else none

/-- Objects are used while they exist, and only joinable ones are joined or
detached. -/
def Allowed (s : State) : Action → Prop
  | .call (.construct a) | .call (.start a) => s.objects a = none
  | .call (.move_construct a other) => s.objects a = none ∧ s.objects other ≠ none
  | .call (.move_assign a other) | .call (.swap a other) => s.objects a ≠ none ∧ s.objects other ≠ none
  | .call (.join a) | .call (.detach a) => ∃ f, s.objects.Holds a f
  | .call (.request_stop a) | .call (.destruct a) => s.objects a ≠ none
  | _ => True

def Step (s : State) (a : Action) (s' : State) : Prop := Allowed s a ∧ step s a = some s'

end kelcoro.logical_thread
