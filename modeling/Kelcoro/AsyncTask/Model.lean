import Kelcoro.Lib.Owned
import Kelcoro.Lib.Run
import Mathlib

namespace kelcoro.async_task

open kelcoro.lib

inductive Side where
  | coroutine
  | owner
  deriving DecidableEq, Repr

/-- What a `return_block` holds. -/
inductive Kind where
  | EMPTY
  | VAL
  | EX
  deriving DecidableEq, Repr

/-- What happens to a coroutine frame. `released` is the owner giving up its
reference, `got` the end of a `get`. -/
inductive Access where
  | touched (by_side : Side)
  | stored
  | finished
  | released
  | got
  | destroyed (by_side : Side)
  deriving DecidableEq, Repr

/-- What a coroutine does next: its body, or one of the accesses of its final
suspend. -/
inductive CoroutinePc where
  | body
  | exchange
  | notify_one
  | fetch_sub
  | destroy
  | returned
  deriving DecidableEq, Repr

/-- A frame, and all accesses to it, the newest first. -/
structure Frame where
  pc : CoroutinePc
  kind : Kind
  ready : Bool
  ref_count : Int
  log : List Access
  deriving DecidableEq, Repr

/-- How a body ends. -/
inductive Return where
  | value
  | rvo
  | exception
  deriving DecidableEq, Repr

/-- What the owner does next. `moves` tells a `get() &&`, which moves the result
out of the frame, and `destructs` a destructor. -/
inductive OwnerPc where
  | idle
  | ready (a f : Nat)
  | wait (a f : Nat)
  | get_wait (a f : Nat) (moves : Bool)
  | has_exception (a f : Nat) (moves : Bool)
  | take_exception (a f : Nat)
  | result (a f : Nat) (moves : Bool)
  | move_result (a f : Nat)
  | fetch_sub (a f : Nat) (destructs : Bool)
  | destroy (a f : Nat) (destructs : Bool)
  deriving DecidableEq, Repr

/-- The owner's operations on its objects. `start` calls a coroutine function. -/
inductive Op where
  | construct (a : Nat)
  | start (a : Nat)
  | move_construct (a other : Nat)
  | move_assign (a other : Nat)
  | swap (a other : Nat)
  | wait (a : Nat)
  | ready (a : Nat)
  | detach (a : Nat)
  | get (a : Nat) (moves : Bool)
  | destruct (a : Nat)
  deriving DecidableEq, Repr

/-- The frames created so far, the objects of the owner, and what it does. -/
abbrev State := Owned Frame OwnerPc

/-- The frame after the constructor of its `async_task`, which adds 1 to
`ref_count`. -/
def Frame.construct : Frame :=
  { pc := .body, kind := .EMPTY, ready := false, ref_count := 1 + 1, log := [] }

def construct : State where
  frames := fun _ => Frame.construct
  created := 0
  objects := fun _ => none
  owner := .idle

namespace Frame

def access (frame : Frame) (e : Access) : Frame := { frame with log := e :: frame.log }

def goto (frame : Frame) (pc : CoroutinePc) : Frame := { frame with pc := pc }

/-- `ref_count.fetch_sub(1)`. -/
def fetch_sub (frame : Frame) (e : Access) : Int × Frame :=
  (frame.ref_count, { frame with ref_count := frame.ref_count - 1 }.access e)

/-- `return_value`, `return_value(rvo_tag_t)` and `set_exception`, when their
assertions hold. -/
def return_block (frame : Frame) : Return → Option Frame
  | .value => if frame.kind = .EMPTY then some ({ frame with kind := .VAL }.access .stored) else none
  | .rvo => if frame.kind ≠ .EMPTY then some frame else none
  | .exception => if frame.kind ≠ .EX then some ({ frame with kind := .EX }.access .stored) else none

/-- `return_place()`. -/
def return_place (frame : Frame) : Option Frame :=
  if frame.kind = .EMPTY then some ({ frame with kind := .VAL }.access .stored) else none

end Frame

/-- `handle = nullptr`, at the end of `detach` or of the destructor. -/
def finish (s : State) (a : Nat) (destructs : Bool) : State :=
  { s with objects := s.objects.drop a (if destructs then none else some ()), owner := .idle }

/-- The next access of the coroutine `f` after its body. -/
def final_suspend (s : State) (f : Nat) : Option State :=
  let frame := s.frames f
  match frame.pc with
  | .body => none
  | .exchange => some (s.put f (({ frame with ready := true }.access (.touched .coroutine)).goto .notify_one))
  | .notify_one => some (s.put f ((frame.access (.touched .coroutine)).goto .fetch_sub))
  | .fetch_sub =>
    match frame.fetch_sub (.touched .coroutine) with
    | (old, frame) => some (s.put f (frame.goto (if old = 1 then .destroy else .returned)))
  | .destroy => some (s.put f ((frame.access (.destroyed .coroutine)).goto .returned))
  | .returned => none

/-- `detach()`, which is also the destructor. -/
def detach (s : State) (a : Nat) (destructs : Bool) : State :=
  match s.objects a with
  | some (some f) => s.goto (.fetch_sub a f destructs)
  | _ => finish s a destructs

/-- An operation begins; those without accesses to a frame are over at once. -/
def call (s : State) : Op → State
  | .construct a => { s with objects := s.objects.drop a (some ()) }
  | .start a => s.start a Frame.construct
  | .move_construct a other => { s with objects := (s.objects.drop a (some ())).swap a other }
  | .move_assign a other | .swap a other => { s with objects := s.objects.swap a other }
  | .wait a =>
    match s.objects a with
    | some (some f) => s.goto (.wait a f)
    | _ => s
  | .ready a =>
    match s.objects a with
    | some (some f) => s.goto (.ready a f)
    | _ => s
  | .detach a => detach s a false
  | .get a moves =>
    match s.objects a with
    | some (some f) => s.goto (.get_wait a f moves)
    | _ => s
  | .destruct a => detach s a true

/-- The next access of the owner. -/
def own (s : State) : Option State :=
  match s.owner with
  | .idle => none
  | .ready _ f => some ((s.put f ((s.frames f).access (.touched .owner))).goto .idle)
  | .wait a f =>
    let s' := s.put f ((s.frames f).access (.touched .owner))
    if (s.frames f).ready then some (s'.goto .idle) else some (s'.goto (.wait a f))
  | .get_wait a f moves =>
    let s' := s.put f ((s.frames f).access (.touched .owner))
    if (s.frames f).ready then some (s'.goto (.has_exception a f moves))
    else some (s'.goto (.get_wait a f moves))
  | .has_exception a f moves =>
    let s' := s.put f ((s.frames f).access (.touched .owner))
    if (s.frames f).kind = .EX then some (s'.goto (.take_exception a f))
    else some (s'.goto (.result a f moves))
  | .take_exception _ f =>
    let frame := { s.frames f with kind := .EMPTY }
    some ((s.put f (frame.access .got)).goto .idle)
  | .result a f moves =>
    if moves then some ((s.put f ((s.frames f).access (.touched .owner))).goto (.move_result a f))
    else some ((s.put f ((s.frames f).access .got)).goto .idle)
  | .move_result _ f => some ((s.put f ((s.frames f).access .got)).goto .idle)
  | .fetch_sub a f destructs =>
    match (s.frames f).fetch_sub .released with
    | (old, frame) =>
      if old = 1 then some ((s.put f frame).goto (.destroy a f destructs))
      else some (finish (s.put f frame) a destructs)
  | .destroy a f destructs =>
    some (finish (s.put f ((s.frames f).access (.destroyed .owner))) a destructs)

/-- What can happen: the owner begins an operation or does its next access, and
a coroutine works on its frame, fills its `return_place`, finishes its body, or
does its next access. -/
inductive Action where
  | call (op : Op)
  | own
  | body (f : Nat)
  | return_place (f : Nat)
  | finish (f : Nat) (how : Return)
  | final_suspend (f : Nat)
  deriving DecidableEq, Repr

def step (s : State) : Action → Option State
  | .call op => if s.owner = .idle then some (call s op) else none
  | .own => own s
  | .body f =>
    if f < s.created ∧ (s.frames f).pc = .body then
      some (s.put f ((s.frames f).access (.touched .coroutine)))
    else none
  | .return_place f =>
    if f < s.created ∧ (s.frames f).pc = .body then
      (s.frames f).return_place.map fun frame => s.put f frame
    else none
  | .finish f how =>
    if f < s.created ∧ (s.frames f).pc = .body then
      ((s.frames f).return_block how).map fun frame => s.put f ((frame.access .finished).goto .exchange)
    else none
  | .final_suspend f => if f < s.created then final_suspend s f else none

/-- Objects are used while they exist, and `get` only while they are not
empty. -/
def Allowed (s : State) : Action → Prop
  | .call (.construct a) | .call (.start a) => s.objects a = none
  | .call (.move_construct a other) => s.objects a = none ∧ s.objects other ≠ none
  | .call (.move_assign a other) | .call (.swap a other) => s.objects a ≠ none ∧ s.objects other ≠ none
  | .call (.get a _) => ∃ f, s.objects.Holds a f
  | .call (.wait a) | .call (.ready a) | .call (.detach a) | .call (.destruct a) => s.objects a ≠ none
  | _ => True

def Step (s : State) (a : Action) (s' : State) : Prop := Allowed s a ∧ step s a = some s'

end kelcoro.async_task
