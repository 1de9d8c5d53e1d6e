import Kelcoro.Channel.Model

namespace kelcoro.channel.extract_from

open kelcoro.generators_common

/-- The body of a channel coroutine that also hands over channels with another
`Yield`: empty ones, and such that it iterated `pulls` times before. Their values
are given as `static_cast<Y&&>` makes them. -/
inductive Code (V E : Type) where
  | co_return
  | co_yield (value : V) (rest : Code V E)
  | co_await (rest : Code V E)
  | throw (ex : E)
  | elements_of_empty (rest : Code V E)
  | elements_of (leaf : Code V E) (pulls : Nat) (rest : Code V E)
  | elements_of_range (rng : List V) (rest : Code V E)
  | elements_of_other_empty (rest : Code V E)
  | elements_of_other (leaf : Code V E) (pulls : Nat) (rest : Code V E)
  deriving DecidableEq, Repr

/-- What `yield_value` is called with, `elements_of` of other things apart: a
value, or `elements_of` a channel with another `Yield`. -/
inductive Operand (V E : Type) where
  | value (v : V)
  | elements_of_empty
  | elements_of (leaf : Code V E) (pulls : Nat)
  deriving DecidableEq, Repr

variable {V E : Type}

def Code.body : Code V E → Body (Operand V E) E
  | .co_return => .co_return
  | .co_yield value rest => .co_yield (.value value) rest.body
  | .co_await rest => .co_await rest.body
  | .throw ex => .throw ex
  | .elements_of_empty rest => .elements_of_empty rest.body
  | .elements_of leaf pulls rest => .elements_of leaf.body pulls rest.body
  | .elements_of_range rng rest => .elements_of_range (rng.map .value) rest.body
  | .elements_of_other_empty rest => .co_yield .elements_of_empty rest.body
  | .elements_of_other leaf pulls rest => .co_yield (.elements_of leaf pulls) rest.body

/-- Where a coroutine is that iterates a channel with another `Yield`: it holds
it and asks it `left` times more, or it runs the loop of `extract_from::do_` and
is to begin it, to compare the iterator with `end()`, or to increment it. -/
inductive Loop where
  | holder (left : Nat)
  | begin
  | compare
  | increment
  deriving DecidableEq, Repr

/-- The channels with one `Yield`. A channel with another one that a coroutine
iterates has a heap of its own, where it is object 0, and where that coroutine is
the consumer; the runner is who goes on there when the coroutine is resumed. -/
structure Channels (V E : Type) where
  heap : ChannelHeap (Operand V E) E
  loops : FrameId → Option (Loop × Runner × Channels V E)

namespace Channels

def initial : Channels V E :=
  { heap := Heap.initial, loops := fun _ => none }

def iterating (x : Channels V E) (f : FrameId) (loop : Loop) (r : Runner) (y : Channels V E) : Channels V E :=
  { x with loops := Function.update x.loops f (some (loop, r, y)) }

/-- `f` is done with the channel it iterated. -/
def iterated (x : Channels V E) (f : FrameId) : Channels V E :=
  { x with loops := Function.update x.loops f none }

end Channels

/-- A default constructed channel. -/
def no_coroutine : Channels V E :=
  { Channels.initial with heap := Heap.initial.new_object.1 }

/-- A channel function is called. -/
def call (leaf : Code V E) : Option (Channels V E) := do
  let h ← create Heap.initial.new_object.1 leaf.body (.object 0)
  some { Channels.initial with heap := h }

/-- `create_and_attach_leaf` over a channel with another `Yield`: the coroutine of
`extract_from::do_` is in the awaiter of `f`. Its body is what follows the loop. -/
def create_and_attach_leaf (x : Channels V E) (f : FrameId) (y : Channels V E) : Option (Channels V E × Next) := do
  let this := x.heap.next_frame
  let h ← create x.heap .co_return (.awaiter f)
  let (h, next) ← co_await_leaf h f
  some ({ x with heap := h }.iterating this .begin .consumer y, .transfer (.coroutine next))

/-- The holder `f` of `y` goes on: it takes the exception if the iteration has
stopped, then calls `next()` again, or hands the channel over. -/
def pull (x : Channels V E) (f : FrameId) (y : Channels V E) : Nat → Option (Channels V E × Next)
  | 0 => do
    let h := if (y.heap.objects 0).current_result.isNone then (take_exception y.heap 0).1 else y.heap
    create_and_attach_leaf (x.iterated f) f { y with heap := h }
  | left + 1 => do
    let h := if (y.heap.objects 0).current_result.isNone then (take_exception y.heap 0).1 else y.heap
    if ← empty h (.object 0) then
      some (x.iterating f (.holder left) .consumer { y with heap := h }, .transfer (.coroutine f))
    else do
    let (h, r) ← next_awaiter.await_suspend h 0 .consumer
    some (x.iterating f (.holder left) r { y with heap := h }, .transfer (.coroutine f))

/-- The loop of `extract_from::do_(channel<OtherY>*)` in coroutine `this`. Nothing
in it, or after it, looks at the exception of the channel. -/
def do_ (n : Nat) (ready : Bool) (x : Channels V E) (this : FrameId) (c : Channels V E) :
    Loop → Option (Channels V E × Next)
  | .holder left => pull x this c left
  | .begin => do
    if ← empty c.heap (.object 0) then
      some (x.iterating this .compare .consumer c, .transfer (.coroutine this))
    else do
    let (h, r) ← starter.await_suspend c.heap 0 .consumer
    some (x.iterating this .compare r { c with heap := h }, .transfer (.coroutine this))
  | .compare =>
    match (c.heap.objects 0).current_result with
    | some value => do
      let (h, next) ← yield_value x.heap this value
      some ({ x with heap := h }.iterating this .increment .consumer c, .transfer next)
    | none => do
      let (h, next) ← channel.resume n ready x.heap this
      some ({ x with heap := h }.iterated this, next)
  | .increment => do
    let r ← increment c.heap 0
    some (x.iterating this .compare r c, .transfer (.coroutine this))

/-- `coroutine_handle::resume` up to the next suspension. A coroutine of a channel
that `f` iterates goes on in place of `f`. -/
def resume : Nat → Bool → Channels V E → FrameId → Option (Channels V E × Next)
  | 0, _, _, _ => none
  | n + 1, ready, x, f => do
    let p ← x.heap.frames f
    if p.done then none else
    match x.loops f with
    | some (loop, .consumer, y) => do_ n ready x f y loop
    | some (loop, .coroutine r, y) => do
      let (y, next) ← resume n ready y r
      match next with
      | .transfer r => some (x.iterating f loop r y, .transfer (.coroutine f))
      | .await => some (x.iterating f loop (.coroutine r) y, .await)
      | .terminate => some (x.iterating f loop (.coroutine r) y, .terminate)
    | none =>
      match p.pulling, p.body with
      | none, .co_yield (.elements_of leaf pulls) rest => do
        let h ← leave_elements_of n x.heap f
        let h ← h.modify f ({ · with body := rest })
        some ({ x with heap := h }.iterating f (.holder pulls) .consumer (← call leaf), .transfer (.coroutine f))
      | none, .co_yield .elements_of_empty rest => do
        let h ← leave_elements_of n x.heap f
        let h ← h.modify f ({ · with body := rest })
        create_and_attach_leaf { x with heap := h } f no_coroutine
      | _, _ => do
        let (h, next) ← channel.resume n ready x.heap f
        some ({ x with heap := h }, next)

end kelcoro.channel.extract_from
