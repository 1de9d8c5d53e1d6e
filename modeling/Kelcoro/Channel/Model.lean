import Kelcoro.GeneratorsCommon.Heap

namespace kelcoro.channel

open kelcoro.generators_common

/-- A coroutine that can be resumed through a `coroutine_handle<>`: the consumer
of the top channel, or a channel coroutine (which may consume another one). -/
inductive Runner where
  | consumer
  | coroutine (frame : FrameId)
  deriving DecidableEq, Repr

/-- A `channel` object. `current_result` is the value the yielded pointer refers
to while the coroutine is suspended, and `none` for nullptr. -/
structure Channel (V E : Type) where
  current_result : Option V
  handle : Option Runner
  top : Option FrameId
  exception : Option E
  deriving DecidableEq, Repr

instance {V E : Type} : LeafObject (Channel V E) where
  default := { current_result := none, handle := none, top := none, exception := none }
  top c := c.top
  set_top c t := { c with top := t }
  top_default := rfl
  top_set_top _ _ := rfl

abbrev ChannelHeap (V E : Type) := Heap V E (Channel V E)

/-- What a coroutine leaves behind when it suspends: another one to resume, a
resumption that some executor owes it, or a terminated program. -/
inductive Next where
  | transfer (runner : Runner)
  | await
  | terminate
  deriving DecidableEq, Repr

variable {V E : Type}

/-- `channel_promise::consumer`: the object the root delivers to. -/
def consumer (h : ChannelHeap V E) (this : FrameId) : Option Place := do
  let root := (← h.frames this).root
  match (← h.frames root).link with
  | .consumer place => some place
  | _ => none

def consumer_handle (h : ChannelHeap V E) (this : FrameId) : Option Runner := do
  let place ← consumer h this
  (← h.object place).handle

def set_result (h : ChannelHeap V E) (this : FrameId) (v : Option V) : Option (ChannelHeap V E) := do
  let place ← consumer h this
  let c ← h.object place
  h.set_object place { c with current_result := v }

def exception (h : ChannelHeap V E) (this : FrameId) : Option (Option E) := do
  let place ← consumer h this
  let c ← h.object place
  some c.exception

def set_exception (h : ChannelHeap V E) (this : FrameId) (e : Option E) : Option (ChannelHeap V E) := do
  let place ← consumer h this
  let c ← h.object place
  h.set_object place { c with exception := e }

/-- The case of a null handle, in which nothing is suspended, is left out: who has begun
the object is its handle. -/
def yield_value (h : ChannelHeap V E) (this : FrameId) (value : V) :
    Option (ChannelHeap V E × Runner) := do
  let h ← set_result h this (some value)
  some (h, ← consumer_handle h this)

/-- `channel_promise::final_awaiter::await_suspend`. -/
def final_awaiter.await_suspend (h : ChannelHeap V E) (this : FrameId) :
    Option (ChannelHeap V E × Runner) := do
  let p ← h.frames this
  if p.root ≠ this then do
    let h ← skip_this_leaf h this
    let o ← owner h this
    some (h, .coroutine o)
  else do
    let h ← set_result h this none
    some (h, ← consumer_handle h this)

/-- `channel_promise::unhandled_exception`; the inner `none` is `std::terminate`.
The failed promise is made a root of its own, so that its `final_suspend` goes
to the consumer. -/
def unhandled_exception (h : ChannelHeap V E) (this : FrameId) (ex : E) :
    Option (Option (ChannelHeap V E)) := do
  if (← exception h this).isSome then some none else do
  let p ← h.frames this
  let h ← (if p.root ≠ this then skip_this_leaf h this else some h)
  let h ← set_exception h this (some ex)
  let place ← consumer h this
  let h ← h.modify this ({ · with link := .consumer place })
  let h ← h.modify this ({ · with root := this })
  some (some h)

/-- Calling a channel function: the frame, and the object its
`get_return_object` makes in `this`. -/
def create (h : ChannelHeap V E) (body : Body V E) (this : Place) : Option (ChannelHeap V E) :=
  let (h, f) := h.allocate body
  h.set_object this { current_result := none, handle := none, top := some f, exception := none }

def swap (h : ChannelHeap V E) (this other : Place) : Option (ChannelHeap V E) := do
  let x ← h.object this
  let y ← h.object other
  let h ← h.set_object this y
  h.set_object other x

/-- `channel(channel&& other)`: a default constructed object, then `swap`. -/
def move_construct (h : ChannelHeap V E) (this other : Place) : Option (ChannelHeap V E) := do
  let h ← h.set_object this LeafObject.default
  swap h this other

def take_exception (h : ChannelHeap V E) (i : Nat) : ChannelHeap V E × Option E :=
  let c := h.objects i
  (h.put_object i { c with exception := none }, c.exception)

/-- `channel::starter::await_suspend` on object `i`. -/
def starter.await_suspend (h : ChannelHeap V E) (i : Nat) (handle : Runner) :
    Option (ChannelHeap V E × Runner) := do
  let c := h.objects i
  let h := h.put_object i { c with handle := some handle }
  let t ← c.top
  let h ← h.modify t ({ · with link := .consumer (.object i) })
  some (h, .coroutine (← h.frames t).current_worker)

/-- `channel::next_awaiter::await_suspend`. -/
def next_awaiter.await_suspend (h : ChannelHeap V E) (i : Nat) (handle : Runner) :
    Option (ChannelHeap V E × Runner) :=
  starter.await_suspend h i handle

/-- `channel_iterator::operator++` with its assumption. -/
def increment (h : ChannelHeap V E) (i : Nat) : Option Runner := do
  if ← empty h (.object i) then none else do
  let t ← (h.objects i).top
  some (.coroutine (← h.frames t).current_worker)

/-- A resumed body runs up to its next suspension. A `co_await` may find its
result `ready`; otherwise somebody resumes the coroutine later. The holder of a
leaf starts to iterate it before it hands it over. -/
def run (ready : Bool) (h : ChannelHeap V E) (f : FrameId) : Body V E → Option (ChannelHeap V E × Next)
  | .co_return => do
    let h ← h.modify f ({ · with done := true })
    let (h, next) ← final_awaiter.await_suspend h f
    some (h, .transfer next)
  | .throw ex => do
    let h ← h.modify f ({ · with done := true })
    match ← unhandled_exception h f ex with
    | none => some (h, .terminate)
    | some h => do
      let (h, next) ← final_awaiter.await_suspend h f
      some (h, .transfer next)
  | .co_yield value rest => do
    let h ← h.modify f ({ · with body := rest })
    let (h, next) ← yield_value h f value
    some (h, .transfer next)
  | .co_await rest => do
    let h ← h.modify f ({ · with body := rest })
    some (h, if ready then .transfer (.coroutine f) else .await)
  | .elements_of_empty rest => do
    let h ← h.modify f ({ · with body := rest })
    let (h, i) := h.new_object
    let h ← move_construct h (.awaiter f) (.object i)
    let (h, next) ← co_await_leaf h f
    some (h, .transfer (.coroutine next))
  | .elements_of leaf pulls rest => do
    let h ← h.modify f ({ · with body := rest })
    let (h, i) := h.new_object
    let h ← create h leaf (.object i)
    let h ← h.modify f ({ · with pulling := some (i, pulls) })
    some (h, .transfer (.coroutine f))
  | .elements_of_range rng rest => do
    let h ← h.modify f ({ · with body := rest })
    let h ← create h (Body.to_generator rng) (.awaiter f)
    let (h, next) ← co_await_leaf h f
    some (h, .transfer (.coroutine next))

/-- The holder `f` of object `i` goes on: it takes the exception if the iteration
has stopped, then calls `next()` again, or hands the object over. -/
def pull (h : ChannelHeap V E) (f : FrameId) (i : Nat) : Nat → Option (ChannelHeap V E × Next)
  | 0 => do
    let h := if (h.objects i).current_result.isNone then (take_exception h i).1 else h
    let h ← h.modify f ({ · with pulling := none })
    let h ← move_construct h (.awaiter f) (.object i)
    let (h, next) ← co_await_leaf h f
    some (h, .transfer (.coroutine next))
  | left + 1 => do
    let h := if (h.objects i).current_result.isNone then (take_exception h i).1 else h
    let h ← h.modify f ({ · with pulling := some (i, left) })
    if ← empty h (.object i) then some (h, .transfer (.coroutine f)) else do
    let (h, next) ← next_awaiter.await_suspend h i (.coroutine f)
    some (h, .transfer next)

/-- `coroutine_handle::resume` up to the next suspension. -/
def resume (n : Nat) (ready : Bool) (h : ChannelHeap V E) (f : FrameId) : Option (ChannelHeap V E × Next) := do
  let p ← h.frames f
  if p.done then none else
  match p.pulling with
  | some (i, left) => pull h f i left
  | none => do
    let h ← leave_elements_of n h f
    run ready h f p.body

end kelcoro.channel
