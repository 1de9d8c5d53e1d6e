import Kelcoro.GeneratorsCommon.Heap

namespace kelcoro.generator

open kelcoro.generators_common

/-- A `generator` object. `current_result` is the value the yielded pointer
refers to while the coroutine is suspended, and `none` for nullptr. -/
structure Generator (V : Type) where
  current_result : Option V
  top : Option FrameId
  deriving DecidableEq, Repr

instance {V : Type} : LeafObject (Generator V) where
  default := { current_result := none, top := none }
  top g := g.top
  set_top g t := { g with top := t }
  top_default := rfl
  top_set_top _ _ := rfl

abbrev GeneratorHeap (V E : Type) := Heap V E (Generator V)

/-- How `resume()` comes back to its caller. -/
inductive Outcome (E : Type) where
  | returned
  | threw (ex : E)
  deriving DecidableEq, Repr

variable {V E : Type}

section

/- `nothing` says that `Yield` is `nothing_t`: no pointer to the value is kept. -/
variable (nothing : Bool)

/-- `generator_promise::set_result`, through the root to the consuming object. -/
def set_result (h : GeneratorHeap V E) (this : FrameId) (r : Option V) : Option (GeneratorHeap V E) :=
  if nothing then some h else do
  let root := (← h.frames this).root
  match (← h.frames root).link with
  | .consumer place => do
    let consumer ← h.object place
    h.set_object place { consumer with current_result := r }
  | _ => none

def yield_value (h : GeneratorHeap V E) (this : FrameId) (value : V) : Option (GeneratorHeap V E) :=
  set_result nothing h this (some value)

/-- `generator_promise::final_awaiter::await_suspend`: control goes to the owner
of a leaf, and back to the resumer (`none`) from the root. -/
def final_awaiter.await_suspend (h : GeneratorHeap V E) (this : FrameId) :
    Option (GeneratorHeap V E × Option FrameId) := do
  let p ← h.frames this
  if p.root ≠ this then do
    let h ← skip_this_leaf h this
    let o ← owner h this
    some (h, some o)
  else do
    let h ← set_result nothing h this none
    some (h, none)

/-- `generator_promise::unhandled_exception` up to its `throw`. -/
def unhandled_exception (h : GeneratorHeap V E) (this : FrameId) : Option (GeneratorHeap V E) := do
  let p ← h.frames this
  let h ← if p.root ≠ this then skip_this_leaf h this else some h
  set_result nothing h this none

def prepare_to_start (h : GeneratorHeap V E) (this : Place) : Option (GeneratorHeap V E) := do
  let self ← h.object this
  let t ← self.top
  if nothing then some h else h.modify t ({ · with link := .consumer this })

/-- Calling a generator function: the frame, and the object its
`get_return_object` makes in `this`. -/
def create (h : GeneratorHeap V E) (body : Body V E) (this : Place) : Option (GeneratorHeap V E) := do
  let (h, f) := h.allocate body
  let h ← h.set_object this { current_result := none, top := some f }
  prepare_to_start nothing h this

def swap (h : GeneratorHeap V E) (this other : Place) : Option (GeneratorHeap V E) := do
  let x ← h.object this
  let y ← h.object other
  let h ← h.set_object this y
  let h ← h.set_object other x
  let h ← if y.top.isSome then prepare_to_start nothing h this else some h
  if x.top.isSome then prepare_to_start nothing h other else some h

/-- `generator(generator&& other)`: a default constructed object, then `swap`. -/
def move_construct (h : GeneratorHeap V E) (this other : Place) : Option (GeneratorHeap V E) := do
  let h ← h.set_object this LeafObject.default
  swap nothing h this other

section iterator

variable (resume : GeneratorHeap V E → FrameId → Option (GeneratorHeap V E × Outcome E))

/-- `generator_iterator::operator++` with its assumptions. -/
def increment_with (h : GeneratorHeap V E) (i : Nat) : Option (GeneratorHeap V E × Outcome E) := do
  if ← empty h (.object i) then none else do
  let t ← (h.objects i).top
  let (h, out) ← resume h (← h.frames t).current_worker
  match out with
  | .threw ex => some (h, .threw ex)
  | .returned => if (h.objects i).top = some t then some (h, .returned) else none

/-- `generator::begin`. -/
def begin_with (h : GeneratorHeap V E) (i : Nat) : Option (GeneratorHeap V E × Outcome E) := do
  if ← empty h (.object i) then some (h, .returned) else increment_with resume h i

/-- The holder of a generator asks it for elements before handing it over, and
catches what it throws. -/
def pull_with (i : Nat) : Nat → GeneratorHeap V E → Option (GeneratorHeap V E)
  | 0, h => some h
  | pulls + 1, h => do
    let (h, _) ← begin_with resume h i
    pull_with i pulls h

end iterator

/-- A resumed body runs up to its next suspension; `resume` is what continues
this or another coroutine by symmetric transfer. `co_await` of something ready
just goes on: a generator must not really suspend. -/
def run_with (resume : GeneratorHeap V E → FrameId → Option (GeneratorHeap V E × Outcome E))
    (h : GeneratorHeap V E) (f : FrameId) : Body V E → Option (GeneratorHeap V E × Outcome E)
  | .co_return => do
    let h ← h.modify f ({ · with done := true })
    let (h, next) ← final_awaiter.await_suspend nothing h f
    match next with
    | some o => resume h o
    | none => some (h, .returned)
  | .throw ex => do
    let h ← h.modify f ({ · with done := true })
    let h ← unhandled_exception nothing h f
    some (h, .threw ex)
  | .co_yield value rest => do
    let h ← h.modify f ({ · with body := rest })
    let h ← yield_value nothing h f value
    some (h, .returned)
  | .co_await rest => do
    let h ← h.modify f ({ · with body := rest })
    resume h f
  | .elements_of_empty rest => do
    let h ← h.modify f ({ · with body := rest })
    let (h, i) := h.new_object
    let h ← move_construct nothing h (.awaiter f) (.object i)
    let (h, next) ← co_await_leaf h f
    resume h next
  | .elements_of leaf pulls rest => do
    let h ← h.modify f ({ · with body := rest })
    let (h, i) := h.new_object
    let h ← create nothing h leaf (.object i)
    let h ← pull_with resume i pulls h
    let h ← move_construct nothing h (.awaiter f) (.object i)
    let (h, next) ← co_await_leaf h f
    resume h next
  | .elements_of_range rng rest => do
    let h ← h.modify f ({ · with body := rest })
    let h ← create nothing h (Body.to_generator rng) (.awaiter f)
    let (h, next) ← co_await_leaf h f
    resume h next

/-- `coroutine_handle::resume`, followed through symmetric transfers until
control returns to the resumer. -/
def resume : Nat → GeneratorHeap V E → FrameId → Option (GeneratorHeap V E × Outcome E)
  | 0, _, _ => none
  | n + 1, h, f => do
    let p ← h.frames f
    if p.done then none else do
    let h ← leave_elements_of n h f
    run_with nothing (resume n) h f p.body

/-- `++it` for an iterator of object `i`. -/
def increment (n : Nat) (h : GeneratorHeap V E) (i : Nat) : Option (GeneratorHeap V E × Outcome E) :=
  increment_with (resume nothing n) h i

/-- `begin()` of object `i`. -/
def begin (n : Nat) (h : GeneratorHeap V E) (i : Nat) : Option (GeneratorHeap V E × Outcome E) :=
  begin_with (resume nothing n) h i

/-- `it == end()` for an iterator of object `i`. -/
def equals_end (h : GeneratorHeap V E) (i : Nat) : Option Bool :=
  if nothing then do
    let t ← (h.objects i).top
    (h.frames t).map (·.done)
  else some (h.objects i).current_result.isNone

/-- `*it` for an iterator of object `i`, when there is a value to refer to. -/
def dereference (h : GeneratorHeap V E) (i : Nat) : Option V :=
  if nothing then none else (h.objects i).current_result

end

end kelcoro.generator
