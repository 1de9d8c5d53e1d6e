import Kelcoro.Lib.Run
import Mathlib

namespace kelcoro.return_block

/-- The specializations of `return_block`. -/
inductive Specialization where
  | object
  | reference
  | void
  deriving DecidableEq, Repr

/-- What is in a `retblock_storage`, as the `retkind_e` beside it says. -/
inductive Storage (V E : Type) where
  | EMPTY
  | VAL (value : V)
  | EX (e : E)
  deriving DecidableEq, Repr

/-- A `return_block`. An exception is the one that an `exception_ptr` refers to. -/
inductive ReturnBlock (V E : Type) where
  | object (data : Storage V E)
  | reference (storage : Option V) (ex : Option E)
  | void (ex : Option E)
  deriving DecidableEq, Repr

/-- How a body ends with `co_return`. -/
inductive Return (V E : Type) where
  | value (v : V)
  | rvo
  | return_exception (e : E)
  | void
  deriving DecidableEq, Repr

/-- What a call that returns the result does; `undefined` is a call of `result()`
without a value. -/
inductive Read (V E : Type) where
  | returned (value : Option V)
  | threw (e : E)
  | undefined
  deriving DecidableEq, Repr

variable {V E : Type}

namespace ReturnBlock

def construct : Specialization → ReturnBlock V E
  | .object => .object .EMPTY
  | .reference => .reference none none
  | .void => .void none

def specialization : ReturnBlock V E → Specialization
  | .object _ => .object
  | .reference _ _ => .reference
  | .void _ => .void

def has_exception : ReturnBlock V E → Bool
  | .object (.EX _) => true
  | .object _ => false
  | .reference _ ex => ex.isSome
  | .void ex => ex.isSome

def set_exception (e : E) : ReturnBlock V E → Option (ReturnBlock V E)
  | .object (.EX _) => none
  | .object _ => some (.object (.EX e))
  | .reference storage _ => some (.reference storage (some e))
  | .void _ => some (.void (some e))

/-- `left` is what an `exception_ptr` refers to after it was moved from. -/
def take_exception (left : E → Option E) : ReturnBlock V E → Option (E × ReturnBlock V E)
  | .object (.EX e) => some (e, .object .EMPTY)
  | .object _ => none
  | .reference storage ex => ex.map fun e => (e, .reference storage (left e))
  | .void ex => ex.map fun e => (e, .void (left e))

/-- `return_value(v)`, `return_value(rvo_tag_t)`, `return_value(return_exception)`
and `return_void()`, when their assertions hold. -/
def return_value : Return V E → ReturnBlock V E → Option (ReturnBlock V E)
  | .value v, .object .EMPTY => some (.object (.VAL v))
  | .value v, .reference none ex => some (.reference (some v) ex)
  | .rvo, .object (.VAL v) => some (.object (.VAL v))
  | .rvo, .object (.EX e) => some (.object (.EX e))
  | .rvo, .reference (some v) ex => some (.reference (some v) ex)
  | .return_exception e, .object data => set_exception e (.object data)
  | .return_exception e, .reference storage ex => set_exception e (.reference storage ex)
  | .void, .void ex => some (.void ex)
  | _, _ => none

/-- `return_place()`. `v` is the value that the body puts there, or the pointer. -/
def return_place (v : Option V) : ReturnBlock V E → Option (ReturnBlock V E)
  | .object .EMPTY => v.map fun v => .object (.VAL v)
  | .object _ => none
  | .reference _ ex => some (.reference v ex)
  | .void ex => some (.void ex)

/-- `result()`, when its assertion holds; a `void` result has no value. -/
def result : ReturnBlock V E → Option (Option V)
  | .object (.VAL v) => some (some v)
  | .object _ => none
  | .reference storage _ => storage.map some
  | .void _ => some none

/-- The value is moved out of the block; `moved` is what that leaves of it. -/
def move_result (moved : V → V) : ReturnBlock V E → ReturnBlock V E
  | .object (.VAL v) => .object (.VAL (moved v))
  | b => b

end ReturnBlock

/-- The `return_block` of a coroutine that is running, and with what it has
completed: a value (`none`) or an exception. -/
structure Promise (V E : Type) where
  block : ReturnBlock V E
  completed : Option (Option E)
  deriving DecidableEq, Repr

/-- What the body does with its `return_block`. After `co_return` the destructors
of its local objects may throw still. -/
inductive Use (V E : Type) where
  | return_place (v : Option V)
  | co_return (how : Return V E)
  | throw (e : E)
  deriving DecidableEq, Repr

namespace Promise

def construct (spec : Specialization) : Promise V E := { block := .construct spec, completed := none }

/-- `throw` is `unhandled_exception` of the promise. -/
def use (p : Promise V E) : Use V E → Option (Promise V E)
  | .return_place v =>
    if p.completed = none then (p.block.return_place v).map fun b => { p with block := b } else none
  | .co_return how =>
    if p.completed = none then
      (p.block.return_value how).map fun b =>
        { block := b
          completed := match how with
            | .return_exception e => some (some e)
            | _ => some none }
    else none
  | .throw e => (p.block.set_exception e).map fun b => { block := b, completed := some (some e) }

end Promise

end kelcoro.return_block

namespace kelcoro.task

open kelcoro.return_block

variable {V E : Type}

/-- `task_promise::result_or_rethrow`. -/
def result_or_rethrow (left : E → Option E) (b : ReturnBlock V E) : Read V E × ReturnBlock V E :=
  if b.has_exception then
    match b.take_exception left with
    | some (e, b) => (.threw e, b)
    | none => (.undefined, b)
  else
    match b.result with
    | some v => (.returned v, b)
    | none => (.undefined, b)

/-- The calls on a task that is done: `co_await` of an lvalue, `co_await` of an
rvalue, `co_await wait()`, `get()`. -/
inductive Call where
  | co_await_ref
  | co_await_value
  | wait
  | get
  deriving DecidableEq, Repr

/-- The call returns the result. -/
def Call.reads : Call → Bool
  | .wait => false
  | _ => true

/-- A call on a task that is done, and what it leaves in the promise. -/
def call (left : E → Option E) (moved : V → V) (b : ReturnBlock V E) : Call → Option (Read V E) × ReturnBlock V E
  | .co_await_ref =>
    match result_or_rethrow left b with
    | (read, b) => (some read, b)
  | .co_await_value | .get =>
    match result_or_rethrow left b with
    | (read, b) => (some read, b.move_result moved)
  | .wait => (none, b)

end kelcoro.task

namespace kelcoro.async_task

open kelcoro.return_block

variable {V E : Type}

/-- `get() &` of a task that is ready. -/
def get (left : E → Option E) (b : ReturnBlock V E) : Read V E × ReturnBlock V E :=
  if b.has_exception then
    match b.take_exception left with
    | some (e, b) => (.threw e, b)
    | none => (.undefined, b)
  else
    match b.result with
    | some v => (.returned v, b)
    | none => (.undefined, b)

/-- The calls on a task that is ready. -/
inductive Call where
  | get_ref
  | get_value
  | wait
  | ready
  deriving DecidableEq, Repr

/-- The call returns the result. -/
def Call.reads : Call → Bool
  | .get_ref | .get_value => true
  | .wait | .ready => false

/-- A call on a task that is ready, and what it leaves in the promise. -/
def call_ready (left : E → Option E) (moved : V → V) (b : ReturnBlock V E) :
    Call → Option (Read V E) × ReturnBlock V E
  | .get_ref =>
    match get left b with
    | (read, b) => (some read, b)
  | .get_value =>
    match get left b with
    | (read, b) => (some read, b.move_result moved)
  | .wait | .ready => (none, b)

end kelcoro.async_task
