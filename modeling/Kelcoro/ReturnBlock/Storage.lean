import Kelcoro.Lib.Place
import Kelcoro.ReturnBlock.Model
import Mathlib

namespace kelcoro.return_block.retblock_storage

open kelcoro.lib

inductive retkind_e where
  | EMPTY
  | VAL
  | EX
  deriving DecidableEq, Repr

/-- What can live in the bytes of a `retblock_storage`. An `exception_ptr` may be null. -/
inductive Object (V E : Type) where
  | value (v : V)
  | exception_ptr (p : Option E)
  deriving DecidableEq, Repr

/-- An assertion does not hold, or the behaviour is undefined. -/
inductive Failure where
  | assertion
  | undefined
  deriving DecidableEq, Repr

variable {V E : Type}

def assert (c : Prop) [Decidable c] : Except Failure Unit := if c then .ok () else .error .assertion

def defined {α : Type} (x : Option α) : Except Failure α := x.elim (.error .undefined) .ok

/-- Access to the value behind `as_value()`. -/
def as_value (data : Place (Object V E)) : Except Failure V :=
  match data.object with
  | some (.value v) => .ok v
  | _ => .error .undefined

/-- Access to the `exception_ptr` behind `as_ex()`. -/
def as_ex (data : Place (Object V E)) : Except Failure (Option E) :=
  match data.object with
  | some (.exception_ptr p) => .ok p
  | _ => .error .undefined

def destroy_value (data : Place (Object V E)) : Except Failure (Place (Object V E)) := do
  let _ ← as_value data
  defined data.destroy_at

def destroy_ex (data : Place (Object V E)) : Except Failure (Place (Object V E)) := do
  let _ ← as_ex data
  defined data.destroy_at

/-- A `return_block` of an object type. -/
structure Block (V E : Type) where
  data : Place (Object V E)
  kind : retkind_e

namespace Block

def construct : Block V E where
  data := .empty
  kind := .EMPTY

/-- `~return_block`. -/
def destroy (b : Block V E) : Except Failure (Place (Object V E)) :=
  match b.kind with
  | .VAL => destroy_value b.data
  | .EX => destroy_ex b.data
  | .EMPTY => .ok b.data

def has_exception (b : Block V E) : Bool := b.kind = .EX

def set_exception (b : Block V E) (e : Option E) : Except Failure (Block V E) := do
  assert (b.kind ≠ .EX)
  assert e.isSome
  let data ← if b.kind = .VAL then destroy_value b.data else .ok b.data
  let data ← defined (data.construct_at (.exception_ptr e))
  .ok { data := data, kind := .EX }

def take_exception (b : Block V E) : Except Failure (Option E × Block V E) := do
  assert b.has_exception
  let p ← as_ex b.data
  let data ← destroy_ex b.data
  .ok (p, { data := data, kind := .EMPTY })

/-- `return_value(value)`. The constructor gives a value or throws, which is the second
result. -/
def return_value (b : Block V E) (value : Except E V) : Except Failure (Block V E × Option E) := do
  assert (b.kind = .EMPTY)
  match value with
  | .error e => .ok (b, some e)
  | .ok v =>
    let data ← defined (b.data.construct_at (.value v))
    .ok ({ data := data, kind := .VAL }, none)

/-- `return_value(rvo_tag_t)`. -/
def return_rvo (b : Block V E) : Except Failure (Block V E) := do
  assert (b.kind ≠ .EMPTY)
  .ok b

/-- `return_value(return_exception)`. -/
def return_exception (b : Block V E) (e : Option E) : Except Failure (Block V E) := b.set_exception e

def result (b : Block V E) : Except Failure V := do
  assert (b.kind = .VAL)
  as_value b.data

/-- `return_place(args...)`. -/
def return_place (b : Block V E) (value : Except E V) : Except Failure (Block V E × Option E) := do
  assert (b.kind = .EMPTY)
  match value with
  | .error e => .ok (b, some e)
  | .ok v =>
    let data ← defined (b.data.construct_at (.value v))
    .ok ({ data := data, kind := .VAL }, none)

/-- Something is written to the value, through a reference that `return_place` or
`result` has returned. -/
def write (b : Block V E) (v : V) : Except Failure (Block V E) := do
  let _ ← as_value b.data
  let data ← defined (b.data.assign (.value v))
  .ok { b with data := data }

/-- `task_promise::result_or_rethrow`, and that of `async_task::get`. -/
def result_or_rethrow (b : Block V E) : Except Failure (Read V E × Block V E) :=
  if b.has_exception then do
    let (p, b) ← b.take_exception
    let e ← defined p
    .ok (.threw e, b)
  else do
    let v ← b.result
    .ok (.returned (some v), b)

/-- A call on a task that is done. -/
def call (moved : V → V) (b : Block V E) : task.Call → Except Failure (Option (Read V E) × Block V E)
  | .co_await_ref => do
    let (read, b) ← b.result_or_rethrow
    .ok (some read, b)
  | .co_await_value | .get => do
    let (read, b) ← b.result_or_rethrow
    match read with
    | .returned (some v) =>
      let b ← b.write (moved v)
      .ok (some read, b)
    | _ => .ok (some read, b)
  | .wait => .ok (none, b)

end Block

/-- How a body ends with `co_return`. -/
inductive Return (V E : Type) where
  | value (value : Except E V)
  | rvo
  | return_exception (e : Option E)

/-- What happens to a `return_block`: its body writes a result, ends or throws, also
from the destructors of its local objects after `co_return`; or the owner of the task
that is done reads the result. With `ignored`, nobody waits for the task and
`on_ignored_exception` throws out of `unhandled_exception`. -/
inductive Action (V E : Type) where
  | return_place (value : Except E V)
  | write (v : V)
  | co_return (how : Return V E)
  | throw (e : E)
  | ignored
  | final_suspend
  | call (c : task.Call)

inductive Phase where
  | running
  | returned
  | done
  deriving DecidableEq, Repr

structure State (V E : Type) where
  block : Block V E
  phase : Phase
  reads : List (Read V E)

def construct : State V E where
  block := .construct
  phase := .running
  reads := []

section Step

variable (moved : V → V) (s : State V E)

/-- An exception that a constructor throws is thrown in the body, which goes on. -/
def step : Action V E → Except Failure (State V E)
  | .return_place value => do
    let (b, _) ← s.block.return_place value
    .ok { s with block := b }
  | .write v => do
    let b ← s.block.write v
    .ok { s with block := b }
  | .co_return (.value value) => do
    let (b, thrown) ← s.block.return_value value
    .ok { s with
      block := b
      phase := if thrown.isSome then .running else .returned }
  | .co_return .rvo => do
    let b ← s.block.return_rvo
    .ok { s with
      block := b
      phase := .returned }
  | .co_return (.return_exception e) => do
    let b ← s.block.return_exception e
    .ok { s with
      block := b
      phase := .returned }
  | .throw e => do
    let b ← s.block.set_exception (some e)
    .ok { s with
      block := b
      phase := .done }
  | .ignored | .final_suspend => .ok { s with phase := .done }
  | .call c => do
    let (read, b) ← s.block.call moved c
    .ok { s with
      block := b
      reads := s.reads ++ read.toList }

/-- Who has a reference to the value writes to it as long as it is there. -/
def Allowed : Action V E → Prop
  | .return_place _ | .co_return _ => s.phase = .running
  | .write _ => s.block.kind = .VAL
  | .throw _ | .ignored => s.phase ≠ .done
  | .final_suspend => s.phase = .returned
  | .call _ => s.phase = .done

def Step (s : State V E) (a : Action V E) (s' : State V E) : Prop :=
  Allowed s a ∧ step moved s a = .ok s'

end Step

/-- What happens to a `ReturnBlock`, and what was read; `none` where an assertion does
not hold or the result is read where there is none. -/
def use_block (left : E → Option E) (moved : V → V) : ReturnBlock V E × List (Read V E) → Action V E →
    Option (ReturnBlock V E × List (Read V E))
  | (b, reads), .return_place (.ok v) => (b.return_place (some v)).map (·, reads)
  | (b, reads), .co_return (.value (.ok v)) => (b.return_value (.value v)).map (·, reads)
  | (b, reads), .return_place (.error _) | (b, reads), .co_return (.value (.error _)) =>
    match b with
    | .object .EMPTY => some (b, reads)
    | _ => none
  | (b, reads), .write v =>
    match b with
    | .object (.VAL _) => some (.object (.VAL v), reads)
    | _ => none
  | (b, reads), .co_return .rvo => (b.return_value .rvo).map (·, reads)
  | (b, reads), .co_return (.return_exception (some e)) => (b.return_value (.return_exception e)).map (·, reads)
  | _, .co_return (.return_exception none) => none
  | (b, reads), .throw e => (b.set_exception e).map (·, reads)
  | (b, reads), .ignored | (b, reads), .final_suspend => some (b, reads)
  | (b, reads), .call c =>
    match task.call left moved b c with
    | (some .undefined, _) => none
    | (read, b) => some (b, reads ++ read.toList)

/-- The `retkind_e` beside what a `Storage` has. -/
def kind_of : Storage V E → retkind_e
  | .EMPTY => .EMPTY
  | .VAL _ => .VAL
  | .EX _ => .EX

/-- The object that lives where a `Storage` is kept. -/
def object_of : Storage V E → Option (Object V E)
  | .EMPTY => none
  | .VAL v => some (.value v)
  | .EX e => some (.exception_ptr (some e))

/-- A `return_block` in which `kind` says what lives in `data`. -/
def Block.of (data : Storage V E) (constructed : Nat) (destroyed : List Nat) : Block V E where
  data := { object := object_of data, constructed := constructed, destroyed := destroyed }
  kind := kind_of data

theorem destroy_of (data : Storage V E) (n : Nat) (ds : List Nat) : (Block.of data n ds).destroy = .ok {
    object := none
    constructed := n
    destroyed := ds ++ (if (object_of data).isSome then [n - 1] else []) } := by
  cases data with
  | EMPTY => simp [Block.of, Block.destroy, kind_of, object_of]
  | VAL v | EX e => rfl

/-- How many objects were constructed by then. -/
def Bound (phase : Phase) (n : Nat) : Storage V E → Prop
  | .EMPTY => n ≤ 2 ∧ (phase ≠ .done → n = 0)
  | .VAL _ => n ≤ 2 ∧ (phase ≠ .done → n = 1)
  | .EX _ => n ≤ 2

/-- What is known of a `return_block` in which `data` is kept. -/
structure Inv (s : State V E) (data : Storage V E) : Prop where
  block : s.block = .of data s.block.data.constructed s.block.data.destroyed
  kept : s.block.data.Kept
  bound : Bound s.phase s.block.data.constructed data

variable {left : E → Option E} {moved : V → V} {s s' : State V E} {data : Storage V E} {a : Action V E}
  {phase : Phase} {n : Nat} {ds : List Nat} {reads : List (Read V E)}

theorem Bound.le (h : Bound phase n data) : n ≤ 2 := by
  cases data with
  | EMPTY | VAL v => exact h.1
  | EX e => exact h

theorem Bound.done (h : n ≤ 2) : Bound .done n data := by
  cases data with
  | EMPTY | VAL v => exact ⟨h, fun hnot => absurd rfl hnot⟩
  | EX e => exact h

theorem construct_inv : Inv (construct : State V E) .EMPTY where
  block := rfl
  kept := Place.empty_kept
  bound := ⟨Nat.zero_le 2, fun _ => rfl⟩

theorem Inv.of (hkept : (Block.of data n ds).data.Kept) (hbound : Bound phase n data) :
    Inv { block := .of data n ds, phase := phase, reads := reads } data :=
  ⟨rfl, hkept, hbound⟩

/-- Where there is no exception yet, the value is destroyed and the exception is
constructed. -/
theorem set_exception_spec (hkept : (Block.of data n ds).data.Kept) (hbound : Bound phase n data)
    (hphase : phase ≠ .done) (e : E) :
    (ReturnBlock.object data).set_exception e = none ∧
        (Block.of data n ds).set_exception (some e) = .error .assertion ∨
      ∃ n' ds', (ReturnBlock.object data).set_exception e = some (.object (.EX e)) ∧
        (Block.of data n ds).set_exception (some e) = .ok (.of (.EX e) n' ds') ∧
        (Block.of (.EX e : Storage V E) n' ds').data.Kept ∧ n' ≤ 2 := by
  cases data with
  | EX e' => exact .inl ⟨rfl, rfl⟩
  | EMPTY =>
    have hn := hbound.2 hphase
    exact .inr ⟨n + 1, ds, rfl, rfl, hkept.construct_at rfl, by omega⟩
  | VAL v =>
    have hn := hbound.2 hphase
    have hempty : (Block.of (.EMPTY : Storage V E) n (ds ++ [n - 1])).data.Kept := hkept.destroy_at rfl
    exact .inr ⟨n + 1, ds ++ [n - 1], rfl, rfl, hempty.construct_at rfl, by omega⟩

/-- A value is constructed where there is none, unless its constructor throws. -/
theorem return_value_spec (left : E → Option E) (moved : V → V) (reads : List (Read V E))
    (hkept : (Block.of data n ds).data.Kept) (hbound : Bound .running n data) (value : Except E V) :
    use_block left moved (.object data, reads) (.co_return (.value value)) = none ∧
        (Block.of data n ds).return_value value = .error .assertion ∨
      ∃ data' n' thrown, use_block left moved (.object data, reads) (.co_return (.value value)) = some (.object data', reads) ∧
        (Block.of data n ds).return_value value = .ok (.of data' n' ds, thrown) ∧
        (Block.of data' n' ds).data.Kept ∧ ∀ phase, Bound phase n' data' := by
  cases data with
  | VAL v | EX e => exact .inl ⟨by cases value <;> rfl, rfl⟩
  | EMPTY =>
    have hn := hbound.2 (by decide)
    cases value with
    | error e => exact .inr ⟨.EMPTY, n, some e, rfl, rfl, hkept, fun _ => ⟨by omega, fun _ => hn⟩⟩
    | ok v =>
      exact .inr ⟨.VAL v, n + 1, none, rfl, rfl, hkept.construct_at rfl, fun _ => ⟨by omega, fun _ => by omega⟩⟩

/-- The result is read, and an exception is destroyed when it is taken. -/
theorem call_spec (left : E → Option E) (hkept : (Block.of data n ds).data.Kept) (c : task.Call) :
    use_block left moved (.object data, reads) (.call c) = none ∧ (Block.of data n ds).call moved c = .error .assertion ∨
      ∃ data' ds' read, use_block left moved (.object data, reads) (.call c) = some (.object data', reads ++ read.toList) ∧
        (Block.of data n ds).call moved c = .ok (read, .of data' n ds') ∧ (Block.of data' n ds').data.Kept := by
  cases c with
  | wait => exact .inr ⟨data, ds, none, by simp [use_block, task.call], rfl, hkept⟩
  | co_await_ref =>
    cases data with
    | EMPTY => exact .inl ⟨rfl, rfl⟩
    | VAL v => exact .inr ⟨.VAL v, ds, some (.returned (some v)), rfl, rfl, hkept⟩
    | EX e => exact .inr ⟨.EMPTY, ds ++ [n - 1], some (.threw e), rfl, rfl, hkept.destroy_at rfl⟩
  | co_await_value | get =>
    cases data with
    | EMPTY => exact .inl ⟨rfl, rfl⟩
    | VAL v => exact .inr ⟨.VAL (moved v), ds, some (.returned (some v)), rfl, rfl, hkept.assign rfl⟩
    | EX e => exact .inr ⟨.EMPTY, ds ++ [n - 1], some (.threw e), rfl, rfl, hkept.destroy_at rfl⟩

/-- `return_place(args...)` constructs the value as `return_value(value)` does. -/
theorem return_place_eq (b : Block V E) (value : Except E V) : b.return_place value = b.return_value value := rfl

theorem use_return_place (left : E → Option E) (moved : V → V) (reads : List (Read V E)) (value : Except E V) :
    use_block left moved (.object data, reads) (.return_place value) =
      use_block left moved (.object data, reads) (.co_return (.value value)) := by
  cases value with
  | error e => rfl
  | ok v => cases data <;> rfl

/-- What each step does to the `return_block` and to what it stands for. -/
theorem step_spec (left : E → Option E) (moved : V → V) (h : Inv s data) (ha : Allowed s a) :
    use_block left moved (.object data, s.reads) a = none ∧ step moved s a = .error .assertion ∨
      ∃ s' data', use_block left moved (.object data, s.reads) a = some (.object data', s'.reads) ∧
        step moved s a = .ok s' ∧ Inv s' data' := by
  obtain ⟨block, phase, reads⟩ := s
  obtain ⟨hblock, hkept, hbound⟩ := h
  generalize hn : block.data.constructed = n at hblock hbound
  generalize block.data.destroyed = ds at hblock
  simp only at hblock hkept hbound hn
  subst hblock
  cases a with
  | return_place value =>
    obtain rfl : phase = .running := ha
    simp only [step, return_place_eq, use_return_place]
    obtain ⟨hnone, hfails⟩ | ⟨data', n', thrown, huse, hreturns, hkept', hbound'⟩ :=
      return_value_spec left moved reads hkept hbound value
    · exact .inl ⟨hnone, by rw [hfails]; rfl⟩
    · exact .inr ⟨⟨.of data' n' ds, .running, reads⟩, data', huse, by rw [hreturns]; rfl, .of hkept' (hbound' _)⟩
  | write v =>
    cases data with
    | EMPTY | EX e => cases ha
    | VAL w =>
      have hkept' : (Block.of (.VAL v : Storage V E) n ds).data.Kept := hkept.assign rfl
      exact .inr ⟨⟨.of (.VAL v) n ds, phase, reads⟩, .VAL v, rfl, rfl, .of hkept' hbound⟩
  | co_return how =>
    obtain rfl : phase = .running := ha
    cases how with
    | value value =>
      obtain ⟨hnone, hfails⟩ | ⟨data', n', thrown, huse, hreturns, hkept', hbound'⟩ :=
        return_value_spec left moved reads hkept hbound value
      · exact .inl ⟨hnone, by simp only [step]; rw [hfails]; rfl⟩
      · refine .inr ⟨⟨.of data' n' ds, if thrown.isSome then .running else .returned, reads⟩, data', huse, ?_,
          .of hkept' (hbound' _)⟩
        simp only [step]
        rw [hreturns]
        rfl
    | rvo =>
      cases data with
      | EMPTY => exact .inl ⟨rfl, rfl⟩
      | VAL v =>
        have hn := hbound.2 (by decide)
        exact .inr ⟨⟨.of (.VAL v) n ds, .returned, reads⟩, .VAL v, rfl, rfl, .of hkept ⟨hbound.le, fun _ => hn⟩⟩
      | EX e => exact .inr ⟨⟨.of (.EX e) n ds, .returned, reads⟩, .EX e, rfl, rfl, .of hkept hbound⟩
    | return_exception e =>
      cases e with
      | none => exact .inl ⟨rfl, by cases data <;> rfl⟩
      | some e =>
        obtain ⟨hnone, hfails⟩ | ⟨n', ds', huse, hsets, hkept', hle⟩ := set_exception_spec hkept hbound (by decide) e
        · refine .inl ⟨?_, ?_⟩
          · simp [use_block, ReturnBlock.return_value, hnone]
          · simp only [step, Block.return_exception]
            rw [hfails]
            rfl
        · refine .inr ⟨⟨.of (.EX e) n' ds', .returned, reads⟩, .EX e, ?_, ?_, .of hkept' hle⟩
          · simp [use_block, ReturnBlock.return_value, huse]
          · simp only [step, Block.return_exception]
            rw [hsets]
            rfl
  | throw e =>
    obtain ⟨hnone, hfails⟩ | ⟨n', ds', huse, hsets, hkept', hle⟩ := set_exception_spec hkept hbound ha e
    · exact .inl ⟨by simp [use_block, hnone], by simp only [step]; rw [hfails]; rfl⟩
    · exact .inr ⟨⟨.of (.EX e) n' ds', .done, reads⟩, .EX e, by simp [use_block, huse], by simp only [step]; rw [hsets]; rfl,
        .of hkept' hle⟩
  | ignored | final_suspend =>
    exact .inr ⟨⟨.of data n ds, .done, reads⟩, data, rfl, rfl, .of hkept (.done hbound.le)⟩
  | call c =>
    obtain rfl : phase = .done := ha
    obtain ⟨hnone, hfails⟩ | ⟨data', ds', read, huse, hreturns, hkept'⟩ := call_spec left hkept c
    · exact .inl ⟨hnone, by simp only [step]; rw [hfails]; rfl⟩
    · refine .inr ⟨⟨.of data' n ds', .done, reads ++ read.toList⟩, data', huse, ?_, .of hkept' (.done hbound.le)⟩
      simp only [step]
      rw [hreturns]
      rfl

theorem kept_of_run {as : List (Action V E)} (left : E → Option E) (hrun : Run (Step moved) s as s') (h : Inv s data) :
    ∃ data', Inv s' data' ∧
      Run (fun t a t' => use_block left moved t a = some t') (.object data, s.reads) as (.object data', s'.reads) := by
  induction hrun generalizing data with
  | nil s => exact ⟨data, h, .nil _⟩
  | @cons s s₁ s' a as hstep _ ih =>
    obtain ⟨hallowed, hok⟩ := hstep
    obtain ⟨-, hfails⟩ | ⟨s₂, data₁, huse, hok₂, h₁⟩ := step_spec left moved h hallowed
    · cases hok.symm.trans hfails
    · obtain rfl : s₁ = s₂ := Except.ok.inj (hok.symm.trans hok₂)
      obtain ⟨data', h', hrest⟩ := ih h₁
      exact ⟨data', h', .cons huse hrest⟩

/-- The bytes of a `return_block` are used as its `kind` says. In every run of a body and
of the calls of who reads its result, `kind` tells what lives there, and the block does what
the `ReturnBlock` does that it stands for; no object is destroyed or accessed that is not
there or is of the other type, and none is constructed where another one lives: what can go
wrong is that an assertion does not hold, which is when the `ReturnBlock` has no next state.
At most two objects are constructed, and when the destructor has returned each of them
has been destroyed exactly once. -/
theorem kind_says_what_lives {as : List (Action V E)} (left : E → Option E) (hrun : Run (Step moved) construct as s) :
    ∃ data, Run (fun t a t' => use_block left moved t a = some t') (.construct .object, []) as (.object data, s.reads) ∧
      s.block.kind = kind_of data ∧ s.block.data.object = object_of data ∧
      (∀ a, Allowed s a → step moved s a ≠ .error .undefined ∧
        (step moved s a = .error .assertion ↔ use_block left moved (.object data, s.reads) a = none)) ∧
      s.block.data.constructed ≤ 2 ∧
      ∃ place, s.block.destroy = .ok place ∧ place.object = none ∧ place.constructed = s.block.data.constructed ∧
        place.destroyed = List.range place.constructed := by
  obtain ⟨data, h, huses⟩ := kept_of_run left hrun construct_inv
  refine ⟨data, huses, ?_, ?_, fun a ha => ?_, h.bound.le, ?_⟩
  · rw [h.block]
    rfl
  · rw [h.block]
    rfl
  · obtain ⟨hnone, hfails⟩ | ⟨s', data', huse, hok, -⟩ := step_spec left moved h ha
    · simp [hnone, hfails]
    · simp [huse, hok]
  · have hobject : s.block.data.object = object_of data := by rw [h.block]; rfl
    have hdestroy := destroy_of data s.block.data.constructed s.block.data.destroyed
    rw [← h.block, ← hobject, h.kept] at hdestroy
    exact ⟨_, hdestroy, rfl, rfl, rfl⟩

/-- A value is put in its place and returned; then the destructor of a local object
throws, and `get()` throws that. -/
theorem kind_says_what_lives_of_throw : ∃ s : State Nat String, s.reads = [.threw "err"] ∧
    ∃ place, s.block.destroy = .ok place ∧ place.object = none ∧ place.destroyed = [0, 1] := by
  have hrun : Run (Step id) construct [.return_place (.ok 1), .write 2, .co_return .rvo, .throw "err", .call .get]
      { block := .of (.EMPTY : Storage Nat String) 2 [0, 1], phase := .done, reads := [.threw "err"] } :=
    .cons ⟨rfl, rfl⟩ (.cons ⟨rfl, rfl⟩ (.cons ⟨rfl, rfl⟩ (.cons ⟨by simp [Allowed], rfl⟩ (.cons ⟨rfl, rfl⟩ (.nil _)))))
  obtain ⟨data, -, -, -, -, -, place, hdestroy, hnone, hconstructed, hdestroyed⟩ := kind_says_what_lives (fun _ => none) hrun
  exact ⟨_, rfl, place, hdestroy, hnone, by rw [hdestroyed, hconstructed]; rfl⟩

end kelcoro.return_block.retblock_storage
