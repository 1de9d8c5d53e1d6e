import Kelcoro.Channel.ExtractFrom.Model

namespace kelcoro.channel.extract_from

open kelcoro.generators_common

variable {V E : Type}

def is_value : Event V E → Bool
  | .value _ => true
  | .exception _ => false

/-- What the loop of `extract_from::do_` finds: it ends where the iteration stops
for the first time, be it for an exception. -/
def heard : List (Event V E) → List V
  | .value v :: events => v :: heard events
  | .exception _ :: _ => []
  | [] => []

theorem length_heard_le (events : List (Event V E)) : (heard events).length ≤ events.length := by
  induction events with
  | nil => exact le_rfl
  | cons event events ih =>
    cases event with
    | value v => exact Nat.succ_le_succ ih
    | exception ex => exact Nat.zero_le _

/-- The loop misses nothing but exceptions, and what comes after them. -/
theorem heard_eq {events : List (Event V E)} (hvalues : ∀ event ∈ events, is_value event = true) :
    (heard events).map .value = events := by
  induction events with
  | nil => rfl
  | cons event events ih =>
    obtain ⟨hvalue, hrest⟩ := List.forall_mem_cons.mp hvalues
    cases event with
    | value v => rw [heard, List.map_cons, ih hrest]
    | exception ex => cases hvalue

namespace Code

/-- The depth-first flattening, in which a channel with another `Yield` is
`elements_of` like any other one. -/
def flatten : Code V E → List (Event V E)
  | .co_return => []
  | .co_yield value rest => .value value :: rest.flatten
  | .co_await rest => rest.flatten
  | .throw ex => [.exception ex]
  | .elements_of_empty rest => rest.flatten
  | .elements_of leaf pulls rest => leaf.flatten.drop pulls ++ rest.flatten
  | .elements_of_range rng rest => rng.map .value ++ rest.flatten
  | .elements_of_other_empty rest => rest.flatten
  | .elements_of_other leaf pulls rest => leaf.flatten.drop pulls ++ rest.flatten

/-- The coroutine itself ends with an exception. -/
def throws : Code V E → Bool
  | .co_return => false
  | .throw _ => true
  | .co_yield _ rest | .co_await rest | .elements_of_empty rest | .elements_of _ _ rest
  | .elements_of_range _ rest | .elements_of_other_empty rest | .elements_of_other _ _ rest => rest.throws

/-- The same coroutine with a range in place of every channel with another
`Yield`: of the elements that are heard of it. -/
def ranged : Code V E → Body V E
  | .co_return => .co_return
  | .co_yield value rest => .co_yield value rest.ranged
  | .co_await rest => .co_await rest.ranged
  | .throw ex => .throw ex
  | .elements_of_empty rest => .elements_of_empty rest.ranged
  | .elements_of leaf pulls rest => .elements_of leaf.ranged pulls rest.ranged
  | .elements_of_range rng rest => .elements_of_range rng rest.ranged
  | .elements_of_other_empty rest => .elements_of_range [] rest.ranged
  | .elements_of_other leaf pulls rest =>
    .co_await (.elements_of_range (heard (leaf.ranged.flatten.drop pulls)) rest.ranged)

/-- No exception, of its own or of its leaves, is left in a channel with another
`Yield` when it is handed over. A leaf that its holder iterated to the end may be
of any kind. -/
def KeepsExceptions : Code V E → Prop
  | .co_return | .throw _ => True
  | .co_yield _ rest | .co_await rest | .elements_of_empty rest | .elements_of_range _ rest
  | .elements_of_other_empty rest => rest.KeepsExceptions
  | .elements_of leaf pulls rest => (leaf.flatten.length ≤ pulls ∨ leaf.KeepsExceptions) ∧ rest.KeepsExceptions
  | .elements_of_other leaf pulls rest =>
    (leaf.flatten.length ≤ pulls ∨ leaf.KeepsExceptions ∧ ∀ event ∈ leaf.flatten.drop pulls, is_value event = true) ∧
      rest.KeepsExceptions

def decidable_keeps_exceptions : (c : Code V E) → Decidable c.KeepsExceptions
  | .co_return | .throw _ => inferInstanceAs (Decidable True)
  | .co_yield _ rest | .co_await rest | .elements_of_empty rest | .elements_of_range _ rest
  | .elements_of_other_empty rest => rest.decidable_keeps_exceptions
  | .elements_of leaf _ rest =>
    let := leaf.decidable_keeps_exceptions
    let := rest.decidable_keeps_exceptions
    inferInstanceAs (Decidable (_ ∧ _))
  | .elements_of_other leaf _ rest =>
    let := leaf.decidable_keeps_exceptions
    let := rest.decidable_keeps_exceptions
    inferInstanceAs (Decidable (_ ∧ _))

instance : DecidablePred (KeepsExceptions : Code V E → Prop) :=
  decidable_keeps_exceptions

/-- `to_generator`: the same with and without the other channels. -/
def to_generator : List V → Code V E
  | [] => .co_return
  | x :: rng => .co_yield x (to_generator rng)

theorem ranged_to_generator (rng : List V) : (to_generator rng : Code V E).ranged = Body.to_generator rng := by
  induction rng with
  | nil => rfl
  | cons x rng ih => rw [to_generator, ranged, ih, Body.to_generator]

theorem body_to_generator (rng : List V) :
    (to_generator rng : Code V E).body = Body.to_generator (rng.map .value) := by
  induction rng with
  | nil => rfl
  | cons x rng ih => rw [to_generator, body, ih, List.map_cons, Body.to_generator]

/-- A bound for the steps in which one of the channels with another `Yield` is
asked for an element, and the coroutine that iterates it looks at the answer. -/
def cost : Code V E → Nat
  | .co_return | .throw _ => 0
  | .co_yield _ rest | .co_await rest | .elements_of_empty rest | .elements_of_range _ rest => rest.cost
  | .elements_of leaf _ rest => max leaf.cost rest.cost
  | .elements_of_other_empty rest => max 1 rest.cost
  | .elements_of_other leaf pulls rest =>
    max ((leaf.cost + 1) * (leaf.ranged.size + 2 * pulls + 1) + 1) rest.cost

theorem cost_to_generator (rng : List V) : (to_generator rng : Code V E).cost = 0 := by
  induction rng with
  | nil => rfl
  | cons x rng ih => exact ih

theorem throws_ranged (c : Code V E) : c.ranged.throws = c.throws := by
  induction c with
  | co_return | throw _ => rfl
  | co_yield _ _ ih | co_await _ ih | elements_of_empty _ ih | elements_of_range _ _ ih
  | elements_of_other_empty _ ih => exact ih
  | elements_of _ _ _ _ ih | elements_of_other _ _ _ _ ih => exact ih

theorem length_ranged_le (c : Code V E) : c.ranged.flatten.length ≤ c.flatten.length := by
  induction c with
  | co_return | throw _ => exact le_rfl
  | co_yield _ _ ih => exact Nat.succ_le_succ ih
  | co_await _ ih | elements_of_empty _ ih => exact ih
  | elements_of_range rng rest ih =>
    simp only [ranged, flatten, Body.flatten, List.length_append]
    omega
  | elements_of_other_empty rest ih => exact ih
  | elements_of leaf pulls rest ihl ih =>
    simp only [ranged, flatten, Body.flatten, List.length_append, List.length_drop]
    omega
  | elements_of_other leaf pulls rest ihl ih =>
    have hle := length_heard_le (leaf.ranged.flatten.drop pulls)
    simp only [ranged, flatten, Body.flatten, List.length_append, List.length_map, List.length_drop] at hle ⊢
    omega

theorem flatten_ranged {c : Code V E} (hc : c.KeepsExceptions) : c.ranged.flatten = c.flatten := by
  induction c with
  | co_return | throw _ => rfl
  | co_yield value rest ih => simp only [ranged, flatten, Body.flatten, ih hc]
  | co_await _ ih | elements_of_empty _ ih | elements_of_other_empty _ ih => exact ih hc
  | elements_of_range rng rest ih => simp only [ranged, flatten, Body.flatten, ih hc]
  | elements_of leaf pulls rest ihl ih =>
    obtain ⟨hover | hleaf, hrest⟩ := hc
    · simp only [ranged, flatten, Body.flatten, ih hrest, List.drop_eq_nil_of_le hover,
        List.drop_eq_nil_of_le (leaf.length_ranged_le.trans hover)]
    · simp only [ranged, flatten, Body.flatten, ih hrest, ihl hleaf]
  | elements_of_other leaf pulls rest ihl ih =>
    obtain ⟨hover | ⟨hleaf, hvalues⟩, hrest⟩ := hc
    · simp only [ranged, flatten, Body.flatten, ih hrest, List.drop_eq_nil_of_le hover, heard, List.map_nil,
        List.drop_eq_nil_of_le (leaf.length_ranged_le.trans hover)]
    · simp only [ranged, flatten, Body.flatten, ih hrest, ihl hleaf, heard_eq hvalues]

theorem keeps_exceptions {V : Type} (c : Code V Empty) : c.KeepsExceptions := by
  induction c with
  | co_return | throw _ => trivial
  | co_yield _ _ ih | co_await _ ih | elements_of_empty _ ih | elements_of_range _ _ ih
  | elements_of_other_empty _ ih => exact ih
  | elements_of leaf pulls rest ihl ih => exact ⟨.inr ihl, ih⟩
  | elements_of_other leaf pulls rest ihl ih =>
    refine ⟨.inr ⟨ihl, fun event _ => ?_⟩, ih⟩
    cases event with
    | value v => rfl
    | exception ex => exact ex.elim

end Code

end kelcoro.channel.extract_from
