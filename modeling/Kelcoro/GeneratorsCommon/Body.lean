import Mathlib

namespace kelcoro.generators_common

/-- The body of a generator or channel coroutine, as the sequence of its
suspension points. A leaf of `elements_of` is an empty object, a coroutine that
its holder iterated `pulls` times before handing it over (zero for one that is
not started), or an ordinary range. Channels with another `Yield` are leaves of a
`channel.extract_from.Code`. -/
inductive Body (V E : Type) where
  | co_return
  | co_yield (value : V) (rest : Body V E)
  | co_await (rest : Body V E)
  | throw (ex : E)
  | elements_of_empty (rest : Body V E)
  | elements_of (leaf : Body V E) (pulls : Nat) (rest : Body V E)
  | elements_of_range (rng : List V) (rest : Body V E)
  deriving DecidableEq, Repr

/-- What one request of a consumer meets in the stream. -/
inductive Event (V E : Type) where
  | value (v : V)
  | exception (ex : E)
  deriving DecidableEq, Repr

namespace Body

variable {V E : Type}

/-- `to_generator`: a range is iterated by a coroutine that yields each element. -/
def to_generator : List V → Body V E
  | [] => .co_return
  | x :: rng => .co_yield x (to_generator rng)

/-- The depth-first flattening: `elements_of` behaves as a nested loop over the
elements the leaf still has, and a throwing coroutine is cut at its throw point
while its owner goes on after its `elements_of`. -/
def flatten : Body V E → List (Event V E)
  | .co_return => []
  | .co_yield value rest => .value value :: rest.flatten
  | .co_await rest => rest.flatten
  | .throw ex => [.exception ex]
  | .elements_of_empty rest => rest.flatten
  | .elements_of leaf pulls rest => leaf.flatten.drop pulls ++ rest.flatten
  | .elements_of_range rng rest => rng.map .value ++ rest.flatten

/-- The elements of a tree that does not throw, as if every `elements_of` were a
nested loop over the elements the leaf still has. -/
def elements : Body V Empty → List V
  | .co_return => []
  | .co_yield value rest => value :: rest.elements
  | .co_await rest => rest.elements
  | .elements_of_empty rest => rest.elements
  | .elements_of leaf pulls rest => leaf.elements.drop pulls ++ rest.elements
  | .elements_of_range rng rest => rng ++ rest.elements

/-- The coroutine itself ends with an exception, not one of its leaves. -/
def throws : Body V E → Bool
  | .co_return => false
  | .throw _ => true
  | .co_yield _ rest | .co_await rest | .elements_of_empty rest
  | .elements_of _ _ rest | .elements_of_range _ rest => rest.throws

/-- Work left in a body; every step of a coroutine decreases it. -/
def size : Body V E → Nat
  | .co_return => 1
  | .co_yield _ rest => rest.size + 1
  | .co_await rest => rest.size + 1
  | .throw _ => 1
  | .elements_of_empty rest => rest.size + 1
  | .elements_of leaf pulls rest => leaf.size + rest.size + 2 * pulls + 2
  | .elements_of_range rng rest => rng.length + rest.size + 2

theorem size_pos (b : Body V E) : 0 < b.size := by
  cases b <;> simp only [size] <;> omega

@[simp] theorem flatten_to_generator (rng : List V) :
    (to_generator rng : Body V E).flatten = rng.map .value := by
  induction rng with
  | nil => rfl
  | cons x rng ih => simp only [to_generator, flatten, ih, List.map_cons]

@[simp] theorem size_to_generator (rng : List V) :
    (to_generator rng : Body V E).size = rng.length + 1 := by
  induction rng with
  | nil => rfl
  | cons x rng ih => simp only [to_generator, size, ih, List.length_cons]

theorem flatten_eq_elements (b : Body V Empty) : b.flatten = b.elements.map .value := by
  induction b with
  | co_return => rfl
  | co_yield value rest ih => simp only [flatten, elements, ih, List.map_cons]
  | co_await rest ih => exact ih
  | throw ex => exact ex.elim
  | elements_of_empty rest ih => exact ih
  | elements_of leaf pulls rest ihl ih => simp only [flatten, elements, ihl, ih, List.map_append, List.map_drop]
  | elements_of_range rng rest ih => simp only [flatten, elements, ih, List.map_append]

theorem throws_eq_false (b : Body V Empty) : b.throws = false := by
  induction b with
  | throw ex => exact ex.elim
  | co_return => rfl
  | co_yield _ _ ih | co_await _ ih | elements_of_empty _ ih | elements_of_range _ _ ih => exact ih
  | elements_of _ _ _ _ ih => exact ih

/-- A coroutine that has to throw delivers its exception last. -/
theorem flatten_getLast_of_throws {b : Body V E} (h : b.throws = true) :
    ∃ ex, b.flatten.getLast? = some (.exception ex) := by
  induction b with
  | co_return => simp [throws] at h
  | co_yield value rest ih =>
    obtain ⟨ex, hlast⟩ := ih h
    exact ⟨ex, by simp [flatten, List.getLast?_cons, hlast]⟩
  | co_await rest ih => exact ih h
  | throw ex => exact ⟨ex, rfl⟩
  | elements_of_empty rest ih => exact ih h
  | elements_of leaf pulls rest _ ih =>
    obtain ⟨ex, hlast⟩ := ih h
    exact ⟨ex, by simp [flatten, List.getLast?_append, hlast]⟩
  | elements_of_range rng rest ih =>
    obtain ⟨ex, hlast⟩ := ih h
    exact ⟨ex, by simp [flatten, List.getLast?_append, hlast]⟩

end Body

end kelcoro.generators_common
