import Kelcoro.GeneratorsCommon.Body

namespace kelcoro.generators_common

variable {V E : Type}

/-- What is left of a coroutine object: the bodies of its chain, innermost first,
or `none` once the top coroutine has finished. -/
abbrev Remaining (V E : Type) := Option (List (Body V E))

namespace Remaining

def pending : Remaining V E → List (Event V E)
  | none => []
  | some bs => bs.flatMap Body.flatten

/-- The top coroutine itself will end with an exception. -/
def top_throws : Remaining V E → Bool
  | none => false
  | some bs => bs.getLast?.any Body.throws

def work : Remaining V E → Nat
  | none => 0
  | some bs => (bs.map Body.size).sum

@[simp] theorem pending_cons (b : Body V E) (bs : List (Body V E)) :
    pending (some (b :: bs)) = b.flatten ++ pending (some bs) := List.flatMap_cons

@[simp] theorem pending_nil : pending (some ([] : List (Body V E))) = [] := rfl

@[simp] theorem pending_append (lbs bs : List (Body V E)) :
    pending (some (lbs ++ bs)) = pending (some lbs) ++ pending (some bs) := List.flatMap_append

@[simp] theorem work_nil : work (some ([] : List (Body V E))) = 0 := rfl

@[simp] theorem work_cons (b : Body V E) (bs : List (Body V E)) :
    work (some (b :: bs)) = b.size + work (some bs) := by
  simp only [work, List.map_cons, List.sum_cons]

@[simp] theorem work_append (lbs bs : List (Body V E)) :
    work (some (lbs ++ bs)) = work (some lbs) + work (some bs) := by
  simp only [work, List.map_append, List.sum_append]

@[simp] theorem top_throws_singleton (b : Body V E) : top_throws (some [b]) = b.throws := rfl

theorem top_throws_cons (b : Body V E) {bs : List (Body V E)} (hbs : bs ≠ []) :
    top_throws (some (b :: bs)) = top_throws (some bs) := by
  obtain ⟨c, bs, rfl⟩ := List.exists_cons_of_ne_nil hbs
  simp only [top_throws, List.getLast?_cons_cons]

theorem top_throws_append (lbs : List (Body V E)) {bs : List (Body V E)} (hbs : bs ≠ []) :
    top_throws (some (lbs ++ bs)) = top_throws (some bs) := by
  induction lbs with
  | nil => rfl
  | cons b lbs ih =>
    rw [List.cons_append, top_throws_cons b (by simp [hbs]), ih]

/-- Replacing the innermost body by one that throws in the same case. -/
theorem top_throws_head {b c : Body V E} (hbc : b.throws = c.throws) (bs : List (Body V E)) :
    top_throws (some (b :: bs)) = top_throws (some (c :: bs)) := by
  cases bs with
  | nil => exact hbc
  | cons d bs =>
    rw [top_throws_cons b (List.cons_ne_nil d bs), top_throws_cons c (List.cons_ne_nil d bs)]

theorem pending_getLast_of_top_throws {st : Remaining V E} (h : top_throws st = true) :
    ∃ ex, (pending st).getLast? = some (.exception ex) := by
  cases st with
  | none => simp [top_throws] at h
  | some bs =>
    induction bs with
    | nil => simp [top_throws] at h
    | cons b bs ih =>
      cases bs with
      | nil =>
        obtain ⟨ex, hlast⟩ := Body.flatten_getLast_of_throws h
        exact ⟨ex, by simpa using hlast⟩
      | cons c bs =>
        rw [top_throws_cons b (by simp)] at h
        obtain ⟨ex, hlast⟩ := ih h
        exact ⟨ex, by rw [pending_cons, List.getLast?_append, hlast, Option.some_or]⟩

theorem pending_ne_nil_of_top_throws (st : Remaining V E) (h : top_throws st = true) : pending st ≠ [] := by
  obtain ⟨ex, hlast⟩ := pending_getLast_of_top_throws h
  intro hnil
  rw [hnil] at hlast
  cases hlast

/-- A step that delivers nothing to the consumer. -/
structure Silent (st st' : Remaining V E) : Prop where
  events : pending st' = pending st
  top : top_throws st' = top_throws st
  less : work st' < work st

/-- One request was answered. An object is over only when the answer was its
end, or the exception of the top coroutine itself. -/
structure Took (st st' : Remaining V E) : Prop where
  events : pending st' = (pending st).tail
  ended : st' = none ↔ pending st = [] ∨ (pending st).length = 1 ∧ top_throws st = true
  top : st' ≠ none → top_throws st' = top_throws st
  less : work st' ≤ work st

theorem Took.of_silent {st st₁ st' : Remaining V E} (hs : Silent st st₁) (ht : Took st₁ st') :
    Took st st' where
  events := by rw [ht.events, hs.events]
  ended := by rw [ht.ended, hs.events, hs.top]
  top h := (ht.top h).trans hs.top
  less := Nat.le_trans ht.less (Nat.le_of_lt hs.less)

namespace Silent

theorem leaf_return {bs : List (Body V E)} (hbs : bs ≠ []) :
    Silent (some (.co_return :: bs)) (some bs) where
  events := by simp [Body.flatten]
  top := (top_throws_cons _ hbs).symm
  less := by simp [Body.size]

theorem co_await (rest : Body V E) (bs : List (Body V E)) :
    Silent (some (.co_await rest :: bs)) (some (rest :: bs)) where
  events := by simp [Body.flatten]
  top := top_throws_head (by rfl) bs
  less := by simp only [work_cons, Body.size]; omega

theorem elements_of_empty (rest : Body V E) (bs : List (Body V E)) :
    Silent (some (.elements_of_empty rest :: bs)) (some (rest :: bs)) where
  events := by simp [Body.flatten]
  top := top_throws_head (by rfl) bs
  less := by simp only [work_cons, Body.size]; omega

/-- The leaf takes the place of its `elements_of` with whatever its holder has
left of it; a leaf that is over takes no place at all. -/
theorem elements_of {leaf : Body V E} {pulls : Nat} {rest : Body V E} {bs lbs : List (Body V E)}
    (hpending : pending (some lbs) = leaf.flatten.drop pulls)
    (hwork : work (some lbs) ≤ leaf.size) :
    Silent (some (.elements_of leaf pulls rest :: bs)) (some (lbs ++ rest :: bs)) where
  events := by simp only [pending_append, pending_cons, Body.flatten, hpending, List.append_assoc]
  top := by
    rw [top_throws_append lbs (by simp)]
    exact top_throws_head (by rfl) bs
  less := by simp only [work_append, work_cons, Body.size]; omega

theorem elements_of_range {rng : List V} {rest : Body V E} {bs lbs : List (Body V E)}
    (hpending : pending (some lbs) = rng.map .value) (hwork : work (some lbs) ≤ rng.length + 1) :
    Silent (some (.elements_of_range rng rest :: bs)) (some (lbs ++ rest :: bs)) where
  events := by simp only [pending_append, pending_cons, Body.flatten, hpending, List.append_assoc]
  top := by
    rw [top_throws_append lbs (by simp)]
    exact top_throws_head (by rfl) bs
  less := by simp only [work_append, work_cons, Body.size]; omega

end Silent

namespace Took

theorem top_return : Took (some [.co_return] : Remaining V E) none where
  events := by simp [Remaining.pending, Body.flatten]
  ended := by simp [Remaining.pending, Body.flatten]
  top h := absurd rfl h
  less := Nat.zero_le _

theorem top_throw (ex : E) : Took (some [.throw ex] : Remaining V E) none where
  events := by simp [Remaining.pending, Body.flatten]
  ended := by simp [Remaining.pending, Body.flatten, Body.throws]
  top h := absurd rfl h
  less := Nat.zero_le _

/-- The exception of a leaf cuts the leaf only. -/
theorem leaf_throw (ex : E) {bs : List (Body V E)} (hbs : bs ≠ []) :
    Took (some (.throw ex :: bs)) (some bs) where
  events := by simp [Body.flatten]
  ended := by
    have hthrows := top_throws_cons (.throw ex) hbs
    have hne := pending_ne_nil_of_top_throws (some bs)
    simp only [pending_cons, Body.flatten, List.cons_append, List.nil_append, List.length_cons,
      Nat.add_eq_right, List.length_eq_zero_iff, hthrows]
    constructor
    · simp
    · rintro (h | ⟨hnil, h⟩)
      · cases h
      · exact absurd hnil (hne h)
  top _ := (top_throws_cons _ hbs).symm
  less := by simp

theorem co_yield (v : V) (rest : Body V E) (bs : List (Body V E)) :
    Took (some (.co_yield v rest :: bs)) (some (rest :: bs)) where
  events := by simp [Body.flatten]
  ended := by
    have hthrows := top_throws_head (b := .co_yield v rest) (c := rest) rfl bs
    have hne := pending_ne_nil_of_top_throws (some (rest :: bs))
    simp only [pending_cons] at hne
    simp only [pending_cons, Body.flatten, List.cons_append, List.length_cons, Nat.add_eq_right,
      List.length_eq_zero_iff, hthrows]
    constructor
    · simp
    · rintro (h | ⟨hnil, h⟩)
      · cases h
      · exact absurd hnil (hne h)
  top _ := (top_throws_head (by rfl) bs).symm
  less := by simp only [work_cons, Body.size]; omega

end Took

end Remaining

end kelcoro.generators_common
