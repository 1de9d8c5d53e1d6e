import Kelcoro.Generator.Resume

namespace kelcoro.generator

open kelcoro.generators_common kelcoro.lib Remaining

/-- What a consumer asks of a generator: `begin()`, which starts the iteration
or takes it up again after a break, or `++` on an iterator. -/
inductive Request where
  | begin
  | increment
  deriving DecidableEq, Repr

/-- What a consumer sees after a request. -/
structure Observation (V E : Type) where
  outcome : Outcome E
  value : Option V
  at_end : Bool
  empty : Bool
  deriving DecidableEq, Repr

section

variable {V E : Type} (nothing : Bool)

def request (n : Nat) (h : GeneratorHeap V E) (i : Nat) :
    Request → Option (GeneratorHeap V E × Outcome E)
  | .begin => begin nothing n h i
  | .increment => increment nothing n h i

def observe (h : GeneratorHeap V E) (i : Nat) (outcome : Outcome E) : Option (Observation V E) := do
  let at_end ← equals_end nothing h i
  let empty ← empty h (.object i)
  some { outcome, value := dereference nothing h i, at_end, empty }

def iterate (n : Nat) (h : GeneratorHeap V E) (i : Nat) :
    List Request → Option (GeneratorHeap V E × List (Observation V E))
  | [] => some (h, [])
  | r :: requests => do
    let (h, outcome) ← request nothing n h i r
    let o ← observe nothing h i outcome
    let (h, os) ← iterate n h i requests
    some (h, o :: os)

/-- A consumer calls a generator function and iterates what it got. -/
def consume (n : Nat) (h : GeneratorHeap V E) (body : Body V E) (requests : List Request) :
    Option (GeneratorHeap V E × List (Observation V E)) := do
  let (h, i) := h.new_object
  let h ← create nothing h body (.object i)
  iterate nothing n h i requests

/-- What the next request shows of a stream whose top coroutine ends with an
exception (`top`) or not. -/
def expected (top : Bool) : List (Event V E) → Observation V E
  | [] => { outcome := .returned, value := none, at_end := true, empty := true }
  | .value v :: _ =>
    { outcome := .returned, value := if nothing then none else some v, at_end := false, empty := false }
  | .exception ex :: rest =>
    let last := rest.isEmpty && top
    { outcome := .threw ex, value := none, at_end := !nothing || last, empty := last }

end

section runs

variable {V E : Type} {nothing : Bool} {h : GeneratorHeap V E} {own : Set FrameId} {i : Nat} {t : FrameId}
  {st : Remaining V E}

/-- `++` is `begin()` on a generator that is not empty. -/
theorem increment_eq_begin (n : Nat) (hempty : empty h (.object i) = some false) :
    increment nothing n h i = begin nothing n h i := by
  simp only [begin, begin_with, hempty, Option.bind_eq_bind, Option.bind_some, Bool.false_eq_true, ↓reduceIte,
    increment]

/-- After a request the object is over exactly when this was to be expected. -/
theorem took_isNone (nothing : Bool) {st' : Remaining V E} (htook : Took st st') :
    st'.isNone = (expected nothing (top_throws st) (pending st)).empty := by
  have hlast : top_throws st = true → ∃ ex, (pending st).getLast? = some (.exception ex) :=
    pending_getLast_of_top_throws
  rw [Bool.eq_iff_iff, Option.isNone_iff_eq_none, htook.ended]
  cases hpending : pending st with
  | nil => simp [expected]
  | cons e rest =>
    rw [hpending] at hlast
    cases e with
    | exception ex => simp [expected]
    | value v =>
      simp only [expected, Bool.false_eq_true, iff_false, reduceCtorEq, false_or, not_and, List.length_cons,
        Nat.add_eq_right, List.length_eq_zero_iff]
      rintro rfl htop
      obtain ⟨ex, hex⟩ := hlast htop
      cases hex

theorem observe_spec {h' : GeneratorHeap V E} {st' : Remaining V E}
    (hreq : Requested nothing h h' own i t st st') (htop : (h.objects i).top = some t) :
    observe nothing h' i (outcome (pending st)) = some (expected nothing (top_throws st) (pending st)) := by
  have hr := hreq.represents htop
  obtain ⟨q, hq, hdone⟩ := hr.delivers.leaf_tree.frame
  rw [took_isNone nothing hreq.took] at hdone
  have hempty : empty h' (.object i) = some st'.isNone := hr.delivers.leaf_tree.empty_eq hr.top
  rw [took_isNone nothing hreq.took] at hempty
  simp only [observe, equals_end, dereference, hempty, hr.top, Option.bind_eq_bind, Option.bind_some,
    hq, hdone, Option.map_some]
  cases nothing with
  | true => rcases hpending : pending st with _ | ⟨_ | _, rest⟩ <;> simp [expected, outcome]
  | false =>
    simp only [hreq.current rfl]
    rcases hpending : pending st with _ | ⟨_ | _, rest⟩ <;> simp [expected, outcome, current]

/-- `++` is called only on the iterator of a generator that is not empty. -/
def Allowed (st : Remaining V E) (requests : List Request) : Prop :=
  ∀ k, requests[k]? = some .increment → st ≠ none ∧ k + (top_throws st).toNat ≤ (pending st).length

theorem Allowed.tail {r : Request} {requests : List Request} {st' : Remaining V E}
    (ha : Allowed st (r :: requests)) (htook : Took st st') : Allowed st' requests := by
  intro k hk
  obtain ⟨-, hle⟩ := ha (k + 1) (by simpa using hk)
  have hne : st' ≠ none := by
    rw [ne_eq, htook.ended]
    rintro (hnil | ⟨hone, htop⟩)
    · rw [hnil, List.length_nil] at hle
      omega
    · rw [htop, hone, Bool.toNat_true] at hle
      omega
  refine ⟨hne, ?_⟩
  rw [htook.top hne, htook.events, List.length_tail]
  omega

theorem request_spec {r : Request} {requests : List Request} {j : Nat} (ha : Allowed st (r :: requests))
    (hd : Delivers nothing h own i t st) (htop : (h.objects j).top = some t) (hj : j < h.next_object) :
    ∃ h' st', Returns (fun n => request nothing n h j r) (h', outcome (pending st)) ∧
      Requested nothing h h' own i t st st' := by
  obtain ⟨h', st', hret, hreq⟩ := begin_with_spec (resume_spec (work st)) hd htop hj le_rfl
  refine ⟨h', st', hret.congr fun n => ?_, hreq⟩
  cases r with
  | begin => rfl
  | increment =>
    obtain ⟨hne, -⟩ := ha 0 rfl
    refine increment_eq_begin n ?_
    rw [hd.leaf_tree.empty_eq htop, Option.isNone_eq_false_iff.mpr (Option.isSome_iff_ne_none.mpr hne)]

theorem expected_tail (nothing : Bool) {st' : Remaining V E} (htook : Took st st') (k : Nat) :
    expected nothing (top_throws st') ((pending st').drop k) =
      expected nothing (top_throws st) ((pending st).drop (k + 1)) := by
  have hdrop : (pending st').drop k = (pending st).drop (k + 1) := by rw [htook.events, List.drop_tail]
  by_cases hne : st' = none
  · subst hne
    have hnil : (pending st).drop (k + 1) = [] := by rw [← hdrop, pending, List.drop_nil]
    rw [hdrop, hnil, expected, expected]
  · rw [hdrop, htook.top hne]

/-- The `k`-th request shows what is left of the stream after `k` requests. -/
theorem iterate_spec {requests : List Request} (ha : Allowed st requests)
    (hr : Represents nothing h own i t st) :
    ∃ h', Returns (fun n => iterate nothing n h i requests)
      (h', (List.range requests.length).map fun k =>
        expected nothing (top_throws st) ((pending st).drop k)) ∧ OthersKept h h' i := by
  induction requests generalizing h own st with
  | nil => exact ⟨h, .const rfl, fun _ _ _ => rfl⟩
  | cons r requests ih =>
    obtain ⟨h₁, st₁, hret₁, hreq⟩ := request_spec ha hr.delivers hr.top hr.delivers.bounded
    obtain ⟨h₂, hret₂, hothers⟩ := ih (ha.tail hreq.took) (hreq.represents hr.top)
    have hrest : (fun k => expected nothing (top_throws st₁) ((pending st₁).drop k)) =
        (fun k => expected nothing (top_throws st) ((pending st).drop k)) ∘ Nat.succ :=
      funext fun k => expected_tail nothing hreq.took k
    obtain ⟨b₁, hret₁⟩ := hret₁
    obtain ⟨b₂, hret₂⟩ := hret₂
    refine ⟨h₂, ⟨max b₁ b₂, fun n hn => ?_⟩, hreq.others.trans hreq.framed hothers⟩
    simp only [iterate, hret₁ n (by omega), hret₂ n (by omega), observe_spec hreq hr.top, Option.bind_eq_bind,
      Option.bind_some, List.length_cons, List.range_succ_eq_map, List.map_cons, List.map_map, List.drop_zero,
      hrest]

/-- Every consumer of a generator function, from any state of the program. -/
theorem consume_spec (nothing : Bool) (h : GeneratorHeap V E) (body : Body V E) (requests : List Request)
    (ha : Allowed (some [body]) requests) :
    ∃ h', Returns (fun n => consume nothing n h body requests)
      (h', (List.range requests.length).map fun k => expected nothing body.throws (body.flatten.drop k)) := by
  obtain ⟨h₁, hcreate, hframe, -, hobjects, hnf, hno⟩ :=
    create_object_spec nothing h.new_object.1 body h.next_object
  have htop : (h₁.objects h.next_object).top = some h.next_frame := by
    rw [hobjects, Function.update_self]
    rfl
  have hr : Represents nothing h₁ {h.next_frame} h.next_object h.next_frame (some [body]) := by
    refine ⟨⟨h.next_frame, [], ⟨_, Tree.single hframe rfl rfl rfl rfl ?_, fun hn => ?_⟩, .of_none hframe rfl rfl,
      (Nat.lt_succ_self _).trans_eq hno.symm⟩, htop⟩
    · rintro x rfl
      exact hnf ▸ Nat.lt_succ_self _
    · simp only [started, hn, Bool.false_eq_true, ↓reduceIte]
  obtain ⟨h₂, hret, -⟩ := iterate_spec ha hr
  refine ⟨h₂, ?_⟩
  simp only [pending_cons, pending_nil, List.append_nil, top_throws_singleton] at hret
  refine hret.congr fun n => ?_
  change (create nothing h.new_object.1 body (.object h.next_object)).bind _ = _
  rw [hcreate, Option.bind_some]

end runs

/-- What a request shows when `element` is the next one the stream has. -/
def shown {V : Type} (nothing : Bool) : Option V → Observation V Empty
  | some v =>
    { outcome := .returned, value := if nothing then none else some v, at_end := false, empty := false }
  | none => { outcome := .returned, value := none, at_end := true, empty := true }

/-- A stream that does not throw shows its elements. -/
theorem expected_elements {V : Type} (nothing : Bool) (body : Body V Empty) (k : Nat) :
    expected nothing body.throws (body.flatten.drop k) = shown nothing body.elements[k]? := by
  rw [body.throws_eq_false, body.flatten_eq_elements, ← List.map_drop, ← List.head?_drop]
  cases body.elements.drop k <;> rfl

/-- Iterating a tree of generators that do not throw shows its elements in the
order of nested loops, one for each request, and then the end. Requests are any
sequence of `begin()` and `++`, so iteration may stop and start again anywhere. -/
theorem consumer_observes_elements {V : Type} (nothing : Bool) (h : GeneratorHeap V Empty)
    (body : Body V Empty) (requests : List Request)
    (hallowed : ∀ k, requests[k]? = some .increment → k ≤ body.elements.length) :
    ∃ h', Returns (fun n => consume nothing n h body requests)
      (h', (List.range requests.length).map fun k => shown nothing body.elements[k]?) := by
  simp only [← expected_elements]
  refine consume_spec nothing h body requests fun k hk => ⟨Option.some_ne_none _, ?_⟩
  simpa [body.throws_eq_false, body.flatten_eq_elements] using hallowed k hk

theorem consumer_observes_elements_partly_consumed :
    ∃ h', Returns (fun n => consume false n Heap.initial (.elements_of
        (.co_yield 1 (.elements_of (.co_yield 2 (.co_yield 3 .co_return)) 0 (.co_yield 4 .co_return))) 2
        (.elements_of_range [5] .co_return)) [.begin, .increment, .begin, .increment])
      (h', [shown false (some 3), shown false (some 4), shown false (some 5), shown false none]) := by
  refine consumer_observes_elements false _ _ _ fun k hk => ?_
  rcases k with _ | _ | _ | _ | k <;> simp_all [Body.elements]

end kelcoro.generator
