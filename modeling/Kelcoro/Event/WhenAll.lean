import Kelcoro.Event.SetCallback
import Mathlib

namespace kelcoro.event.when_all

open kelcoro.lib

/-- A callback, by what it does next: with its input it fires and stores it, then
comes the `fetch_add`, and `handle.resume()` if that was the last one. -/
inductive Callback where
  | waiting
  | stored
  | last
  | finished
  deriving DecidableEq, Repr

/-- What happens to the awaiter: `await_suspend` reads `events_`, a callback
fires, writes its part of `input`, increments `count`, or resumes the coroutine,
which gets what `input` holds. -/
inductive Entry (I : Nat → Type) (ev : Nat → Nat) where
  | read
  | fired (i : Nat)
  | write (i : Nat)
  | increment (i : Nat)
  | resumed (result : (i : Nat) → I (ev i))

variable {α : Type} [DecidableEq α] {I : Nat → Type} {ev : Nat → Nat}

/-- `co_await when_all(events...)` of the events `ev 0`, `ev 1` and so on. -/
structure State (α : Type) (I : Nat → Type) (ev : Nat → Nat) where
  subscriptions : Subscriptions α I
  callbacks : Nat → Callback
  count : UInt8
  input : (i : Nat) → I (ev i)
  log : List (Entry I ev)

omit [DecidableEq α] in
def construct [∀ e, Inhabited (I e)] : State α I ev where
  subscriptions := Subscriptions.construct
  callbacks := fun _ => .waiting
  count := 0
  input := fun _ => default
  log := []

namespace State

def goto (s : State α I ev) (i : Nat) (callback : Callback) : State α I ev :=
  { s with callbacks := Function.update s.callbacks i callback }

def record (s : State α I ev) (e : Entry I ev) : State α I ev := { s with log := e :: s.log }

/-- The step of the subscriptions is logged if it reads `events_`. -/
def subscribe (s : State α I ev) (a : Subscriptions.Action α I) (subscriptions : Subscriptions α I) :
    State α I ev :=
  match a with
  | .read => { s with subscriptions := subscriptions }.record .read
  | _ => { s with subscriptions := subscriptions }

end State

/-- The next step of callback `i`, where `n` is the number of events, and `isVoid`
tells which of them are an `event<void>`. -/
def run (n : Nat) (isVoid : Nat → Bool) (s : State α I ev) (i : Nat) : Option (State α I ev) :=
  match s.callbacks i with
  | .waiting => (s.subscriptions.received ev i).map fun x =>
      let s := s.record (.fired i)
      if isVoid (ev i) then s.goto i .stored
      else ({ s with input := Function.update s.input i x }.record (.write i)).goto i .stored
  | .stored =>
    let value := s.count
    let s := { s with count := s.count + 1 }.record (.increment i)
    some (if value.toNat = n - 1 then s.goto i .last else s.goto i .finished)
  | .last => some ((s.record (.resumed s.input)).goto i .finished)
  | .finished => none

inductive Action (α : Type) (I : Nat → Type) where
  | subscriptions (a : Subscriptions.Action α I)
  | callback (i : Nat)

def Step (n : Nat) (isVoid : Nat → Bool) (s : State α I ev) (a : Action α I) (s' : State α I ev) : Prop :=
  match a with
  | .subscriptions a => ∃ t, Subscriptions.Step n ev s.subscriptions a t ∧ s' = s.subscribe a t
  | .callback i => run n isVoid s i = some s'

/-- The callbacks that have incremented the count, the last one first. -/
def incremented : List (Entry I ev) → List Nat
  | [] => []
  | .increment i :: log => i :: incremented log
  | .read :: log | .fired _ :: log | .write _ :: log | .resumed _ :: log => incremented log

/-- What may follow the entries of a log: nothing happens to the awaiter after the
coroutine was resumed, and that needs all callbacks to have fired. -/
def Follows (n : Nat) (log : List (Entry I ev)) (e : Entry I ev) : Prop :=
  (∀ r, .resumed r ∉ log) ∧
    match e with
    | .read | .write _ | .increment _ => True
    | .fired i => .fired i ∉ log
    | .resumed _ => ∀ i, i < n → .fired i ∈ log

structure Inv (n : Nat) (isVoid : Nat → Bool) (s : State α I ev) : Prop where
  subscriptions : Subscriptions.Inv n s.subscriptions
  lawful : Lawful (Follows n) s.log
  fired : ∀ i, .fired i ∈ s.log ↔ s.callbacks i ≠ .waiting
  given : ∀ i, s.callbacks i ≠ .waiting → ∃ x, s.subscriptions.Given ev i x ∧
    (isVoid (ev i) = false → s.input i = x)
  counted : ∀ i, i ∈ incremented s.log ↔ s.callbacks i = .last ∨ s.callbacks i = .finished
  nodup : (incremented s.log).Nodup
  count : s.count.toNat = (incremented s.log).length
  last : ∀ i, s.callbacks i = .last → (incremented s.log).length = n ∧ (∀ r, .resumed r ∉ s.log) ∧
    ∀ j, s.callbacks j = .last → j = i
  resumed : ∀ r, .resumed r ∈ s.log → (incremented s.log).length = n ∧ ∀ i, s.callbacks i ≠ .last
  results : ∀ r, .resumed r ∈ s.log → r = s.input
  finished : (incremented s.log).length = n → (∃ i, s.callbacks i = .last) ∨ ∃ r, .resumed r ∈ s.log

variable {n : Nat} {isVoid : Nat → Bool} {s s' : State α I ev} {i : Nat}

@[simp] theorem mem_incremented {log : List (Entry I ev)} : i ∈ incremented log ↔ .increment i ∈ log := by
  induction log with
  | nil => simp [incremented]
  | cons e log ih => cases e <;> simp [incremented, ih]

omit [DecidableEq α] in
theorem construct_inv [∀ e, Inhabited (I e)] (hn : 0 < n) :
    Inv n isVoid (construct : State α I ev) := by
  constructor <;> simp [construct, incremented, hn.ne]
  exact Subscriptions.construct_inv hn

namespace Inv

omit [DecidableEq α] in
theorem bound (h : Inv n isVoid s) (hi : s.callbacks i ≠ .waiting) : i < n := by
  obtain ⟨x, hx, -⟩ := h.given i hi
  exact h.subscriptions.lt_of_given hx

omit [DecidableEq α] in
/-- The callbacks that have incremented the count are some of the `n`. -/
theorem incremented_subset (h : Inv n isVoid s) : incremented s.log ⊆ List.range n := by
  intro i hi
  apply List.mem_range.mpr
  apply h.bound
  rcases (h.counted i).mp hi with hpc | hpc <;> simp [hpc]

omit [DecidableEq α] in
/-- When `n` callbacks have incremented the count all of them have. -/
theorem all_counted (h : Inv n isVoid s) (hlength : (incremented s.log).length = n) (hi : i < n) :
    s.callbacks i = .last ∨ s.callbacks i = .finished := by
  have hperm := (h.nodup.subperm h.incremented_subset).perm_of_length_le (by simp [hlength])
  exact (h.counted i).mp (hperm.mem_iff.mpr (List.mem_range.mpr hi))

omit [DecidableEq α] in
/-- A callback that has not incremented the count keeps the coroutine suspended. -/
theorem suspended (h : Inv n isVoid s) (hi : i < n) (hlast : s.callbacks i ≠ .last)
    (hfinished : s.callbacks i ≠ .finished) :
    (incremented s.log).length < n ∧ (∀ r, .resumed r ∉ s.log) ∧ ∀ j, s.callbacks j ≠ .last := by
  have hle := (h.nodup.subperm h.incremented_subset).length_le
  have hne : (incremented s.log).length ≠ n := by
    intro hlength
    rcases h.all_counted hlength hi with hpc | hpc
    · exact hlast hpc
    · exact hfinished hpc
  rw [List.length_range] at hle
  exact ⟨by omega, fun r hr => hne (h.resumed r hr).1, fun j hj => hne (h.last j hj).1⟩

/-- A step of `await_suspend`, of an event or of an executor. -/
theorem subscribe (h : Inv n isVoid s) (hn : 0 < n) {a : Subscriptions.Action α I} {t : Subscriptions α I}
    (hstep : Subscriptions.Step n ev s.subscriptions a t) : Inv n isVoid (s.subscribe a t) := by
  have hsubscriptions : (s.subscribe a t).subscriptions = t := by cases a <;> rfl
  have hcallbacks : (s.subscribe a t).callbacks = s.callbacks := by cases a <;> rfl
  have hcount : (s.subscribe a t).count = s.count := by cases a <;> rfl
  have hinput : (s.subscribe a t).input = s.input := by cases a <;> rfl
  have hincremented : incremented (s.subscribe a t).log = incremented s.log := by cases a <;> rfl
  have hfired : ∀ i, .fired i ∈ (s.subscribe a t).log ↔ .fired i ∈ s.log := by
    intro i
    cases a <;> simp [State.subscribe, State.record]
  have hresumed : ∀ r, .resumed r ∈ (s.subscribe a t).log ↔ .resumed r ∈ s.log := by
    intro r
    cases a <;> simp [State.subscribe, State.record]
  have hlawful : Lawful (Follows n) (s.subscribe a t).log := by
    cases a with
    | read =>
      refine ⟨⟨fun r hr => ?_, trivial⟩, h.lawful⟩
      -- the last callback has fired, so that all of them were subscribed
      have hlast : s.callbacks (n - 1) ≠ .waiting := by
        rcases h.all_counted (h.resumed r hr).1 (show n - 1 < n by omega) with hpc | hpc <;> simp [hpc]
      obtain ⟨x, hx, -⟩ := h.given (n - 1) hlast
      exact h.subscriptions.not_read (h.subscriptions.read_of_given hx) hstep
    | _ => exact h.lawful
  constructor
  · rw [hsubscriptions]
    exact h.subscriptions.step hstep
  · exact hlawful
  · intro i
    rw [hfired, hcallbacks]
    exact h.fired i
  · intro i hi
    rw [hcallbacks] at hi
    rw [hsubscriptions, hinput]
    obtain ⟨x, hx, hstored⟩ := h.given i hi
    exact ⟨x, h.subscriptions.given_kept hstep hx, hstored⟩
  · rw [hincremented, hcallbacks]
    exact h.counted
  · rw [hincremented]
    exact h.nodup
  · rw [hincremented, hcount]
    exact h.count
  · rw [hincremented, hcallbacks]
    intro i hi
    obtain ⟨hlength, hnot, hone⟩ := h.last i hi
    exact ⟨hlength, fun r => (hresumed r).not.mpr (hnot r), hone⟩
  · intro r hr
    rw [hincremented, hcallbacks]
    exact h.resumed r ((hresumed r).mp hr)
  · intro r hr
    rw [hinput]
    exact h.results r ((hresumed r).mp hr)
  · rw [hincremented, hcallbacks]
    intro hlength
    rcases h.finished hlength with hlast | ⟨r, hr⟩
    · exact Or.inl hlast
    · exact Or.inr ⟨r, (hresumed r).mpr hr⟩

omit [DecidableEq α] in
/-- A callback fires; unless its event is an `event<void>` its input is stored. -/
theorem fires (h : Inv n isVoid s) (hwaiting : s.callbacks i = .waiting) {x : I (ev i)}
    (hx : s.subscriptions.received ev i = some x) {input : (j : Nat) → I (ev j)}
    (hinput : isVoid (ev i) = false → input i = x) (hother : ∀ j, j ≠ i → input j = s.input j) :
    Inv n isVoid (({ s with input := input }.record (.fired i)).goto i .stored) := by
  have hgiven := h.subscriptions.given_of_received hx
  obtain ⟨hlt, hnot, hlast⟩ := h.suspended (h.subscriptions.lt_of_given hgiven) (by simp [hwaiting])
    (by simp [hwaiting])
  have hnew : .fired i ∉ s.log := fun hmem => (h.fired i).mp hmem hwaiting
  have hself : (Function.update s.callbacks i .stored) i = .stored := Function.update_self ..
  have hsame : ∀ j, j ≠ i → (Function.update s.callbacks i .stored) j = s.callbacks j := fun j hj =>
    Function.update_of_ne hj ..
  have hnone : ∀ j, (Function.update s.callbacks i .stored) j ≠ .last := by
    intro j hj
    by_cases hji : j = i
    · subst hji
      simp at hj
    · exact hlast j ((hsame j hji).symm.trans hj)
  exact { h with
    lawful := ⟨⟨hnot, hnew⟩, h.lawful⟩
    fired := fun j => by
      by_cases hj : j = i
      · subst hj
        simp [State.goto, State.record]
      · simpa [State.goto, State.record, hj] using h.fired j
    given := fun j hj => by
      dsimp only [State.goto, State.record] at hj ⊢
      by_cases hji : j = i
      · subst hji
        exact ⟨x, hgiven, hinput⟩
      · rw [hsame j hji] at hj
        rw [hother j hji]
        exact h.given j hj
    counted := fun j => by
      by_cases hj : j = i
      · subst hj
        simpa [State.goto, State.record, incremented, hwaiting] using h.counted j
      · simpa [State.goto, State.record, incremented, hj] using h.counted j
    last := fun j hj => absurd hj (hnone j)
    resumed := fun r hr => absurd (by simpa [State.goto, State.record] using hr) (hnot r)
    results := fun r hr => absurd (by simpa [State.goto, State.record] using hr) (hnot r)
    finished := fun hlength => absurd hlength hlt.ne }

omit [DecidableEq α] in
theorem writes (h : Inv n isVoid s) (hnot : ∀ r, .resumed r ∉ s.log) :
    Inv n isVoid (s.record (.write i)) := by
  exact { h with
    lawful := ⟨⟨hnot, trivial⟩, h.lawful⟩
    fired := fun j => by simpa [State.record] using h.fired j
    last := fun j hj => by
      obtain ⟨hlength, -, hone⟩ := h.last j hj
      exact ⟨hlength, fun r hr => hnot r (by simpa [State.record] using hr), hone⟩
    resumed := fun r hr => absurd (by simpa [State.record] using hr) (hnot r)
    results := fun r hr => absurd (by simpa [State.record] using hr) (hnot r)
    finished := fun hlength => by simpa [State.record] using h.finished hlength }

omit [DecidableEq α] in
/-- A callback increments the count; the last one is to resume the coroutine. -/
theorem increments (h : Inv n isVoid s) (hn : n < 256) (hstored : s.callbacks i = .stored)
    {callback : Callback} (heq : callback = if s.count.toNat = n - 1 then .last else .finished) :
    Inv n isVoid (({ s with count := s.count + 1 }.record (.increment i)).goto i callback) := by
  have hi : i < n := h.bound (by simp [hstored])
  obtain ⟨hlt, hnot, hlast⟩ := h.suspended hi (by simp [hstored]) (by simp [hstored])
  have hnew : i ∉ incremented s.log := by
    intro hmem
    rcases (h.counted i).mp hmem with hpc | hpc <;> simp [hstored] at hpc
  have hcount : (s.count + 1).toNat = (incremented s.log).length + 1 := by
    have hold := h.count
    rw [UInt8.toNat_add, ← hold]
    exact Nat.mod_eq_of_lt (show s.count.toNat + 1 < 256 by omega)
  have hcallback : callback = .last ∨ callback = .finished := by
    rw [heq]
    split <;> simp
  have hiff : callback = .last ↔ (incremented s.log).length + 1 = n := by
    rw [heq, h.count]
    split
    · exact iff_of_true rfl (by omega)
    · exact iff_of_false (by simp) (by omega)
  have hself : (Function.update s.callbacks i callback) i = callback := Function.update_self ..
  have hsame : ∀ j, j ≠ i → (Function.update s.callbacks i callback) j = s.callbacks j := fun j hj =>
    Function.update_of_ne hj ..
  have hone : ∀ j, (Function.update s.callbacks i callback) j = .last → j = i := by
    intro j hj
    by_contra hji
    exact hlast j ((hsame j hji).symm.trans hj)
  exact { h with
    lawful := ⟨⟨hnot, trivial⟩, h.lawful⟩
    fired := fun j => by
      by_cases hj : j = i
      · subst hj
        have hold := h.fired j
        rw [hstored] at hold
        rcases hcallback with hpc | hpc <;> simpa [State.goto, State.record, hpc] using hold
      · simpa [State.goto, State.record, hj] using h.fired j
    given := fun j hj => by
      by_cases hji : j = i
      · subst hji
        exact h.given j (by simp [hstored])
      · exact h.given j (by rwa [← hsame j hji])
    counted := fun j => by
      by_cases hj : j = i
      · subst hj
        simp [State.goto, State.record, incremented, hcallback]
      · simpa [State.goto, State.record, incremented, hj] using h.counted j
    nodup := List.nodup_cons.mpr ⟨hnew, h.nodup⟩
    count := hcount
    last := fun j hj => by
      dsimp only [State.goto, State.record] at hj ⊢
      obtain rfl := hone j hj
      rw [hself, hiff] at hj
      refine ⟨hj, fun r hr => hnot r (by simpa using hr), hone⟩
    resumed := fun r hr => absurd (by simpa [State.goto, State.record] using hr) (hnot r)
    results := fun r hr => absurd (by simpa [State.goto, State.record] using hr) (hnot r)
    finished := fun hlength => Or.inl ⟨i, hself.trans (hiff.mpr hlength)⟩ }

omit [DecidableEq α] in
theorem resumes (h : Inv n isVoid s) (hpc : s.callbacks i = .last) :
    Inv n isVoid ((s.record (.resumed s.input)).goto i .finished) := by
  obtain ⟨hlength, hnot, hone⟩ := h.last i hpc
  have hfired : ∀ j, j < n → .fired j ∈ s.log := by
    intro j hj
    apply (h.fired j).mpr
    rcases h.all_counted hlength hj with hpc | hpc <;> simp [hpc]
  have hsame : ∀ j, j ≠ i → (Function.update s.callbacks i .finished) j = s.callbacks j := fun j hj =>
    Function.update_of_ne hj ..
  have hnone : ∀ j, (Function.update s.callbacks i .finished) j ≠ .last := by
    intro j hj
    by_cases hji : j = i
    · subst hji
      simp at hj
    · exact hji (hone j ((hsame j hji).symm.trans hj))
  exact { h with
    lawful := ⟨⟨hnot, hfired⟩, h.lawful⟩
    fired := fun j => by
      by_cases hj : j = i
      · subst hj
        simpa [State.goto, State.record, hpc] using h.fired j
      · simpa [State.goto, State.record, hj] using h.fired j
    given := fun j hj => by
      by_cases hji : j = i
      · subst hji
        exact h.given j (by simp [hpc])
      · exact h.given j (by rwa [← hsame j hji])
    counted := fun j => by
      by_cases hj : j = i
      · subst hj
        simpa [State.goto, State.record, incremented, hpc] using h.counted j
      · simpa [State.goto, State.record, incremented, hj] using h.counted j
    last := fun j hj => absurd hj (hnone j)
    resumed := fun r _ => ⟨hlength, hnone⟩
    results := fun r hr => by
      rcases List.mem_cons.mp hr with heq | hr
      · exact Entry.resumed.inj heq
      · exact absurd hr (hnot r)
    finished := fun _ => Or.inr ⟨s.input, List.mem_cons_self ..⟩ }

theorem step (h : Inv n isVoid s) (hn : 0 < n) (hn' : n < 256) {a : Action α I}
    (hstep : Step n isVoid s a s') : Inv n isVoid s' := by
  cases a with
  | subscriptions a =>
    obtain ⟨t, ht, rfl⟩ := hstep
    exact h.subscribe hn ht
  | callback i =>
    simp only [Step, run] at hstep
    split at hstep
    · rename_i hpc
      simp only [Option.map_eq_some_iff] at hstep
      obtain ⟨x, hx, hstep⟩ := hstep
      split at hstep
      · rename_i hvoid
        subst hstep
        exact h.fires hpc hx (fun hnot => by simp [hvoid] at hnot) fun _ _ => rfl
      · subst hstep
        have hfired := h.fires hpc hx (fun _ => Function.update_self i x s.input) fun j hj =>
          Function.update_of_ne hj ..
        apply hfired.writes
        have hsuspended := hfired.suspended (h.subscriptions.lt_of_given (h.subscriptions.given_of_received hx))
        exact (hsuspended (by simp [State.goto]) (by simp [State.goto])).2.1
    · rename_i hpc
      simp only [Option.some.injEq] at hstep
      split at hstep
      · rename_i hlast
        subst hstep
        exact h.increments hn' hpc (by rw [if_pos hlast])
      · rename_i hlast
        subst hstep
        exact h.increments hn' hpc (by rw [if_neg hlast])
    · rename_i hpc
      cases hstep
      exact h.resumes hpc
    · cases hstep

end Inv

theorem inv_of_run [∀ e, Inhabited (I e)] (hn : 1 ≤ n) (hn' : n < 256) {as : List (Action α I)}
    (hrun : Run (Step n isVoid) (construct : State α I ev) as s) : Inv n isVoid s :=
  hrun.invariant (Inv n isVoid) (fun _ _ _ h hstep => h.step hn hn' hstep) (construct_inv hn)

end kelcoro.event.when_all
