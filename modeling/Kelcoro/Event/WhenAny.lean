import Kelcoro.Event.SetCallback
import Mathlib

namespace kelcoro.event.when_any

open kelcoro.lib

/-- A callback, by what it does next: the `fetch_add` with its input, the
`emplace`, `handle.resume()`. -/
inductive Callback (V : Type) where
  | waiting
  | emplace (input : V)
  | resume
  | finished
  deriving DecidableEq, Repr

/-- What happens to the awaiter: `await_suspend` reads `events_`, a callback
fires (its `fetch_add`), writes `input`, or resumes the coroutine, which gets
what `input` holds. -/
inductive Entry (I : Nat → Type) (ev : Nat → Nat) where
  | read
  | fired (i : Nat)
  | write (i : Nat)
  | resumed (result : (i : Nat) × I (ev i))

variable {α : Type} [DecidableEq α] {I : Nat → Type} {ev : Nat → Nat}

/-- The order in which callbacks have fired, the last one first. -/
def fired : List (Entry I ev) → List Nat
  | [] => []
  | .fired i :: log => i :: fired log
  | .read :: log | .write _ :: log | .resumed _ :: log => fired log

def first (log : List (Entry I ev)) : Option Nat := (fired log).getLast?

/-- `co_await when_any(events...)` of the events `ev 0`, `ev 1` and so on. -/
structure State (α : Type) (I : Nat → Type) (ev : Nat → Nat) where
  subscriptions : Subscriptions α I
  callbacks : (i : Nat) → Callback (I (ev i))
  count : UInt8
  input : (i : Nat) × I (ev i)
  log : List (Entry I ev)

omit [DecidableEq α] in
def construct [∀ e, Inhabited (I e)] : State α I ev where
  subscriptions := Subscriptions.construct
  callbacks := fun _ => .waiting
  count := 0
  input := ⟨0, default⟩
  log := []

namespace State

def goto (s : State α I ev) (i : Nat) (callback : Callback (I (ev i))) : State α I ev :=
  { s with callbacks := Function.update s.callbacks i callback }

def record (s : State α I ev) (e : Entry I ev) : State α I ev := { s with log := e :: s.log }

end State

/-- The next step of callback `i`. -/
def run (s : State α I ev) (i : Nat) : Option (State α I ev) :=
  match s.callbacks i with
  | .waiting => (s.subscriptions.received ev i).map fun x =>
      let value := s.count
      let s := { s with count := s.count + 1 }.record (.fired i)
      if value = 0 then s.goto i (.emplace x) else s.goto i .finished
  | .emplace x => some (({ s with input := ⟨i, x⟩ }.record (.write i)).goto i .resume)
  | .resume => some ((s.record (.resumed s.input)).goto i .finished)
  | .finished => none

inductive Action (α : Type) (I : Nat → Type) where
  | subscriptions (a : Subscriptions.Action α I)
  | callback (i : Nat)

/-- The step of the subscriptions is logged if it reads `events_`. -/
def State.subscribe (s : State α I ev) (a : Subscriptions.Action α I) (subscriptions : Subscriptions α I) :
    State α I ev :=
  match a with
  | .read => { s with subscriptions := subscriptions }.record .read
  | _ => { s with subscriptions := subscriptions }

def Step (n : Nat) (s : State α I ev) (a : Action α I) (s' : State α I ev) : Prop :=
  match a with
  | .subscriptions a => ∃ t, Subscriptions.Step n ev s.subscriptions a t ∧ s' = s.subscribe a t
  | .callback i => run s i = some s'

/-- The coroutine is not resumed before `await_suspend` has read `events_` for
the last time. -/
def Timely (n : Nat) (s : State α I ev) : Action α I → Prop
  | .subscriptions _ => True
  | .callback i => s.callbacks i = .resume → s.subscriptions.suspend.Read (n - 1)

def TimelyStep (n : Nat) (s : State α I ev) (a : Action α I) (s' : State α I ev) : Prop :=
  Timely n s a ∧ Step n s a s'

/-- What may follow the entries of a log: nobody touches the awaiter after the
coroutine was resumed, which the first callback that fired does. -/
def Follows (log : List (Entry I ev)) : Entry I ev → Prop
  | .read | .write _ => ∀ r, .resumed r ∉ log
  | .fired i => .fired i ∉ log
  | .resumed r => (∀ r', .resumed r' ∉ log) ∧ first log = some r.1

structure Inv (n : Nat) (s : State α I ev) : Prop where
  subscriptions : Subscriptions.Inv n s.subscriptions
  lawful : Lawful Follows s.log
  fired : ∀ i, i ∈ fired s.log ↔ s.callbacks i ≠ .waiting
  bound : ∀ i ∈ when_any.fired s.log, i < n
  nodup : (when_any.fired s.log).Nodup
  count : s.count.toNat = (when_any.fired s.log).length
  others : ∀ i, first s.log ≠ some i → s.callbacks i = .waiting ∨ s.callbacks i = .finished
  emplace : ∀ i x, s.callbacks i = .emplace x → s.subscriptions.Given ev i x ∧ ∀ r, .resumed r ∉ s.log
  resume : ∀ i, s.callbacks i = .resume → s.input.1 = i ∧
    s.subscriptions.Given ev s.input.1 s.input.2 ∧ ∀ r, .resumed r ∉ s.log
  resumed : ∀ r, .resumed r ∈ s.log → s.subscriptions.Given ev r.1 r.2
  finished : ∀ i, first s.log = some i → s.callbacks i = .finished → ∃ r, .resumed r ∈ s.log
  read : ∀ r, .resumed r ∈ s.log → s.subscriptions.suspend.Read (n - 1)

variable {n : Nat} {s s' : State α I ev} {i : Nat}

@[simp] theorem mem_fired {log : List (Entry I ev)} : i ∈ fired log ↔ .fired i ∈ log := by
  induction log with
  | nil => simp [fired]
  | cons e log ih => cases e <;> simp [fired, ih]

theorem first_fired (log : List (Entry I ev)) :
    first (.fired i :: log) = some ((first log).getD i) := by
  simp [first, fired, List.getLast?_cons]

omit [DecidableEq α] in
theorem construct_inv [∀ e, Inhabited (I e)] (hn : 0 < n) : Inv n (construct : State α I ev) := by
  constructor <;> simp [construct, when_any.fired, first]
  exact Subscriptions.construct_inv hn

namespace Inv

omit [DecidableEq α] in
theorem first_zero (h : Inv n s) : s.count = 0 ↔ when_any.fired s.log = [] := by
  rw [← List.length_eq_zero_iff, ← h.count, ← UInt8.toNat_inj]
  rfl

omit [DecidableEq α] in
/-- The counter does not wrap around while there is a callback that has not fired. -/
theorem count_add (h : Inv n s) (hn : n < 256) (hi : i < n) (hnew : i ∉ when_any.fired s.log) :
    (s.count + 1).toNat = (when_any.fired s.log).length + 1 := by
  have hnodup : (i :: when_any.fired s.log).Nodup := List.nodup_cons.mpr ⟨hnew, h.nodup⟩
  have hsubset : i :: when_any.fired s.log ⊆ List.range n := by
    intro j hj
    rcases List.mem_cons.mp hj with rfl | hj
    · exact List.mem_range.mpr hi
    · exact List.mem_range.mpr (h.bound j hj)
  have hle := (hnodup.subperm hsubset).length_le
  rw [List.length_cons, List.length_range, ← h.count] at hle
  rw [UInt8.toNat_add, ← h.count]
  exact Nat.mod_eq_of_lt (show s.count.toNat + 1 < 256 by omega)

/-- A step of `await_suspend`, of an event or of an executor. -/
theorem subscribe (h : Inv n s) {a : Subscriptions.Action α I} {t : Subscriptions α I}
    (hstep : Subscriptions.Step n ev s.subscriptions a t) : Inv n (s.subscribe a t) := by
  have hgiven : ∀ i x, s.subscriptions.Given ev i x → t.Given ev i x := fun i x hx =>
    h.subscriptions.given_kept hstep hx
  have hsubscriptions : (s.subscribe a t).subscriptions = t := by cases a <;> rfl
  have hcallbacks : (s.subscribe a t).callbacks = s.callbacks := by cases a <;> rfl
  have hcount : (s.subscribe a t).count = s.count := by cases a <;> rfl
  have hinput : (s.subscribe a t).input = s.input := by cases a <;> rfl
  have hfired : when_any.fired (s.subscribe a t).log = when_any.fired s.log := by cases a <;> rfl
  have hresumed : ∀ r, .resumed r ∈ (s.subscribe a t).log ↔ .resumed r ∈ s.log := by
    intro r
    cases a <;> simp [State.subscribe, State.record]
  have hlawful : Lawful Follows (s.subscribe a t).log := by
    cases a with
    | read =>
      exact ⟨fun r hr => h.subscriptions.not_read (h.read r hr) hstep, h.lawful⟩
    | _ => exact h.lawful
  constructor
  · rw [hsubscriptions]
    exact h.subscriptions.step hstep
  · exact hlawful
  · rw [hfired, hcallbacks]
    exact h.fired
  · rw [hfired]
    exact h.bound
  · rw [hfired]
    exact h.nodup
  · rw [hfired, hcount]
    exact h.count
  · rw [first, hfired, hcallbacks]
    exact h.others
  · intro i x hi
    rw [hcallbacks] at hi
    rw [hsubscriptions]
    exact ⟨hgiven i x (h.emplace i x hi).1, fun r => (hresumed r).not.mpr ((h.emplace i x hi).2 r)⟩
  · intro i hi
    rw [hcallbacks] at hi
    obtain ⟨heq, hx, hnot⟩ := h.resume i hi
    rw [hsubscriptions, hinput]
    exact ⟨heq, hgiven _ _ hx, fun r => (hresumed r).not.mpr (hnot r)⟩
  · intro r hr
    rw [hsubscriptions]
    exact hgiven _ _ (h.resumed r ((hresumed r).mp hr))
  · intro i hfirst hi
    rw [first, hfired] at hfirst
    rw [hcallbacks] at hi
    obtain ⟨r, hr⟩ := h.finished i hfirst hi
    exact ⟨r, (hresumed r).mpr hr⟩
  · intro r hr
    rw [hsubscriptions]
    exact hstep.read_kept (h.read r ((hresumed r).mp hr))

omit [DecidableEq α] in
/-- A callback fires: the first one is about to resume the coroutine. -/
theorem fires (h : Inv n s) (hn : n < 256) (hwaiting : s.callbacks i = .waiting) {x : I (ev i)}
    (hx : s.subscriptions.received ev i = some x) {callback : Callback (I (ev i))}
    (heq : callback = if s.count = 0 then .emplace x else .finished) :
    Inv n (({ s with count := s.count + 1 }.record (.fired i)).goto i callback) := by
  have hgiven := h.subscriptions.given_of_received hx
  have hi : i < n := h.subscriptions.lt_of_given hgiven
  have hnew : i ∉ when_any.fired s.log := fun hmem => (h.fired i).mp hmem hwaiting
  have hcallback : callback ≠ .waiting ∧ callback ≠ .resume := by
    rw [heq]
    split <;> simp
  have hfirst : first (.fired i :: s.log) = some ((first s.log).getD i) := first_fired s.log
  have hself : (Function.update s.callbacks i callback) i = callback := Function.update_self ..
  have hother : ∀ j, j ≠ i → (Function.update s.callbacks i callback) j = s.callbacks j := fun j hj =>
    Function.update_of_ne hj ..
  -- the counter is zero iff this is the first callback
  have hzero : s.count = 0 ↔ first s.log = none := by
    rw [h.first_zero, first, List.getLast?_eq_none_iff]
  have hnone : first s.log = none → ∀ r, .resumed r ∉ s.log := by
    intro hlog r hr
    obtain ⟨later, earlier, hsplit⟩ := List.append_of_mem hr
    have hfollows := h.lawful.follows hsplit
    have hmem : r.1 ∈ when_any.fired earlier := List.mem_of_getLast? hfollows.2
    have hmem' : r.1 ∈ when_any.fired s.log := by
      rw [mem_fired, hsplit]
      exact List.mem_append_right _ (List.mem_cons_of_mem _ (mem_fired.mp hmem))
    rw [first, List.getLast?_eq_none_iff] at hlog
    rw [hlog] at hmem'
    cases hmem'
  exact { h with
    lawful := ⟨fun hmem => hnew (mem_fired.mpr hmem), h.lawful⟩
    fired := fun j => by
      by_cases hj : j = i
      · subst hj
        simp [State.goto, State.record, hcallback.1]
      · simpa [State.goto, State.record, hj] using h.fired j
    bound := fun j hj => by
      rcases List.mem_cons.mp hj with rfl | hj
      · exact hi
      · exact h.bound j hj
    nodup := List.nodup_cons.mpr ⟨hnew, h.nodup⟩
    count := h.count_add hn hi hnew
    others := fun j hj => by
      have hj' : (first s.log).getD i ≠ j := fun heq' => hj (by rw [← heq']; exact hfirst)
      dsimp only [State.goto, State.record]
      by_cases hji : j = i
      · subst hji
        rw [hself, heq, if_neg]
        · exact Or.inr rfl
        · intro hcount
          rw [hzero.mp hcount] at hj'
          exact hj' rfl
      · rw [hother j hji]
        apply h.others j
        intro hlog
        rw [hlog] at hj'
        exact hj' rfl
    emplace := fun j y hj => by
      dsimp only [State.goto, State.record] at hj ⊢
      by_cases hji : j = i
      · subst hji
        rw [hself, heq] at hj
        split at hj
        · rename_i hcount
          cases hj
          exact ⟨hgiven, fun r hr => hnone (hzero.mp hcount) r (by simpa using hr)⟩
        · cases hj
      · rw [hother j hji] at hj
        exact ⟨(h.emplace j y hj).1, fun r hr => (h.emplace j y hj).2 r (by simpa using hr)⟩
    resume := fun j hj => by
      dsimp only [State.goto, State.record] at hj ⊢
      by_cases hji : j = i
      · subst hji
        rw [hself] at hj
        exact absurd hj hcallback.2
      · rw [hother j hji] at hj
        obtain ⟨hinput, hy, hnot⟩ := h.resume j hj
        exact ⟨hinput, hy, fun r hr => hnot r (by simpa using hr)⟩
    resumed := fun r hr => h.resumed r (by simpa [State.goto, State.record] using hr)
    finished := fun j hj hfinished => by
      dsimp only [State.goto, State.record] at hj hfinished ⊢
      have hj' : (first s.log).getD i = j := Option.some.inj (hfirst.symm.trans hj)
      have hresumed : ∃ r, .resumed r ∈ s.log := by
        cases hlog : first s.log with
        | none =>
          rw [hlog] at hj'
          obtain rfl : i = j := hj'
          rw [hself, heq, if_pos (hzero.mpr hlog)] at hfinished
          cases hfinished
        | some k =>
          rw [hlog] at hj'
          obtain rfl : k = j := hj'
          have hki : k ≠ i := by
            rintro rfl
            exact hnew (List.mem_of_getLast? hlog)
          rw [hother k hki] at hfinished
          exact h.finished k hlog hfinished
      obtain ⟨r, hr⟩ := hresumed
      exact ⟨r, List.mem_cons_of_mem _ hr⟩
    read := fun r hr => h.read r (by simpa [State.goto, State.record] using hr) }

omit [DecidableEq α] in
/-- A callback that has something left to do was the first one. -/
theorem first_of_busy (h : Inv n s) (hwaiting : s.callbacks i ≠ .waiting)
    (hfinished : s.callbacks i ≠ .finished) : first s.log = some i := by
  by_contra hne
  rcases h.others i hne with hi | hi
  · exact hwaiting hi
  · exact hfinished hi

omit [DecidableEq α] in
theorem writes (h : Inv n s) {x : I (ev i)} (hpc : s.callbacks i = .emplace x) :
    Inv n (({ s with input := ⟨i, x⟩ }.record (.write i)).goto i .resume) := by
  have hfirst : first s.log = some i := h.first_of_busy (by simp [hpc]) (by simp [hpc])
  obtain ⟨hgiven, hnot⟩ := h.emplace i x hpc
  have hother : ∀ j, j ≠ i → (Function.update s.callbacks i .resume) j = s.callbacks j := fun j hj =>
    Function.update_of_ne hj ..
  exact { h with
    lawful := ⟨hnot, h.lawful⟩
    fired := fun j => by
      by_cases hj : j = i
      · subst hj
        simpa [State.goto, State.record, when_any.fired, hpc] using h.fired j
      · simpa [State.goto, State.record, when_any.fired, hj] using h.fired j
    others := fun j hj => by
      have hji : j ≠ i := by
        rintro rfl
        exact hj hfirst
      dsimp only [State.goto, State.record]
      rw [hother j hji]
      exact h.others j hj
    emplace := fun j y hj => by
      dsimp only [State.goto, State.record] at hj ⊢
      by_cases hji : j = i
      · subst hji
        simp at hj
      · rw [hother j hji] at hj
        exact ⟨(h.emplace j y hj).1, fun r hr => hnot r (by simpa using hr)⟩
    resume := fun j hj => by
      dsimp only [State.goto, State.record] at hj ⊢
      by_cases hji : j = i
      · exact ⟨hji.symm, hgiven, fun r hr => hnot r (by simpa using hr)⟩
      · rw [hother j hji] at hj
        have hfirst' := h.first_of_busy (i := j) (by simp [hj]) (by simp [hj])
        exact absurd (Option.some.inj (hfirst'.symm.trans hfirst)) hji
    resumed := fun r hr => h.resumed r (by simpa [State.goto, State.record] using hr)
    finished := fun j hj hfinished => by
      obtain rfl : i = j := Option.some.inj (hfirst.symm.trans hj)
      simp [State.goto, State.record] at hfinished
    read := fun r hr => h.read r (by simpa [State.goto, State.record] using hr) }

omit [DecidableEq α] in
theorem resumes (h : Inv n s) (hpc : s.callbacks i = .resume)
    (hread : s.subscriptions.suspend.Read (n - 1)) :
    Inv n ((s.record (.resumed s.input)).goto i .finished) := by
  have hfirst : first s.log = some i := h.first_of_busy (by simp [hpc]) (by simp [hpc])
  obtain ⟨hinput, hgiven, hnot⟩ := h.resume i hpc
  have hother : ∀ j, j ≠ i → (Function.update s.callbacks i .finished) j = s.callbacks j := fun j hj =>
    Function.update_of_ne hj ..
  have hbusy : ∀ j, (Function.update s.callbacks i .finished) j ≠ .waiting →
      (Function.update s.callbacks i .finished) j = .finished := by
    intro j hj
    by_cases hji : j = i
    · subst hji
      simp
    · rw [hother j hji] at hj ⊢
      by_contra hfinished
      exact hji (Option.some.inj ((h.first_of_busy hj hfinished).symm.trans hfirst))
  exact { h with
    lawful := ⟨⟨hnot, by rw [hfirst, hinput]⟩, h.lawful⟩
    fired := fun j => by
      by_cases hj : j = i
      · subst hj
        simpa [State.goto, State.record, when_any.fired, hpc] using h.fired j
      · simpa [State.goto, State.record, when_any.fired, hj] using h.fired j
    others := fun j _ => by
      by_cases hj : (Function.update s.callbacks i .finished) j = .waiting
      · exact Or.inl hj
      · exact Or.inr (hbusy j hj)
    emplace := fun j y hj => by
      dsimp only [State.goto, State.record] at hj
      have hfinished := hbusy j (by simp [hj])
      cases hj.symm.trans hfinished
    resume := fun j hj => by
      dsimp only [State.goto, State.record] at hj
      have hfinished := hbusy j (by simp [hj])
      cases hj.symm.trans hfinished
    resumed := fun r hr => by
      rcases List.mem_cons.mp hr with heq | hr
      · cases heq
        exact hgiven
      · exact h.resumed r hr
    finished := fun _ _ _ => ⟨s.input, List.mem_cons_self ..⟩
    read := fun _ _ => hread }

theorem step (h : Inv n s) (hn : n < 256) {a : Action α I} (hstep : TimelyStep n s a s') : Inv n s' := by
  obtain ⟨htimely, hstep⟩ := hstep
  cases a with
  | subscriptions a =>
    obtain ⟨t, ht, rfl⟩ := hstep
    exact h.subscribe ht
  | callback i =>
    simp only [Step, run] at hstep
    split at hstep
    · rename_i hpc
      simp only [Option.map_eq_some_iff] at hstep
      obtain ⟨x, hx, hstep⟩ := hstep
      split at hstep
      · rename_i hzero
        subst hstep
        exact h.fires hn hpc hx (by rw [if_pos hzero])
      · rename_i hzero
        subst hstep
        exact h.fires hn hpc hx (by rw [if_neg hzero])
    · rename_i x hpc
      cases hstep
      exact h.writes hpc
    · rename_i hpc
      cases hstep
      exact h.resumes hpc (htimely hpc)
    · cases hstep

end Inv

end kelcoro.event.when_any
