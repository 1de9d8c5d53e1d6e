import Kelcoro.Event.NotifyAll
import Mathlib

namespace kelcoro.event

open kelcoro.lib kelcoro.lib.waiters kelcoro.nonowner_lockfree_stack

/-- Where the `await_suspend` that sets a callback on each of its events is: it
reads `events_` for the event at position `i`, calls `set_callback`, and the job
of `set_callback` subscribes with call `c` on the stack of that event. -/
inductive SuspendPc where
  | read (i : Nat)
  | set_callback (i : Nat)
  | push (i c : Nat)
  | returned
  deriving DecidableEq, Repr

/-- `await_suspend` has read `events_` for position `i`. -/
def SuspendPc.Read (i : Nat) : SuspendPc → Prop
  | .read j => i < j
  | .set_callback j | .push j _ => i ≤ j
  | .returned => True

/-- `await_suspend` has begun to subscribe the callback at position `i`. -/
def SuspendPc.Subscribed (i : Nat) : SuspendPc → Prop
  | .read j | .set_callback j => i < j
  | .push j _ => i ≤ j
  | .returned => True

/-- Events, the `await_suspend` that subscribes to them, and the subscription
that each of its callbacks got. -/
structure Subscriptions (α : Type) (I : Nat → Type) where
  events : (e : Nat) → State α (I e)
  suspend : SuspendPc
  sub : Nat → Option Nat

variable {α : Type} [DecidableEq α] {I : Nat → Type}

/-- The input that callback `i` was resumed with. -/
def Subscriptions.received (s : Subscriptions α I) (ev : Nat → Nat) (i : Nat) : Option (I (ev i)) :=
  (s.sub i).bind (s.events (ev i)).received

namespace Subscriptions

omit [DecidableEq α] in
def construct : Subscriptions α I where
  events := fun _ => event.construct
  suspend := .read 0
  sub := fun _ => none

variable (n : Nat) (ev : Nat → Nat) (s : Subscriptions α I)

def read : Option (Subscriptions α I) :=
  match s.suspend with
  | .read i => some { s with suspend := .set_callback i }
  | _ => none

/-- `std::get<i>(events_).set_callback(...)` with a job whose awaiter is at `v`. -/
def set_callback (v : α) : Option (Subscriptions α I) :=
  match s.suspend with
  | .set_callback i => (subscribe (s.events (ev i)) v).map fun t =>
      { events := Function.update s.events (ev i) t
        suspend := .push i (s.events (ev i)).subscribers.begun
        sub := Function.update s.sub i (some (s.events (ev i)).entered) }
  | _ => none

/-- `set_callback` returns; `n` is the number of events. -/
def next : Option (Subscriptions α I) :=
  match s.suspend with
  | .push i c =>
    if ((s.events (ev i)).subscribers.calls c).pc = .returned then
      some { s with suspend := if i + 1 < n then .read (i + 1) else .returned }
    else none
  | _ => none

/-- What can happen: a step of `await_suspend`, or of anything else with event
`e`, the pushes of the callbacks among them. -/
inductive Action (α : Type) (I : Nat → Type) where
  | read
  | set_callback (v : α)
  | next
  | step (e : Nat) (a : Act α (I e))

def Step (a : Action α I) (s' : Subscriptions α I) : Prop :=
  match a with
  | .read => s.read = some s'
  | .set_callback v => s.set_callback ev v = some s'
  | .next => s.next n ev = some s'
  | .step e a => ∃ t, event.Step (s.events e) a t ∧ s' = { s with events := Function.update s.events e t }

end Subscriptions

/-- A notification with the input has attached subscription `j`. -/
def State.Given {I : Type} (t : State α I) (j : Nat) (x : I) : Prop :=
  ∃ k, .attaches j k ∈ t.log ∧ (t.notifies k).input = some x

/-- What is logged stays so, and so do the inputs of the calls of `notify_all`. -/
theorem kept {I : Type} {t t' : State α I} {a : Act α I} (hstep : event.Step t a t') :
    (∀ e ∈ t.log, e ∈ t'.log) ∧ ∀ k, k < t.taken → (t'.notifies k).input = (t.notifies k).input := by
  cases a with
  | subscribe v =>
    simp only [event.Step, subscribe, Option.ite_none_left_eq_some, Option.map_eq_some_iff] at hstep
    obtain ⟨-, _, -, rfl⟩ := hstep
    exact ⟨fun _ he => he, fun _ _ => rfl⟩
  | push c | push_spurious c =>
    simp only [event.Step, push] at hstep
    split at hstep
    · simp only [Option.map_eq_some_iff] at hstep
      obtain ⟨_, -, rfl⟩ := hstep
      refine ⟨fun e he => ?_, fun _ _ => rfl⟩
      dsimp only
      split
      · exact List.mem_cons_of_mem _ he
      · exact he
    · cases hstep
  | notify_all x =>
    simp only [event.Step, notify_all, Option.map_eq_some_iff] at hstep
    obtain ⟨_, -, rfl⟩ := hstep
    exact ⟨fun _ he => he, fun k hk => by simp [hk.ne]⟩
  | run k =>
    simp only [event.Step, run] at hstep
    split at hstep
    · cases hstep
    · simp only [Option.map_eq_some_iff] at hstep
      obtain ⟨_, -, rfl⟩ := hstep
      split <;> exact ⟨fun e he => List.mem_cons_of_mem _ he, fun l _ => goto_input l _⟩
    · cases hstep
      exact ⟨fun _ he => he, fun l _ => goto_input l _⟩
    · cases hstep
    · cases hstep
      exact ⟨fun _ he => he, fun l _ => goto_input l _⟩
    · cases hstep
      exact ⟨fun _ he => he, fun l _ => goto_input l _⟩
    · cases hstep
    · cases hstep
      exact ⟨fun e he => List.mem_cons_of_mem _ he, fun l _ => goto_input l _⟩
    · cases hstep
  | resume v =>
    simp only [event.Step, resume, Option.ite_none_right_eq_some, Option.some.injEq] at hstep
    obtain ⟨-, rfl⟩ := hstep
    exact ⟨fun _ he => he, fun _ _ => rfl⟩
  | relink v next =>
    simp only [event.Step, relink, Option.ite_none_right_eq_some, Option.map_eq_some_iff] at hstep
    obtain ⟨-, _, -, rfl⟩ := hstep
    exact ⟨fun _ he => he, fun _ _ => rfl⟩
  | overwrite v x =>
    simp only [event.Step, overwrite, Option.ite_none_left_eq_some, Option.some.injEq] at hstep
    obtain ⟨-, rfl⟩ := hstep
    exact ⟨fun _ he => he, fun _ _ => rfl⟩

theorem State.Given.step {I : Type} {t t' : State α I} {a : Act α I} {place : α → Place}
    {lists : Nat → List α} {j : Nat} {x : I} (hgiven : t.Given j x) (h : event.Inv t place lists)
    (hstep : event.Step t a t') : t'.Given j x := by
  obtain ⟨k, hk, hx⟩ := hgiven
  obtain ⟨hlog, hinput⟩ := kept hstep
  exact ⟨k, hlog _ hk, (hinput k (h.attacher j k hk)).trans hx⟩

namespace Subscriptions

/-- A notification with the input has attached the subscription of callback `i`. -/
def Given (s : Subscriptions α I) (ev : Nat → Nat) (i : Nat) (x : I (ev i)) : Prop :=
  ∃ j, s.sub i = some j ∧ (s.events (ev i)).Given j x

structure Inv (n : Nat) (s : Subscriptions α I) : Prop where
  events : ∀ e, ∃ place lists, event.Inv (s.events e) place lists
  bound : ∀ i, s.suspend = .read i ∨ s.suspend = .set_callback i → i < n
  sub : ∀ i, s.sub i ≠ none → i < n ∧ s.suspend.Subscribed i

variable {n : Nat} {ev : Nat → Nat} {s s' : Subscriptions α I}

omit [DecidableEq α] in
theorem construct_inv (hn : 0 < n) : Inv n (construct : Subscriptions α I) where
  events _ := ⟨_, _, event.construct_inv⟩
  bound i hi := by
    obtain rfl : i = 0 := by simpa [construct, eq_comm] using hi
    exact hn
  sub i hi := absurd rfl hi

/-- What steps do to the events: each stays, or does a step of its own. -/
theorem Step.events {a : Action α I} (hstep : Step n ev s a s') (e : Nat) :
    s'.events e = s.events e ∨ ∃ b, event.Step (s.events e) b (s'.events e) := by
  cases a with
  | read =>
    simp only [Step, read] at hstep
    split at hstep
    · cases hstep
      exact Or.inl rfl
    · cases hstep
  | set_callback v =>
    simp only [Step, set_callback] at hstep
    split at hstep
    · rename_i i hpc
      simp only [Option.map_eq_some_iff] at hstep
      obtain ⟨t, ht, rfl⟩ := hstep
      by_cases he : e = ev i
      · subst he
        refine Or.inr ⟨.subscribe v, ?_⟩
        simpa [event.Step] using ht
      · exact Or.inl (Function.update_of_ne he ..)
    · cases hstep
  | next =>
    simp only [Step, next] at hstep
    split at hstep
    · simp only [Option.ite_none_right_eq_some, Option.some.injEq] at hstep
      obtain ⟨-, rfl⟩ := hstep
      exact Or.inl rfl
    · cases hstep
  | step e' b =>
    obtain ⟨t, ht, rfl⟩ := hstep
    by_cases he : e = e'
    · subst he
      exact Or.inr ⟨b, by simpa using ht⟩
    · exact Or.inl (Function.update_of_ne he ..)

/-- What a step does to `await_suspend` and the subscriptions: nothing, it reads
on, subscribes one callback more, or goes to the next one. -/
theorem Step.moves {a : Action α I} (hstep : Step n ev s a s') :
    (s'.suspend = s.suspend ∧ s'.sub = s.sub ∧ a ≠ .read) ∨
      (∃ i, s.suspend = .read i ∧ s'.suspend = .set_callback i ∧ s'.sub = s.sub) ∨
      (∃ i c j, s.suspend = .set_callback i ∧ s'.suspend = .push i c ∧
        s'.sub = Function.update s.sub i (some j) ∧ a ≠ .read) ∨
      ∃ i c, s.suspend = .push i c ∧ s'.sub = s.sub ∧ a ≠ .read ∧
        s'.suspend = if i + 1 < n then .read (i + 1) else .returned := by
  cases a with
  | read =>
    simp only [Step, read] at hstep
    split at hstep
    · rename_i i hpc
      cases hstep
      exact Or.inr (Or.inl ⟨i, hpc, rfl, rfl⟩)
    · cases hstep
  | set_callback v =>
    simp only [Step, set_callback] at hstep
    split at hstep
    · rename_i i hpc
      simp only [Option.map_eq_some_iff] at hstep
      obtain ⟨t, -, rfl⟩ := hstep
      exact Or.inr (Or.inr (Or.inl ⟨i, _, _, hpc, rfl, rfl, by simp⟩))
    · cases hstep
  | next =>
    simp only [Step, next] at hstep
    split at hstep
    · rename_i i c hpc
      simp only [Option.ite_none_right_eq_some, Option.some.injEq] at hstep
      obtain ⟨-, rfl⟩ := hstep
      exact Or.inr (Or.inr (Or.inr ⟨i, c, hpc, rfl, by simp, rfl⟩))
    · cases hstep
  | step e b =>
    obtain ⟨t, -, rfl⟩ := hstep
    exact Or.inl ⟨rfl, rfl, by simp⟩

/-- What `await_suspend` has read it has read. -/
theorem Step.read_kept {a : Action α I} {i : Nat} (hstep : Step n ev s a s')
    (hread : s.suspend.Read i) : s'.suspend.Read i := by
  rcases hstep.moves with ⟨hpc, -, -⟩ | ⟨j, hold, hpc, -⟩ | ⟨j, c, -, hold, hpc, -, -⟩ | ⟨j, c, hold, -, -, hpc⟩
  · rwa [hpc]
  · rw [hold] at hread
    rw [hpc]
    exact Nat.le_of_lt hread
  · rw [hold] at hread
    rwa [hpc]
  · rw [hold] at hread
    rw [hpc]
    split
    · exact Nat.lt_succ_of_le hread
    · trivial

namespace Inv

theorem step (h : Inv n s) {a : Action α I} (hstep : Step n ev s a s') : Inv n s' := by
  have hevents : ∀ e, ∃ place lists, event.Inv (s'.events e) place lists := by
    intro e
    obtain ⟨place, lists, hold⟩ := h.events e
    rcases hstep.events e with hsame | ⟨b, hb⟩
    · rw [hsame]
      exact ⟨place, lists, hold⟩
    · exact hold.step hb
  rcases hstep.moves with ⟨hpc, hsub, -⟩ | ⟨i, hold, hpc, hsub⟩ | ⟨i, c, j, hold, hpc, hsub, -⟩ |
    ⟨i, c, hold, hsub, -, hpc⟩
  · refine ⟨hevents, fun k hk => h.bound k (by rwa [hpc] at hk), fun k hk => ?_⟩
    rw [hpc]
    exact h.sub k (by rwa [hsub] at hk)
  · have hi : i < n := h.bound i (Or.inl hold)
    refine ⟨hevents, fun k hk => ?_, fun k hk => ?_⟩
    · obtain rfl : i = k := by simpa [hpc] using hk
      exact hi
    · have hk' := h.sub k (by rwa [hsub] at hk)
      rw [hold] at hk'
      rw [hpc]
      exact hk'
  · have hi : i < n := h.bound i (Or.inr hold)
    refine ⟨hevents, fun k hk => by simp [hpc] at hk, fun k hk => ?_⟩
    rw [hpc]
    by_cases hki : k = i
    · subst hki
      exact ⟨hi, Nat.le_refl k⟩
    · have hk' := h.sub k (by simpa [hsub, hki] using hk)
      rw [hold] at hk'
      exact ⟨hk'.1, Nat.le_of_lt hk'.2⟩
  · refine ⟨hevents, fun k hk => ?_, fun k hk => ?_⟩
    · rw [hpc] at hk
      split at hk
      · rename_i hi
        obtain rfl : i + 1 = k := by simpa using hk
        exact hi
      · simp at hk
    · have hk' := h.sub k (by rwa [hsub] at hk)
      rw [hold] at hk'
      refine ⟨hk'.1, ?_⟩
      rw [hpc]
      split
      · exact Nat.lt_succ_of_le hk'.2
      · trivial

omit [DecidableEq α] in
/-- A callback is resumed with the input of a notification. -/
theorem given_of_received (h : Inv n s) {i : Nat} {x : I (ev i)} (hx : s.received ev i = some x) :
    s.Given ev i x := by
  obtain ⟨j, hj, hreceived⟩ := Option.bind_eq_some_iff.mp hx
  obtain ⟨place, lists, hevent⟩ := h.events (ev i)
  exact ⟨j, hj, hevent.received j x hreceived⟩

/-- The subscription of a callback stays, with what is known of it. -/
theorem given_kept (h : Inv n s) {a : Action α I} (hstep : Step n ev s a s') {i : Nat} {x : I (ev i)}
    (hgiven : s.Given ev i x) : s'.Given ev i x := by
  obtain ⟨j, hj, hx⟩ := hgiven
  obtain ⟨place, lists, hevent⟩ := h.events (ev i)
  have hsub : s'.sub i = some j := by
    rcases hstep.moves with ⟨-, hsub, -⟩ | ⟨k, -, -, hsub⟩ | ⟨k, c, l, hold, -, hsub, -⟩ | ⟨k, c, -, hsub, -, -⟩
    · rwa [hsub]
    · rwa [hsub]
    · have hne : i ≠ k := by
        rintro rfl
        have hnot := (h.sub i (by simp [hj])).2
        rw [hold] at hnot
        exact lt_irrefl i hnot
      rwa [hsub, Function.update_of_ne hne]
    · rwa [hsub]
  refine ⟨j, hsub, ?_⟩
  rcases hstep.events (ev i) with hsame | ⟨b, hb⟩
  · rwa [hsame]
  · exact hx.step hevent hb

omit [DecidableEq α] in
theorem lt_of_given (h : Inv n s) {i : Nat} {x : I (ev i)} (hgiven : s.Given ev i x) : i < n := by
  obtain ⟨j, hj, -⟩ := hgiven
  exact (h.sub i (by simp [hj])).1

omit [DecidableEq α] in
theorem read_of_given (h : Inv n s) {i : Nat} {x : I (ev i)} (hgiven : s.Given ev i x) :
    s.suspend.Read i := by
  obtain ⟨j, hj, -⟩ := hgiven
  have hsub := (h.sub i (by simp [hj])).2
  cases hpc : s.suspend with
  | set_callback k =>
    rw [hpc] at hsub
    exact Nat.le_of_lt hsub
  | _ =>
    rw [hpc] at hsub
    exact hsub

/-- After the last read of `events_` there is no other. -/
theorem not_read (h : Inv n s) (hread : s.suspend.Read (n - 1)) : ¬ Step n ev s .read s' := by
  intro hstep
  simp only [Step, Subscriptions.read] at hstep
  split at hstep
  · rename_i i hpc
    have hi := h.bound i (Or.inl hpc)
    rw [hpc] at hread
    have hlt : n - 1 < i := hread
    omega
  · cases hstep

end Inv

end Subscriptions

end kelcoro.event
