import Kelcoro.Gate.Close
import Mathlib

namespace kelcoro.gate

open kelcoro.lib kelcoro.lib.waiters kelcoro.attach_list

variable {α : Type} [DecidableEq α] {s s' : State α} {held : List α} {parts : List (Loop α × List α)}

/-- `close` is not called while the gate is empty and somebody waits for it to
close. -/
def NotMissed (s : State α) : Action α → Prop
  | .close _ => s.active_count = 0 → s.close_waiters.queue.empty = true
  | _ => True

def ServedStep (s : State α) (a : Action α) (s' : State α) : Prop := NotMissed s a ∧ Step s a s'

structure ServedInv (s : State α) (held : List α) (parts : List (Loop α × List α)) : Prop where
  inv : Inv s held parts
  served : s.is_closed = true → s.active_count = 0 → held = []

omit [DecidableEq α] in
theorem Inv.empty_iff (h : Inv s held parts) : s.close_waiters.queue.empty = true ↔ held = [] := by
  simp [awaiters_queue.Queue.empty, h.waiters.empty_iff]

namespace ServedInv

theorem iterate (h : ServedInv s held parts) (hstep : s.iterate = some s') :
    ∃ parts', ServedInv s' held parts' := by
  obtain ⟨waiters, ⟨loop, parts', -, hinv, rfl⟩ | ⟨loop, loop', v, rest, parts', -, hinv, rfl⟩⟩ :=
    h.inv.iterate hstep
  · exact ⟨parts', hinv, h.served⟩
  · exact ⟨_, hinv, h.served⟩

theorem step (h : ServedInv s held parts) {a : Action α} (hstep : ServedStep s a s') :
    ∃ held' parts', ServedInv s' held' parts' := by
  obtain ⟨hmissed, hstep⟩ := hstep
  cases a with
  | try_enter =>
    simp only [Step, gate.step] at hstep
    split at hstep
    · cases hstep
      exact ⟨held, parts, h⟩
    · cases hstep
      exact ⟨held, parts, ⟨h.inv.waiters, h.inv.attached⟩, fun _ hcount => absurd hcount (Nat.succ_ne_zero _)⟩
  | leave =>
    simp only [Step, gate.step, Option.ite_none_left_eq_some] at hstep
    obtain ⟨-, hstep⟩ := hstep
    have hinv : Inv { s with count := s.count - 1 } held parts := ⟨h.inv.waiters, h.inv.attached⟩
    split at hstep
    · have htaken : ServedInv { s with count := s.count - 1, close_waiters := s.close_waiters.take } []
          (({ call := s.close_waiters.taken, top := s.close_waiters.queue.first }, held) :: parts) :=
        ⟨hinv.take, fun _ _ => rfl⟩
      obtain ⟨parts', h'⟩ := htaken.iterate hstep
      exact ⟨[], parts', h'⟩
    · rename_i hnot
      cases hstep
      exact ⟨held, parts, hinv, fun hclosed hcount => absurd ⟨hclosed, hcount⟩ hnot⟩
  | close v =>
    simp only [Step, gate.step, Option.ite_none_left_eq_some, Option.some.injEq] at hstep
    obtain ⟨-, rfl⟩ := hstep
    refine ⟨held, parts, ⟨h.inv.waiters, h.inv.attached⟩, fun _ hcount => ?_⟩
    exact h.inv.empty_iff.mp (hmissed hcount)
  | co_await v =>
    simp only [Step, gate.step, Option.ite_none_left_eq_some] at hstep
    obtain ⟨hfree, hstep⟩ := hstep
    split at hstep
    · cases hstep
      exact ⟨held, parts, ⟨h.inv.waiters, h.inv.attached⟩, h.served⟩
    · rename_i hcount
      cases hstep
      have hbusy : s.close_waiters.busy v = false := by simp_all
      exact ⟨held ++ [v], parts, h.inv.suspend hbusy, fun _ hzero => absurd hzero hcount⟩
  | reopen =>
    simp only [Step, gate.step, Option.ite_none_right_eq_some, Option.some.injEq] at hstep
    obtain ⟨-, rfl⟩ := hstep
    exact ⟨held, parts, ⟨h.inv.waiters, h.inv.attached⟩, fun hclosed => absurd hclosed Bool.false_ne_true⟩
  | iterate =>
    obtain ⟨parts', h'⟩ := h.iterate hstep
    exact ⟨held, parts', h'⟩
  | relink v next =>
    simp only [Step, gate.step, Option.map_eq_some_iff] at hstep
    obtain ⟨waiters, hrelink, rfl⟩ := hstep
    exact ⟨held, parts, h.inv.relink hrelink, h.served⟩

end ServedInv

/-- Every coroutine that suspended on an awaiter of `close` is resumed once, and
none is stuck: outside of a `leave` nobody waits at a gate that is closed and
empty, and what a `leave` has taken it has resumed when it returns. -/
def Served (s : State α) : Prop :=
  Fair List.reverse s.close_waiters.log ∧
    (∀ k, (∀ loop ∈ s.close_waiters.loops, loop.call ≠ k) →
      remaining List.reverse k s.close_waiters.log = []) ∧
    (s.close_waiters.loops = [] → s.is_closed = true → s.active_count = 0 →
      waiting s.close_waiters.log = [])

/-- In runs in which `close` is not called while the gate is empty and somebody
waits for it to close, everybody is served. -/
theorem waiters_are_served {as : List (Action α)} (hrun : Run ServedStep construct as s) : Served s := by
  obtain ⟨held, parts, h⟩ : ∃ held parts, ServedInv s held parts := by
    apply hrun.invariant fun s => ∃ held parts, ServedInv s held parts
    · rintro s a s' ⟨held, parts, h⟩ hstep
      exact h.step hstep
    · exact ⟨[], [], construct_inv, fun _ _ => rfl⟩
  refine ⟨h.inv.waiters.fair, fun k hk => h.inv.waiters.finished k fun p hp => hk p.1 ?_, ?_⟩
  · rw [h.inv.waiters.loops]
    exact List.mem_map_of_mem hp
  · intro _ hclosed hcount
    have hwaiting := h.inv.waiters.waiting
    rw [h.served hclosed hcount] at hwaiting
    simpa using hwaiting.symm

/-- A waiter opens the gate, enters it and closes it again before the next one
is resumed. -/
theorem waiters_are_served_reentrant : ∃ s : State Nat, s.is_closed = true ∧ s.active_count = 0 ∧
    s.continued.length = 3 ∧ Served s := by
  have hreentrant : ∃ (as : List (Action Nat)) (s : State Nat), Run ServedStep construct as s ∧
      s.is_closed = true ∧ s.active_count = 0 ∧ s.continued.length = 3 :=
    ⟨[.try_enter, .close 0, .co_await 0, .close 1, .co_await 1, .leave, .reopen, .try_enter, .close 0,
        .co_await 0, .leave, .iterate, .iterate, .iterate], _,
      .cons ⟨trivial, rfl⟩ <| .cons ⟨nofun, rfl⟩ <| .cons ⟨trivial, rfl⟩ <| .cons ⟨nofun, rfl⟩ <|
        .cons ⟨trivial, rfl⟩ <| .cons ⟨trivial, rfl⟩ <| .cons ⟨trivial, rfl⟩ <| .cons ⟨trivial, rfl⟩ <|
        .cons ⟨nofun, rfl⟩ <| .cons ⟨trivial, rfl⟩ <| .cons ⟨trivial, rfl⟩ <| .cons ⟨trivial, rfl⟩ <|
        .cons ⟨trivial, rfl⟩ <| .cons ⟨trivial, rfl⟩ <| .nil _, rfl, rfl, rfl⟩
  obtain ⟨as, s, hrun, hclosed, hcount, hlength⟩ := hreentrant
  exact ⟨s, hclosed, hcount, hlength, waiters_are_served hrun⟩

/-- An awaiter that is awaited after the gate was opened again is not resumed by
the last `leave`; the next `close` does not resume it either. -/
theorem not_served : ¬ ∀ (as : List (Action Nat)) (s : State Nat), Run Step construct as s → Served s := by
  intro hall
  have hstuck : ∃ (as : List (Action Nat)) (s : State Nat), Run Step construct as s ∧
      s.close_waiters.loops = [] ∧ s.is_closed = true ∧ s.active_count = 0 ∧
      waiting s.close_waiters.log = [0] :=
    ⟨[.close 0, .reopen, .try_enter, .co_await 0, .leave, .close 1], _,
      .cons rfl <| .cons rfl <| .cons rfl <| .cons rfl <| .cons rfl <| .cons rfl <| .nil _,
      rfl, rfl, rfl, rfl⟩
  obtain ⟨as, s, hrun, hloops, hclosed, hcount, hwaiting⟩ := hstuck
  have hnone := (hall as s hrun).2.2 hloops hclosed hcount
  simp [hwaiting] at hnone

end kelcoro.gate
