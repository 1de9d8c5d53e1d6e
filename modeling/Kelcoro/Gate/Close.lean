import Kelcoro.Gate.Model
import Mathlib

namespace kelcoro.gate

open kelcoro.lib kelcoro.lib.waiters kelcoro.attach_list

variable {α : Type} [DecidableEq α]

/-- The close waiters of a gate are in order; `this_thread_executor` keeps
nobody. -/
structure Inv (s : State α) (held : List α) (parts : List (Loop α × List α)) : Prop where
  waiters : attach_list.Inv s.close_waiters held parts
  attached : s.close_waiters.attached = []

variable {s s' : State α} {held : List α} {parts : List (Loop α × List α)} {v : α}

omit [DecidableEq α] in
theorem construct_inv : Inv (construct : State α) [] [] := ⟨attach_list.construct_inv, rfl⟩

namespace Inv

omit [DecidableEq α] in
theorem take (h : Inv s held parts) : Inv { s with close_waiters := s.close_waiters.take } []
    (({ call := s.close_waiters.taken, top := s.close_waiters.queue.first }, held) :: parts) :=
  ⟨h.waiters.take, h.attached⟩

theorem suspend (h : Inv s held parts) (hfree : s.close_waiters.busy v = false) :
    Inv { s with close_waiters := s.close_waiters.suspend v } (held ++ [v]) parts :=
  ⟨h.waiters.suspend hfree, h.attached⟩

theorem relink (h : Inv s held parts) {next : Option α} {waiters : Waiters α}
    (hstep : s.close_waiters.relink v next = some waiters) :
    Inv { s with close_waiters := waiters } held parts := by
  refine ⟨h.waiters.relink hstep, ?_⟩
  simp only [Waiters.relink, Option.ite_none_right_eq_some, Option.some.injEq] at hstep
  obtain ⟨-, rfl⟩ := hstep
  exact h.attached

/-- The innermost `leave` is over, or resumes the next of its waiters. -/
theorem iterate (h : Inv s held parts) (hstep : s.iterate = some s') :
    ∃ waiters, (∃ loop parts', parts = (loop, []) :: parts' ∧ Inv s' held parts' ∧
        s' = { s with close_waiters := waiters }) ∨
      ∃ loop loop' v rest parts', parts = (loop, v :: rest) :: parts' ∧
        Inv s' held ((loop', rest) :: parts') ∧ s' = { s with close_waiters := waiters }.go_on := by
  unfold State.iterate at hstep
  cases hw : s.close_waiters.iterate with
  | none => simp [hw] at hstep
  | some waiters =>
    simp only [hw] at hstep
    rcases h.waiters.iterate hw with ⟨loop, parts', hparts, htop, hw'⟩ | ⟨loop, v, rest, parts', hparts, -, hattached, hw'⟩
    · have hattached : waiters.attached = [] := by
        have hloops : s.close_waiters.loops = loop :: parts'.map Prod.fst := by
          rw [h.waiters.loops, hparts]
          rfl
        simp only [Waiters.iterate, hloops, htop, Option.some.injEq] at hw
        subst hw
        exact h.attached
      simp only [hattached, Option.some.injEq] at hstep
      subst hstep
      exact ⟨waiters, Or.inl ⟨loop, parts', hparts, ⟨hw', hattached⟩, rfl⟩⟩
    · rw [h.attached] at hattached
      simp only [hattached, Option.map_eq_some_iff] at hstep
      obtain ⟨waiters', hresume, rfl⟩ := hstep
      have hresumed : waiters'.attached = [] := by
        simp only [Waiters.resume, hattached, Option.ite_none_right_eq_some, Option.some.injEq] at hresume
        obtain ⟨-, rfl⟩ := hresume
        simp
      exact ⟨waiters', Or.inr ⟨loop, _, v, rest, parts', hparts, ⟨hw'.resume hresume, hresumed⟩, rfl⟩⟩

end Inv

/-- An awaiter is not awaited while the gate is open and empty, and nobody opens
it again while a `leave` has still waiters to resume. -/
def KeepsClosed (s : State α) : Action α → Prop
  | .co_await _ => s.active_count = 0 → s.is_closed = true
  | .reopen => ∀ loop ∈ s.close_waiters.loops, loop.top = none
  | _ => True

def ClosedStep (s : State α) (a : Action α) (s' : State α) : Prop := KeepsClosed s a ∧ Step s a s'

/-- As long as a `leave` has waiters to resume the gate is closed and empty. -/
structure ClosedInv (s : State α) (held : List α) (parts : List (Loop α × List α)) : Prop where
  inv : Inv s held parts
  pending : ∀ p ∈ parts, p.2 ≠ [] → s.is_closed = true ∧ s.active_count = 0
  continued : ∀ e ∈ s.continued, e = (true, 0)

namespace ClosedInv

theorem iterate (h : ClosedInv s held parts) (hstep : s.iterate = some s') :
    ∃ parts', ClosedInv s' held parts' := by
  obtain ⟨waiters, ⟨loop, parts', rfl, hinv, rfl⟩ | ⟨loop, loop', v, rest, parts', rfl, hinv, rfl⟩⟩ :=
    h.inv.iterate hstep
  · exact ⟨parts', hinv, fun p hp => h.pending p (List.mem_cons_of_mem _ hp), h.continued⟩
  · have hclosed := h.pending (loop, v :: rest) (by simp) (by simp)
    refine ⟨_, hinv, fun p _ _ => hclosed, ?_⟩
    intro e he
    rcases List.mem_cons.mp he with rfl | he
    · exact Prod.ext hclosed.1 hclosed.2
    · exact h.continued e he

theorem leave (h : ClosedInv s held parts) (hstep : Step s .leave s') :
    ∃ held' parts', ClosedInv s' held' parts' := by
  simp only [Step, step, Option.ite_none_left_eq_some] at hstep
  obtain ⟨hcount, hstep⟩ := hstep
  -- somebody has entered, so no other `leave` has waiters to resume
  have hnone : ∀ p ∈ parts, p.2 = [] := by
    intro p hp
    by_contra hne
    exact hcount (h.pending p hp hne).2
  have hinv : Inv { s with count := s.count - 1 } held parts := ⟨h.inv.waiters, h.inv.attached⟩
  split at hstep
  · rename_i hclosed
    have htaken : ClosedInv { s with count := s.count - 1, close_waiters := s.close_waiters.take } []
        (({ call := s.close_waiters.taken, top := s.close_waiters.queue.first }, held) :: parts) :=
      ⟨hinv.take, fun _ _ _ => hclosed, h.continued⟩
    obtain ⟨parts', h'⟩ := htaken.iterate hstep
    exact ⟨[], parts', h'⟩
  · cases hstep
    exact ⟨held, parts, hinv, fun p hp hne => absurd (hnone p hp) hne, h.continued⟩

theorem step (h : ClosedInv s held parts) {a : Action α} (hstep : ClosedStep s a s') :
    ∃ held' parts', ClosedInv s' held' parts' := by
  obtain ⟨hkeeps, hstep⟩ := hstep
  cases a with
  | try_enter =>
    simp only [Step, gate.step] at hstep
    split at hstep
    · cases hstep
      exact ⟨held, parts, h⟩
    · rename_i hopen
      cases hstep
      refine ⟨held, parts, ⟨h.inv.waiters, h.inv.attached⟩, fun p hp hne => ?_, h.continued⟩
      exact absurd (h.pending p hp hne).1 hopen
  | leave => exact h.leave hstep
  | close v =>
    simp only [Step, gate.step, Option.ite_none_left_eq_some, Option.some.injEq] at hstep
    obtain ⟨-, rfl⟩ := hstep
    refine ⟨held, parts, ⟨h.inv.waiters, h.inv.attached⟩, fun p hp hne => ?_, h.continued⟩
    exact ⟨rfl, (h.pending p hp hne).2⟩
  | co_await v =>
    simp only [Step, gate.step, Option.ite_none_left_eq_some] at hstep
    obtain ⟨hfree, hstep⟩ := hstep
    split at hstep
    · rename_i hcount
      cases hstep
      refine ⟨held, parts, ⟨h.inv.waiters, h.inv.attached⟩, h.pending, ?_⟩
      intro e he
      rcases List.mem_cons.mp he with rfl | he
      · exact Prod.ext (hkeeps hcount) hcount
      · exact h.continued e he
    · cases hstep
      have hbusy : s.close_waiters.busy v = false := by simp_all
      exact ⟨held ++ [v], parts, h.inv.suspend hbusy, h.pending, h.continued⟩
  | reopen =>
    simp only [Step, gate.step, Option.ite_none_right_eq_some, Option.some.injEq] at hstep
    obtain ⟨-, rfl⟩ := hstep
    refine ⟨held, parts, ⟨h.inv.waiters, h.inv.attached⟩, fun p hp hne => ?_, h.continued⟩
    have htop : p.1.top = none := by
      apply hkeeps
      rw [h.inv.waiters.loops]
      exact List.mem_map_of_mem hp
    have hlinked := h.inv.waiters.linked p hp
    rw [htop] at hlinked
    exact absurd (Segment.null_iff.mp hlinked) hne
  | iterate =>
    obtain ⟨parts', h'⟩ := h.iterate hstep
    exact ⟨held, parts', h'⟩
  | relink v next =>
    simp only [Step, gate.step, Option.map_eq_some_iff] at hstep
    obtain ⟨waiters, hrelink, rfl⟩ := hstep
    exact ⟨held, parts, h.inv.relink hrelink, h.pending, h.continued⟩

end ClosedInv

/-- In runs in which no awaiter of `close` is awaited while the gate is open and
empty, and in which nobody opens it while a `leave` has still waiters to resume,
coroutines go on after `co_await close()` when the gate is closed and empty. -/
theorem closed_and_empty_after_close {as : List (Action α)} (hrun : Run ClosedStep construct as s) :
    ∀ e ∈ s.continued, e = (true, 0) := by
  obtain ⟨held, parts, h⟩ : ∃ held parts, ClosedInv s held parts := by
    apply hrun.invariant fun s => ∃ held parts, ClosedInv s held parts
    · rintro s a s' ⟨held, parts, h⟩ hstep
      exact h.step hstep
    · exact ⟨[], [], construct_inv, by simp, by simp [construct]⟩
  exact h.continued

/-- Two coroutines wait for the gate to close, and go on when the last one
leaves. -/
theorem closed_and_empty_after_close_of_two : ∃ s : State Nat, s.continued = [(true, 0), (true, 0)] ∧
    ∀ e ∈ s.continued, e = (true, 0) := by
  have hleft : ∃ (as : List (Action Nat)) (s : State Nat), Run ClosedStep construct as s ∧
      s.continued = [(true, 0), (true, 0)] :=
    ⟨[.try_enter, .close 0, .co_await 0, .close 1, .co_await 1, .leave, .iterate, .iterate], _,
      .cons ⟨trivial, rfl⟩ <| .cons ⟨trivial, rfl⟩ <| .cons ⟨nofun, rfl⟩ <| .cons ⟨trivial, rfl⟩ <|
        .cons ⟨nofun, rfl⟩ <| .cons ⟨trivial, rfl⟩ <| .cons ⟨trivial, rfl⟩ <| .cons ⟨trivial, rfl⟩ <|
        .nil _, rfl⟩
  obtain ⟨as, s, hrun, hcontinued⟩ := hleft
  exact ⟨s, hcontinued, closed_and_empty_after_close hrun⟩

/-- A waiter that opens the gate again lets the waiter after it go on at an open
gate. -/
theorem not_closed_after_close : ¬ ∀ (as : List (Action Nat)) (s : State Nat), Run Step construct as s →
    ∀ e ∈ s.continued, e = (true, 0) := by
  intro hall
  have hreopened : ∃ (as : List (Action Nat)) (s : State Nat), Run Step construct as s ∧
      s.continued = [(false, 0), (true, 0)] :=
    ⟨[.try_enter, .close 0, .co_await 0, .close 1, .co_await 1, .leave, .reopen, .iterate], _,
      .cons rfl <| .cons rfl <| .cons rfl <| .cons rfl <| .cons rfl <| .cons rfl <| .cons rfl <|
        .cons rfl <| .nil _, rfl⟩
  obtain ⟨as, s, hrun, hcontinued⟩ := hreopened
  have hfalse := hall as s hrun (false, 0) (by simp [hcontinued])
  simp at hfalse

end kelcoro.gate
