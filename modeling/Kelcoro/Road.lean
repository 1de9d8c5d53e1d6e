import Kelcoro.Lib.Run
import Kelcoro.AttachList
import Mathlib

namespace kelcoro.road

open kelcoro.lib kelcoro.lib.waiters kelcoro.attach_list

variable {α : Type} [DecidableEq α]

/-- A road, its waiters and the calls of `open` in progress. -/
structure State (α : Type) where
  waiters : Waiters α
  closed : Bool

omit [DecidableEq α] in
def construct : State α := { waiters := attach_list.construct, closed := false }

/-- What the coroutines that run can do, one at a time: call `close`, `open`, or
`co_await wait_open()` with an awaiter at `v`; return to the innermost `open`
(`iterate`), or be resumed by their executor; and use memory that is no waiter's
node for something else. -/
inductive Action (α : Type) where
  | close
  | open
  | wait_open (v : α)
  | iterate
  | resume (v : α)
  | relink (v : α) (next : Option α)

def step (s : State α) : Action α → Option (State α)
  | .close => if s.closed then none else some { s with closed := true }
  | .open => s.waiters.take.iterate.map fun waiters => { waiters := waiters, closed := false }
  | .wait_open v =>
    if s.closed then
      if s.waiters.busy v then none else some { s with waiters := s.waiters.suspend v }
    else some s
  | .iterate => s.waiters.iterate.map fun waiters => { s with waiters := waiters }
  | .resume v => (s.waiters.resume v).map fun waiters => { s with waiters := waiters }
  | .relink v next => (s.waiters.relink v next).map fun waiters => { s with waiters := waiters }

def Step (s : State α) (a : Action α) (s' : State α) : Prop := step s a = some s'

/-- What holds of a road at any time. -/
structure Inv (s : State α) (held : List α) (parts : List (Loop α × List α)) : Prop where
  waiters : attach_list.Inv s.waiters held parts
  opened : s.closed = false → held = []

variable {s s' : State α} {held : List α} {parts : List (Loop α × List α)}

omit [DecidableEq α] in
/-- The loop of an `open` goes on; nobody is put into the queue. -/
theorem Inv.iterate {w w' : Waiters α} (h : attach_list.Inv w held parts) (hstep : w.iterate = some w') :
    ∃ parts', attach_list.Inv w' held parts' := by
  rcases h.iterate hstep with ⟨loop, parts', -, -, h'⟩ | ⟨loop, v, rest, parts', -, -, -, h'⟩
  · exact ⟨_, h'⟩
  · exact ⟨_, h'⟩

theorem Inv.step (h : Inv s held parts) {a : Action α} (hstep : Step s a s') :
    ∃ held' parts', Inv s' held' parts' := by
  cases a with
  | close =>
    simp only [Step, road.step, Option.ite_none_left_eq_some, Option.some.injEq] at hstep
    obtain ⟨-, rfl⟩ := hstep
    exact ⟨held, parts, h.waiters, nofun⟩
  | «open» =>
    simp only [Step, road.step, Option.map_eq_some_iff] at hstep
    obtain ⟨w', hw, rfl⟩ := hstep
    obtain ⟨parts', h'⟩ := iterate h.waiters.take hw
    exact ⟨[], parts', h', fun _ => rfl⟩
  | wait_open v =>
    simp only [Step, road.step] at hstep
    by_cases hclosed : s.closed = true
    · rw [if_pos hclosed] at hstep
      simp only [Option.ite_none_left_eq_some, Option.some.injEq, Bool.not_eq_true] at hstep
      obtain ⟨hfree, rfl⟩ := hstep
      exact ⟨held ++ [v], parts, h.waiters.suspend hfree, fun hopen => by simp [hclosed] at hopen⟩
    · rw [if_neg hclosed] at hstep
      cases hstep
      exact ⟨held, parts, h⟩
  | iterate =>
    simp only [Step, road.step, Option.map_eq_some_iff] at hstep
    obtain ⟨w', hw, rfl⟩ := hstep
    obtain ⟨parts', h'⟩ := iterate h.waiters hw
    exact ⟨held, parts', h', h.opened⟩
  | resume v =>
    simp only [Step, road.step, Option.map_eq_some_iff] at hstep
    obtain ⟨w', hw, rfl⟩ := hstep
    exact ⟨held, parts, h.waiters.resume hw, h.opened⟩
  | relink v next =>
    simp only [Step, road.step, Option.map_eq_some_iff] at hstep
    obtain ⟨w', hw, rfl⟩ := hstep
    exact ⟨held, parts, h.waiters.relink hw, h.opened⟩

theorem inv_of_run {as : List (Action α)} (hrun : Run Step construct as s) :
    ∃ held parts, Inv s held parts := by
  apply hrun.invariant fun s => ∃ held parts, Inv s held parts
  · rintro s a s' ⟨held, parts, h⟩ hstep
    exact h.step hstep
  · exact ⟨[], [], construct_inv, fun _ => rfl⟩

end kelcoro.road
