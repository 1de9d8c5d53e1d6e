import Kelcoro.Lib.Owned
import Mathlib

namespace kelcoro.lib

/-- A system with a thread that waits for an atomic by loading it again and again.
`blocks` are the states in which the load of the waiter finds the old value, and
`notifies` the steps that notify the waiter. -/
structure Polling (σ α : Type) where
  step : σ → α → Option σ
  Allowed : σ → α → Prop
  waiter : α → Bool
  blocks : σ → Bool
  notifies : σ → α → Bool

/-- The same system, whose waiter sleeps after such a load. -/
structure Sleeping (σ : Type) where
  state : σ
  asleep : Bool

namespace Polling

variable {σ α : Type} (P : Polling σ α)

def PollingStep (s : σ) (a : α) (s' : σ) : Prop := P.Allowed s a ∧ P.step s a = some s'

/-- A step, or a wake-up for no reason. -/
def sleeping_step (w : Sleeping σ) : Option α → Option (Sleeping σ)
  | none => if w.asleep then some { w with asleep := false } else none
  | some a =>
    if P.waiter a then
      if w.asleep then none else (P.step w.state a).map fun s => { state := s, asleep := P.blocks w.state }
    else (P.step w.state a).map fun s => { state := s, asleep := w.asleep && !P.notifies w.state a }

def SleepingStep (w : Sleeping σ) (a : Option α) (w' : Sleeping σ) : Prop :=
  (∀ b, a = some b → P.Allowed w.state b) ∧ P.sleeping_step w a = some w'

/-- What the waiter and the others do in a step of the system with sleep. -/
inductive SleepingCases (w w' : Sleeping σ) : Option α → Prop
  | wake_up (hasleep : w.asleep = true) (hasleep' : w'.asleep = false) (hstate : w'.state = w.state) :
      SleepingCases w w' none
  | waiter (a : α) (ha : P.waiter a = true) (hasleep : w.asleep = false) (hasleep' : w'.asleep = P.blocks w.state)
      (hstep : P.PollingStep w.state a w'.state) : SleepingCases w w' (some a)
  | other (a : α) (ha : P.waiter a = false) (hasleep' : w'.asleep = (w.asleep && !P.notifies w.state a))
      (hstep : P.PollingStep w.state a w'.state) : SleepingCases w w' (some a)

variable {P} {w w' : Sleeping σ} {as : List (Option α)}

theorem sleeping_cases {a : Option α} (hstep : P.SleepingStep w a w') : P.SleepingCases w w' a := by
  obtain ⟨hallowed, hstep⟩ := hstep
  cases a with
  | none =>
    obtain ⟨hasleep, heq⟩ := Option.ite_none_right_eq_some.mp hstep
    cases heq
    exact .wake_up hasleep rfl rfl
  | some a =>
    simp only [sleeping_step] at hstep
    cases ha : P.waiter a with
    | true =>
      rw [if_pos ha] at hstep
      obtain ⟨hasleep, hstep⟩ := Option.ite_none_left_eq_some.mp hstep
      obtain ⟨s, hs, rfl⟩ := Option.map_eq_some_iff.mp hstep
      exact .waiter a ha (by simpa using hasleep) rfl ⟨hallowed a rfl, hs⟩
    | false =>
      rw [if_neg (by simp [ha])] at hstep
      obtain ⟨s, hs, rfl⟩ := Option.map_eq_some_iff.mp hstep
      exact .other a ha rfl ⟨hallowed a rfl, hs⟩

theorem waiter_enabled {a : α} {s : σ} (hstep : P.PollingStep w.state a s) (ha : P.waiter a = true)
    (hawake : w.asleep = false) : ∃ w', P.SleepingStep w (some a) w' := by
  refine ⟨{ state := s, asleep := P.blocks w.state }, ?_, by simp [sleeping_step, ha, hawake, hstep.2]⟩
  rintro b ⟨⟩
  exact hstep.1

theorem other_enabled {a : α} {s : σ} (hstep : P.PollingStep w.state a s) (ha : P.waiter a = false) :
    ∃ w', P.SleepingStep w (some a) w' := by
  refine ⟨{ state := s, asleep := w.asleep && !P.notifies w.state a }, ?_, by simp [sleeping_step, ha, hstep.2]⟩
  rintro b ⟨⟩
  exact hstep.1

/-- What holds of the system that polls holds of the one that sleeps. -/
theorem run_of_sleeping (hrun : Run P.SleepingStep w as w') : Run P.PollingStep w.state (as.filterMap id) w'.state := by
  induction hrun with
  | nil => exact .nil _
  | cons hstep _ ih =>
    cases sleeping_cases hstep with
    | wake_up hasleep hasleep' hstate => rwa [hstate] at ih
    | waiter a ha hasleep hasleep' hpoll => exact .cons hpoll ih
    | other a ha hasleep' hpoll => exact .cons hpoll ih

/-- No wake-up is lost: if the waiter has something to hope for when it falls asleep,
and keeps it until it is notified, then it has whenever it sleeps. -/
theorem hope_of_run {Inv Hope : σ → Prop} (hinv : ∀ s a s', Inv s → P.PollingStep s a s' → Inv s')
    (hsleeps : ∀ s a s', Inv s → P.waiter a = true → P.blocks s = true → P.PollingStep s a s' → Hope s')
    (hkeeps : ∀ s a s', Inv s → Hope s → P.waiter a = false → P.notifies s a = false → P.PollingStep s a s' → Hope s')
    (hrun : Run P.SleepingStep w as w') (hw : Inv w.state) (hasleep : w.asleep = true → Hope w.state) :
    Inv w'.state ∧ (w'.asleep = true → Hope w'.state) := by
  apply hrun.invariant fun w => Inv w.state ∧ (w.asleep = true → Hope w.state)
  · rintro w a w' ⟨hs, hhope⟩ hstep
    cases sleeping_cases hstep with
    | wake_up hasleep hasleep' hstate =>
      rw [hstate, hasleep']
      exact ⟨hs, by simp⟩
    | waiter a ha hasleep hasleep' hpoll =>
      refine ⟨hinv _ _ _ hs hpoll, fun hblocks => hsleeps _ _ _ hs ha ?_ hpoll⟩
      rwa [hasleep'] at hblocks
    | other a ha hasleep' hpoll =>
      refine ⟨hinv _ _ _ hs hpoll, fun hstill => ?_⟩
      rw [hasleep', Bool.and_eq_true, Bool.not_eq_true'] at hstill
      exact hkeeps _ _ _ hs (hhope hstill.1) ha hstill.2 hpoll
  · exact ⟨hw, hasleep⟩

/-- A potential that the futile loads of the waiter need not lower pays for all steps
once the waiter sleeps after them. -/
theorem own_steps_le (hrun : Run P.SleepingStep w as w') (weight : σ → Nat) (own : α → Bool) (costs : α → Nat)
    (hstep : ∀ s a s', P.PollingStep s a s' → ¬ (P.waiter a = true ∧ P.blocks s = true) →
      weight s' + (own a).toNat + (P.notifies s a).toNat ≤ weight s + costs a)
    (hpoll : ∀ s a s', P.PollingStep s a s' → P.waiter a = true → P.blocks s = true → weight s' ≤ weight s) :
    as.countP (Option.any own) + weight w'.state ≤
      weight w.state + (!w.asleep).toNat + (as.map fun a => a.elim 1 costs).sum := by
  obtain ⟨m, hle, rfl⟩ := hrun.paid (m := ((weight w.state + (!w.asleep).toNat : Nat) : Int))
    (fun m w => ((weight w.state + (!w.asleep).toNat : Nat) : Int) = m) (Option.any own)
    (fun a => a.elim 1 costs) (by
      rintro m w a w' rfl hsleeping
      refine ⟨_, ?_, rfl⟩
      cases sleeping_cases hsleeping with
      | wake_up hasleep hasleep' hstate => simp [hasleep, hasleep', hstate]
      | waiter a ha hasleep hasleep' hstate =>
        have hown := Bool.toNat_le (own a)
        rw [hasleep, hasleep']
        cases hblocks : P.blocks w.state with
        | true =>
          have hle := hpoll _ _ _ hstate ha hblocks
          simp only [Option.any_some, Option.elim_some, Bool.not_true, Bool.not_false, Bool.toNat_true, Bool.toNat_false]
          omega
        | false =>
          have hle := hstep _ _ _ hstate (by simp [hblocks])
          simp only [Option.any_some, Option.elim_some, Bool.not_false, Bool.toNat_true]
          omega
      | other a ha hasleep' hstate =>
        have hle := hstep _ _ _ hstate (by simp [ha])
        rw [hasleep']
        cases w.asleep <;> cases hnotifies : P.notifies w.state a <;>
          simp only [hnotifies, Option.any_some, Option.elim_some, Bool.true_and, Bool.false_and, Bool.not_true,
            Bool.not_false, Bool.toNat_true, Bool.toNat_false] at hle ⊢ <;> omega) rfl
  omega

end Polling

/-- A flag in every frame: the owner may wait for it, and the coroutine of the frame
notifies the owner after it has set it. -/
structure Flag (φ π : Type) where
  waits : π → Option Nat
  is_set : φ → Bool
  notifying : φ → Bool

namespace Flag

variable {φ π : Type} (F : Flag φ π)

def blocks (s : Owned φ π) : Bool := (F.waits s.owner).any fun f => !F.is_set (s.frames f)

/-- The coroutine of frame `g` notifies the owner, who waits for it. -/
def notifies (s : Owned φ π) (g : Nat) : Bool := decide (F.waits s.owner = some g) && F.notifying (s.frames g)

/-- The owner waits for a flag that is not set, or of which it is about to be notified. -/
def Hope (s : Owned φ π) : Prop :=
  ∃ f, F.waits s.owner = some f ∧ (F.is_set (s.frames f) = true → F.notifying (s.frames f) = true)

variable {F} {s : Owned φ π} {f : Nat} {frame : φ}

theorem blocks_iff : F.blocks s = true ↔ ∃ f, F.waits s.owner = some f ∧ F.is_set (s.frames f) = false := by
  simp [blocks, Option.any_eq_true]

theorem notifies_toNat_le : (F.notifies s f).toNat ≤ (F.notifying (s.frames f)).toNat := by
  unfold notifies
  cases decide (F.waits s.owner = some f) <;> simp

/-- The owner goes on waiting for a flag that is not set. -/
theorem hope_of_unset {p : π} (hwaits : F.waits p = some f) (hunset : F.is_set frame = false) :
    F.Hope ((s.put f frame).goto p) := by
  refine ⟨f, hwaits, fun hset => ?_⟩
  simp [Owned.goto, Owned.put, hunset] at hset

/-- A frame changes, and if its flag is set then, it is to be notified. -/
theorem Hope.put (h : F.Hope s) (hframe : F.waits s.owner = some f →
    (F.is_set (s.frames f) = true → F.notifying (s.frames f) = true) → F.is_set frame = true → F.notifying frame = true) :
    F.Hope (s.put f frame) := by
  obtain ⟨g, hg, hhope⟩ := h
  refine ⟨g, hg, ?_⟩
  by_cases hgf : g = f
  · subst hgf
    simpa [Owned.put] using hframe hg hhope
  · simpa [Owned.put, hgf] using hhope

end Flag

end kelcoro.lib
