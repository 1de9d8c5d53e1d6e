import Kelcoro.LogicalThread.Invariant
import Mathlib

namespace kelcoro.logical_thread

open kelcoro.lib

variable {s : State}

/-- Nothing happens to a frame after it was destroyed, and its body is over
then; once its coroutine has returned and no object holds it, it is destroyed. -/
def Safe (s : State) (f : Nat) : Prop :=
  (∀ later side earlier, (s.frames f).log = later ++ .destroyed side :: earlier →
      later = [] ∧ .finished ∈ earlier) ∧
    ((s.frames f).pc = .returned → ¬ s.objects.Held f →
      ∃ side earlier, (s.frames f).log = .destroyed side :: earlier)

/-- In runs in which nobody destroys a frame while the other side has still to
notify, the frame is destroyed once, after its body, and never accessed again. -/
theorem destroyed_once_of_timely {as : List Action} (hrun : Run TimelyStep construct as s) {f : Nat}
    (hf : f < s.created) : Safe s f := by
  have hsound : Sound (s.frames f) (s.owner.stage f) (s.objects.Held f) :=
    (inv_of_run hrun).sound f hf
  refine ⟨fun later side earlier hsplit => ⟨?_, ?_⟩, fun hreturned hnot => ?_⟩
  · refine hsound.lawful.newest (fun log e hmem hfollows => ?_) hsplit
    exact hfollows.1 _ hmem (destroys_destroyed side)
  · exact (hsound.lawful.follows hsplit).2 (destroys_destroyed side)
  · cases hsound.phase with
    | running _ hpc => simp [hreturned] at hpc
    | informed _ _ _ hheld => exact absurd hheld hnot
    | detached _ hpc => simp [hreturned] at hpc
    | destroyed _ _ _ hlast =>
      obtain ⟨e, earlier, hlog, side, rfl⟩ := hlast
      exact ⟨side, earlier, hlog⟩

/-- A coroutine whose object is moved and then destructed. -/
theorem destroyed_once_of_timely_move : ∃ as s, Run TimelyStep construct as s ∧ 0 < s.created ∧
    (s.frames 0).log.head? = some (.destroyed .owner) ∧ Safe s 0 := by
  let as : List Action := [.call (.start 0), .body 0, .call (.move_construct 1 0), .call (.destruct 1),
    .own, .finish 0, .final_suspend 0, .final_suspend 0, .own, .own, .own]
  obtain ⟨s, hrun, hcreated, hlog⟩ : ∃ s, Run TimelyStep construct as s ∧ 0 < s.created ∧
      (s.frames 0).log.head? = some (.destroyed .owner) := by
    refine ⟨_, .cons ⟨trivial, rfl, rfl⟩ <| .cons ⟨trivial, trivial, rfl⟩ <|
      .cons ⟨trivial, ⟨rfl, nofun⟩, rfl⟩ <| .cons ⟨trivial, nofun, rfl⟩ <| .cons ⟨?_, trivial, rfl⟩ <|
      .cons ⟨trivial, trivial, rfl⟩ <| .cons ⟨?_, trivial, rfl⟩ <| .cons ⟨?_, trivial, rfl⟩ <|
      .cons ⟨?_, trivial, rfl⟩ <| .cons ⟨?_, trivial, rfl⟩ <| .cons ⟨?_, trivial, rfl⟩ <| .nil _,
      by decide, rfl⟩
    · rintro a f after (h | h) <;> cases h
    · intro h
      cases h
    · intro h
      cases h
    · rintro a f after (h | h) <;> cases h
    · rintro a f after (h | h) <;> cases h
    · rintro a f after (h | h) <;> cases h
      nofun
  exact ⟨as, s, hrun, hcreated, hlog, destroyed_once_of_timely hrun hcreated⟩

/-- The owner's `join` may destroy the frame between the exchange of the
coroutine and its `notify_one`, which then is an access to a destroyed frame. -/
theorem not_destroyed_once : ¬ ∀ (as : List Action) (s : State) (f : Nat), Run Step construct as s →
    f < s.created → Safe s f := by
  intro hall
  let as : List Action := [.call (.start 0), .finish 0, .final_suspend 0, .call (.join 0), .own, .own, .own,
    .final_suspend 0]
  obtain ⟨s, hrun, hcreated, earlier, hlog⟩ : ∃ s, Run Step construct as s ∧ 0 < s.created ∧
      ∃ earlier, (s.frames 0).log = [.touched .coroutine] ++ .destroyed .owner :: earlier :=
    ⟨_, .cons ⟨rfl, rfl⟩ <| .cons ⟨trivial, rfl⟩ <| .cons ⟨trivial, rfl⟩ <| .cons ⟨⟨0, rfl⟩, rfl⟩ <|
      .cons ⟨trivial, rfl⟩ <| .cons ⟨trivial, rfl⟩ <| .cons ⟨trivial, rfl⟩ <| .cons ⟨trivial, rfl⟩ <|
      .nil _, by decide, _, rfl⟩
  have hsafe := (hall as s 0 hrun hcreated).1 _ _ _ hlog
  simp at hsafe

end kelcoro.logical_thread
