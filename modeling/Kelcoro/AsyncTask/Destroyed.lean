import Kelcoro.AsyncTask.Invariant
import Mathlib

namespace kelcoro.async_task

open kelcoro.lib

variable {s : State}

/-- An `async_task` coroutine and its owner, one access to the frame at a time:
nothing happens to the frame after it was destroyed; by then the body is over
and the owner has released the frame; the frame of a coroutine that has returned
and that no object holds is destroyed; and a `get` ends after something was
stored. -/
theorem destroyed_once_released {as : List Action} (hrun : Run Step construct as s) {f : Nat}
    (hf : f < s.created) :
    (∀ later side earlier, (s.frames f).log = later ++ .destroyed side :: earlier →
        later = [] ∧ .finished ∈ earlier ∧ .released ∈ earlier) ∧
      ((s.frames f).pc = .returned → ¬ s.objects.Held f →
        ∃ side earlier, (s.frames f).log = .destroyed side :: earlier) ∧
      ∀ later earlier, (s.frames f).log = later ++ .got :: earlier → .stored ∈ earlier := by
  have hsound : Sound (s.frames f) (s.owner.stage f) (s.objects.Held f) := (inv_of_run hrun).sound f hf
  refine ⟨fun later side earlier hsplit => ⟨?_, ?_⟩, fun hreturned hnot => ?_, ?_⟩
  · refine hsound.lawful.newest (fun log e hmem hfollows => ?_) hsplit
    exact hfollows.1 _ hmem (destroys_destroyed side)
  · exact (hsound.lawful.follows hsplit).2.1 (destroys_destroyed side)
  · cases hsound.phase with
    | shared hpc => exact absurd hreturned hpc.2
    | owner_left _ _ _ hheld => exact absurd hheld hnot
    | owner_last _ _ hheld => exact absurd hheld hnot
    | coroutine_left hpc => exact absurd hreturned hpc.2
    | coroutine_last hpc => simp [hreturned] at hpc
    | destroyed _ _ _ hlast =>
      obtain ⟨e, earlier, hlog, side, rfl⟩ := hlast
      exact ⟨side, earlier, hlog⟩
  · intro later earlier hsplit
    exact (hsound.lawful.follows hsplit).2.2 rfl

/-- The owner takes the result and detaches before the coroutine has given up
its reference. -/
theorem destroyed_once_released_by_coroutine : ∃ as s, Run Step construct as s ∧ 0 < s.created ∧
    ∃ earlier, (s.frames 0).log = .destroyed .coroutine :: earlier ∧
      .finished ∈ earlier ∧ .released ∈ earlier := by
  let as : List Action := [.call (.start 0), .body 0, .finish 0 .value, .final_suspend 0, .call (.get 0 true),
    .own, .own, .own, .own, .call (.destruct 0), .own, .final_suspend 0, .final_suspend 0, .final_suspend 0]
  obtain ⟨s, hrun, hcreated, earlier, hlog⟩ : ∃ s, Run Step construct as s ∧ 0 < s.created ∧
      ∃ earlier, (s.frames 0).log = [] ++ .destroyed .coroutine :: earlier :=
    ⟨_, .cons ⟨rfl, rfl⟩ <| .cons ⟨trivial, rfl⟩ <| .cons ⟨trivial, rfl⟩ <| .cons ⟨trivial, rfl⟩ <|
      .cons ⟨⟨0, rfl⟩, rfl⟩ <| .cons ⟨trivial, rfl⟩ <| .cons ⟨trivial, rfl⟩ <| .cons ⟨trivial, rfl⟩ <|
      .cons ⟨trivial, rfl⟩ <| .cons ⟨nofun, rfl⟩ <| .cons ⟨trivial, rfl⟩ <| .cons ⟨trivial, rfl⟩ <|
      .cons ⟨trivial, rfl⟩ <| .cons ⟨trivial, rfl⟩ <| .nil _, by decide, _, rfl⟩
  exact ⟨as, s, hrun, hcreated, earlier, hlog, ((destroyed_once_released hrun hcreated).1 _ _ _ hlog).2⟩

end kelcoro.async_task
