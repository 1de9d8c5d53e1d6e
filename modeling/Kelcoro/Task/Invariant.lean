import Kelcoro.Task.Model
import Mathlib

namespace kelcoro.task

open kelcoro.lib kelcoro.return_block

variable {V E : Type}

/-- What is said of each frame and of whether a task holds it. -/
def protocol (Sound : Frame V E → Prop → Prop) : Protocol (Frame V E) Unit Unit where
  idle := ()
  target := fun _ => none
  stage := fun _ _ => ()
  away := ()
  Sound := fun frame _ held => Sound frame held
  target_idle := rfl
  stage_eq_away := fun _ _ _ => rfl

/-- The operation of an action meets a condition on the frame. -/
def Meets (Cond : Frame V E → Op V E → Prop) (s : State V E) : Action V E → Prop
  | .call a op => ∀ f, s.objects.Holds a f → Cond (s.frames f) op
  | .frame f op => Cond (s.frames f) op
  | _ => True

instance (Cond : Frame V E → Op V E → Prop) [∀ frame op, Decidable (Cond frame op)] (s : State V E) (a : Action V E) :
    Decidable (Meets Cond s a) :=
  match a with
  | .construct _ | .create _ _ | .move_construct _ _ | .move_assign _ _ => .isTrue trivial
  | .call a op => inferInstanceAs (Decidable (∀ f, s.objects.Holds a f → Cond (s.frames f) op))
  | .frame f op => inferInstanceAs (Decidable (Cond (s.frames f) op))

/-- What the operations that meet a condition keep. -/
structure Kept (left : E → Option E) (moved : V → V) (Cond : Frame V E → Op V E → Prop)
    (Sound : Frame V E → Prop → Prop) : Prop where
  construct : ∀ spec held, held → Sound (Frame.construct spec) held
  step : ∀ frame frame' op held, Sound frame held → frame.Allows op → Cond frame op → (op.OfTask → held) →
    frame.step left moved op = some frame' → Sound frame' (held ∧ op.releases = false)

variable {left : E → Option E} {moved : V → V} {Cond : Frame V E → Op V E → Prop} {Sound : Frame V E → Prop → Prop}
  {s s' : State V E} {a f g : Nat} {op : Op V E}

/-- The objects after an operation through object `a`. -/
theorem release_unique (hunique : s.objects.Unique) : (release s a op).Unique := by
  unfold release
  split
  · exact hunique.drop
  · exact hunique.drop
  · exact hunique.drop
  · exact hunique

theorem held_release (hunique : s.objects.Unique) (ha : s.objects.Holds a f) :
    (release s a op).Held g ↔ s.objects.Held g ∧ (g = f → op.releases = false) := by
  have hdrop : ∀ value, (s.objects.drop a value).Held g ↔ s.objects.Held g ∧ (g = f → true = false) := by
    intro value
    rw [Objects.held_drop hunique ha]
    simp
  cases op with
  | destruct => exact hdrop _
  | start => exact hdrop _
  | start_and_detach stop_at_end => exact hdrop _
  | co_await _ | get | co_await_result _ | drop_result | destroy | resume | suspend | use _
  | unhandled_exception _ _ | final_suspend | transfer_control => simp [release, Op.releases]

theorem held_release_empty (ha : ¬ ∃ f, s.objects.Holds a f) : (release s a op).Held g ↔ s.objects.Held g := by
  unfold release
  split
  · exact Objects.held_drop_empty ha
  · exact Objects.held_drop_empty ha
  · exact Objects.held_drop_empty ha
  · exact Iff.rfl

namespace Kept

theorem inv_step (hkept : Kept left moved Cond Sound) (h : (protocol Sound).Inv s) {action : Action V E}
    (hstep : Step left moved s action s') (hmeets : Meets Cond s action) : (protocol Sound).Inv s' := by
  obtain ⟨hallowed, hstep⟩ := hstep
  cases action with
  | construct a =>
    cases hstep
    have ha : ¬ ∃ f, s.objects.Holds a f := Objects.not_holds_of_none hallowed
    exact h.move rfl h.unique.drop fun g => Objects.held_drop_empty ha
  | create a spec =>
    cases hstep
    exact h.start rfl hallowed fun held hheld => hkept.construct spec held hheld
  | move_construct a other =>
    cases hstep
    have ha : ¬ ∃ f, s.objects.Holds a f := Objects.not_holds_of_none hallowed.1
    exact h.move rfl h.unique.drop.swap fun g => Objects.held_swap.trans (Objects.held_drop_empty ha)
  | move_assign a other =>
    cases hstep
    exact h.move rfl h.unique.swap fun g => Objects.held_swap
  | call a op =>
    obtain ⟨-, hallows, -⟩ := hallowed
    simp only [task.step, Option.ite_none_right_eq_some] at hstep
    obtain ⟨hof, hstep⟩ := hstep
    cases ha : s.objects a with
    | none =>
      simp only [ha, Option.some.injEq] at hstep
      subst hstep
      have hnot : ¬ ∃ f, s.objects.Holds a f := Objects.not_holds_of_none ha
      exact h.move rfl (release_unique h.unique) fun g => held_release_empty hnot
    | some handle =>
      cases handle with
      | none =>
        simp only [ha, Option.some.injEq] at hstep
        subst hstep
        have hnot : ¬ ∃ f, s.objects.Holds a f := by
          rintro ⟨f, hf⟩
          cases ha.symm.trans hf
        exact h.move rfl (release_unique h.unique) fun g => held_release_empty hnot
      | some f =>
        simp only [ha, Option.map_eq_some_iff] at hstep
        obtain ⟨frame, hframe, rfl⟩ := hstep
        have hheld : s.objects.Held f := ⟨a, ha⟩
        have hold : Sound (s.frames f) (s.objects.Held f) := h.sound f (h.created f hheld)
        have hnew := hkept.step _ _ op _ hold (hallows f ha) (hmeets f ha) (fun _ => hheld) hframe
        have heq : (release s a op).Held f ↔ s.objects.Held f ∧ op.releases = false := by
          rw [held_release h.unique ha]
          simp
        apply h.update (f := f)
        · rfl
        · exact fun g hg => Function.update_of_ne hg ..
        · exact release_unique h.unique
        · intro g hg
          rw [held_release h.unique ha]
          simp [hg]
        · exact fun hf => (heq.mp hf).1
        · rintro b g ⟨⟩
        · exact fun _ _ => rfl
        · intro _
          rw [heq]
          simpa [protocol, Owned.put] using hnew
  | frame f op =>
    simp only [task.step, Option.ite_none_right_eq_some, Option.map_eq_some_iff] at hstep
    obtain ⟨⟨hf, hnot⟩, frame, hframe, rfl⟩ := hstep
    have hkeeps : op.releases = false := by
      cases op with
      | destruct | start | start_and_detach _ => exact absurd trivial hnot
      | co_await _ | get | co_await_result _ | drop_result | destroy | resume | suspend | use _
      | unhandled_exception _ _ | final_suspend | transfer_control => rfl
    apply h.put
    intro hlt
    have hnew := hkept.step _ _ op _ (h.sound f hlt) hallowed hmeets (fun hof => absurd hof hnot) hframe
    rw [hkeeps] at hnew
    simpa [protocol] using hnew

theorem inv_of_run (hkept : Kept left moved Cond Sound) {as : List (Action V E)}
    (hrun : Run (fun s a s' => Step left moved s a s' ∧ Meets Cond s a) (task.construct V E) as s) :
    (protocol Sound).Inv s := by
  refine hrun.invariant _ (fun s a s' h hstep => hkept.inv_step h hstep.1 hstep.2) ?_
  refine ⟨?_, ?_, ?_, ?_⟩
  · intro a b f hf
    cases hf
  · rintro f ⟨a, ha⟩
    cases ha
  · rintro a f ⟨⟩
  · intro f hf
    exact absurd hf (Nat.not_lt_zero f)

/-- What is kept holds of every frame that was created. -/
theorem of_run (hkept : Kept left moved Cond Sound) {as : List (Action V E)}
    (hrun : Run (fun s a s' => Step left moved s a s' ∧ Meets Cond s a) (task.construct V E) as s) (hf : f < s.created) :
    Sound (s.frames f) (s.objects.Held f) :=
  (hkept.inv_of_run hrun).sound f hf

end Kept

end kelcoro.task
