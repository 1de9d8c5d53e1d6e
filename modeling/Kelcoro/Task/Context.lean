import Kelcoro.Task.Invariant
import Mathlib

namespace kelcoro.task

open kelcoro.lib kelcoro.return_block

variable {V E : Type}

/-- What a context sees of its task, and what it is about. -/
inductive Mark where
  | on_start
  | step
  | finish
  | on_end
  deriving DecidableEq, Repr

def Access.mark : Access → Option Mark
  | .on_start => some .on_start
  | .stepped => some .step
  | .finished => some .finish
  | .on_end => some .on_end
  | _ => none

/-- In the order in which it happened. -/
def marks (log : List Access) : List Mark := (log.filterMap Access.mark).reverse

/-- `on_start` is invoked once, before the first step of the body, and `on_end` once,
after the last one, when the body is over. -/
def Paired (log : List Access) : Prop :=
  marks log = [] ∨ ∃ steps, marks log = .on_start :: List.replicate (steps + 1) .step ++
    if .finished ∈ log then [.finish, .on_end] else []

/-- Nothing is awaited through a `start_result` before the task is done, and
`on_ignored_exception` does not throw. -/
def Regular (frame : Frame V E) : Op V E → Prop
  | .co_await_result _ => frame.done
  | .unhandled_exception _ rethrows => frame.who_waits = .null → rethrows = false
  | _ => True

instance (frame : Frame V E) (op : Op V E) : Decidable (Regular frame op) :=
  match op with
  | .co_await_result _ => inferInstanceAs (Decidable frame.done)
  | .unhandled_exception _ rethrows => inferInstanceAs (Decidable (frame.who_waits = .null → rethrows = false))
  | .destruct | .co_await _ | .get | .start | .start_and_detach _ | .drop_result | .destroy | .resume | .suspend | .use _
  | .final_suspend | .transfer_control => .isTrue trivial

/-- What the context has seen, by where the coroutine is. -/
def Seen (frame : Frame V E) : Prop :=
  match frame.pc with
  | .initial_suspend => marks frame.log = []
  | .running | .suspended => ∃ steps, marks frame.log = .on_start :: List.replicate (steps + 1) .step
  | .ending | .final_suspend =>
    ∃ steps, marks frame.log = .on_start :: List.replicate (steps + 1) .step ++ [.finish, .on_end]
  | .destroyed => Paired frame.log

variable {left : E → Option E} {moved : V → V} {frame frame' : Frame V E} {log : List Access}

@[simp] theorem marks_nil : marks [] = [] := rfl

@[simp] theorem marks_cons (e : Access) : marks (e :: log) = marks log ++ e.mark.toList := by
  cases h : e.mark <;> simp [marks, h]

theorem finished_mem_iff : .finished ∈ log ↔ .finish ∈ marks log := by
  induction log with
  | nil => simp
  | cons e log ih =>
    rw [List.mem_cons, ih, marks_cons, List.mem_append]
    cases e <;> simp [Access.mark]

namespace Seen

theorem paired (h : Seen frame) : Paired frame.log := by
  unfold Seen at h
  unfold Paired
  split at h
  · exact Or.inl h
  · obtain ⟨steps, hmarks⟩ := h
    exact Or.inr ⟨steps, by simp [finished_mem_iff, hmarks]⟩
  · obtain ⟨steps, hmarks⟩ := h
    exact Or.inr ⟨steps, by simp [finished_mem_iff, hmarks]⟩
  · obtain ⟨steps, hmarks⟩ := h
    exact Or.inr ⟨steps, by simp [finished_mem_iff, hmarks]⟩
  · obtain ⟨steps, hmarks⟩ := h
    exact Or.inr ⟨steps, by simp [finished_mem_iff, hmarks]⟩
  · exact h

/-- The context sees nothing of what happens to the rest of the frame. -/
theorem congr (h : Seen frame) (hpc : frame'.pc = frame.pc) (hmarks : marks frame'.log = marks frame.log) :
    Seen frame' := by
  unfold Seen at h ⊢
  unfold Paired at h ⊢
  simp only [finished_mem_iff] at h ⊢
  rw [hpc, hmarks]
  exact h

/-- `on_start` is followed by the first step. -/
theorem resume_of_start (hmarks : marks frame.log = [.on_start]) : Seen frame.resume := by
  refine ⟨0, ?_⟩
  simp [Frame.resume, Frame.access, Access.mark, hmarks]

theorem resume (h : Seen frame) (hpc : frame.pc = .suspended) : Seen frame.resume := by
  simp only [Seen, hpc] at h
  obtain ⟨steps, hmarks⟩ := h
  refine ⟨steps + 1, ?_⟩
  have happend := List.replicate_succ' (n := steps + 1) (a := Mark.step)
  simp [Frame.resume, Frame.access, Access.mark, hmarks, happend]

theorem destroy (h : Seen frame) : Seen frame.destroy := by
  have hpaired := h.paired
  unfold Paired at hpaired
  simp only [finished_mem_iff] at hpaired
  simpa [Seen, Frame.destroy, Frame.access, Paired, finished_mem_iff, Access.mark] using hpaired

theorem of_initial (h : Seen frame) (hpc : frame.pc = .initial_suspend) : marks frame.log = [] := by
  simpa [Seen, hpc] using h

theorem final_suspend (h : Seen frame) (hpc : frame.pc = .running) : Seen frame.final_suspend := by
  simp only [Seen, hpc] at h
  obtain ⟨steps, hmarks⟩ := h
  refine ⟨steps, ?_⟩
  simp [Frame.final_suspend, Frame.access, Access.mark, hmarks]

theorem transfer_control (h : Seen frame) (hpc : frame.pc = .ending) : Seen (frame.transfer_control left moved) := by
  have hfinal : Seen { frame with pc := .final_suspend } := by
    simpa [Seen, hpc] using h
  unfold Frame.transfer_control
  split
  · exact h.destroy
  · exact hfinal
  · exact hfinal.congr rfl (by simp [Frame.read, Frame.access, Access.mark])

end Seen

theorem seen_kept (left : E → Option E) (moved : V → V) : Kept left moved Regular fun frame _ => Seen frame where
  construct spec held hheld := rfl
  step frame frame' op held h hallows hregular hof hstep := by
    -- What neither moves the coroutine nor is a function of the context.
    have hread : ∀ c, Seen ((frame.access .accessed).read left moved c) := fun c =>
      h.congr rfl (by simp [Frame.read, Frame.access, Access.mark])
    cases op with
    | destruct =>
      cases hstep
      exact h.destroy
    | co_await c =>
      cases hstep
      unfold Frame.co_await
      split
      case isTrue hdone => exact hread c
      case isFalse hdone =>
        have hpc := hallows.resolve_right hdone
        apply Seen.resume_of_start
        simp [Frame.prepare_task_to_start, Frame.access, Access.mark, h.of_initial hpc]
    | get =>
      cases hstep
      unfold Frame.get
      split
      case isTrue hdone => exact hread .get
      case isFalse hdone =>
        have hpc := hallows.resolve_right hdone
        apply Seen.resume_of_start
        simp [Frame.prepare_task_to_start, Frame.access, Access.mark, h.of_initial hpc]
    | start =>
      cases hstep
      apply Seen.resume_of_start
      simp [Frame.access, Access.mark, h.of_initial hallows]
    | start_and_detach stop_at_end =>
      cases hstep
      unfold Frame.start_and_detach
      dsimp only
      split
      case isTrue hdone =>
        have haccessed : Seen ({ frame with who_waits := .null }.access .accessed) :=
          h.congr rfl (by simp [Frame.access, Access.mark])
        split
        · exact haccessed.congr rfl rfl
        · exact haccessed.destroy
      case isFalse hdone =>
        have hpc := hallows.resolve_right hdone
        apply Seen.resume_of_start
        simp [Frame.access, Access.mark, h.of_initial hpc]
    | co_await_result c =>
      cases hstep
      have hdone : ({ frame with holder := .start_result true }.access .accessed).done := hregular
      simp only [Frame.co_await_result, hdone, if_true]
      exact h.congr rfl (by simp [Frame.read, Frame.access, Access.mark])
    | drop_result =>
      cases hstep
      have haccessed : Seen ({ frame with holder := .nobody }.access .accessed) :=
        h.congr rfl (by simp [Frame.access, Access.mark])
      unfold Frame.drop_result
      dsimp only
      split
      · exact haccessed.destroy
      · exact haccessed.congr rfl rfl
    | destroy =>
      cases hstep
      exact h.destroy
    | resume =>
      simp only [Frame.step, Option.ite_none_right_eq_some, Option.some.injEq] at hstep
      obtain ⟨hpc, rfl⟩ := hstep
      exact h.resume hpc
    | suspend =>
      simp only [Frame.step, Option.ite_none_right_eq_some, Option.some.injEq] at hstep
      obtain ⟨⟨hpc, -⟩, rfl⟩ := hstep
      simpa [Seen, hpc] using h
    | use u =>
      cases u with
      | throw e => cases hstep
      | return_place _ | co_return _ =>
        simp only [Frame.step, Option.ite_none_right_eq_some, Option.map_eq_some_iff] at hstep
        obtain ⟨-, promise, -, rfl⟩ := hstep
        exact h.congr rfl rfl
    | unhandled_exception e rethrows =>
      simp only [Frame.step, Option.ite_none_right_eq_some, Frame.unhandled_exception] at hstep
      obtain ⟨hpc, hstep⟩ := hstep
      split at hstep
      case isTrue hnull =>
        rw [if_neg (by simp [hregular hnull]), Option.map_eq_some_iff] at hstep
        obtain ⟨promise, -, rfl⟩ := hstep
        exact h.congr rfl (by simp [Frame.access, Access.mark])
      case isFalse hnull =>
        rw [Option.map_eq_some_iff] at hstep
        obtain ⟨promise, -, rfl⟩ := hstep
        exact h.congr rfl rfl
    | final_suspend =>
      simp only [Frame.step, Option.ite_none_right_eq_some, Option.some.injEq] at hstep
      obtain ⟨⟨hpc, -⟩, rfl⟩ := hstep
      exact h.final_suspend hpc
    | transfer_control =>
      simp only [Frame.step, Option.ite_none_right_eq_some, Option.some.injEq] at hstep
      obtain ⟨hpc, rfl⟩ := hstep
      exact h.transfer_control hpc

/-- In every run, whatever way each task is started and comes to its end, its
context is told of the start once and of the end once. -/
theorem context_is_paired {s : State V E} {as : List (Action V E)}
    (hrun : Run (fun s a s' => Step left moved s a s' ∧ Meets Regular s a) (construct V E) as s) :
    ∀ f, f < s.created → Paired (s.frames f).log := fun _ hf =>
  ((seen_kept left moved).of_run hrun hf).paired

/-- A body that is suspended once and returns after its `start_result` is dropped. -/
theorem context_is_paired_of_dropped :
    ∃ s : State Nat Nat, (s.frames 0).pc = .destroyed ∧
      marks (s.frames 0).log = [.on_start, .step, .step, .finish, .on_end] ∧ Paired (s.frames 0).log := by
  let actions : List (Action Nat Nat) :=
    [.create 0 .object, .call 0 .start, .frame 0 .suspend, .frame 0 .drop_result, .frame 0 .resume,
      .frame 0 (.use (.co_return (.value 1))), .frame 0 .final_suspend,
      .frame 0 .transfer_control]
  let take (s : State Nat Nat) (a : Action Nat Nat) :=
    if Allowed s a ∧ Meets Regular s a then step (fun _ => none) id s a else none
  have htaken : (actions.foldlM take (construct Nat Nat)).any (fun s => 0 < s.created ∧ (s.frames 0).pc = .destroyed ∧
      marks (s.frames 0).log = [.on_start, .step, .step, .finish, .on_end]) = true := by
    decide +kernel
  obtain ⟨s, hs, hend⟩ := (Option.any_eq_true ..).mp htaken
  obtain ⟨hcreated, hpc, hmarks⟩ := of_decide_eq_true hend
  have hrun : Run (fun s a s' => Step (fun _ => none) id s a s' ∧ Meets Regular s a) (construct Nat Nat) actions s := by
    refine Run.of_foldlM (fun s a s' htake => ?_) hs
    obtain ⟨⟨hallowed, hmeets⟩, hstep⟩ := Option.ite_none_right_eq_some.mp htake
    exact ⟨⟨hallowed, hstep⟩, hmeets⟩
  exact ⟨s, hpc, hmarks, context_is_paired hrun 0 hcreated⟩

/-- `on_start` is invoked again when a `start_result` is awaited before the end. -/
theorem context_is_not_paired : ¬ ∀ (as : List (Action Nat Nat)) (s : State Nat Nat),
    Run (Step (fun _ => none) id) (construct Nat Nat) as s → ∀ f, f < s.created → Paired (s.frames f).log := by
  intro hall
  let take (s : State Nat Nat) (a : Action Nat Nat) := if Allowed s a then step (fun _ => none) id s a else none
  have htaken : Option.any (fun s => 0 < s.created ∧
      marks (s.frames 0).log = [.on_start, .step, .on_start, .step, .finish, .on_end])
      ([.create 0 .object, .call 0 .start, .frame 0 .suspend, .frame 0 (.co_await_result .co_await_ref),
        .frame 0 .resume, .frame 0 (.use (.co_return (.value 1))), .frame 0 .final_suspend,
        .frame 0 .transfer_control].foldlM take (construct Nat Nat)) = true := by
    decide +kernel
  obtain ⟨s, hs, hend⟩ := (Option.any_eq_true ..).mp htaken
  obtain ⟨hcreated, hmarks⟩ := of_decide_eq_true hend
  have hrun : Run (Step (fun _ => none) id) (construct Nat Nat) _ s :=
    Run.of_foldlM (fun s a s' htake => Option.ite_none_right_eq_some.mp htake) hs
  have hpaired := hall _ s hrun 0 hcreated
  unfold Paired at hpaired
  rw [hmarks] at hpaired
  obtain hnil | ⟨steps, heq⟩ := hpaired
  · cases hnil
  · cases steps with
    | zero => simp [finished_mem_iff, hmarks] at heq
    | succ steps => simp [List.replicate_succ] at heq

end kelcoro.task
