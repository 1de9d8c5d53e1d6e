import Kelcoro.Task.Invariant
import Mathlib

namespace kelcoro.task

open kelcoro.lib kelcoro.return_block

variable {V E : Type}

/-- `on_ignored_exception` does not throw. -/
def Ignored (frame : Frame V E) : Op V E → Prop
  | .unhandled_exception _ rethrows => frame.who_waits = .null → rethrows = false
  | _ => True

instance (frame : Frame V E) (op : Op V E) : Decidable (Ignored frame op) :=
  match op with
  | .unhandled_exception _ rethrows => inferInstanceAs (Decidable (frame.who_waits = .null → rethrows = false))
  | .destruct | .co_await _ | .get | .start | .start_and_detach _ | .co_await_result _ | .drop_result | .destroy | .resume
  | .suspend | .use _ | .final_suspend | .transfer_control => .isTrue trivial

def Access.milestone : Access → Bool
  | .awaited | .finished | .resumed | .destroyed => true
  | _ => false

/-- What decides whether a frame may be destroyed, the newest first. -/
def milestones (log : List Access) : List Access := log.filter Access.milestone

/-- What `who_waits` says while the coroutine is in progress. -/
inductive Waits : WhoWaits → Holder → List Access → Prop
  | task_object (c : Call) : Waits (.owner c) .task_object [.awaited]
  | start_result : Waits .noop (.start_result false) []
  | awaited (c : Call) : Waits (.owner c) (.start_result true) [.awaited]
  | caller : Waits .noop .caller []
  | nobody : Waits .null .nobody []

/-- The body is over and the coroutine that waited for that was resumed. -/
def Ended (log : List Access) : Prop :=
  milestones log = [.finished] ∨ milestones log = [.resumed, .finished, .awaited] ∨
    milestones log = [.resumed, .awaited, .finished]

/-- Who has the handle of a frame, by where the coroutine is. -/
def Disposed (frame : Frame V E) : Prop :=
  match frame.pc with
  | .initial_suspend => frame.holder = .task_object ∧ milestones frame.log = [] ∧ .stepped ∉ frame.log
  | .running | .suspended => Waits frame.who_waits frame.holder (milestones frame.log)
  | .ending => ∃ before, Waits frame.who_waits frame.holder before ∧
      (milestones frame.log = .finished :: before ∨ milestones frame.log = before ++ [.finished])
  | .final_suspend => frame.holder ≠ .nobody ∧ Ended frame.log
  | .destroyed => frame.holder = .nobody ∧ ∃ log, frame.log = .destroyed :: log ∧
      (milestones log = [] ∧ .stepped ∉ log ∨ Ended log)

variable {left : E → Option E} {moved : V → V} {frame frame' : Frame V E} {log : List Access} {e : Access}
  {held : Prop}

@[simp] theorem milestones_cons : milestones (e :: log) = if e.milestone then e :: milestones log else milestones log :=
  List.filter_cons

theorem mem_milestones (log : List Access) (he : e.milestone = true) : e ∈ milestones log ↔ e ∈ log := by
  simp [milestones, he]

theorem count_milestones (he : e.milestone = true) : (milestones log).count e = log.count e :=
  List.count_filter he

theorem held_of_keeps {op : Op V E} (hheld : held ↔ frame.holder = .task_object) (hkeeps : op.releases = false)
    (hsame : frame'.holder = frame.holder) : held ∧ op.releases = false ↔ frame'.holder = .task_object := by
  rw [hsame, ← hheld]
  exact and_iff_left hkeeps

namespace Disposed

theorem of_initial (h : Disposed frame) (hpc : frame.pc = .initial_suspend) :
    frame.holder = .task_object ∧ milestones frame.log = [] ∧ .stepped ∉ frame.log := by
  simpa [Disposed, hpc] using h

theorem of_done (h : Disposed frame) (hdone : frame.done) : frame.holder ≠ .nobody ∧ Ended frame.log := by
  have hpc : frame.pc = .final_suspend := hdone
  simpa [Disposed, hpc] using h

/-- A frame that is done, accessed by who has it. -/
theorem done_of_ended (hpc : frame.pc = .final_suspend) (hholder : frame.holder ≠ .nobody)
    (hended : Ended frame.log) : Disposed frame := by
  simpa [Disposed, hpc] using ⟨hholder, hended⟩

/-- A coroutine that is not in progress any more, and that somebody has, is at its end. -/
theorem done_of_stopped (h : Disposed frame) (hstopped : frame.stopped) (hholder : frame.holder ≠ .nobody) : frame.done := by
  refine hstopped.resolve_right fun hpc => ?_
  simp only [Disposed, hpc] at h
  exact hholder h.1

theorem destroy (hnobody : frame.holder = .nobody)
    (hlog : milestones frame.log = [] ∧ .stepped ∉ frame.log ∨ Ended frame.log) : Disposed frame.destroy :=
  ⟨hnobody, frame.log, rfl, hlog⟩

theorem resume (hwaits : Waits frame.who_waits frame.holder (milestones frame.log)) : Disposed frame.resume := by
  simpa [Disposed, Frame.resume, Frame.access, Access.milestone] using hwaits

theorem await_suspend (h : Disposed frame) (hpc : frame.pc = .initial_suspend) (c : Call) :
    Disposed (frame.await_suspend c) := by
  obtain ⟨hholder, hlog, -⟩ := h.of_initial hpc
  apply resume
  simp only [Frame.prepare_task_to_start, Frame.access, milestones_cons, Access.milestone, hholder, hlog]
  exact .task_object c

theorem read (h : Disposed frame) (hdone : frame.done) (c : Call) :
    Disposed ((frame.access .accessed).read left moved c) := by
  obtain ⟨hholder, hended⟩ := h.of_done hdone
  exact done_of_ended hdone hholder (by simpa [Ended, Frame.read, Frame.access, Access.milestone] using hended)

theorem accessed (h : Disposed frame) (hpc : frame.pc = .initial_suspend) : Disposed (frame.access .accessed) := by
  simp only [Disposed, hpc] at h
  simpa [Disposed, Frame.access, hpc, Access.milestone] using h

theorem start_and_detach (h : Disposed frame) (hpc : frame.pc = .initial_suspend ∨ frame.done) {stop_at_end : Bool} :
    (held ∧ (Op.start_and_detach stop_at_end : Op V E).releases = false ↔
      (frame.start_and_detach stop_at_end).holder = .task_object) ∧ Disposed (frame.start_and_detach stop_at_end) := by
  unfold Frame.start_and_detach
  dsimp only
  split
  case isTrue hdone =>
    obtain ⟨-, hended⟩ := h.of_done hdone
    have haccessed : Ended (frame.access .accessed).log := by
      simpa [Ended, Frame.access, Access.milestone] using hended
    cases stop_at_end with
    | false =>
      have hdestroyed : Disposed ({ frame with who_waits := .null, holder := .nobody }.access .accessed).destroy :=
        destroy rfl (Or.inr haccessed)
      exact ⟨by simp [Op.releases, Frame.destroy, Frame.access], hdestroyed⟩
    | true => exact ⟨by simp [Op.releases], done_of_ended hdone (by simp) haccessed⟩
  case isFalse hdone =>
    obtain ⟨-, hlog, -⟩ := h.of_initial (hpc.resolve_right hdone)
    refine ⟨by cases stop_at_end <;> simp [Op.releases, Frame.resume, Frame.access], resume ?_⟩
    simp only [Frame.access, milestones_cons, Access.milestone, hlog]
    cases stop_at_end with
    | false => exact .nobody
    | true => exact .caller

/-- A frame that a `start_result` has, and that is not done, is in progress. -/
theorem of_start_result (h : Disposed frame) (hholder : frame.holder = .start_result false) (hnot : ¬ frame.done) :
    (frame.pc = .running ∨ frame.pc = .suspended) ∧ milestones frame.log = [] ∨
      frame.pc = .ending ∧ milestones frame.log = [.finished] := by
  have hbefore : ∀ before, Waits frame.who_waits frame.holder before → before = [] := by
    intro before hwaits
    rw [hholder] at hwaits
    generalize frame.who_waits = who at hwaits
    cases hwaits
    rfl
  cases hpc : frame.pc with
  | initial_suspend => simp [Disposed, hpc, hholder] at h
  | running | suspended =>
    simp only [Disposed, hpc] at h
    exact Or.inl ⟨by simp, hbefore _ h⟩
  | ending =>
    simp only [Disposed, hpc] at h
    obtain ⟨before, hwaits, hlog⟩ := h
    rw [hbefore _ hwaits] at hlog
    exact Or.inr ⟨rfl, by simpa using hlog⟩
  | final_suspend => exact absurd hpc hnot
  | destroyed => simp [Disposed, hpc, hholder] at h

theorem co_await_result (h : Disposed frame) (hallows : frame.holder = .start_result false) (c : Call) :
    Disposed (frame.co_await_result left moved c) := by
  unfold Frame.co_await_result
  dsimp only
  split
  case isTrue hdone =>
    obtain ⟨-, hended⟩ := h.of_done hdone
    exact done_of_ended hdone (by simp [Frame.read, Frame.access])
      (by simpa [Ended, Frame.read, Frame.access, Access.milestone] using hended)
  case isFalse hnot =>
    obtain ⟨hpc | hpc, hlog⟩ | ⟨hpc, hlog⟩ := h.of_start_result hallows hnot
    · simp [Disposed, Frame.prepare_task_to_start, Frame.access, hpc, hlog, Access.milestone, Waits.awaited]
    · simp [Disposed, Frame.prepare_task_to_start, Frame.access, hpc, hlog, Access.milestone, Waits.awaited]
    · simp only [Disposed, Frame.prepare_task_to_start, Frame.access, hpc]
      exact ⟨_, .awaited c, Or.inr (by simp [hlog, Access.milestone])⟩

theorem drop_result (h : Disposed frame)
    (hallows : frame.holder = .start_result false ∨ frame.holder = .start_result true ∧ frame.stopped) :
    Disposed frame.drop_result := by
  have hallows : frame.holder = .start_result false ∨ frame.holder = .start_result true ∧ frame.done :=
    hallows.imp_right fun ⟨hholder, hstopped⟩ => ⟨hholder, h.done_of_stopped hstopped (by simp [hholder])⟩
  unfold Frame.drop_result
  dsimp only
  split
  case isTrue hdone =>
    obtain ⟨-, hended⟩ := h.of_done hdone
    exact destroy rfl (Or.inr (by simpa [Ended, Frame.access, Access.milestone] using hended))
  case isFalse hnot =>
    have hholder : frame.holder = .start_result false := hallows.resolve_right fun hdone => hnot hdone.2
    obtain ⟨hpc | hpc, hlog⟩ | ⟨hpc, hlog⟩ := h.of_start_result hholder hnot
    · simp [Disposed, Frame.access, hpc, hlog, Access.milestone, Waits.nobody]
    · simp [Disposed, Frame.access, hpc, hlog, Access.milestone, Waits.nobody]
    · simp only [Disposed, Frame.access, hpc]
      exact ⟨_, .nobody, Or.inl (by simp [hlog, Access.milestone])⟩

theorem holder_transfer_control (left : E → Option E) (moved : V → V) (h : Disposed frame) (hpc : frame.pc = .ending) :
    frame.holder = .task_object ↔ (frame.transfer_control left moved).holder = .task_object := by
  simp only [Disposed, hpc] at h
  obtain ⟨before, hwaits, -⟩ := h
  unfold Frame.transfer_control
  generalize hwho : frame.who_waits = who at hwaits
  generalize hholder : frame.holder = holder at hwaits
  cases hwaits with
  | task_object c | awaited c => simp [Frame.read, Frame.access]
  | start_result | caller => simp
  | nobody => simp [Frame.destroy, Frame.access, hholder]

theorem transfer_control (h : Disposed frame) (hpc : frame.pc = .ending) :
    Disposed (frame.transfer_control left moved) := by
  simp only [Disposed, hpc] at h
  obtain ⟨before, hwaits, hlog⟩ := h
  unfold Frame.transfer_control
  generalize hwho : frame.who_waits = who at hwaits
  generalize hholder : frame.holder = holder at hwaits
  cases hwaits with
  | task_object c | awaited c =>
    refine done_of_ended rfl (by simp [Frame.read, Frame.access]) (Or.inr ?_)
    simpa [Frame.read, Frame.access, Access.milestone] using hlog
  | start_result | caller => exact done_of_ended rfl (by simp) (Or.inl (by simpa using hlog))
  | nobody => exact destroy hholder (Or.inr (Or.inl (by simpa using hlog)))

end Disposed

/-- A task has the handle of a frame that no `start_result` and no caller has. -/
theorem disposed_kept (left : E → Option E) (moved : V → V) :
    Kept left moved Ignored fun frame held => (held ↔ frame.holder = .task_object) ∧ Disposed frame where
  construct spec held hheld := ⟨iff_of_true hheld rfl, rfl, rfl, by simp [Frame.construct]⟩
  step frame frame' op held hsound hallows hignored hof hstep := by
    obtain ⟨hheld, h⟩ := hsound
    cases op with
    | destruct =>
      cases hstep
      refine ⟨by simp [Op.releases, Frame.destroy, Frame.access], ?_⟩
      refine Disposed.destroy rfl ?_
      obtain hpc | hstopped := hallows
      · exact Or.inl (h.of_initial hpc).2
      · have hholder : frame.holder = .task_object := hheld.mp (hof trivial)
        exact Or.inr (h.of_done (h.done_of_stopped hstopped (by simp [hholder]))).2
    | co_await c =>
      cases hstep
      simp only [Op.releases, and_true, Frame.co_await]
      split
      case isTrue hdone => exact ⟨hheld, h.read hdone c⟩
      case isFalse hdone =>
        have haccessed : Disposed (frame.access .accessed) := h.accessed (hallows.resolve_right hdone)
        exact ⟨hheld, haccessed.await_suspend (hallows.resolve_right hdone) c⟩
    | get =>
      cases hstep
      simp only [Op.releases, and_true, Frame.get]
      split
      case isTrue hdone => exact ⟨hheld, h.read hdone .get⟩
      case isFalse hdone =>
        have haccessed : Disposed (frame.access .accessed) := h.accessed (hallows.resolve_right hdone)
        exact ⟨hheld, haccessed.await_suspend (hallows.resolve_right hdone) .get⟩
    | start =>
      cases hstep
      refine ⟨by simp [Op.releases, Frame.start, Frame.resume, Frame.access], ?_⟩
      obtain ⟨-, hlog, -⟩ := h.of_initial hallows
      apply Disposed.resume
      simp only [Frame.access, milestones_cons, Access.milestone, hlog]
      exact .start_result
    | start_and_detach stop_at_end =>
      cases hstep
      exact h.start_and_detach hallows
    | co_await_result c =>
      cases hstep
      have hholder : frame.holder = .start_result false := hallows
      refine ⟨?_, h.co_await_result hallows c⟩
      have hnot : ¬ held := by simp [hheld, hholder]
      have hkept : (frame.co_await_result left moved c).holder = .start_result true := by
        unfold Frame.co_await_result
        dsimp only
        split <;> rfl
      simp [hnot, hkept]
    | drop_result =>
      cases hstep
      refine ⟨?_, h.drop_result hallows⟩
      have hnot : ¬ held := by
        obtain hholder | ⟨hholder, -⟩ := hallows <;> simp [hheld, hholder]
      have hnobody : frame.drop_result.holder = .nobody := by
        unfold Frame.drop_result
        dsimp only
        split <;> rfl
      simp [hnot, hnobody]
    | destroy =>
      cases hstep
      obtain ⟨hholder, hstopped⟩ := hallows
      have hnot : ¬ held := by simp [hheld, hholder]
      have hdone := h.done_of_stopped hstopped (by simp [hholder])
      exact ⟨by simp [hnot, Frame.destroy, Frame.access], .destroy rfl (Or.inr (h.of_done hdone).2)⟩
    | resume =>
      simp only [Frame.step, Option.ite_none_right_eq_some, Option.some.injEq] at hstep
      obtain ⟨hpc, rfl⟩ := hstep
      refine ⟨held_of_keeps hheld rfl rfl, .resume ?_⟩
      simpa [Disposed, hpc] using h
    | suspend =>
      simp only [Frame.step, Option.ite_none_right_eq_some, Option.some.injEq] at hstep
      obtain ⟨⟨hpc, -⟩, rfl⟩ := hstep
      refine ⟨held_of_keeps hheld rfl rfl, ?_⟩
      simpa [Disposed, hpc] using h
    | use u =>
      cases u with
      | throw e => cases hstep
      | return_place _ | co_return _ =>
        simp only [Frame.step, Option.ite_none_right_eq_some, Option.map_eq_some_iff] at hstep
        obtain ⟨-, promise, -, rfl⟩ := hstep
        exact ⟨held_of_keeps hheld rfl rfl, h⟩
    | unhandled_exception e rethrows =>
      simp only [Frame.step, Option.ite_none_right_eq_some, Frame.unhandled_exception] at hstep
      obtain ⟨hpc, hstep⟩ := hstep
      split at hstep
      case isTrue hnull =>
        rw [if_neg (by simp [hignored hnull]), Option.map_eq_some_iff] at hstep
        obtain ⟨promise, -, rfl⟩ := hstep
        refine ⟨held_of_keeps hheld rfl rfl, ?_⟩
        simpa [Disposed, Frame.access, hpc, Access.milestone] using h
      case isFalse hnull =>
        rw [Option.map_eq_some_iff] at hstep
        obtain ⟨promise, -, rfl⟩ := hstep
        exact ⟨held_of_keeps hheld rfl rfl, h⟩
    | final_suspend =>
      simp only [Frame.step, Option.ite_none_right_eq_some, Option.some.injEq] at hstep
      obtain ⟨⟨hpc, -⟩, rfl⟩ := hstep
      refine ⟨held_of_keeps hheld rfl rfl, ?_⟩
      simp only [Disposed, hpc] at h
      exact ⟨_, h, Or.inl (by simp [Frame.final_suspend, Frame.access, Access.milestone])⟩
    | transfer_control =>
      simp only [Frame.step, Option.ite_none_right_eq_some, Option.some.injEq] at hstep
      obtain ⟨hpc, rfl⟩ := hstep
      have hsame := h.holder_transfer_control left moved hpc
      exact ⟨by simpa [Op.releases] using hheld.trans hsame, h.transfer_control hpc⟩

theorem milestones_append {later : List Access} : milestones (later ++ log) = milestones later ++ milestones log :=
  List.filter_append ..

namespace Ended

theorem destroyed_not_mem (h : Ended log) : .destroyed ∉ log := by
  rw [← mem_milestones _ rfl]
  obtain h | h | h := h <;> simp [h]

theorem finished_mem (h : Ended log) : .finished ∈ log := by
  rw [← mem_milestones _ rfl]
  obtain h | h | h := h <;> simp [h]

theorem count_awaited (h : Ended log) : log.count .awaited ≤ 1 := by
  rw [← count_milestones rfl]
  obtain h | h | h := h <;> simp [h]

theorem count_resumed (h : Ended log) : log.count .resumed = log.count .awaited := by
  rw [← count_milestones rfl, ← count_milestones (e := .awaited) rfl]
  obtain h | h | h := h <;> simp [h]

theorem resumed_after (h : Ended log) {later earlier : List Access} (hsplit : log = later ++ .resumed :: earlier) :
    .finished ∈ earlier ∧ .awaited ∈ earlier := by
  have hmilestones : milestones log = milestones later ++ .resumed :: milestones earlier := by
    rw [hsplit, milestones_append, milestones_cons]
    rfl
  -- The coroutine is resumed at the end.
  have htail : ∀ rest, milestones log = .resumed :: rest → .resumed ∉ rest → milestones earlier = rest := by
    intro rest hlog hnot
    have heq : [] ++ .resumed :: rest = milestones later ++ .resumed :: milestones earlier := hlog.symm.trans hmilestones
    exact ((List.append_cons_inj_of_notMem (by simp) hnot).mp heq).2.2.symm
  rw [← mem_milestones earlier rfl, ← mem_milestones earlier rfl]
  obtain h | h | h := h
  · have hmem : .resumed ∈ milestones log := by simp [hmilestones]
    simp [h] at hmem
  · simp [htail _ h (by simp)]
  · simp [htail _ h (by simp)]

end Ended

/-- The log of a frame that is in progress. -/
theorem Waits.milestones_in_progress {who : WhoWaits} {holder : Holder} {before : List Access}
    (h : Waits who holder before) : .destroyed ∉ before ∧ .resumed ∉ before ∧ before.count .awaited ≤ 1 := by
  cases h <;> simp

/-- A frame is destroyed once, after its body is over or before it has begun, and it
is not accessed after that, and nobody has its handle any more. A coroutine that awaits
it is resumed once, after its body is over. -/
structure Settled (frame : Frame V E) (held : Prop) : Prop where
  destroyed_once : frame.log.count .destroyed ≤ 1
  destroyed_in_time : ∀ later log, frame.log = later ++ .destroyed :: log → .finished ∈ log ∨ .stepped ∉ log
  destroyed_last : ∀ later log, frame.log = later ++ .destroyed :: log → later = []
  let_go : .destroyed ∈ frame.log → ¬ held ∧ frame.holder = .nobody
  /-- Only a frame that somebody has, or that is in progress, is not destroyed. -/
  destroyed : .destroyed ∉ frame.log → held ∨ frame.holder = .caller ∨ (∃ awaited, frame.holder = .start_result awaited) ∨
    frame.pc = .running ∨ frame.pc = .suspended ∨ frame.pc = .ending
  awaited_once : frame.log.count .awaited ≤ 1
  resumed_after : ∀ later log, frame.log = later ++ .resumed :: log → .finished ∈ log ∧ .awaited ∈ log
  resumed_once : frame.log.count .resumed =
    if frame.pc = .final_suspend ∨ frame.pc = .destroyed then frame.log.count .awaited else 0

namespace Settled

theorem of_destroyed (hpc : frame.pc = .destroyed) (hheld : ¬ held) (hnobody : frame.holder = .nobody)
    (hlog : frame.log = .destroyed :: log)
    (hsound : milestones log = [] ∧ .stepped ∉ log ∨ Ended log) : Settled frame held := by
  have hnot : .destroyed ∉ log := by
    rw [← mem_milestones _ rfl]
    obtain ⟨hnil, -⟩ | hended := hsound
    · simp [hnil]
    · exact fun hmem => hended.destroyed_not_mem ((mem_milestones _ rfl).mp hmem)
  have hsplit : ∀ later earlier, frame.log = later ++ .destroyed :: earlier → later = [] ∧ earlier = log := by
    intro later earlier heq
    have happend : [] ++ .destroyed :: log = later ++ .destroyed :: earlier := hlog.symm.trans heq
    have hsame := (List.append_cons_inj_of_notMem (by simp) hnot).mp happend
    exact ⟨hsame.1.symm, hsame.2.2.symm⟩
  have hnone : milestones log = [] → log.count .awaited = 0 ∧ log.count .resumed = 0 := by
    intro hnil
    rw [← count_milestones rfl, ← count_milestones (e := .resumed) rfl]
    simp [hnil]
  refine ⟨?_, ?_, fun later earlier heq => (hsplit later earlier heq).1, fun _ => ⟨hheld, hnobody⟩, ?_, ?_, ?_, ?_⟩
  · simp [hlog, List.count_eq_zero.mpr hnot]
  · intro later earlier heq
    rw [(hsplit later earlier heq).2]
    exact hsound.symm.imp Ended.finished_mem And.right
  · simp [hlog]
  · rw [hlog, List.count_cons_of_ne (by simp)]
    obtain ⟨hnil, -⟩ | hended := hsound
    · simp [(hnone hnil).1]
    · exact hended.count_awaited
  · intro later earlier heq
    cases later with
    | nil => cases hlog.symm.trans heq
    | cons e later =>
      obtain ⟨-, htail⟩ := List.cons.inj (hlog.symm.trans heq)
      obtain ⟨hnil, -⟩ | hended := hsound
      · have hmem : .resumed ∈ milestones log := (mem_milestones _ rfl).mpr (by simp [htail])
        simp [hnil] at hmem
      · exact hended.resumed_after htail
  · rw [if_pos (Or.inr hpc), hlog, List.count_cons_of_ne (by simp), List.count_cons_of_ne (by simp)]
    obtain ⟨hnil, -⟩ | hended := hsound
    · rw [(hnone hnil).1, (hnone hnil).2]
    · exact hended.count_resumed

/-- The frame is not destroyed, and its coroutine is not at its end. -/
theorem of_in_progress (hnot : ¬ (frame.pc = .final_suspend ∨ frame.pc = .destroyed))
    (hholder : held ∨ frame.holder = .caller ∨ (∃ awaited, frame.holder = .start_result awaited) ∨
      frame.pc = .running ∨ frame.pc = .suspended ∨ frame.pc = .ending)
    (hdestroyed : .destroyed ∉ milestones frame.log) (hresumed : .resumed ∉ milestones frame.log)
    (hawaited : (milestones frame.log).count .awaited ≤ 1) : Settled frame held := by
  rw [mem_milestones _ rfl] at hdestroyed hresumed
  rw [count_milestones rfl] at hawaited
  refine ⟨?_, ?_, ?_, fun hmem => absurd hmem hdestroyed, fun _ => hholder, hawaited, ?_, ?_⟩
  · simp [List.count_eq_zero.mpr hdestroyed]
  · intro later earlier heq
    exact absurd (by simp [heq]) hdestroyed
  · intro later earlier heq
    exact absurd (by simp [heq]) hdestroyed
  · intro later earlier heq
    exact absurd (by simp [heq]) hresumed
  · rw [if_neg hnot, List.count_eq_zero.mpr hresumed]

theorem of_disposed (hheld : held ↔ frame.holder = .task_object) (h : Disposed frame) : Settled frame held := by
  cases hpc : frame.pc with
  | initial_suspend =>
    obtain ⟨hholder, hlog, -⟩ := h.of_initial hpc
    exact of_in_progress (by simp [hpc]) (Or.inl (hheld.mpr hholder)) (by simp [hlog]) (by simp [hlog]) (by simp [hlog])
  | running | suspended =>
    simp only [Disposed, hpc] at h
    obtain ⟨hdestroyed, hresumed, hawaited⟩ := h.milestones_in_progress
    exact of_in_progress (by simp [hpc]) (by simp [hpc]) hdestroyed hresumed hawaited
  | ending =>
    simp only [Disposed, hpc] at h
    obtain ⟨before, hwaits, hlog⟩ := h
    obtain ⟨hdestroyed, hresumed, hawaited⟩ := hwaits.milestones_in_progress
    have hmem : ∀ e, e ≠ .finished → (e ∈ milestones frame.log ↔ e ∈ before) := by
      intro e he
      obtain hlog | hlog := hlog <;> simp [hlog, he]
    have hcount : (milestones frame.log).count .awaited = before.count .awaited := by
      obtain hlog | hlog := hlog <;> simp [hlog]
    exact of_in_progress (by simp [hpc]) (by simp [hpc]) (by simpa [hmem] using hdestroyed)
      (by simpa [hmem] using hresumed) (by simpa [hcount] using hawaited)
  | final_suspend =>
    obtain ⟨hholder, hended⟩ := h.of_done hpc
    have hnot := hended.destroyed_not_mem
    refine ⟨?_, ?_, ?_, fun hmem => absurd hmem hnot, ?_, hended.count_awaited,
      fun later earlier heq => hended.resumed_after heq, ?_⟩
    · simp [List.count_eq_zero.mpr hnot]
    · intro later earlier heq
      exact absurd (by simp [heq]) hnot
    · intro later earlier heq
      exact absurd (by simp [heq]) hnot
    · intro _
      rw [hheld]
      cases hsame : frame.holder with
      | task_object | caller => simp
      | start_result awaited => simp
      | nobody => exact absurd hsame hholder
    · rw [if_pos (Or.inl hpc)]
      exact hended.count_resumed
  | destroyed =>
    simp only [Disposed, hpc] at h
    obtain ⟨hnobody, log, hlog, hsound⟩ := h
    have hnot : ¬ held := by simp [hheld, hnobody]
    exact of_destroyed hpc hnot hnobody hlog hsound

end Settled

end kelcoro.task
