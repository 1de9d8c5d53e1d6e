import Kelcoro.ThreadPool.Order
import Kelcoro.ThreadPool.Resumed
import Mathlib

namespace kelcoro.thread_pool

open kelcoro.lib

variable {α : Type}

/-- The node that is resumed next by a `cancel_tasks`, and the status that it has. -/
def Cancel.resumes (s : State α) : Cancel α → Option (α × schedule_errc)
  | .loop _ => none
  | .resume v _ _ => some (v, s.status v)

/-- The node whose coroutine is resumed in a step, and the status that it has. -/
def resumes (s : State α) : Action α → Option (α × schedule_errc)
  | .run w =>
    match s.workers w with
    | .resume v _ _ => some (v, s.status v)
    | .cancel c => c.resumes s
    | _ => none
  | .stop => s.stop.cancel_tasks.bind (·.resumes s)
  | _ => none

/-- The node that a step attaches. -/
def Action.Attaches (a : Action α) (v : α) : Prop :=
  match a with
  | .attach _ u _ | .push_deadpill _ _ u _ => u = v
  | _ => False

/-- The memory of which a step makes a pill. -/
def Action.Makes (a : Action α) (v : α) : Prop :=
  match a with
  | .push_deadpill _ p _ _ | .destroy p => p = v
  | _ => False

variable [DecidableEq α]

/-- Node `v` was attached and its coroutine was not resumed yet. -/
def State.Has (s : State α) (v : α) : Prop := ∃ q, life v s.log = .node q

variable {n : Nat} {s s' s₁ : State α} {place : α → Place} {blocks : Holder → List (Block α)} {v u p : α} {q w i : Nat}
  {a : Action α} {log : List (Event α)} {e : Event α} {status : schedule_errc} {c c' : Cancel α}

/-- A pill that is made or is gone is no node. -/
theorem node_cons (h : Lawful Follows (e :: log)) (v : α) : (∃ q, life v (e :: log) = .node q) ↔
    (∃ q, e = .attached v q) ∨ (∃ q, life v log = .node q) ∧ ¬ e.Resumes v := by
  obtain ⟨hfollows, -⟩ := h
  cases e with
  | attached u q =>
    by_cases hu : u = v
    · simp [life_attached, hu]
    · simp [life_attached, hu, Event.Resumes]
  | pill u =>
    have hgone : life u log = .gone := hfollows
    by_cases hu : u = v
    · subst hu
      simp [life_pill, hgone]
    · simp [life_pill, hu, Event.Resumes]
  | touched u => simp [Event.Resumes]
  | resumed u status worker =>
    by_cases hu : u = v
    · simp [life_resumed, hu, Event.Resumes]
    · simp [life_resumed, hu, Event.Resumes]
  | destroyed u =>
    have hpill : life u log = .pill := hfollows
    by_cases hu : u = v
    · subst hu
      simp [life_destroyed, hpill]
    · simp [life_destroyed, hu, Event.Resumes]

/-- A node that is resumed was there, and is not there any more. -/
theorem has_resume {task : Task α} {worker : Option Nat} (h : Lawful Follows (s.resume v task worker).log) :
    s.Has v ∧ ∀ u, (s.resume v task worker).Has u ↔ s.Has u ∧ u ≠ v := by
  have hresumed : ∀ u, (∃ q, life u (.resumed v (s.status v) worker :: s.log) = .node q) ↔ s.Has u ∧ u ≠ v := by
    intro u
    by_cases hu : v = u
    · simp [life_resumed, hu]
    · simp [life_resumed, hu, State.Has, Ne.symm hu]
  cases task with
  | null | coroutine =>
    obtain ⟨q, hq, -⟩ := h.1
    exact ⟨⟨q, hq⟩, hresumed⟩
  | push_deadpill p =>
    obtain ⟨q, hq, -⟩ := h.2.1
    refine ⟨⟨q, hq⟩, fun u => ?_⟩
    rw [← hresumed u]
    have hdestroyed : (s.resume v (.push_deadpill p) worker).Has u ↔ _ := node_cons h u
    rw [hdestroyed]
    simp [Event.Resumes, State.record]

theorem has_cancel (hcancel : s.cancel c = some (c', s₁)) (h : Lawful Follows s₁.log) (u : α) :
    (s₁.Has u ↔ s.Has u ∧ ∀ status, c.resumes s ≠ some (u, status)) ∧ ∀ status, c.resumes s = some (u, status) →
      s.Has u ∧ ∃ top, c' = .loop top := by
  cases cancel_step hcancel with
  | skip v htask | take v htask => exact ⟨by simp [State.Has, State.record, Cancel.resumes], by simp [Cancel.resumes]⟩
  | resume v task top =>
    obtain ⟨hv, hothers⟩ := has_resume h
    refine ⟨by simp [hothers u, Cancel.resumes, eq_comm], fun status hresumes => ?_⟩
    cases hresumes
    exact ⟨hv, top, rfl⟩

/-- What a worker does to the nodes. -/
theorem has_run (hrun : run s w = some s') (h : Lawful Follows s'.log) (u : α) :
    (s'.Has u ↔ s.Has u ∧ ∀ status, resumes s (.run w) ≠ some (u, status)) ∧
      ∀ status, resumes s (.run w) = some (u, status) →
        s.Has u ∧ ((∃ top, s'.workers w = .busy top) ∨ ∃ top, s'.workers w = .cancel (.loop top)) := by
  cases run_step hrun with
  | pop top hpc htop | last hpc | next v hpc | exit hpc | pill v hpc htask | take v hpc htask =>
    exact ⟨by simp [State.Has, State.goto, State.record, State.pop_all, resumes, hpc, Cancel.resumes],
      by simp [resumes, hpc, Cancel.resumes]⟩
  | resume v task top hpc =>
    have hresume : Lawful Follows (s.resume v task (some w)).log := h
    obtain ⟨hv, hothers⟩ := has_resume hresume
    refine ⟨(hothers u).trans (by simp [resumes, hpc, eq_comm]), fun status hresumes => ?_⟩
    simp only [resumes, hpc, Option.some.injEq, Prod.mk.injEq] at hresumes
    obtain ⟨rfl, -⟩ := hresumes
    exact ⟨hv, .inl ⟨top, by simp [State.goto]⟩⟩
  | cancel c c' s₁ hpc hcancel =>
    obtain ⟨hothers, hv⟩ := has_cancel hcancel h u
    have hresumes : resumes s (.run w) = c.resumes s := by simp [resumes, hpc]
    rw [hresumes]
    refine ⟨hothers, fun status hstatus => ?_⟩
    obtain ⟨hu, top, rfl⟩ := hv status hstatus
    exact ⟨hu, .inr ⟨top, by simp [State.goto]⟩⟩

/-- What a `cancel_tasks` of the thread that stops the pool does to the nodes. -/
theorem has_cancel_queue {c : Option (Cancel α)} {to_stop : Option (Cancel α) → Stop α} {done : Stop α}
    (hstep : s.cancel_queue i c to_stop done = some s') (hc : s.stop.cancel_tasks = c)
    (hplace : ∀ c, (to_stop c).cancel_tasks = c) (h : Lawful Follows s'.log) (u : α) :
    (s'.Has u ↔ s.Has u ∧ ∀ status, resumes s .stop ≠ some (u, status)) ∧
      ∀ status, resumes s .stop = some (u, status) → s.Has u ∧ ∃ top, s'.stop.cancel_tasks = some (.loop top) := by
  cases cancel_queue_step hstep with
  | pop_all => exact ⟨by simp [State.Has, State.pop_all, resumes, hc], by simp [resumes, hc]⟩
  | done => exact ⟨by simp [State.Has, resumes, hc, Cancel.resumes], by simp [resumes, hc, Cancel.resumes]⟩
  | cancel c c' s₁ hcancel =>
    obtain ⟨hothers, hv⟩ := has_cancel hcancel h u
    have hresumes : resumes s .stop = c.resumes s := by simp [resumes, hc]
    rw [hresumes]
    refine ⟨hothers, fun status hstatus => ?_⟩
    obtain ⟨hu, top, rfl⟩ := hv status hstatus
    exact ⟨hu, top, hplace _⟩

theorem has_stop (hle : s.stop.emptied n ≤ n) (hstep : stop n s = some s') (h : Lawful Follows s'.log) (u : α) :
    (s'.Has u ↔ s.Has u ∧ ∀ status, resumes s .stop ≠ some (u, status)) ∧
      ∀ status, resumes s .stop = some (u, status) → s.Has u ∧ ∃ top, s'.stop.cancel_tasks = some (.loop top) := by
  cases stop_step hstep with
  | wait_join i hstop hi hexited | wait_joined i hstop hi | pushed i p hstop hi | join i p hstop hexited =>
    exact ⟨by simp [State.Has, resumes, hstop, Stop.cancel_tasks], by simp [resumes, hstop, Stop.cancel_tasks]⟩
  | push i p hstop hi =>
    refine ⟨?_, by simp [resumes, hstop, Stop.cancel_tasks]⟩
    simp [State.Has, resumes, hstop, Stop.cancel_tasks, life_push_list]
  | wait_cancel i c s' hstop hi hcancel | cancel i p c s' hstop hcancel | drain i p c s' hstop hi hcancel =>
    exact has_cancel_queue hcancel (by rw [hstop]; rfl) (fun _ => rfl) h u
  | wait_end i c hstop hi =>
    cases c with
    | none => exact ⟨by simp [State.Has, resumes, hstop, Stop.cancel_tasks], by simp [resumes, hstop, Stop.cancel_tasks]⟩
    | some c => simp only [hstop, Stop.emptied] at hle; omega
  | finish i p c hstop hi =>
    cases c with
    | none =>
      refine ⟨?_, by simp [resumes, hstop, Stop.cancel_tasks]⟩
      refine (node_cons h u).trans ?_
      simp [State.Has, resumes, hstop, Stop.cancel_tasks, Event.Resumes]
    | some c => simp only [hstop, Stop.emptied] at hle; omega

theorem destroy_log (hstep : step n s (.destroy p) = some s') : s'.log = .pill p :: s.log := by
  obtain ⟨-, hstep⟩ := Option.ite_none_right_eq_some.mp hstep
  split at hstep
  · cases hstep
    rfl
  · cases hstep
    rfl
  · cases hstep

/-- The nodes in the pool: what is attached comes to them, what is resumed goes. -/
theorem has_step (h : Inv n s place blocks) (hstep : step n s a = some s') (u : α) :
    (s'.Has u ↔ a.Attaches u ∨ s.Has u ∧ ∀ status, resumes s a ≠ some (u, status)) ∧
      ∀ status, resumes s a = some (u, status) → s.Has u := by
  obtain ⟨place', blocks', h'⟩ := h.step hstep
  have hlawful := h'.core.lawful
  cases a with
  | attach user v q =>
    obtain ⟨-, heq⟩ := Option.ite_none_right_eq_some.mp hstep
    cases heq
    refine ⟨?_, by simp [resumes]⟩
    by_cases hv : v = u
    · simp [State.Has, State.attach, life_push_list, life_attached, Action.Attaches, hv]
    · simp [State.Has, State.attach, life_push_list, life_attached, Action.Attaches, hv, resumes]
  | push_deadpill user p v q =>
    obtain ⟨⟨-, -, hp, -⟩, heq⟩ := Option.ite_none_right_eq_some.mp hstep
    cases heq
    refine ⟨?_, by simp [resumes]⟩
    by_cases hv : v = u
    · simp [State.Has, State.push_deadpill, life_push_list, life_attached, Action.Attaches, hv]
    · by_cases hpu : p = u
      · subst hpu
        simp [State.Has, State.push_deadpill, life_push_list, life_attached, life_pill, Action.Attaches, hv, hp, resumes]
      · simp [State.Has, State.push_deadpill, life_push_list, life_attached, life_pill, Action.Attaches, hv, hpu, resumes]
  | overwrite v next task status =>
    obtain ⟨-, heq⟩ := Option.ite_none_right_eq_some.mp hstep
    cases heq
    exact ⟨by simp [State.Has, Action.Attaches, resumes], by simp [resumes]⟩
  | run w =>
    obtain ⟨-, hrun⟩ := Option.ite_none_right_eq_some.mp hstep
    obtain ⟨hothers, hv⟩ := has_run hrun hlawful u
    exact ⟨by simpa [Action.Attaches] using hothers, fun status hresumes => (hv status hresumes).1⟩
  | wait_stop =>
    obtain ⟨-, heq⟩ := Option.ite_none_right_eq_some.mp hstep
    cases heq
    exact ⟨by simp [State.Has, Action.Attaches, resumes], by simp [resumes]⟩
  | destroy p =>
    refine ⟨?_, by simp [resumes]⟩
    have hlog := destroy_log hstep
    rw [State.Has, hlog]
    rw [hlog] at hlawful
    refine (node_cons hlawful u).trans ?_
    simp [State.Has, Action.Attaches, resumes, Event.Resumes]
  | stop =>
    obtain ⟨hothers, hv⟩ := has_stop h.phase.emptied_le hstep hlawful u
    exact ⟨by simpa [Action.Attaches] using hothers, fun status hresumes => (hv status hresumes).1⟩

theorem pill_cons (hpill : life v (e :: log) = .pill) : e = .pill v ∨ life v log = .pill := by
  cases e with
  | attached u q =>
    by_cases hu : u = v
    · simp [life_attached, hu] at hpill
    · exact .inr (by simpa [life_attached, hu] using hpill)
  | pill u =>
    by_cases hu : u = v
    · exact .inl (by rw [hu])
    · exact .inr (by simpa [life_pill, hu] using hpill)
  | touched u => exact .inr hpill
  | resumed u status worker =>
    by_cases hu : u = v
    · simp [life_resumed, hu] at hpill
    · exact .inr (by simpa [life_resumed, hu] using hpill)
  | destroyed u =>
    by_cases hu : u = v
    · simp [life_destroyed, hu] at hpill
    · exact .inr (by simpa [life_destroyed, hu] using hpill)

/-- An event that makes no pill. -/
theorem pill_of_cons (hpill : life v (e :: log) = .pill) (hne : ∀ u, e ≠ .pill u) : life v log = .pill :=
  (pill_cons hpill).resolve_left (hne v)

theorem pill_resume {task : Task α} {worker : Option Nat} (hpill : life u (s.resume v task worker).log = .pill) :
    life u s.log = .pill := by
  cases task with
  | null | coroutine => exact pill_of_cons hpill (by simp)
  | push_deadpill p => exact pill_of_cons (pill_of_cons hpill (by simp)) (by simp)

theorem pill_cancel (hcancel : s.cancel c = some (c', s₁)) (hpill : life u s₁.log = .pill) : life u s.log = .pill := by
  cases cancel_step hcancel with
  | skip v htask | take v htask => exact hpill
  | resume v task top => exact pill_resume hpill

theorem pill_cancel_queue {c : Option (Cancel α)} {to_stop : Option (Cancel α) → Stop α} {done : Stop α}
    (hstep : s.cancel_queue i c to_stop done = some s') (hpill : life u s'.log = .pill) : life u s.log = .pill := by
  cases cancel_queue_step hstep with
  | pop_all | done => exact hpill
  | cancel c c' s₁ hcancel => exact pill_cancel hcancel hpill

/-- Only `request_stop` and the destructor make pills. -/
theorem pill_step (hstep : step n s a = some s') (hpill : life u s'.log = .pill) : a.Makes u ∨ life u s.log = .pill := by
  cases a with
  | attach user v q =>
    obtain ⟨-, heq⟩ := Option.ite_none_right_eq_some.mp hstep
    cases heq
    rw [State.attach, life_push_list] at hpill
    exact .inr (pill_of_cons hpill (by simp))
  | push_deadpill user p v q =>
    obtain ⟨-, heq⟩ := Option.ite_none_right_eq_some.mp hstep
    cases heq
    rw [State.push_deadpill, life_push_list] at hpill
    obtain hmade | hbefore := pill_cons (pill_of_cons hpill (by simp))
    · exact .inl (by simpa [Action.Makes] using hmade)
    · exact .inr hbefore
  | overwrite v next task status =>
    obtain ⟨-, heq⟩ := Option.ite_none_right_eq_some.mp hstep
    cases heq
    exact .inr hpill
  | run w =>
    obtain ⟨-, hrun⟩ := Option.ite_none_right_eq_some.mp hstep
    cases run_step hrun with
    | pop top hpc htop | last hpc | next v hpc | exit hpc | pill v hpc htask | take v hpc htask => exact .inr hpill
    | resume v task top hpc => exact .inr (pill_resume hpill)
    | cancel c c' s₁ hpc hcancel => exact .inr (pill_cancel hcancel hpill)
  | wait_stop =>
    obtain ⟨-, heq⟩ := Option.ite_none_right_eq_some.mp hstep
    cases heq
    exact .inr hpill
  | destroy p =>
    rw [destroy_log hstep] at hpill
    exact (pill_cons hpill).imp_left (by simp [Action.Makes])
  | stop =>
    cases stop_step hstep with
    | wait_join i hstop hi hexited | wait_joined i hstop hi | pushed i p hstop hi | join i p hstop hexited
    | wait_end i c hstop hi => exact .inr hpill
    | push i p hstop hi => exact .inr (by rwa [life_push_list] at hpill)
    | wait_cancel i c s' hstop hi hcancel | cancel i p c s' hstop hcancel | drain i p c s' hstop hi hcancel =>
      exact .inr (pill_cancel_queue hcancel hpill)
    | finish i p c hstop hi => exact .inr (pill_of_cons hpill (by simp))

/-- Only its own steps change where a worker is, or a `cancel_tasks` of the thread that
stops the pool. -/
theorem step_stays (hstep : step n s a = some s') : (∀ w, a ≠ .run w → s'.workers w = s.workers w) ∧
    ∀ c, a ≠ .stop → s.stop.cancel_tasks = some c → s'.stop.cancel_tasks = some c := by
  cases a with
  | attach user v q | push_deadpill user p v q =>
    obtain ⟨-, heq⟩ := Option.ite_none_right_eq_some.mp hstep
    cases heq
    exact ⟨fun _ _ => rfl, fun _ _ hc => hc⟩
  | overwrite v next task status =>
    obtain ⟨-, heq⟩ := Option.ite_none_right_eq_some.mp hstep
    cases heq
    exact ⟨fun _ _ => rfl, fun _ _ hc => hc⟩
  | run w =>
    obtain ⟨-, hrun⟩ := Option.ite_none_right_eq_some.mp hstep
    refine ⟨fun w' hne => ?_, fun c _ hc => by rwa [(run_first hrun).1]⟩
    have hw : w' ≠ w := fun heq => hne (by rw [heq])
    cases run_step hrun with
    | pop top hpc htop | last hpc | next v hpc | exit hpc | pill v hpc htask | take v hpc htask =>
      exact Function.update_of_ne hw ..
    | resume v task top hpc =>
      have hworkers : (s.resume v task (some w)).workers = s.workers := by cases task <;> rfl
      simp [State.goto, hworkers, hw]
    | cancel c c' s₁ hpc hcancel =>
      obtain ⟨-, hworkers, -⟩ := cancel_keeps hcancel
      simp [State.goto, hworkers, hw]
  | wait_stop =>
    obtain ⟨hrunning, heq⟩ := Option.ite_none_right_eq_some.mp hstep
    cases heq
    exact ⟨fun _ _ => rfl, fun c _ hc => by simp [hrunning, Stop.cancel_tasks] at hc⟩
  | destroy p =>
    obtain ⟨-, hstep⟩ := Option.ite_none_right_eq_some.mp hstep
    split at hstep
    case h_1 hrunning =>
      cases hstep
      exact ⟨fun _ _ => rfl, fun c _ hc => by simp [hrunning, Stop.cancel_tasks] at hc⟩
    case h_2 hwaited =>
      cases hstep
      exact ⟨fun _ _ => rfl, fun c _ hc => by simp [hwaited, Stop.cancel_tasks] at hc⟩
    case h_3 => cases hstep
  | stop =>
    refine ⟨fun w _ => ?_, fun _ hne => absurd rfl hne⟩
    have hcancel_queue : ∀ {i c to_stop done}, s.cancel_queue i c to_stop done = some s' → s'.workers = s.workers := by
      intro i c to_stop done hqueue
      cases cancel_queue_step hqueue with
      | pop_all | done => rfl
      | cancel c c' s₁ hcancel => exact (cancel_keeps hcancel).2.1
    cases stop_step hstep with
    | wait_join i hstop hi hexited | wait_joined i hstop hi | pushed i p hstop hi | join i p hstop hexited
    | push i p hstop hi | wait_end i c hstop hi | finish i p c hstop hi => rfl
    | wait_cancel i c s' hstop hi hcancel | cancel i p c s' hstop hcancel | drain i p c s' hstop hi hcancel =>
      rw [hcancel_queue hcancel]

end kelcoro.thread_pool
