import Kelcoro.ThreadPool.Progress
import Mathlib

namespace kelcoro.thread_pool

open kelcoro.lib

variable {α : Type} [DecidableEq α]

/-- Worker `w` comes to an end: it runs no tasks any more, or a pill is in its list or
in its queue. -/
def Pilled (s : State α) (lists : Holder → List α) (w : Nat) : Prop :=
  (s.workers w).Cancels ∨ ∃ p, s.task p = .null ∧ (p ∈ lists (.worker w) ∨ p ∈ lists (.queue w))

/-- The worker that the destructor waits for comes to an end. -/
structure Waits (n : Nat) (s : State α) (lists : Holder → List α) : Prop where
  lt : ∀ i p, s.stop = .join i p → i < n
  pilled : ∀ i p, s.stop = .join i p → Pilled s lists i

variable {n : Nat} {s s' s₁ : State α} {place place' : α → Place} {blocks blocks' : Holder → List (Block α)}
  {lists lists' : Holder → List α} {k : Holder} {v p u : α} {q w i : Nat} {a : Action α}

/-- A worker can go on unless it waits for its queue or has exited. -/
theorem run_enabled (hqueue : s.workers w = .pop → (s.queues w).first ≠ none) (hlive : s.workers w ≠ .exited) :
    (run s w).isSome = true := by
  cases hpc : s.workers w with
  | pop =>
    obtain ⟨top, htop⟩ := Option.ne_none_iff_exists'.mp (hqueue hpc)
    simp [run, hpc, htop]
  | run v => cases htask : s.task v <;> simp [run, hpc, htask]
  | resume v task top => simp [run, hpc]
  | busy top => cases top <;> simp [run, hpc]
  | cancel c =>
    cases c with
    | loop top =>
      cases top with
      | none => simp [run, hpc]
      | some v => cases htask : s.task v <;> simp [run, hpc, State.cancel, htask]
    | resume v task top => simp [run, hpc, State.cancel]
  | exited => exact absurd hpc hlive

/-- A worker that comes to an end is not stuck before. -/
theorem Pilled.enabled (hpilled : Pilled s (listed blocks) w) (h : Core s place blocks) (hlive : s.workers w ≠ .exited) :
    (run s w).isSome = true := by
  refine run_enabled (fun hpc hfirst => ?_) hlive
  have hwalk : s.walk (.worker w) = (s.workers w).walk := rfl
  rw [hpc] at hwalk
  have hworker : listed blocks (.worker w) = [] := h.listed_eq (by rw [hwalk]; rfl)
  have hqueue : listed blocks (.queue w) = [] := h.listed_eq (by rw [State.walk, hfirst]; rfl)
  obtain hcancels | ⟨p, -, hp | hp⟩ := hpilled
  · rw [hpc] at hcancels
    cases hcancels
  · rw [hworker] at hp
    cases hp
  · rw [hqueue] at hp
    cases hp

namespace Pilled

omit [DecidableEq α] in
theorem of_worker (hpilled : Pilled s lists w) (honly : WorkerOnly s s' lists lists' i)
    (hstep : WorkerStep s s' lists lists' i) (hcancels : (s.workers i).Cancels → (s'.workers i).Cancels) :
    Pilled s' lists' w := by
  by_cases hwi : w = i
  · subst hwi
    obtain hold | ⟨p, hp, hlisted⟩ := hpilled
    · exact Or.inl (hcancels hold)
    have hp' : s'.task p = .null := by rw [honly.task, hp]
    cases hstep with
    | takes hqueue hnil hworker' hqueue' hweight =>
      rw [hnil] at hlisted
      obtain hnone | hmem := hlisted
      · cases hnone
      · exact Or.inr ⟨p, hp', Or.inl (by rwa [hworker'])⟩
    | next v hworker hqueue' hpill hweight =>
      rw [hworker, List.mem_cons] at hlisted
      obtain (rfl | hmem) | hmem := hlisted
      · exact Or.inl (hpill hp)
      · exact Or.inr ⟨p, hp', Or.inl hmem⟩
      · exact Or.inr ⟨p, hp', Or.inr (by rwa [hqueue'])⟩
    | stays hworker' hqueue' hweight => exact Or.inr ⟨p, hp', by rwa [hworker', hqueue']⟩
    | cancels hqueue' hcancels' hweight => exact Or.inl hcancels'
  · unfold Pilled
    have hworker : lists' (.worker w) = lists (.worker w) := honly.lists _ (by simp) (by simpa using hwi)
    have hqueue : lists' (.queue w) = lists (.queue w) := honly.lists _ (by simpa using hwi) (by simp)
    rw [honly.workers w hwi, honly.task, hworker, hqueue]
    exact hpilled

omit [DecidableEq α] in
/-- Nodes are pushed only, and pills in the lists stay pills. -/
theorem of_push (hpilled : Pilled s lists w) (hworkers : s'.workers = s.workers)
    (htask : ∀ p k, p ∈ lists k → s.task p = .null → s'.task p = .null)
    (hlists : ∀ k, k = .worker w ∨ k = .queue w → ∀ p ∈ lists k, p ∈ lists' k) : Pilled s' lists' w := by
  obtain hcancels | ⟨p, hp, hlisted⟩ := hpilled
  · exact Or.inl (by rwa [hworkers])
  · have hp' : s'.task p = .null := hlisted.elim (fun hmem => htask p _ hmem hp) fun hmem => htask p _ hmem hp
    exact Or.inr ⟨p, hp', hlisted.imp (hlists _ (Or.inl rfl) p) (hlists _ (Or.inr rfl) p)⟩

end Pilled

omit [DecidableEq α] in
theorem mem_push {news : List α} (hlists : lists' = Function.update lists (.queue q) (lists (.queue q) ++ news))
    (hv : v ∈ lists k) : v ∈ lists' k := by
  rw [hlists]
  by_cases hk : k = .queue q
  · subst hk
    rw [Function.update_self]
    exact List.mem_append_left _ hv
  · rwa [Function.update_of_ne hk]

/-- A worker that runs no tasks any more does not come back. -/
theorem run_cancels (hrun : run s w = some s') (hcancels : (s.workers w).Cancels) : (s'.workers w).Cancels := by
  cases run_step hrun with
  | exit hpc => simp [State.goto, Worker.Cancels]
  | cancel c c' s₁ hpc hnext => simp [State.goto, Worker.Cancels]
  | pop top hpc htop => simp [hpc, Worker.Cancels] at hcancels
  | pill v hpc htask => simp [hpc, Worker.Cancels] at hcancels
  | take v hpc htask => simp [hpc, Worker.Cancels] at hcancels
  | resume v task top hpc => simp [hpc, Worker.Cancels] at hcancels
  | last hpc => simp [hpc, Worker.Cancels] at hcancels
  | next v hpc => simp [hpc, Worker.Cancels] at hcancels

theorem run_stop (hrun : run s w = some s') : s'.stop = s.stop := by
  cases run_step hrun with
  | cancel c c' s₁ hpc hnext => exact (cancel_keeps hnext).2.2
  | resume v task top hpc => cases task <;> rfl
  | pop top hpc htop => rfl
  | pill v hpc htask => rfl
  | take v hpc htask => rfl
  | last hpc => rfl
  | next v hpc => rfl
  | exit hpc => rfl

/-- `cancel_tasks(queues[i].pop_all())` takes the list of this queue only. -/
theorem cancel_queue_keeps {c : Option (Cancel α)} {to_stop : Option (Cancel α) → Stop α} {done : Stop α}
    (hcancel : s.cancel_queue i c to_stop done = some s') :
    s'.next = s.next ∧ s'.task = s.task ∧ s'.workers = s.workers ∧ ∀ q, q ≠ i → s'.queues q = s.queues q := by
  cases cancel_queue_step hcancel with
  | pop_all => exact ⟨rfl, rfl, rfl, fun q hq => by simp [State.pop_all, hq]⟩
  | done => exact ⟨rfl, rfl, rfl, fun _ _ => rfl⟩
  | cancel c c' s₁ hnext =>
    obtain ⟨hqueues, hworkers, -⟩ := cancel_keeps hnext
    obtain ⟨hnext, htask⟩ := cancel_next_task hnext
    exact ⟨hnext, htask, hworkers, fun q _ => by rw [← hqueues]⟩

/-- The thread that stops the pool takes a list of a queue only when the worker is gone. -/
theorem stop_keeps (h : Inv n s place blocks) (hstep : stop n s = some s') (hpush : ∀ i p, s.stop ≠ .push i p) :
    s'.next = s.next ∧ s'.task = s.task ∧ s'.workers = s.workers ∧
      ∀ q, s'.queues q = s.queues q ∨ s.workers q = .exited := by
  have hjoined := h.phase.joined
  have hqueues : ∀ {i c to_stop done}, s.cancel_queue i c to_stop done = some s' → i < s.stop.joined n →
      s'.next = s.next ∧ s'.task = s.task ∧ s'.workers = s.workers ∧
        ∀ q, s'.queues q = s.queues q ∨ s.workers q = .exited := by
    intro i c to_stop done hcancel hi
    obtain ⟨hnext, htask, hworkers, hother⟩ := cancel_queue_keeps hcancel
    refine ⟨hnext, htask, hworkers, fun q => ?_⟩
    by_cases hq : q = i
    · rw [hq]
      exact Or.inr (hjoined i hi)
    · exact Or.inl (hother q hq)
  cases stop_step hstep with
  | wait_cancel i c s' hstop hi hcancel => exact hqueues hcancel (by rw [hstop]; exact hi)
  | cancel i p c s' hstop hcancel => exact hqueues hcancel (by rw [hstop]; exact Nat.lt_succ_self i)
  | drain i p c s' hstop hi hcancel => exact hqueues hcancel (by rw [hstop]; exact hi)
  | push i p hstop hi => exact absurd hstop (hpush i p)
  | pushed i p hstop hi => exact absurd hstop (hpush i p)
  | wait_join i hstop hi hexited => exact ⟨rfl, rfl, rfl, fun _ => Or.inl rfl⟩
  | wait_joined i hstop hi => exact ⟨rfl, rfl, rfl, fun _ => Or.inl rfl⟩
  | wait_end i c hstop hi => exact ⟨rfl, rfl, rfl, fun _ => Or.inl rfl⟩
  | join i p hstop hexited => exact ⟨rfl, rfl, rfl, fun _ => Or.inl rfl⟩
  | finish i p c hstop hi => exact ⟨rfl, rfl, rfl, fun _ => Or.inl rfl⟩

/-- Nothing that happens takes a pill away from a worker that has not read it. -/
theorem Pilled.step (hpilled : Pilled s (listed blocks) w) (h : Inv n s place blocks) (h' : Inv n s' place' blocks')
    (hstep : step n s a = some s') : Pilled s' (listed blocks') w := by
  -- memory that is no node is no pill in a list
  have hother : ∀ {x : α} {task : Task α} {p : α} {k : Holder}, life x s.log = .gone → p ∈ listed blocks k →
      s.task p = .null → Function.update s.task x task p = .null := by
    intro x task p k hx hp hnull
    rw [Function.update_of_ne, hnull]
    rintro rfl
    exact h.core.not_gone hp hx
  have hsame : s'.next = s.next → s'.workers = s.workers → s'.queues = s.queues →
      ∀ k, k = .worker w ∨ k = .queue w → ∀ p ∈ listed blocks k, p ∈ listed blocks' k := by
    intro hnext hworkers hqueues k hk p hp
    rw [h.core.listed_same h'.core hnext]
    · exact hp
    · obtain rfl | rfl := hk <;> simp only [State.walk, hworkers, hqueues]
  cases a with
  | attach user v q =>
    obtain ⟨⟨hq, hv⟩, heq⟩ := Option.ite_none_right_eq_some.mp hstep
    cases heq
    exact hpilled.of_push rfl (fun p k hp hnull => hother hv hp hnull) fun k _ p hp =>
      mem_push (h'.core.listed_push (h.core.attach hv)) hp
  | push_deadpill user p u q =>
    obtain ⟨⟨hq, hpu, hp, hu⟩, heq⟩ := Option.ite_none_right_eq_some.mp hstep
    cases heq
    refine hpilled.of_push rfl (fun x k hx hnull => ?_) fun k _ x hx =>
      mem_push (h'.core.listed_push (h.core.push_deadpill hpu hp hu)) hx
    have hxp : x ≠ p := by
      rintro rfl
      exact h.core.not_gone hx hp
    exact (Function.update_of_ne hxp ..).trans (hother hu hx hnull)
  | overwrite v next task status =>
    obtain ⟨hv, heq⟩ := Option.ite_none_right_eq_some.mp hstep
    cases heq
    have hlists := (h.core.overwrite hv).listed_unique h'.core
    exact hpilled.of_push rfl (fun p k hp hnull => hother hv hp hnull) fun k _ p hp => by rwa [hlists]
  | run i =>
    obtain ⟨hi, hrun⟩ := Option.ite_none_right_eq_some.mp hstep
    obtain ⟨honly, hworker⟩ := run_lists h.core h'.core hrun
    exact hpilled.of_worker honly hworker (run_cancels hrun)
  | wait_stop =>
    obtain ⟨hstop, heq⟩ := Option.ite_none_right_eq_some.mp hstep
    cases heq
    exact hpilled.of_push rfl (fun p k _ hnull => hnull) (hsame rfl rfl rfl)
  | destroy p =>
    obtain ⟨hp, heq⟩ := Option.ite_none_right_eq_some.mp hstep
    split at heq
    · cases heq
      exact hpilled.of_push rfl (fun x k hx hnull => hother hp hx hnull) (hsame rfl rfl rfl)
    · cases heq
      exact hpilled.of_push rfl (fun x k hx hnull => hother hp hx hnull) (hsame rfl rfl rfl)
    · cases heq
  | stop =>
    by_cases hpush : ∃ i p, s.stop = .push i p
    · obtain ⟨i, p, hpush⟩ := hpush
      cases stop_step hstep with
      | push i p hstop hi =>
        have hlists := h'.core.listed_push (h.push_core hstop)
        exact hpilled.of_push rfl (fun x k _ hnull => hnull) fun k _ x hx => mem_push hlists hx
      | pushed i p hstop hi => exact hpilled.of_push rfl (fun x k _ hnull => hnull) (hsame rfl rfl rfl)
      | _ => simp_all
    · obtain ⟨hnext, htask, hworkers, hqueues⟩ := stop_keeps h hstep fun i p heq => hpush ⟨i, p, heq⟩
      obtain hqueue | hexited := hqueues w
      · refine hpilled.of_push hworkers (fun x k _ hnull => by rw [htask, hnull]) fun k hk p hp => ?_
        rw [h.core.listed_same h'.core hnext]
        · exact hp
        · obtain rfl | rfl := hk <;> simp only [State.walk, hworkers, hqueue]
      · exact Or.inl (by rw [hworkers, hexited]; trivial)

/-- What a step means for the thread that stops the pool. -/
inductive Phases (n : Nat) (s s' : State α) : Action α → Prop
  | same (a : Action α) (ha : a ≠ .wait_stop ∧ ∀ p, a ≠ .destroy p) (hstop : s'.stop = s.stop) : Phases n s s' a
  | wait_stop (hstop : s.stop = .running) (hstop' : s'.stop = .wait_join 0) : Phases n s s' .wait_stop
  | destroy (p : α) (hstop : s.stop = .running) (hstop' : s'.stop = .push 0 p) : Phases n s s' (.destroy p)
  | destroy_waited (p : α) (hstop : s.stop = .waited) (hstop' : s'.stop = .drain 0 p none) : Phases n s s' (.destroy p)
  | stop (hstep : StopStep n s s') : Phases n s s' .stop

theorem phases_of_step (hstep : step n s a = some s') : Phases n s s' a := by
  cases a with
  | attach user v q =>
    obtain ⟨-, heq⟩ := Option.ite_none_right_eq_some.mp hstep
    cases heq
    exact .same _ (by simp) rfl
  | push_deadpill user p u q =>
    obtain ⟨-, heq⟩ := Option.ite_none_right_eq_some.mp hstep
    cases heq
    exact .same _ (by simp) rfl
  | overwrite v next task status =>
    obtain ⟨-, heq⟩ := Option.ite_none_right_eq_some.mp hstep
    cases heq
    exact .same _ (by simp) rfl
  | run w =>
    obtain ⟨-, hrun⟩ := Option.ite_none_right_eq_some.mp hstep
    exact .same _ (by simp) (run_stop hrun)
  | wait_stop =>
    obtain ⟨hstop, heq⟩ := Option.ite_none_right_eq_some.mp hstep
    cases heq
    exact .wait_stop hstop rfl
  | destroy p =>
    obtain ⟨-, heq⟩ := Option.ite_none_right_eq_some.mp hstep
    split at heq
    · cases heq
      exact .destroy p ‹_› rfl
    · cases heq
      exact .destroy_waited p ‹_› rfl
    · cases heq
  | stop => exact .stop (stop_step hstep)

theorem cancel_queue_stop {c : Option (Cancel α)} {to_stop : Option (Cancel α) → Stop α} {done : Stop α}
    (hcancel : s.cancel_queue i c to_stop done = some s') : (∃ c', s'.stop = to_stop c') ∨ s'.stop = done := by
  cases cancel_queue_step hcancel with
  | pop_all => exact Or.inl ⟨_, rfl⟩
  | done => exact Or.inr rfl
  | cancel c c' s₁ hnext => exact Or.inl ⟨_, rfl⟩

/-- `join` is reached by the push of the pill only. -/
theorem join_step (hstep : step n s a = some s') (hjoin : s'.stop = .join i p) :
    s.stop = .join i p ∨ a = .stop ∧ s.stop = .push i p ∧ i < n := by
  cases phases_of_step hstep with
  | same a ha hstop => exact Or.inl (hstop.symm.trans hjoin)
  | wait_stop hstop hstop' => cases hstop'.symm.trans hjoin
  | destroy p' hstop hstop' => cases hstop'.symm.trans hjoin
  | destroy_waited p' hstop hstop' => cases hstop'.symm.trans hjoin
  | stop hstop =>
    cases hstop with
    | push j p' hstop hi =>
      cases hjoin
      exact Or.inr ⟨rfl, hstop, hi⟩
    | wait_cancel j c s' hstop hi hcancel => obtain ⟨c', heq⟩ | heq := cancel_queue_stop hcancel <;> cases heq.symm.trans hjoin
    | cancel j p' c s' hstop hcancel => obtain ⟨c', heq⟩ | heq := cancel_queue_stop hcancel <;> cases heq.symm.trans hjoin
    | drain j p' c s' hstop hi hcancel => obtain ⟨c', heq⟩ | heq := cancel_queue_stop hcancel <;> cases heq.symm.trans hjoin
    | wait_join j hstop hi hexited => cases hjoin
    | wait_joined j hstop hi => cases hjoin
    | wait_end j c hstop hi => cases hjoin
    | pushed j p' hstop hi => cases hjoin
    | join j p' hstop hexited => cases hjoin
    | finish j p' c hstop hi => cases hjoin

namespace Waits

theorem step (hwaits : Waits n s (listed blocks)) (h : Inv n s place blocks) (h' : Inv n s' place' blocks')
    (hstep : step n s a = some s') : Waits n s' (listed blocks') := by
  refine ⟨fun i p hjoin => ?_, fun i p hjoin => ?_⟩
  · obtain hold | ⟨-, -, hi⟩ := join_step hstep hjoin
    · exact hwaits.lt i p hold
    · exact hi
  · obtain hold | ⟨rfl, hpush, hi⟩ := join_step hstep hjoin
    · exact (hwaits.pilled i p hold).step h h' hstep
    · -- the pill of the destructor was pushed to the queue of the worker
      have hpill : s.stop.pill = some p := by rw [hpush]; rfl
      have hstop : stop n s = some s' := hstep
      simp only [stop, hpush, hi, if_true, Option.some.injEq] at hstop
      subst hstop
      have hlists := h'.core.listed_push (h.push_core hpush)
      refine Or.inr ⟨p, h.core.null p hpill, Or.inr ?_⟩
      rw [hlists, Function.update_self]
      simp [Block.nodes]

end Waits

/-- What every run comes to. -/
theorem waits_of_run {as : List (Action α)} (hrun : Run (Step n) construct as s) :
    ∃ place blocks, Inv n s place blocks ∧ Waits n s (listed blocks) := by
  apply hrun.invariant fun s => ∃ place blocks, Inv n s place blocks ∧ Waits n s (listed blocks)
  · rintro s a s' ⟨place, blocks, h, hwaits⟩ hstep
    obtain ⟨place', blocks', h'⟩ := h.step hstep.2
    exact ⟨place', blocks', h', hwaits.step h h' hstep.2⟩
  · refine ⟨_, _, Inv.construct_inv, fun i p hjoin => ?_, fun i p hjoin => ?_⟩ <;> cases hjoin

omit [DecidableEq α] in
/-- `cancel_tasks(queues[i].pop_all())` is never stuck. -/
theorem cancel_queue_enabled [DecidableEq α] (c : Option (Cancel α)) (to_stop : Option (Cancel α) → Stop α)
    (done : Stop α) : (s.cancel_queue i c to_stop done).isSome = true := by
  match c with
  | none => rfl
  | some (.loop none) => rfl
  | some (.loop (some v)) => cases htask : s.task v <;> simp [State.cancel_queue, State.cancel, htask]
  | some (.resume v task top) => simp [State.cancel_queue, State.cancel]

/-- The destructor has been called. -/
def Stop.Called : Stop α → Prop
  | .push _ _ | .join _ _ | .cancel _ _ _ | .drain _ _ _ | .returned => True
  | _ => False

theorem called_step (hcalled : s.stop.Called) (hstep : step n s a = some s') : s'.stop.Called := by
  cases phases_of_step hstep with
  | same a ha hstop => rwa [hstop]
  | wait_stop hstop hstop' => simp [hstop, Stop.Called] at hcalled
  | destroy p hstop hstop' => simp [hstop, Stop.Called] at hcalled
  | destroy_waited p hstop hstop' => simp [hstop, Stop.Called] at hcalled
  | stop hstop =>
    cases hstop with
    | wait_cancel j c s' hstop hi hcancel => simp [hstop, Stop.Called] at hcalled
    | wait_join j hstop hi hexited => simp [hstop, Stop.Called] at hcalled
    | wait_joined j hstop hi => simp [hstop, Stop.Called] at hcalled
    | wait_end j c hstop hi => simp [hstop, Stop.Called] at hcalled
    | cancel j p c s' hstop hcancel => obtain ⟨c', heq⟩ | heq := cancel_queue_stop hcancel <;> rw [heq] <;> trivial
    | drain j p c s' hstop hi hcancel => obtain ⟨c', heq⟩ | heq := cancel_queue_stop hcancel <;> rw [heq] <;> trivial
    | push j p hstop hi => trivial
    | pushed j p hstop hi => trivial
    | join j p hstop hexited => trivial
    | finish j p c hstop hi => trivial

/-- `wait_stop` has been called, and maybe the destructor after it. -/
def Stop.Waited : Stop α → Prop
  | .wait_join _ | .wait_cancel _ _ | .waited | .drain _ _ _ | .returned => True
  | _ => False

theorem waited_step (hwaited : s.stop.Waited) (hstep : step n s a = some s') : s'.stop.Waited := by
  cases phases_of_step hstep with
  | same a ha hstop => rwa [hstop]
  | wait_stop hstop hstop' => simp [hstop, Stop.Waited] at hwaited
  | destroy p hstop hstop' => simp [hstop, Stop.Waited] at hwaited
  | destroy_waited p hstop hstop' => rw [hstop']; trivial
  | stop hstop =>
    cases hstop with
    | cancel j p c s' hstop hcancel => simp [hstop, Stop.Waited] at hwaited
    | push j p hstop hi => simp [hstop, Stop.Waited] at hwaited
    | pushed j p hstop hi => simp [hstop, Stop.Waited] at hwaited
    | join j p hstop hexited => simp [hstop, Stop.Waited] at hwaited
    | wait_cancel j c s' hstop hi hcancel => obtain ⟨c', heq⟩ | heq := cancel_queue_stop hcancel <;> rw [heq] <;> trivial
    | drain j p c s' hstop hi hcancel => obtain ⟨c', heq⟩ | heq := cancel_queue_stop hcancel <;> rw [heq] <;> trivial
    | wait_join j hstop hi hexited => trivial
    | wait_joined j hstop hi => trivial
    | wait_end j c hstop hi => trivial
    | finish j p c hstop hi => trivial

/-- The workers or the thread that stops the pool can go on. -/
def Enabled (n : Nat) (s : State α) : Prop := ∃ a s', a.own = true ∧ Step n s a s'

theorem enabled_of_run (hw : w < n) (hrun : (run s w).isSome = true) : Enabled n s := by
  obtain ⟨s', hs'⟩ := Option.isSome_iff_exists.mp hrun
  exact ⟨.run w, s', rfl, trivial, by simp only [step, hw, if_true, hs']⟩

theorem enabled_of_stop (hstop : (stop n s).isSome = true) : Enabled n s := by
  obtain ⟨s', hs'⟩ := Option.isSome_iff_exists.mp hstop
  exact ⟨.stop, s', rfl, trivial, hs'⟩

/-- Whoever waits for a worker that comes to an end is not stuck. -/
theorem enabled_of_pilled (h : Core s place blocks) (hw : w < n) (hpilled : Pilled s (listed blocks) w)
    (hexited : s.workers w = .exited → (stop n s).isSome = true) : Enabled n s := by
  by_cases hlive : s.workers w = .exited
  · exact enabled_of_stop (hexited hlive)
  · exact enabled_of_run hw (hpilled.enabled h hlive)

/-- The destructor is not stuck before it returns. -/
theorem enabled_of_called (h : Core s place blocks) (hwaits : Waits n s (listed blocks)) (hcalled : s.stop.Called) :
    s.stop = .returned ∨ Enabled n s := by
  cases hstop : s.stop with
  | push i p =>
    right
    apply enabled_of_stop
    by_cases hi : i < n <;> simp [stop, hstop, hi]
  | join i p =>
    right
    refine enabled_of_pilled h (hwaits.lt i p hstop) (hwaits.pilled i p hstop) fun hexited => ?_
    simp [stop, hstop, hexited]
  | cancel i p c =>
    right
    apply enabled_of_stop
    simp only [stop, hstop]
    exact cancel_queue_enabled ..
  | drain i p c =>
    right
    apply enabled_of_stop
    by_cases hi : i < n
    · simp only [stop, hstop, hi, if_true]
      exact cancel_queue_enabled ..
    · simp [stop, hstop, hi]
  | returned => exact Or.inl rfl
  | running | wait_join i | wait_cancel i c | waited => simp [hstop, Stop.Called] at hcalled

/-- Nor is `wait_stop` when a stop was requested of every worker. -/
theorem enabled_of_waited (h : Core s place blocks) (hpilled : ∀ w, w < n → Pilled s (listed blocks) w)
    (hwaited : s.stop.Waited) : s.stop = .waited ∨ s.stop = .returned ∨ Enabled n s := by
  cases hstop : s.stop with
  | wait_join i =>
    right; right
    by_cases hi : i < n
    · exact enabled_of_pilled h hi (hpilled i hi) fun hexited => by simp [stop, hstop, hi, hexited]
    · apply enabled_of_stop
      simp [stop, hstop, hi]
  | wait_cancel i c =>
    right; right
    apply enabled_of_stop
    by_cases hi : i < n
    · simp only [stop, hstop, hi, if_true]
      exact cancel_queue_enabled ..
    · simp [stop, hstop, hi]
  | drain i p c =>
    right; right
    apply enabled_of_stop
    by_cases hi : i < n
    · simp only [stop, hstop, hi, if_true]
      exact cancel_queue_enabled ..
    · simp [stop, hstop, hi]
  | waited => exact Or.inl rfl
  | returned => exact Or.inr (Or.inl rfl)
  | running | push i p | join i p | cancel i p c => simp [hstop, Stop.Waited] at hwaited

/-- After a call the own steps of the pool are bounded. -/
theorem own_run_le {as bs : List (Action α)} (hrun : Run (Step n) construct as s) (hrest : Run (Step n) s bs s')
    (hown : ∀ b ∈ bs, b.own = true) : bs.length ≤ (as.map Action.costs).sum + (13 * n + 4) := by
  have hle := own_steps_le (hrun.append hrest)
  have hcosts : (bs.map Action.costs).sum = 0 := by
    apply List.sum_eq_zero
    intro c hc
    obtain ⟨b, hb, rfl⟩ := List.mem_map.mp hc
    have hb' := hown b hb
    cases b <;> first | rfl | cases hb'
  rw [List.countP_append, List.countP_eq_length.mpr hown, List.map_append, List.sum_append, hcosts] at hle
  omega

theorem called_of_run {as : List (Action α)} (hrun : Run (Step n) construct as s) (hcalled : .destroy p ∈ as) :
    s.stop.Called := by
  apply hrun.since (fun _ => True) (fun s => s.stop.Called) (fun _ _ _ _ _ => trivial) ?_ ?_ trivial hcalled
  · intro s₁ s₂ _ (hstep : Step n s₁ (.destroy p) s₂)
    cases phases_of_step hstep.2 with
    | same a ha hstop => exact absurd rfl (ha.2 p)
    | destroy p hstop hstop' => rw [hstop']; trivial
    | destroy_waited p hstop hstop' => rw [hstop']; trivial
  · exact fun s₁ b s₂ _ hold hstep => called_step hold hstep.2

theorem waited_of_run {as : List (Action α)} (hrun : Run (Step n) construct as s) (hcalled : .wait_stop ∈ as) :
    s.stop.Waited := by
  apply hrun.since (fun _ => True) (fun s => s.stop.Waited) (fun _ _ _ _ _ => trivial) ?_ ?_ trivial hcalled
  · intro s₁ s₂ _ (hstep : Step n s₁ .wait_stop s₂)
    cases phases_of_step hstep.2 with
    | same a ha hstop => exact absurd rfl ha.1
    | wait_stop hstop hstop' => rw [hstop']; trivial
  · exact fun s₁ b s₂ _ hold hstep => waited_step hold hstep.2

/-- The worker of a queue to which a `request_stop` has pushed its pill comes to an end. -/
theorem pilled_of_run {as : List (Action α)} {user : User} (hrun : Run (Step n) construct as s)
    (hrequested : .push_deadpill user p u w ∈ as) :
    ∃ place blocks, Inv n s place blocks ∧ Pilled s (listed blocks) w := by
  apply hrun.since (fun s => ∃ place blocks, Inv n s place blocks)
    (fun s => ∃ place blocks, Inv n s place blocks ∧ Pilled s (listed blocks) w) ?_ ?_ ?_ ⟨_, _, Inv.construct_inv⟩ hrequested
  · rintro s a s' ⟨place, blocks, h⟩ hstep
    exact h.step hstep.2
  · rintro s s' ⟨place, blocks, h⟩ hstep
    obtain ⟨place', blocks', h'⟩ := h.step hstep.2
    obtain ⟨⟨hq, hpu, hp, hu⟩, heq⟩ := Option.ite_none_right_eq_some.mp hstep.2
    cases heq
    have hlists := h'.core.listed_push (h.core.push_deadpill hpu hp hu)
    refine ⟨place', blocks', h', Or.inr ⟨p, Function.update_self .., Or.inr ?_⟩⟩
    rw [hlists, Function.update_self]
    simp [Block.nodes]
  · rintro s a s' - ⟨place, blocks, h, hpilled⟩ hstep
    obtain ⟨place', blocks', h'⟩ := h.step hstep.2
    exact ⟨place', blocks', h', hpilled.step h h' hstep.2⟩

/-- Once the destructor has been called, whatever was attached and requested before and
in whatever order the threads run after that, it returns: the steps are bounded, and
there is always one until it has returned. -/
theorem destructor_returns {as bs : List (Action α)} (hrun : Run (Step n) construct as s) (hcalled : .destroy p ∈ as)
    (hrest : Run (Step n) s bs s') (hown : ∀ b ∈ bs, b.own = true) :
    bs.length ≤ (as.map Action.costs).sum + (13 * n + 4) ∧ (s'.stop = .returned ∨ Enabled n s') := by
  have hrun' := hrun.append hrest
  obtain ⟨place, blocks, h, hwaits⟩ := waits_of_run hrun'
  exact ⟨own_run_le hrun hrest hown,
    enabled_of_called h.core hwaits (called_of_run hrun' (List.mem_append_left _ hcalled))⟩

/-- A task of the worker attaches a node while the destructor waits for the worker. -/
def attach_then_destroy : List (Action Nat) :=
  [.attach .outside 0 0, .run 0, .run 0, .run 0, .destroy 20, .stop, .attach (.worker 0) 1 0]

theorem attach_then_destroy_returns : ∃ s s' : State Nat, Run (Step 1) construct attach_then_destroy s ∧
    Run (Step 1) s [.run 0, .run 0, .run 0, .run 0] s' ∧ (s'.stop = .returned ∨ Enabled 1 s') := by
  let take := fun (s : State Nat) a => if Allowed s a then step 1 s a else none
  have hsplit : (attach_then_destroy.foldlM take construct).any (fun s =>
      ([.run 0, .run 0, .run 0, .run 0].foldlM take s).isSome) = true := by
    decide +kernel
  obtain ⟨s, hs, hrest⟩ := (Option.any_eq_true ..).mp hsplit
  obtain ⟨s', hs'⟩ := Option.isSome_iff_exists.mp hrest
  have htake : ∀ s a s', take s a = some s' → Step 1 s a s' := fun s a s' h => Option.ite_none_right_eq_some.mp h
  have hrun := Run.of_foldlM htake hs
  have hrun' := Run.of_foldlM htake hs'
  exact ⟨s, s', hrun, hrun', (destructor_returns (p := 20) hrun (by decide) hrun' (by decide)).2⟩

/-- So does `wait_stop` if a stop was requested of every worker, by anybody. -/
theorem wait_stop_returns {as bs : List (Action α)} (hrun : Run (Step n) construct as s) (hcalled : .wait_stop ∈ as)
    (hrequested : ∀ w, w < n → ∃ user p u, .push_deadpill user p u w ∈ as) (hrest : Run (Step n) s bs s')
    (hown : ∀ b ∈ bs, b.own = true) :
    bs.length ≤ (as.map Action.costs).sum + (13 * n + 4) ∧
      (s'.stop = .waited ∨ s'.stop = .returned ∨ Enabled n s') := by
  have hrun' := hrun.append hrest
  obtain ⟨place, blocks, h, -⟩ := waits_of_run hrun'
  refine ⟨own_run_le hrun hrest hown,
    enabled_of_waited h.core (fun w hw => ?_) (waited_of_run hrun' (List.mem_append_left _ hcalled))⟩
  obtain ⟨user, p, u, hmem⟩ := hrequested w hw
  obtain ⟨place', blocks', h', hpilled⟩ := pilled_of_run hrun' (List.mem_append_left _ hmem)
  rwa [h.core.listed_unique h'.core] at hpilled

/-- The stop is requested by a task. -/
def request_then_wait : List (Action Nat) :=
  [.attach .outside 0 0, .run 0, .run 0, .run 0, .push_deadpill (.worker 0) 10 11 0, .wait_stop]

theorem request_then_wait_returns : ∃ s s' : State Nat, Run (Step 1) construct request_then_wait s ∧
    Run (Step 1) s [.run 0, .run 0, .run 0] s' ∧ (s'.stop = .waited ∨ s'.stop = .returned ∨ Enabled 1 s') := by
  let take := fun (s : State Nat) a => if Allowed s a then step 1 s a else none
  have hsplit : (request_then_wait.foldlM take construct).any (fun s =>
      ([.run 0, .run 0, .run 0].foldlM take s).isSome) = true := by
    decide +kernel
  obtain ⟨s, hs, hrest⟩ := (Option.any_eq_true ..).mp hsplit
  obtain ⟨s', hs'⟩ := Option.isSome_iff_exists.mp hrest
  have htake : ∀ s a s', take s a = some s' → Step 1 s a s' := fun s a s' h => Option.ite_none_right_eq_some.mp h
  have hrun := Run.of_foldlM htake hs
  have hrun' := Run.of_foldlM htake hs'
  refine ⟨s, s', hrun, hrun', (wait_stop_returns hrun (by decide) (fun w hw => ?_) hrun' (by decide)).2⟩
  obtain rfl : w = 0 := by omega
  exact ⟨.worker 0, 10, 11, by decide⟩

end kelcoro.thread_pool
