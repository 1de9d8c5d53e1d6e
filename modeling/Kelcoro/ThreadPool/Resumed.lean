import Kelcoro.ThreadPool.Stop
import Mathlib

namespace kelcoro.thread_pool

open kelcoro.lib

variable {α : Type} [DecidableEq α]

namespace Event

/-- The coroutine of node `v` is resumed. -/
def Resumes (e : Event α) (v : α) : Prop := ∃ status worker, e = .resumed v status worker

/-- The pool accesses node `v` or resumes its coroutine. -/
def Accesses (e : Event α) (v : α) : Prop := e = .touched v ∨ e.Resumes v

/-- The memory of `v` is a node or a pill from now on. -/
def Reuses (e : Event α) (v : α) : Prop := (∃ q, e = .attached v q) ∨ e = .pill v

end Event

/-- What happened after node `v` was attached to queue `q`: its coroutine was resumed
once, with `ok` by the worker of the queue or with `cancelled`, and the pool did not
access the node any more before it was used again. -/
def ResumedOnce (v : α) (q : Nat) (later : List (Event α)) : Prop :=
  ∃ rest status worker between, later = rest ++ .resumed v status worker :: between ∧
    (status = .ok ∧ worker = some q ∨ status = .cancelled ∧ worker = none) ∧
    (∀ e ∈ between, ¬ e.Resumes v ∧ ¬ e.Reuses v) ∧
    ∀ newer e older, rest = newer ++ e :: older → e.Accesses v → ∃ e' ∈ older, e'.Reuses v

variable {n : Nat} {s s' : State α} {place : α → Place} {blocks : Holder → List (Block α)} {v : α} {q w : Nat}
  {log later earlier : List (Event α)}

/-- Memory that is nothing to the pool stays so until it is used again. -/
theorem reused_of_not_gone (hgone : life v earlier = .gone) (h : life v (later ++ earlier) ≠ .gone) :
    ∃ e ∈ later, e.Reuses v := by
  induction later with
  | nil => exact absurd hgone h
  | cons e later ih =>
    by_cases hold : life v (later ++ earlier) = .gone
    · refine ⟨e, by simp, ?_⟩
      rw [List.cons_append] at h
      cases e with
      | attached w q =>
        by_cases hw : w = v
        · exact Or.inl ⟨q, by rw [hw]⟩
        · rw [life_attached, if_neg hw] at h
          exact absurd hold h
      | pill w =>
        by_cases hw : w = v
        · exact Or.inr (by rw [hw])
        · rw [life_pill, if_neg hw] at h
          exact absurd hold h
      | touched w => exact absurd hold h
      | resumed w status worker =>
        rw [life_resumed, hold, ite_self] at h
        exact absurd rfl h
      | destroyed w =>
        rw [life_destroyed, hold, ite_self] at h
        exact absurd rfl h
    · obtain ⟨e', he', hreuses⟩ := ih hold
      exact ⟨e', List.mem_cons_of_mem e he', hreuses⟩

/-- A node stays one until its coroutine is resumed. -/
theorem node_cases (hlawful : Lawful Follows (later ++ earlier)) (hnode : life v earlier = .node q) :
    (life v (later ++ earlier) = .node q ∧ ∀ e ∈ later, ¬ e.Resumes v ∧ ¬ e.Reuses v) ∨
      ∃ rest status worker between, later = rest ++ .resumed v status worker :: between ∧
        (status = .ok ∧ worker = some q ∨ status = .cancelled ∧ worker = none) ∧
        ∀ e ∈ between, ¬ e.Resumes v ∧ ¬ e.Reuses v := by
  induction later with
  | nil => exact Or.inl ⟨hnode, by simp⟩
  | cons e later ih =>
    obtain ⟨hfollows, hlawful⟩ := hlawful
    rcases ih hlawful with ⟨hlife, hquiet⟩ | ⟨rest, status, worker, between, rfl, hfits, hquiet⟩
    swap
    · exact Or.inr ⟨e :: rest, status, worker, between, rfl, hfits, hquiet⟩
    -- an event that is not about `v` leaves it as it is
    have hother : life v (e :: later ++ earlier) = .node q → ¬ e.Resumes v → ¬ e.Reuses v →
        life v (e :: later ++ earlier) = .node q ∧ ∀ e' ∈ e :: later, ¬ e'.Resumes v ∧ ¬ e'.Reuses v := by
      intro hlife' hresumes hreuses
      exact ⟨hlife', List.forall_mem_cons.mpr ⟨⟨hresumes, hreuses⟩, hquiet⟩⟩
    cases e with
    | attached w q' =>
      have hw : w ≠ v := by
        rintro rfl
        cases hlife.symm.trans hfollows
      exact Or.inl (hother ((if_neg hw).trans hlife) (by simp [Event.Resumes]) (by simp [Event.Reuses, hw]))
    | pill w =>
      have hw : w ≠ v := by
        rintro rfl
        cases hlife.symm.trans hfollows
      exact Or.inl (hother ((if_neg hw).trans hlife) (by simp [Event.Resumes]) (by simp [Event.Reuses, hw]))
    | touched w => exact Or.inl (hother hlife (by simp [Event.Resumes]) (by simp [Event.Reuses]))
    | resumed w status worker =>
      by_cases hw : w = v
      · subst hw
        obtain ⟨q', hq', hfits⟩ := hfollows
        obtain rfl : q = q' := by simpa using hlife.symm.trans hq'
        exact Or.inr ⟨[], status, worker, later, rfl, hfits, hquiet⟩
      · exact Or.inl (hother ((if_neg hw).trans hlife) (by simp [Event.Resumes, hw]) (by simp [Event.Reuses]))
    | destroyed w =>
      have hw : w ≠ v := by
        rintro rfl
        cases hlife.symm.trans hfollows
      exact Or.inl (hother ((if_neg hw).trans hlife) (by simp [Event.Resumes]) (by simp [Event.Reuses]))

/-- A node that is none any more was resumed once. -/
theorem resumed_once_of_lawful (hlawful : Lawful Follows log) (hsplit : log = later ++ .attached v q :: earlier)
    (hend : ∀ q, life v log ≠ .node q) : ResumedOnce v q later := by
  subst hsplit
  have hnode : life v (.attached v q :: earlier) = .node q := if_pos rfl
  rcases node_cases hlawful hnode with ⟨hlife, -⟩ | ⟨rest, status, worker, between, rfl, hfits, hquiet⟩
  · exact absurd hlife (hend q)
  refine ⟨rest, status, worker, between, rfl, hfits, hquiet, ?_⟩
  rintro newer e older rfl haccess
  have hgone : life v (.resumed v status worker :: (between ++ .attached v q :: earlier)) = .gone := if_pos rfl
  have hsplit : newer ++ e :: older ++ .resumed v status worker :: between ++ .attached v q :: earlier =
      newer ++ e :: (older ++ .resumed v status worker :: (between ++ .attached v q :: earlier)) := by
    simp
  have hfollows := hlawful.follows hsplit
  apply reused_of_not_gone hgone
  rcases haccess with rfl | ⟨status', worker', rfl⟩
  · exact hfollows
  · obtain ⟨q', hq', -⟩ := hfollows
    rw [hq']
    simp

/-- The queues that were emptied for the last time are empty. -/
def Emptied (n : Nat) (s : State α) : Prop := ∀ q, q < s.stop.emptied n → (s.queues q).first = none

omit [DecidableEq α] in
/-- No queue becomes empty for the last time. -/
theorem Emptied.of_first (h : Emptied n s) (hle : s'.stop.emptied n ≤ s.stop.emptied n)
    (hfirst : ∀ q, (s'.queues q).first = (s.queues q).first ∨ (s'.queues q).first = none) : Emptied n s' := by
  intro q hq
  obtain heq | hnone := hfirst q
  · exact heq.trans (h q (by omega))
  · exact hnone

omit [DecidableEq α] in
theorem pop_all_first (i : Nat) :
    ∀ q, ((s.pop_all i).queues q).first = (s.queues q).first ∨ ((s.pop_all i).queues q).first = none := by
  intro q
  by_cases hq : q = i
  · subst hq
    exact Or.inr (by simp [State.pop_all])
  · exact Or.inl (by simp [State.pop_all, hq])

omit [DecidableEq α] in
theorem resume_stop (task : Task α) (worker : Option Nat) : (s.resume v task worker).stop = s.stop := by
  cases task <;> rfl

/-- A worker does not push. -/
theorem run_first (hrun : run s w = some s') : s'.stop = s.stop ∧
    ∀ q, (s'.queues q).first = (s.queues q).first ∨ (s'.queues q).first = none := by
  have hsame : s'.queues = s.queues → s'.stop = s.stop → s'.stop = s.stop ∧
      ∀ q, (s'.queues q).first = (s.queues q).first ∨ (s'.queues q).first = none := by
    intro hqueues hstop
    exact ⟨hstop, fun q => Or.inl (by rw [hqueues])⟩
  cases run_step hrun with
  | pop top hpc htop => exact ⟨rfl, pop_all_first w⟩
  | pill v hpc htask => exact hsame rfl rfl
  | take v hpc htask => exact hsame rfl rfl
  | resume v task top hpc => exact hsame (s.keeps_resume v task (some w)).queues (resume_stop task _)
  | last hpc => exact hsame rfl rfl
  | next v hpc => exact hsame rfl rfl
  | exit hpc => exact hsame rfl rfl
  | cancel c c' s₁ hpc hcancel =>
    obtain ⟨hqueues, -, hstop⟩ := cancel_keeps hcancel
    exact hsame hqueues hstop

/-- Who may use the pool does so before the queues are emptied for the last time. -/
theorem Inv.emptied_of_may_use (h : Inv n s place blocks) {user : User} (huser : s.MayUse user) :
    s.stop.emptied n = 0 := by
  cases user with
  | outside =>
    have hrunning : s.stop = .running := huser
    rw [hrunning]
    rfl
  | worker w =>
    obtain ⟨top, hbusy⟩ := huser
    have hw : w < n := by
      by_contra hge
      cases hbusy.symm.trans (h.phase.workers_lt w (by omega))
    have hnot : ¬ n ≤ s.stop.joined n := by
      intro hjoined
      cases hbusy.symm.trans (h.phase.joined w (by omega))
    cases hpc : s.stop with
    | wait_cancel i c => simp [hpc, Stop.joined] at hnot
    | waited => simp [hpc, Stop.joined] at hnot
    | drain i p c => simp [hpc, Stop.joined] at hnot
    | returned => simp [hpc, Stop.joined] at hnot
    | running => rfl
    | wait_join i => rfl
    | push i p => rfl
    | join i p => rfl
    | cancel i p c => rfl

/-- A queue is emptied. -/
theorem emptied_cancel_queue (h : Emptied n s) {i : Nat} {c : Option (Cancel α)} {to_stop : Option (Cancel α) → Stop α}
    {done : Stop α} (hstep : s.cancel_queue i c to_stop done = some s') (hstop : s.stop = to_stop c)
    (hnone : (to_stop none).emptied n = i) (hsome : ∀ c, (to_stop (some c)).emptied n = i + 1)
    (hdone : done.emptied n = i + 1) : Emptied n s' := by
  cases cancel_queue_step hstep with
  | pop_all =>
    intro q hq
    rw [hsome] at hq
    by_cases hqi : q = i
    · subst hqi
      simp [State.pop_all]
    · have hold := h q (by rw [hstop, hnone]; omega)
      simpa [State.pop_all, hqi] using hold
  | done => exact h.of_first (by rw [hstop, hsome, hdone]) fun q => Or.inl rfl
  | cancel c c' s₁ hcancel =>
    obtain ⟨hqueues, -, -⟩ := cancel_keeps hcancel
    exact h.of_first (by rw [hstop, hsome, hsome]) fun q => Or.inl (by simp [hqueues])

theorem emptied_stop (h : Emptied n s) (hstep : stop n s = some s') : Emptied n s' := by
  -- nothing is emptied for the last time before the workers are joined
  have hzero : s'.stop.emptied n = 0 → Emptied n s' := by
    intro hzero q hq
    omega
  cases stop_step hstep with
  | wait_join i hstop hi hexited => exact hzero rfl
  | wait_joined i hstop hi => exact hzero rfl
  | wait_cancel i c s' hstop hi hcancel => exact emptied_cancel_queue h hcancel hstop rfl (fun _ => rfl) rfl
  | wait_end i c hstop hi =>
    refine h.of_first ?_ fun q => Or.inl rfl
    cases c <;> simp only [hstop, Stop.emptied] <;> omega
  | push i p hstop hi => exact hzero rfl
  | pushed i p hstop hi => exact hzero rfl
  | join i p hstop hexited => exact hzero rfl
  | cancel i p c s' hstop hcancel =>
    cases cancel_queue_step hcancel with
    | pop_all => exact hzero rfl
    | done => exact hzero rfl
    | cancel c c' s₁ hnext => exact hzero rfl
  | drain i p c s' hstop hi hcancel => exact emptied_cancel_queue h hcancel hstop rfl (fun _ => rfl) rfl
  | finish i p c hstop hi =>
    refine h.of_first ?_ fun q => Or.inl rfl
    cases c <;> simp only [hstop, Stop.emptied, State.record] <;> omega

theorem Inv.emptied (h : Inv n s place blocks) (hemptied : Emptied n s) {a : Action α} (hstep : Step n s a s') :
    Emptied n s' := by
  obtain ⟨hallowed, hstep⟩ := hstep
  have hzero : s'.stop.emptied n = 0 → Emptied n s' := by
    intro hzero q hq
    omega
  cases a with
  | attach user v q =>
    obtain ⟨-, heq⟩ := Option.ite_none_right_eq_some.mp hstep
    cases heq
    exact hzero (h.emptied_of_may_use hallowed)
  | push_deadpill user p u q =>
    obtain ⟨-, heq⟩ := Option.ite_none_right_eq_some.mp hstep
    cases heq
    exact hzero (h.emptied_of_may_use hallowed)
  | overwrite v next task status =>
    obtain ⟨-, heq⟩ := Option.ite_none_right_eq_some.mp hstep
    cases heq
    exact hemptied
  | run w =>
    obtain ⟨-, hrun⟩ := Option.ite_none_right_eq_some.mp hstep
    obtain ⟨hstop, hfirst⟩ := run_first hrun
    exact hemptied.of_first (by rw [hstop]) hfirst
  | wait_stop =>
    obtain ⟨-, heq⟩ := Option.ite_none_right_eq_some.mp hstep
    cases heq
    exact hzero rfl
  | destroy p =>
    obtain ⟨-, hstep⟩ := Option.ite_none_right_eq_some.mp hstep
    split at hstep
    · cases hstep
      exact hzero rfl
    · cases hstep
      exact hzero rfl
    · cases hstep
  | stop => exact emptied_stop hemptied hstep

theorem emptied_of_run {as : List (Action α)} (hrun : Run (Step n) construct as s) : Emptied n s := by
  have hinv := hrun.invariant (fun s => (∃ place blocks, Inv n s place blocks) ∧ Emptied n s) ?_ ?_
  · exact hinv.2
  · rintro s a s' ⟨⟨place, blocks, h⟩, hemptied⟩ hstep
    exact ⟨h.step hstep.2, h.emptied hemptied hstep⟩
  · exact ⟨⟨_, _, Inv.construct_inv⟩, fun _ _ => rfl⟩

/-- When the destructor returns, no node is left. -/
theorem Inv.none_left (h : Inv n s place blocks) (hemptied : Emptied n s) (hreturned : s.stop = .returned) :
    life v s.log ≠ .node q := by
  intro hnode
  have hexited : ∀ w, s.workers w = .exited ∨ s.workers w = .pop := by
    intro w
    by_cases hw : w < n
    · exact Or.inl (h.phase.joined w (by rw [hreturned]; exact hw))
    · exact Or.inr (h.phase.workers_lt w (by omega))
  have hworker : ∀ w, s.walk (.worker w) = ⟨none, none, false⟩ := by
    intro w
    rcases hexited w with hw | hw <;> simp [State.walk, hw, Worker.walk]
  have hstopper : s.walk .stopper = ⟨none, none, false⟩ := by
    show s.stop.walk = _
    rw [hreturned]
    rfl
  cases hplace : place v with
  | nowhere => exact h.core.owned.kept v q hnode hplace
  | listed k =>
    have hmem := (h.core.owned.listed k v).mpr hplace
    have hempty : blocks k = [] := by
      cases k with
      | queue q' =>
        by_cases hq : q' < n
        · exact h.core.lists.empty (hemptied q' (by rw [hreturned]; exact hq))
        · exact h.phase.queues_lt q' (by omega)
      | worker w => exact h.core.lists.empty (by rw [hworker])
      | stopper => exact h.core.lists.empty (by rw [hstopper])
    rw [hempty] at hmem
    cases hmem
  | pending k =>
    obtain ⟨x, hx, -⟩ := (h.core.owned.pending k v).mp hplace
    have hnone : (s.walk k).pending = none := by
      cases k with
      | queue q' => rfl
      | worker w => rw [hworker]
      | stopper => rw [hstopper]
    cases hnone.symm.trans hx

/-- Any number of workers, and threads and tasks that attach nodes and request the
pool to stop, in whatever order their steps come: when the destructor has returned,
each node that was attached has been resumed once, by the worker of its queue or with
`cancelled`, and not accessed after that. At no time is anything resumed that is not
a node in the pool, nor is memory accessed that is neither a node nor a pill. -/
theorem every_node_is_resumed_once {as : List (Action α)} (hrun : Run (Step n) construct as s) :
    (s.stop = .returned → ∀ later v q earlier, s.log = later ++ .attached v q :: earlier →
        ResumedOnce v q later) ∧
      (∀ later v status worker earlier, s.log = later ++ .resumed v status worker :: earlier →
        ∃ q, life v earlier = .node q ∧
          (status = .ok ∧ worker = some q ∨ status = .cancelled ∧ worker = none)) ∧
      ∀ later v earlier, s.log = later ++ .touched v :: earlier → life v earlier ≠ .gone := by
  obtain ⟨place, blocks, h⟩ := inv_of_run (hrun.mono fun _ _ _ hstep => hstep.2)
  refine ⟨fun hreturned later v q earlier hsplit => ?_, fun later v status worker earlier hsplit => ?_,
    fun later v earlier hsplit => ?_⟩
  · exact resumed_once_of_lawful h.core.lawful hsplit fun q => h.none_left (emptied_of_run hrun) hreturned
  · exact h.core.lawful.follows hsplit
  · exact h.core.lawful.follows hsplit

/-- Node `0` is resumed by its worker, node `2` is behind a pill, and node `3` is
attached by a task of worker `1` to the queue of worker `0`, which has been joined. -/
theorem every_node_is_resumed_once_stopped : ∃ s : State Nat, s.stop = .returned ∧
    .resumed 0 .ok (some 0) ∈ s.log ∧ .resumed 2 .cancelled none ∈ s.log ∧ .resumed 3 .cancelled none ∈ s.log ∧
      ∀ later v q earlier, s.log = later ++ .attached v q :: earlier → ResumedOnce v q later := by
  let as : List (Action Nat) :=
    [.attach .outside 0 0, .attach .outside 1 1, .run 1, .run 1, .run 1, .push_deadpill .outside 10 11 0,
      .attach .outside 2 0, .run 0, .run 0, .run 0, .run 0, .run 0, .run 0, .run 0, .run 0, .run 0, .run 0,
      .destroy 20, .stop, .stop, .stop, .stop, .stop, .attach (.worker 1) 3 0, .stop, .run 1, .run 1, .run 1, .run 1,
      .stop, .stop, .stop, .stop, .stop, .stop, .stop, .stop, .stop, .stop, .stop]
  let take := fun (s : State Nat) a => if Allowed s a then step 2 s a else none
  have htaken : (as.foldlM take construct).any (fun s => s.stop = .returned ∧ .resumed 0 .ok (some 0) ∈ s.log ∧
      .resumed 2 .cancelled none ∈ s.log ∧ .resumed 3 .cancelled none ∈ s.log) = true := by
    decide +kernel
  obtain ⟨s, hs, hend⟩ := (Option.any_eq_true ..).mp htaken
  obtain ⟨hreturned, h0, h2, h3⟩ := of_decide_eq_true hend
  have hrun : Run (Step 2) construct as s := by
    refine Run.of_foldlM (fun s a s' htake => ?_) hs
    exact Option.ite_none_right_eq_some.mp htake
  exact ⟨s, hreturned, h0, h2, h3, (every_node_is_resumed_once hrun).1 hreturned⟩

end kelcoro.thread_pool
