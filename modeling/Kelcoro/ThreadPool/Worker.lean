import Kelcoro.ThreadPool.Completes
import Kelcoro.ThreadPool.Resumed
import Mathlib

namespace kelcoro.thread_pool.worker

open kelcoro.lib

variable {α : Type} [DecidableEq α]

/-- What can happen: a node is attached (by `worker::attach` or `strand::attach`),
memory that is no node is used for something else, the thread goes on, the destructor
is called, and goes on. -/
inductive Action (α : Type) where
  | attach (user : User) (v : α)
  | overwrite (v : α) (next : Option α) (task : Task α) (status : schedule_errc)
  | run
  | destroy (pill : α)
  | destructor
  deriving DecidableEq, Repr

/-- The next step of `~worker`, whose thread is joinable. -/
def destructor (s : State α) : Option (State α) :=
  match s.stop with
  | .push i p => some { { s with next := Function.update s.next p none }.push_list 0 p p with stop := .join i p }
  | .join i p => if s.workers 0 = .exited then some { s with stop := .cancel i p none } else none
  | .cancel _ p (some (.loop none)) => some ({ s with stop := .returned }.record (.destroyed p))
  | .cancel i p none => some { s.pop_all 0 with stop := .cancel i p (some (.loop (s.queues 0).first)) }
  | .cancel i p (some c) => (s.cancel c).map fun (c, s) => { s with stop := .cancel i p (some c) }
  | _ => none

/-- A step of a worker, which has queue 0. -/
def step (s : State α) : Action α → Option (State α)
  | .attach _ v => if life v s.log = .gone then some (s.attach v 0) else none
  | .overwrite v next task status =>
    if life v s.log = .gone then
      some { s with
        next := Function.update s.next v next
        task := Function.update s.task v task
        status := Function.update s.status v status }
    else none
  | .run => thread_pool.run s 0
  | .destroy p =>
    if life p s.log = .gone ∧ s.stop = .running then
      some ({ s with
        task := Function.update s.task p .null
        status := Function.update s.status p .ok
        stop := .push 0 p }.record (.pill p))
    else none
  | .destructor => destructor s

def Allowed (s : State α) : Action α → Prop
  | .attach user _ => s.MayUse user
  | _ => True

def Step (s : State α) (a : Action α) (s' : State α) : Prop := Allowed s a ∧ step s a = some s'

namespace Action

/-- The steps of the thread and of the destructor. -/
def own : Action α → Bool
  | .run | .destructor => true
  | _ => false

/-- The steps that a call allows. -/
def costs : Action α → Nat
  | .attach _ _ => 4
  | _ => 0

end Action

variable {s s' : State α} {a : Action α} {v p : α}

/-- Where the destructor is. When it cancels what was in the queue, nobody attaches
anything more. -/
inductive Ends (s : State α) : Prop
  | running (hstop : s.stop = .running)
  | push (p : α) (hstop : s.stop = .push 0 p)
  | join (p : α) (hstop : s.stop = .join 0 p)
  | joined (p : α) (hstop : s.stop = .cancel 0 p none) (hexited : s.workers 0 = .exited)
  | cancel (p : α) (c : Cancel α) (hstop : s.stop = .cancel 0 p (some c)) (hexited : s.workers 0 = .exited)
      (hempty : (s.queues 0).first = none)
  | returned (hstop : s.stop = .returned)

/-- The steps of a pool with one queue that do what a step of a worker does. -/
structure PoolSteps (s : State α) (a : Action α) (s' : State α) (bs : List (thread_pool.Action α)) : Prop where
  run : Run (thread_pool.Step 1) s bs s'
  own : a.own.toNat ≤ bs.countP thread_pool.Action.own
  costs : (bs.map thread_pool.Action.costs).sum = a.costs
  destroys : ∀ p, a = .destroy p → .destroy p ∈ bs

/-- One step of the pool. -/
theorem PoolSteps.single {b : thread_pool.Action α} (hstep : thread_pool.Step 1 s b s') (hown : a.own.toNat ≤ b.own.toNat)
    (hcosts : b.costs = a.costs) (hdestroys : ∀ p, a = .destroy p → b = .destroy p) : PoolSteps s a s' [b] where
  run := .cons hstep (.nil _)
  own := by
    cases hb : b.own <;> simp [hb] at hown ⊢
    · exact hown
    · exact Bool.toNat_le _
  costs := by simpa using hcosts
  destroys p hp := by simp [hdestroys p hp]

/-- The destructor of the pool still looks into the queue once more, in vain. -/
theorem returns_run (hstop : s.stop = .cancel 0 p (some (.loop none))) (hempty : (s.queues 0).first = none) :
    Run (thread_pool.Step 1) s [.stop, .stop, .stop, .stop, .stop] ({ s with stop := .returned }.record (.destroyed p)) := by
  have hqueues : Function.update s.queues 0 { s.queues 0 with first := none } = s.queues := by
    rw [← hempty]
    exact Function.update_eq_self ..
  have hcancelled : stop 1 s = some { s with stop := .push 1 p } := by simp [stop, hstop, State.cancel_queue]
  have hpushed : stop 1 { s with stop := .push 1 p } = some { s with stop := .drain 0 p none } := by simp [stop]
  have hpopped : stop 1 { s with stop := .drain 0 p none } = some { s with stop := .drain 0 p (some (.loop none)) } := by
    simp [stop, State.cancel_queue, State.pop_all, hempty, hqueues]
  have hdrained : stop 1 { s with stop := .drain 0 p (some (.loop none)) } = some { s with stop := .drain 1 p none } := by
    simp [stop, State.cancel_queue]
  have hreturned : stop 1 { s with stop := .drain 1 p none } = some ({ s with stop := .returned }.record (.destroyed p)) := by
    simp [stop]
  exact .cons ⟨trivial, hcancelled⟩ (.cons ⟨trivial, hpushed⟩ (.cons ⟨trivial, hpopped⟩ (.cons ⟨trivial, hdrained⟩
    (.cons ⟨trivial, hreturned⟩ (.nil _)))))

/-- Every step of the destructor is one of the destructor of the pool, except for its
last one. -/
theorem simulates_destructor (h : Ends s) (hstep : destructor s = some s') :
    ∃ bs, PoolSteps s .destructor s' bs := by
  have hsingle : stop 1 s = some s' → ∃ bs, PoolSteps s .destructor s' bs := fun hstop =>
    ⟨_, .single (b := .stop) ⟨trivial, hstop⟩ le_rfl rfl (by rintro _ ⟨⟩)⟩
  cases h with
  | running hstop | returned hstop => simp [destructor, hstop] at hstep
  | push p hstop => exact hsingle (by simpa [destructor, stop, hstop] using hstep)
  | join p hstop => exact hsingle (by simpa [destructor, stop, hstop] using hstep)
  | joined p hstop hexited =>
    exact hsingle (by simpa [destructor, stop, hstop, State.cancel_queue] using hstep)
  | cancel p c hstop hexited hempty =>
    by_cases hend : c = .loop none
    · subst hend
      simp only [destructor, hstop, Option.some.injEq] at hstep
      subst hstep
      exact ⟨_, returns_run hstop hempty, by simp [Action.own, thread_pool.Action.own], rfl, by rintro _ ⟨⟩⟩
    · have hcancel : s.cancel_queue 0 (some c) (.cancel 0 p) (.push 1 p) = some s' := by
        cases c with
        | loop top =>
          cases top with
          | none => exact absurd rfl hend
          | some v => simpa [destructor, hstop, State.cancel_queue] using hstep
        | resume v task top => simpa [destructor, hstop, State.cancel_queue] using hstep
      exact hsingle (by simpa [stop, hstop] using hcancel)

theorem simulates_step (h : Ends s) (hstep : Step s a s') : ∃ bs, PoolSteps s a s' bs := by
  obtain ⟨hallowed, hstep⟩ := hstep
  cases a with
  | attach user v =>
    obtain ⟨hv, heq⟩ := Option.ite_none_right_eq_some.mp hstep
    exact ⟨_, .single (b := .attach user v 0) ⟨hallowed, by simpa [thread_pool.step, hv] using heq⟩ (by rfl) rfl (by rintro _ ⟨⟩)⟩
  | overwrite v next task status =>
    exact ⟨_, .single (b := .overwrite v next task status) ⟨trivial, hstep⟩ (by rfl) rfl (by rintro _ ⟨⟩)⟩
  | run =>
    have hrun : run s 0 = some s' := hstep
    exact ⟨_, .single (b := .run 0) ⟨trivial, by simp [thread_pool.step, hrun]⟩ le_rfl rfl (by rintro _ ⟨⟩)⟩
  | destroy p =>
    obtain ⟨⟨hp, hstop⟩, heq⟩ := Option.ite_none_right_eq_some.mp hstep
    refine ⟨_, .single (b := .destroy p) ⟨trivial, ?_⟩ (by rfl) rfl ?_⟩
    · simpa [thread_pool.step, hp, hstop, State.record] using heq
    · rintro q ⟨⟩
      rfl
  | destructor => exact simulates_destructor h hstep

omit [DecidableEq α] in
/-- Nobody may use a worker whose thread is over. -/
theorem not_may_use {user : User} (hworkers : ∀ w, 1 ≤ w → s.workers w = .pop) (hexited : s.workers 0 = .exited)
    (hstop : s.stop ≠ .running) : ¬ s.MayUse user := by
  cases user with
  | outside => exact hstop
  | worker w =>
    rintro ⟨top, hbusy⟩
    cases w with
    | zero => cases hexited.symm.trans hbusy
    | succ w => cases (hworkers (w + 1) (by omega)).symm.trans hbusy

namespace Ends

/-- The queue gets a node while the thread is not over. -/
theorem attach (h : Ends s) {user : User} (hworkers : ∀ w, 1 ≤ w → s.workers w = .pop) (huser : s.MayUse user) :
    Ends (s.attach v 0) := by
  cases h with
  | running hstop => exact .running hstop
  | push p hstop => exact .push p hstop
  | join p hstop => exact .join p hstop
  | joined p hstop hexited => exact .joined p hstop hexited
  | cancel p c hstop hexited hempty => exact absurd huser (not_may_use hworkers hexited (by simp [hstop]))
  | returned hstop => exact .returned hstop

theorem run (h : Ends s) (hrun : run s 0 = some s') : Ends s' := by
  have hstop' := run_stop hrun
  cases h with
  | running hstop => exact .running (hstop'.trans hstop)
  | push p hstop => exact .push p (hstop'.trans hstop)
  | join p hstop => exact .join p (hstop'.trans hstop)
  | joined p hstop hexited => simp [thread_pool.run, hexited] at hrun
  | cancel p c hstop hexited hempty => simp [thread_pool.run, hexited] at hrun
  | returned hstop => exact .returned (hstop'.trans hstop)

theorem destructor (h : Ends s) (hstep : destructor s = some s') : Ends s' := by
  cases h with
  | running hstop | returned hstop => simp [worker.destructor, hstop] at hstep
  | push p hstop =>
    simp only [worker.destructor, hstop, Option.some.injEq] at hstep
    subst hstep
    exact .join p rfl
  | join p hstop =>
    simp only [worker.destructor, hstop, Option.ite_none_right_eq_some, Option.some.injEq] at hstep
    obtain ⟨hexited, rfl⟩ := hstep
    exact .joined p rfl hexited
  | joined p hstop hexited =>
    simp only [worker.destructor, hstop, Option.some.injEq] at hstep
    subst hstep
    exact .cancel p _ rfl hexited (by simp [State.pop_all])
  | cancel p c hstop hexited hempty =>
    by_cases hend : c = .loop none
    · subst hend
      simp only [worker.destructor, hstop, Option.some.injEq] at hstep
      subst hstep
      exact .returned rfl
    · have hcancel : (s.cancel c).map (fun r => { r.2 with stop := .cancel 0 p (some r.1) }) = some s' := by
        cases c with
        | loop top =>
          cases top with
          | none => exact absurd rfl hend
          | some v => simpa [worker.destructor, hstop] using hstep
        | resume v task top => simpa [worker.destructor, hstop] using hstep
      obtain ⟨⟨c', s₁⟩, hc, rfl⟩ := Option.map_eq_some_iff.mp hcancel
      obtain ⟨hqueues, hworkers, -⟩ := cancel_keeps hc
      refine .cancel p c' rfl ?_ ?_
      · exact (congrFun hworkers 0).trans hexited
      · exact (congrArg Queue.first (congrFun hqueues 0)).trans hempty

theorem step (h : Ends s) (hworkers : ∀ w, 1 ≤ w → s.workers w = .pop) (hstep : Step s a s') : Ends s' := by
  obtain ⟨hallowed, hstep⟩ := hstep
  cases a with
  | attach user v =>
    obtain ⟨-, heq⟩ := Option.ite_none_right_eq_some.mp hstep
    rw [← Option.some.inj heq]
    exact h.attach hworkers hallowed
  | overwrite v next task status =>
    obtain ⟨-, heq⟩ := Option.ite_none_right_eq_some.mp hstep
    rw [← Option.some.inj heq]
    cases h with
    | running hstop => exact .running hstop
    | push p hstop => exact .push p hstop
    | join p hstop => exact .join p hstop
    | joined p hstop hexited => exact .joined p hstop hexited
    | cancel p c hstop hexited hempty => exact .cancel p c hstop hexited hempty
    | returned hstop => exact .returned hstop
  | run => exact h.run hstep
  | destroy p =>
    obtain ⟨-, heq⟩ := Option.ite_none_right_eq_some.mp hstep
    rw [← Option.some.inj heq]
    exact .push p rfl
  | destructor => exact h.destructor hstep

end Ends

/-- A worker is a pool with one queue. -/
theorem simulates_run {as : List (Action α)} (hrun : Run Step s as s') (hends : Ends s)
    (hinv : ∃ place blocks, Inv 1 s place blocks) : Ends s' ∧ ∃ bs, Run (thread_pool.Step 1) s bs s' ∧
      as.countP Action.own ≤ bs.countP thread_pool.Action.own ∧
      (bs.map thread_pool.Action.costs).sum = (as.map Action.costs).sum ∧ ∀ p, .destroy p ∈ as → .destroy p ∈ bs := by
  induction hrun with
  | nil s => exact ⟨hends, [], .nil s, le_rfl, rfl, by simp⟩
  | @cons s s₁ s' a as hstep _ ih =>
    obtain ⟨place, blocks, h⟩ := hinv
    obtain ⟨bs, hbs⟩ := simulates_step hends hstep
    have hinv₁ : ∃ place blocks, Inv 1 s₁ place blocks := by
      refine hbs.run.invariant (fun s => ∃ place blocks, Inv 1 s place blocks) ?_ ⟨place, blocks, h⟩
      rintro s b s' ⟨place, blocks, h⟩ hstep
      exact h.step hstep.2
    obtain ⟨hends', cs, hrun', hown, hcosts, hdestroys⟩ := ih (hends.step h.phase.workers_lt hstep) hinv₁
    refine ⟨hends', bs ++ cs, hbs.run.append hrun', ?_, ?_, fun p hp => ?_⟩
    · have hown' := hbs.own
      have hcons : (a :: as).countP Action.own = as.countP Action.own + a.own.toNat := by
        cases ha : a.own <;> simp [ha]
      rw [hcons, List.countP_append]
      omega
    · rw [List.map_append, List.sum_append, hbs.costs, hcosts, List.map_cons, List.sum_cons]
    · obtain hp | hp := List.mem_cons.mp hp
      · exact List.mem_append_left _ (hbs.destroys p hp.symm)
      · exact List.mem_append_right _ (hdestroys p hp)

/-- The thread or the destructor can go on. -/
def Enabled (s : State α) : Prop := ∃ a s', a.own = true ∧ Step s a s'

theorem enabled_of_pool (h : Ends s) (henabled : thread_pool.Enabled 1 s) : Enabled s := by
  obtain ⟨b, s', hown, -, hstep⟩ := henabled
  cases b with
  | run w =>
    obtain ⟨hw, hrun⟩ := Option.ite_none_right_eq_some.mp hstep
    obtain rfl : w = 0 := by omega
    exact ⟨.run, s', rfl, trivial, hrun⟩
  | stop =>
    have hdestructor : (destructor s).isSome = true := by
      have hstop : (stop 1 s).isSome = true := Option.isSome_iff_exists.mpr ⟨s', hstep⟩
      cases h with
      | running hpc | returned hpc => simp [stop, hpc] at hstop
      | push p hpc => simp [destructor, hpc]
      | join p hpc => simpa [stop, destructor, hpc] using hstop
      | joined p hpc => simp [destructor, hpc]
      | cancel p c hpc =>
        cases c with
        | loop top =>
          cases top with
          | none => simp [destructor, hpc]
          | some v => cases htask : s.task v <;> simp [destructor, hpc, State.cancel, htask]
        | resume v task top => simp [destructor, hpc, State.cancel]
    obtain ⟨s', hs'⟩ := Option.isSome_iff_exists.mp hdestructor
    exact ⟨.destructor, s', rfl, trivial, hs'⟩
  | attach | push_deadpill | overwrite | wait_stop | destroy => cases hown

/-- A worker is a pool with one queue: the nodes are resumed in the order in which they
were attached, by its thread or after it with `cancelled`; each has been resumed once
when the destructor has returned; and once the destructor was called it does return,
after a bounded number of steps. -/
theorem worker_refines_pool {as : List (Action α)} (hrun : Run Step construct as s) :
    (∃ bs, Run (thread_pool.Step 1) construct bs s) ∧
      (resumed 0 s.log).map Resumption.node <+: attached 0 s.log ∧
      ((resumed 0 s.log).Pairwise fun r r' => r.status = .cancelled → r'.status = .cancelled) ∧
      (s.stop = .returned → ∀ later v q earlier, s.log = later ++ .attached v q :: earlier → ResumedOnce v q later) ∧
      as.countP Action.own ≤ (as.map Action.costs).sum + 17 ∧
      ∀ p, .destroy p ∈ as → s.stop = .returned ∨ Enabled s := by
  obtain ⟨hends, bs, hpool, hown, hcosts, hdestroys⟩ := simulates_run hrun (.running rfl) ⟨_, _, Inv.construct_inv⟩
  have hsteps : Run (fun s a s' => thread_pool.step 1 s a = some s') construct bs s := hpool.mono fun _ _ _ hstep => hstep.2
  obtain ⟨place, blocks, h, hline⟩ := line_of_run hsteps
  have hbound := own_steps_le hpool
  refine ⟨⟨bs, hpool⟩, ⟨_, (hline.order 0).symm⟩, hline.sorted 0, fun hreturned later v q earlier hsplit => ?_, by omega,
    fun p hp => ?_⟩
  · exact resumed_once_of_lawful h.core.lawful hsplit fun q => h.none_left (emptied_of_run hpool) hreturned
  · obtain ⟨place', blocks', h', hwaits⟩ := waits_of_run hpool
    exact (enabled_of_called h'.core hwaits (called_of_run hpool (hdestroys p hp))).imp_right (enabled_of_pool hends)

/-- A node is attached, and the destructor is called before the thread has resumed it. -/
def attach_and_destroy : List (Action Nat) :=
  [.attach .outside 1, .run, .destroy 2, .destructor, .run, .run, .run, .run, .run, .run, .destructor, .destructor, .destructor]

theorem worker_refines_pool_destroyed : ∃ s : State Nat, s.stop = .returned ∧
    (∃ bs, Run (thread_pool.Step 1) construct bs s) ∧
      ∀ later v q earlier, s.log = later ++ .attached v q :: earlier → ResumedOnce v q later := by
  obtain ⟨s, hrun, hreturned⟩ : ∃ s : State Nat, Run Step construct attach_and_destroy s ∧ s.stop = .returned :=
    ⟨_, .cons ⟨rfl, rfl⟩ <| .cons ⟨trivial, rfl⟩ <| .cons ⟨trivial, rfl⟩ <| .cons ⟨trivial, rfl⟩ <|
      .cons ⟨trivial, rfl⟩ <| .cons ⟨trivial, rfl⟩ <| .cons ⟨trivial, rfl⟩ <| .cons ⟨trivial, rfl⟩ <|
      .cons ⟨trivial, rfl⟩ <| .cons ⟨trivial, rfl⟩ <| .cons ⟨trivial, rfl⟩ <| .cons ⟨trivial, rfl⟩ <|
      .cons ⟨trivial, rfl⟩ <| .nil _, rfl⟩
  have hworker := worker_refines_pool hrun
  exact ⟨s, hreturned, hworker.1, hworker.2.2.2.1 hreturned⟩

end kelcoro.thread_pool.worker
