import Kelcoro.ThreadPool.Invariant
import Mathlib

namespace kelcoro.thread_pool

open kelcoro.lib

variable {α : Type} [DecidableEq α]

/-- How many workers the thread that stops the pool of `n` workers has joined. -/
def Stop.joined (n : Nat) : Stop α → Nat
  | .running => 0
  | .wait_join i | .push i _ | .join i _ => i
  | .cancel i _ _ => i + 1
  | .wait_cancel _ _ | .waited | .drain _ _ _ | .returned => n

/-- How many queues it has emptied for the last time. -/
def Stop.emptied (n : Nat) : Stop α → Nat
  | .wait_cancel i none | .drain i _ none => i
  | .wait_cancel i (some _) | .drain i _ (some _) => i + 1
  | .waited | .returned => n
  | _ => 0

/-- Whose list the pill of the destructor may be in. -/
def Stop.Has : Stop α → Holder → Prop
  | .join i _, h => h = .queue i ∨ h = .worker i
  | .cancel i _ none, h => h = .queue i
  | .cancel _ _ (some _), h => h = .stopper
  | _, _ => False

/-- How far the pool of `n` workers is stopped. -/
structure Phase (n : Nat) (s : State α) (place : α → Place) (blocks : Holder → List (Block α)) : Prop where
  queues_lt : ∀ q, n ≤ q → blocks (.queue q) = []
  workers_lt : ∀ w, n ≤ w → s.workers w = .pop
  joined : ∀ w, w < s.stop.joined n → s.workers w = .exited
  emptied_le : s.stop.emptied n ≤ n
  pill : ∀ p h, s.stop.pill = some p → place p = .listed h → s.stop.Has h

structure Inv (n : Nat) (s : State α) (place : α → Place) (blocks : Holder → List (Block α)) : Prop where
  core : Core s place blocks
  phase : Phase n s place blocks

variable {n : Nat} {s s' s₁ : State α} {place place' : α → Place} {blocks blocks' : Holder → List (Block α)}
  {k : Holder} {v p u : α} {q w i : Nat}

omit [DecidableEq α] in
theorem goto_walk (pc : Worker α) : (s.goto w pc).walk = Function.update s.walk (.worker w) pc.walk := by
  funext j
  by_cases hj : j = .worker w
  · subst hj
    simp [State.walk, State.goto]
  · rw [Function.update_of_ne hj]
    cases j with
    | queue q => rfl
    | worker w' => simp [State.walk, State.goto, show w' ≠ w by simpa using hj]
    | stopper => rfl

omit [DecidableEq α] in
theorem stop_walk (stop : Stop α) : ({ s with stop := stop } : State α).walk = Function.update s.walk .stopper stop.walk := by
  funext j
  cases j <;> simp [State.walk]

omit [DecidableEq α] in
/-- A worker takes the list of its queue. -/
theorem pop_walk {top : α} (htop : (s.queues w).first = some top) : ((s.pop_all w).goto w (.run top)).walk =
    Function.update (Function.update s.walk (.worker w) ⟨(s.queues w).first, none, false⟩) (.queue w)
      ⟨none, none, false⟩ := by
  rw [goto_walk]
  funext j
  cases j with
  | queue q =>
    by_cases hq : q = w
    · subst hq
      simp [State.walk, State.pop_all]
    · simp [State.walk, State.pop_all, hq]
  | worker w' =>
    by_cases hw' : w' = w
    · subst hw'
      simp [Worker.walk, htop]
    · simp [State.walk, State.pop_all, hw']
  | stopper => rfl

omit [DecidableEq α] in
/-- The thread that stops the pool does. -/
theorem pop_all_walk {stop : Stop α} (hstop : stop.cancel_tasks = some (.loop (s.queues i).first)) :
    ({ s.pop_all i with stop := stop } : State α).walk = Function.update (Function.update s.walk .stopper
      ⟨(s.queues i).first, none, (s.queues i).first.isSome⟩) (.queue i) ⟨none, none, false⟩ := by
  funext j
  cases j with
  | queue q =>
    by_cases hq : q = i
    · subst hq
      simp [State.walk, State.pop_all]
    · simp [State.walk, State.pop_all, hq]
  | worker w => rfl
  | stopper => simp [State.walk, Stop.walk, hstop, Cancel.walk]

omit [DecidableEq α] in
theorem State.Keeps.trans (h : s.Keeps s₁) (h' : s₁.Keeps s') : s.Keeps s' :=
  ⟨h'.next.trans h.next, h'.task.trans h.task, h'.queues.trans h.queues, h'.pill.trans h.pill⟩

omit [DecidableEq α] in
theorem State.Keeps.goto (h : s.Keeps s₁) (w : Nat) (pc : Worker α) : s.Keeps (s₁.goto w pc) :=
  ⟨h.next, h.task, h.queues, h.pill⟩

omit [DecidableEq α] in
theorem State.keeps_record (s : State α) (e : Event α) : s.Keeps (s.record e) := ⟨rfl, rfl, rfl, rfl⟩

omit [DecidableEq α] in
theorem State.keeps_resume (s : State α) (v : α) (task : Task α) (worker : Option Nat) : s.Keeps (s.resume v task worker) := by
  cases task <;> exact ⟨rfl, rfl, rfl, rfl⟩

omit [DecidableEq α] in
theorem resume_status (task : Task α) (worker : Option Nat) : (s.resume v task worker).status = s.status := by
  cases task <;> rfl

/-- What `cancel_tasks` does in one step. -/
inductive CancelStep (s : State α) : Cancel α → Cancel α → State α → Prop
  | skip (v : α) (htask : s.task v = .null) : CancelStep s (.loop (some v)) (.loop (s.next v))
      ({ s with status := Function.update s.status v .cancelled }.record (.touched v))
  | take (v : α) (htask : s.task v ≠ .null) : CancelStep s (.loop (some v)) (.resume v (s.task v) (s.next v))
      ({ s with status := Function.update s.status v .cancelled }.record (.touched v))
  | resume (v : α) (task : Task α) (top : Option α) :
      CancelStep s (.resume v task top) (.loop top) (s.resume v task none)

/-- What worker `w` does in one step. -/
inductive RunStep (s : State α) (w : Nat) : State α → Prop
  | pop (top : α) (hpc : s.workers w = .pop) (htop : (s.queues w).first = some top) :
      RunStep s w ((s.pop_all w).goto w (.run top))
  | pill (v : α) (hpc : s.workers w = .run v) (htask : s.task v = .null) :
      RunStep s w ((s.record (.touched v)).goto w (.cancel (.loop (s.next v))))
  | take (v : α) (hpc : s.workers w = .run v) (htask : s.task v ≠ .null) :
      RunStep s w ((s.record (.touched v)).goto w (.resume v (s.task v) (s.next v)))
  | resume (v : α) (task : Task α) (top : Option α) (hpc : s.workers w = .resume v task top) :
      RunStep s w ((s.resume v task (some w)).goto w (.busy top))
  | last (hpc : s.workers w = .busy none) : RunStep s w (s.goto w .pop)
  | next (v : α) (hpc : s.workers w = .busy (some v)) : RunStep s w (s.goto w (.run v))
  | exit (hpc : s.workers w = .cancel (.loop none)) : RunStep s w (s.goto w .exited)
  | cancel (c c' : Cancel α) (s₁ : State α) (hpc : s.workers w = .cancel c) (hcancel : s.cancel c = some (c', s₁)) :
      RunStep s w (s₁.goto w (.cancel c'))

/-- What `cancel_tasks(queues[i].pop_all())` does in one step. -/
inductive CancelQueueStep (s : State α) (i : Nat) (to_stop : Option (Cancel α) → Stop α) (done : Stop α) :
    Option (Cancel α) → State α → Prop
  | pop_all : CancelQueueStep s i to_stop done none
      { s.pop_all i with stop := to_stop (some (.loop (s.queues i).first)) }
  | done : CancelQueueStep s i to_stop done (some (.loop none)) { s with stop := done }
  | cancel (c c' : Cancel α) (s₁ : State α) (hcancel : s.cancel c = some (c', s₁)) :
      CancelQueueStep s i to_stop done (some c) { s₁ with stop := to_stop (some c') }

/-- What the thread that stops the pool of `n` workers does in one step. -/
inductive StopStep (n : Nat) (s : State α) : State α → Prop
  | wait_join (i : Nat) (hstop : s.stop = .wait_join i) (hi : i < n) (hexited : s.workers i = .exited) :
      StopStep n s { s with stop := .wait_join (i + 1) }
  | wait_joined (i : Nat) (hstop : s.stop = .wait_join i) (hi : ¬ i < n) :
      StopStep n s { s with stop := .wait_cancel 0 none }
  | wait_cancel (i : Nat) (c : Option (Cancel α)) (s' : State α) (hstop : s.stop = .wait_cancel i c) (hi : i < n)
      (hcancel : s.cancel_queue i c (.wait_cancel i) (.wait_cancel (i + 1) none) = some s') : StopStep n s s'
  | wait_end (i : Nat) (c : Option (Cancel α)) (hstop : s.stop = .wait_cancel i c) (hi : ¬ i < n) :
      StopStep n s { s with stop := .waited }
  | push (i : Nat) (p : α) (hstop : s.stop = .push i p) (hi : i < n) :
      StopStep n s { { s with next := Function.update s.next p none }.push_list i p p with stop := .join i p }
  | pushed (i : Nat) (p : α) (hstop : s.stop = .push i p) (hi : ¬ i < n) :
      StopStep n s { s with stop := .drain 0 p none }
  | join (i : Nat) (p : α) (hstop : s.stop = .join i p) (hexited : s.workers i = .exited) :
      StopStep n s { s with stop := .cancel i p none }
  | cancel (i : Nat) (p : α) (c : Option (Cancel α)) (s' : State α) (hstop : s.stop = .cancel i p c)
      (hcancel : s.cancel_queue i c (.cancel i p) (.push (i + 1) p) = some s') : StopStep n s s'
  | drain (i : Nat) (p : α) (c : Option (Cancel α)) (s' : State α) (hstop : s.stop = .drain i p c) (hi : i < n)
      (hcancel : s.cancel_queue i c (.drain i p) (.drain (i + 1) p none) = some s') : StopStep n s s'
  | finish (i : Nat) (p : α) (c : Option (Cancel α)) (hstop : s.stop = .drain i p c) (hi : ¬ i < n) :
      StopStep n s ({ s with stop := .returned }.record (.destroyed p))

theorem cancel_step {c c' : Cancel α} (hstep : s.cancel c = some (c', s₁)) : CancelStep s c c' s₁ := by
  cases c with
  | loop top =>
    cases top with
    | none => cases hstep
    | some v =>
      cases htask : s.task v with
      | null =>
        simp only [State.cancel, htask, Option.some.injEq, Prod.mk.injEq] at hstep
        obtain ⟨rfl, rfl⟩ := hstep
        exact .skip v htask
      | coroutine | push_deadpill p =>
        simp only [State.cancel, htask, Option.some.injEq, Prod.mk.injEq] at hstep
        obtain ⟨rfl, rfl⟩ := hstep
        rw [← htask]
        exact .take v (by simp [htask])
  | resume v task top =>
    simp only [State.cancel, Option.some.injEq, Prod.mk.injEq] at hstep
    obtain ⟨rfl, rfl⟩ := hstep
    exact .resume v task top

theorem run_step (hrun : run s w = some s') : RunStep s w s' := by
  cases hpc : s.workers w with
  | pop =>
    simp only [run, hpc] at hrun
    cases htop : (s.queues w).first with
    | none => simp [htop] at hrun
    | some top =>
      simp only [htop, Option.some.injEq] at hrun
      subst hrun
      exact .pop top hpc htop
  | run v =>
    cases htask : s.task v with
    | null =>
      simp only [run, hpc, htask, Option.some.injEq] at hrun
      subst hrun
      exact .pill v hpc htask
    | coroutine | push_deadpill p =>
      simp only [run, hpc, htask, Option.some.injEq] at hrun
      subst hrun
      rw [← htask]
      exact .take v hpc (by simp [htask])
  | resume v task top =>
    simp only [run, hpc, Option.some.injEq] at hrun
    subst hrun
    exact .resume v task top hpc
  | busy top =>
    cases top with
    | none =>
      simp only [run, hpc, Option.some.injEq] at hrun
      subst hrun
      exact .last hpc
    | some v =>
      simp only [run, hpc, Option.some.injEq] at hrun
      subst hrun
      exact .next v hpc
  | cancel c =>
    by_cases hend : c = .loop none
    · subst hend
      simp only [run, hpc, Option.some.injEq] at hrun
      subst hrun
      exact .exit hpc
    · simp only [run, hpc, Option.map_eq_some_iff] at hrun
      obtain ⟨⟨c', s₁⟩, hcancel, rfl⟩ := hrun
      exact .cancel c c' s₁ hpc hcancel
  | exited => simp [run, hpc] at hrun

theorem cancel_queue_step {c : Option (Cancel α)} {to_stop : Option (Cancel α) → Stop α} {done : Stop α}
    (hstep : s.cancel_queue i c to_stop done = some s') : CancelQueueStep s i to_stop done c s' := by
  unfold State.cancel_queue at hstep
  split at hstep
  · cases hstep
    exact .pop_all
  · cases hstep
    exact .done
  · obtain ⟨⟨c', s₁⟩, hcancel, rfl⟩ := Option.map_eq_some_iff.mp hstep
    exact .cancel _ c' s₁ hcancel

theorem stop_step (hstep : stop n s = some s') : StopStep n s s' := by
  unfold stop at hstep
  split at hstep
  · cases hstep
  · cases hstep
  · cases hstep
  · rename_i i hstop
    split at hstep
    · obtain ⟨hexited, heq⟩ := Option.ite_none_right_eq_some.mp hstep
      cases heq
      exact .wait_join i hstop ‹_› hexited
    · cases hstep
      exact .wait_joined i hstop ‹_›
  · rename_i i c hstop
    split at hstep
    · exact .wait_cancel i c s' hstop ‹_› hstep
    · cases hstep
      exact .wait_end i c hstop ‹_›
  · rename_i i p hstop
    split at hstep
    · cases hstep
      exact .push i p hstop ‹_›
    · cases hstep
      exact .pushed i p hstop ‹_›
  · rename_i i p hstop
    obtain ⟨hexited, heq⟩ := Option.ite_none_right_eq_some.mp hstep
    cases heq
    exact .join i p hstop hexited
  · rename_i i p c hstop
    exact .cancel i p c s' hstop hstep
  · rename_i i p c hstop
    split at hstep
    · exact .drain i p c s' hstop ‹_› hstep
    · cases hstep
      exact .finish i p c hstop ‹_›

theorem cancel_keeps {c c' : Cancel α} (hstep : s.cancel c = some (c', s₁)) :
    s₁.queues = s.queues ∧ s₁.workers = s.workers ∧ s₁.stop = s.stop := by
  cases cancel_step hstep with
  | skip v htask => exact ⟨rfl, rfl, rfl⟩
  | take v htask => exact ⟨rfl, rfl, rfl⟩
  | resume v task top => cases task <;> exact ⟨rfl, rfl, rfl⟩

theorem cancel_walk {c c' : Cancel α} (hstep : s.cancel c = some (c', s₁)) : s₁.walk = s.walk := by
  obtain ⟨hqueues, hworkers, hstop⟩ := cancel_keeps hstep
  funext j
  cases j <;> simp only [State.walk, hqueues, hworkers, hstop]

namespace Core

/-- `cancel_tasks` goes on. -/
theorem cancels (h : Core s place blocks) {c c' : Cancel α} (hk : ∀ q, k ≠ .queue q) (hwalk : s.walk k = c.walk)
    (hstep : s.cancel c = some (c', s₁)) (hkeeps : s₁.Keeps s') (hstatus : s'.status = s₁.status)
    (hlog : s'.log = s₁.log) (hwalk' : s'.walk = Function.update s.walk k c'.walk) :
    ∃ place' blocks', Core s' place' blocks' ∧ Narrows place blocks place' blocks' := by
  cases cancel_step hstep with
  | skip v htask =>
    exact h.consumes .cancelled hk (by rw [hwalk]; rfl) (by rw [hwalk]; rfl) htask ⟨hkeeps.next, hkeeps.task, hkeeps.queues,
      hkeeps.pill⟩ hstatus hlog hwalk'
  | take v htask =>
    exact h.picks .cancelled hk (by rw [hwalk]; rfl) (by rw [hwalk]; rfl) (by simp) htask ⟨hkeeps.next, hkeeps.task,
      hkeeps.queues, hkeeps.pill⟩ hstatus hlog hwalk'
  | resume v task top =>
    apply h.resumes .cancelled hk (by rw [hwalk]; rfl) (by rw [hwalk]; rfl)
      (fun q _ => Or.inr ⟨rfl, rfl⟩) ((s.keeps_resume v task none).trans hkeeps)
      (hstatus.trans (resume_status task none)) hlog hwalk'
    · rw [hwalk]
      rfl
    · rfl

/-- `cancel_tasks(queues[i].pop_all())` goes on: the list of the queue is taken, or
what was taken is cancelled, or it is at its end. -/
theorem cancel_queue (h : Core s place blocks) {c : Option (Cancel α)} {to_stop : Option (Cancel α) → Stop α}
    {done : Stop α} (hstep : s.cancel_queue i c to_stop done = some s') (hc : s.stop.cancel_tasks = c)
    (hplace : ∀ c, (to_stop c).cancel_tasks = c ∧ (to_stop c).pill = s.stop.pill)
    (hdone : done.cancel_tasks = none ∧ done.pill = s.stop.pill) :
    ∃ place' blocks', Core s' place' blocks' ∧ s'.workers = s.workers ∧
      ((c = none ∧ (∃ c', s'.stop = to_stop (some c')) ∧
          (∀ v h, place' v = .listed h → place v = .listed (.queue i) ∧ h = .stopper ∨
            place v = .listed h ∧ h ≠ .queue i) ∧
          ∀ q, blocks' (.queue q) = if q = i then [] else blocks (.queue q)) ∨
        (s.walk .stopper).top = none ∧ c ≠ none ∧ s'.stop = done ∧ Narrows place blocks place' blocks' ∨
        c ≠ none ∧ (∃ c', s'.stop = to_stop (some c')) ∧ Narrows place blocks place' blocks') := by
  have hwalk : s.walk .stopper = s.stop.walk := rfl
  rw [Stop.walk, hc] at hwalk
  cases cancel_queue_step hstep with
  | pop_all =>
    have htop : s.walk .stopper = ⟨none, none, false⟩ := hwalk
    have htaken := pop_all_walk (s := s) (i := i) (hplace (some (.loop (s.queues i).first))).1
    refine ⟨_, _, h.takes (k := .stopper) (q := i) (by simp) (by simp [Holder.home]) (by rw [htop]) (by rw [htop]) rfl
      rfl (hplace _).2 rfl rfl ?_ htaken, rfl, Or.inl ⟨rfl, ⟨_, rfl⟩, ?_, ?_⟩⟩
    · intro q
      by_cases hq : q = i
      · subst hq
        simp [State.pop_all]
      · simp [State.pop_all, hq]
    · intro v j hv
      by_cases hv' : place v = .listed (.queue i)
      · rw [if_pos hv'] at hv
        cases hv
        exact Or.inl ⟨hv', rfl⟩
      · rw [if_neg hv'] at hv
        refine Or.inr ⟨hv, ?_⟩
        rintro rfl
        exact hv' hv
    · intro q
      by_cases hq : q = i
      · subst hq
        simp
      · simp [hq]
  | done =>
    have hsame : ({ s with stop := done } : State α).walk = s.walk := by
      rw [stop_walk, Stop.walk, hdone.1]
      exact Function.update_eq_iff.mpr ⟨hwalk.symm, fun _ _ => rfl⟩
    exact ⟨place, blocks, h.quiet ⟨rfl, rfl, rfl, hdone.2⟩ rfl rfl hsame, rfl,
      Or.inr (Or.inl ⟨by rw [hwalk]; rfl, by simp, rfl, narrows_refl⟩)⟩
  | cancel c c' s₁ hnext =>
    have hwalk' : ({ s₁ with stop := to_stop (some c') } : State α).walk =
        Function.update s.walk .stopper c'.walk := by
      rw [stop_walk, cancel_walk hnext, Stop.walk, (hplace _).1]
    obtain ⟨-, hworkers, hstop⟩ := cancel_keeps hnext
    have hkeeps : s₁.Keeps { s₁ with stop := to_stop (some c') } :=
      ⟨rfl, rfl, rfl, (hplace _).2.trans (by rw [hstop])⟩
    obtain ⟨place', blocks', h', hnarrows⟩ := h.cancels (by simp) hwalk hnext hkeeps rfl rfl hwalk'
    exact ⟨place', blocks', h', hworkers, Or.inr (Or.inr ⟨by simp, ⟨c', rfl⟩, hnarrows⟩)⟩

end Core

namespace Phase

omit [DecidableEq α] in
/-- Nothing is taken out of a queue behind the last one. -/
theorem walk_of_emptied (h : Phase n s place blocks) {c : Option (Cancel α)}
    (hstop : s.stop = .wait_cancel i c ∨ ∃ p, s.stop = .drain i p c) (hi : ¬ i < n) :
    s.stop.walk = ⟨none, none, false⟩ := by
  have hle := h.emptied_le
  rcases hstop with hstop | ⟨p, hstop⟩
  all_goals
    rw [hstop] at hle ⊢
    cases c with
    | none => rfl
    | some c =>
      simp only [Stop.emptied] at hle
      omega

/-- A worker that has not exited goes on, or the thread that stops the pool does and
stays where it is. -/
theorem narrows (h : Phase n s place blocks) (hn : Narrows place blocks place' blocks') (hstop : s'.stop = s.stop)
    (hworkers : ∀ w, s'.workers w = s.workers w ∨ w < n ∧ s.workers w ≠ .exited) : Phase n s' place' blocks' := by
  constructor
  · intro q hq
    rw [hn.queues, h.queues_lt q hq]
  · intro w hw
    rcases hworkers w with heq | ⟨hlt, -⟩
    · rw [heq, h.workers_lt w hw]
    · omega
  · intro w hw
    rw [hstop] at hw
    rcases hworkers w with heq | ⟨-, hne⟩
    · rw [heq, h.joined w hw]
    · exact absurd (h.joined w hw) hne
  · rw [hstop]
    exact h.emptied_le
  · intro p j hp hj
    rw [hstop] at hp ⊢
    exact h.pill p j hp (hn.listed p j hj)

/-- A node is pushed to a queue. -/
theorem pushes (h : Phase n s place blocks) (hq : q < n) {b : Block α} (hb : ∀ v ∈ b.nodes, life v s.log = .gone)
    (hcore : Core s place blocks) (hstop : s'.stop = s.stop) (hworkers : s'.workers = s.workers) :
    Phase n s' (fun v => if v ∈ b.nodes then .listed (.queue q) else place v)
      (Function.update blocks (.queue q) (blocks (.queue q) ++ [b])) := by
  constructor
  · intro q' hq'
    rw [Function.update_of_ne (by simp only [ne_eq, Holder.queue.injEq]; omega), h.queues_lt q' hq']
  · rw [hworkers]
    exact h.workers_lt
  · rw [hworkers, hstop]
    exact h.joined
  · rw [hstop]
    exact h.emptied_le
  · intro p j hp hj
    rw [hstop] at hp ⊢
    have hpill : life p s.log = .pill := (hcore.owned.stack p hp).1
    by_cases hmem : p ∈ b.nodes
    · cases (hb p hmem).symm.trans hpill
    · rw [if_neg hmem] at hj
      exact h.pill p j hp hj

omit [DecidableEq α] in
/-- What does not depend on where the thread that stops the pool is. -/
theorem of_stop (h : Phase n s place blocks) (hworkers : s'.workers = s.workers)
    (hqueues : ∀ q, blocks (.queue q) = [] → blocks' (.queue q) = [])
    (hjoined : ∀ w, w < s'.stop.joined n → s.workers w = .exited) (hle : s'.stop.emptied n ≤ n)
    (hpill : ∀ p h, s'.stop.pill = some p → place' p = .listed h → s'.stop.Has h) : Phase n s' place' blocks' :=
  ⟨fun q hq => hqueues q (h.queues_lt q hq), by rw [hworkers]; exact h.workers_lt, by rw [hworkers]; exact hjoined, hle,
    hpill⟩

end Phase

namespace Inv

theorem construct_inv : Inv n (construct : State α) (fun _ => .nowhere) fun _ => [] where
  core :=
    { owned :=
        { listed := by simp
          nodup := by simp
          ok := by simp
          pending := by
            intro h v
            cases h <;> simp [State.view, State.walk, construct, Worker.walk, Stop.walk, Stop.cancel_tasks]
          pending_ok := by
            intro h x hx
            cases h <;> simp [State.view, State.walk, construct, Worker.walk, Stop.walk, Stop.cancel_tasks] at hx
          kept := by simp [State.view, construct]
          frames := by simp
          stack := by simp [State.view, construct, Stop.pill] }
      lists :=
        { linked := by
            intro h
            cases h <;> rfl
          tails := by simp
          whole := by simp
          last := by simp }
      null := by simp [construct, Stop.pill]
      lawful := trivial }
  phase :=
    { queues_lt := fun _ _ => rfl
      workers_lt := fun _ _ => rfl
      joined := by simp [construct, Stop.joined]
      emptied_le := by simp [construct, Stop.emptied]
      pill := by simp }

theorem attach (h : Inv n s place blocks) {user : User} (hstep : step n s (.attach user v q) = some s') : ∃ place' blocks', Inv n s' place' blocks' := by
  simp only [step, Option.ite_none_right_eq_some, Option.some.injEq] at hstep
  obtain ⟨⟨hq, hv⟩, rfl⟩ := hstep
  refine ⟨_, _, h.core.attach hv, h.phase.pushes (b := .task v) hq ?_ h.core rfl rfl⟩
  intro x hx
  obtain rfl : x = v := by simpa [Block.nodes] using hx
  exact hv

theorem push_deadpill (h : Inv n s place blocks) {user : User}
    (hstep : step n s (.push_deadpill user p u q) = some s') : ∃ place' blocks', Inv n s' place' blocks' := by
  simp only [step, Option.ite_none_right_eq_some, Option.some.injEq] at hstep
  obtain ⟨⟨hq, hpu, hp, hu⟩, rfl⟩ := hstep
  refine ⟨_, _, h.core.push_deadpill hpu hp hu, h.phase.pushes (b := .stop p u) hq ?_ h.core rfl rfl⟩
  intro x hx
  rcases (by simpa [Block.nodes] using hx : x = p ∨ x = u) with rfl | rfl
  · exact hp
  · exact hu

theorem overwrite (h : Inv n s place blocks) {next : Option α} {task : Task α} {status : schedule_errc}
    (hstep : step n s (.overwrite v next task status) = some s') : Inv n s' place blocks := by
  simp only [step, Option.ite_none_right_eq_some, Option.some.injEq] at hstep
  obtain ⟨hv, rfl⟩ := hstep
  exact ⟨h.core.overwrite hv, h.phase.narrows Core.narrows_refl rfl fun w => Or.inl rfl⟩

/-- A worker goes on. -/
theorem goes (h : Inv n s place blocks) (hw : w < n) (hlive : s.workers w ≠ .exited) (s₁ : State α) {pc : Worker α}
    (hstop : s₁.stop = s.stop) (hworkers : s₁.workers = s.workers)
    (hcore : ∃ place' blocks', Core (s₁.goto w pc) place' blocks' ∧ Narrows place blocks place' blocks') :
    ∃ place' blocks', Inv n (s₁.goto w pc) place' blocks' := by
  obtain ⟨place', blocks', hcore', hnarrows⟩ := hcore
  refine ⟨place', blocks', hcore', h.phase.narrows hnarrows hstop fun w' => ?_⟩
  by_cases hw' : w' = w
  · subst hw'
    exact Or.inr ⟨hw, hlive⟩
  · exact Or.inl (by simp [State.goto, hw', hworkers])

/-- The list of a queue is taken by its worker. -/
theorem pops (h : Inv n s place blocks) (hw : w < n) {top : α} (hpc : s.workers w = .pop)
    (htop : (s.queues w).first = some top) :
    ∃ place' blocks', Inv n ((s.pop_all w).goto w (.run top)) place' blocks' := by
  have hwalk : s.walk (.worker w) = ⟨none, none, false⟩ := by
    simp [State.walk, hpc, Worker.walk]
  refine ⟨_, _, h.core.takes (k := .worker w) (q := w) (by simp) (by simp [Holder.home]) (by rw [hwalk]) (by rw [hwalk])
    rfl rfl rfl rfl rfl ?_ (pop_walk htop), ?_⟩
  · intro q
    by_cases hq : q = w
    · subst hq
      simp [State.goto, State.pop_all]
    · simp [State.goto, State.pop_all, hq]
  · constructor
    · intro q hq
      rw [Function.update_of_ne (by simp only [ne_eq, Holder.queue.injEq]; omega), Function.update_of_ne (by simp),
        h.phase.queues_lt q hq]
    · intro w' hw'
      have hne : w' ≠ w := by omega
      simp [State.goto, State.pop_all, hne, h.phase.workers_lt w' hw']
    · intro w' hw'
      have hexited := h.phase.joined w' hw'
      have hne : w' ≠ w := by
        rintro rfl
        cases hpc.symm.trans hexited
      simp [State.goto, State.pop_all, hne, hexited]
    · exact h.phase.emptied_le
    · intro p j hp hj
      have hp' : s.stop.pill = some p := hp
      by_cases hlisted : place p = .listed (.queue w)
      · rw [if_pos hlisted] at hj
        cases hj
        -- only the thread that waits for this worker has pushed its pill
        have hhas := h.phase.pill p _ hp' hlisted
        show s.stop.Has (.worker w)
        cases hstop : s.stop with
        | join i p' =>
          rw [hstop] at hhas
          obtain rfl : w = i := by simpa [Stop.Has] using hhas
          exact Or.inr rfl
        | cancel i p' c =>
          rw [hstop] at hhas
          cases c with
          | none =>
            obtain rfl : w = i := by simpa [Stop.Has] using hhas
            have hexited := h.phase.joined w (by simp [hstop, Stop.joined])
            cases hpc.symm.trans hexited
          | some c => cases hhas
        | running => simp [hstop, Stop.Has] at hhas
        | wait_join i => simp [hstop, Stop.Has] at hhas
        | wait_cancel i c => simp [hstop, Stop.Has] at hhas
        | waited => simp [hstop, Stop.Has] at hhas
        | push i p' => simp [hstop, Stop.Has] at hhas
        | drain i p' c => simp [hstop, Stop.Has] at hhas
        | returned => simp [hstop, Stop.Has] at hhas
      · rw [if_neg hlisted] at hj
        exact h.phase.pill p j hp' hj

theorem run (h : Inv n s place blocks) (hstep : step n s (.run w) = some s') :
    ∃ place' blocks', Inv n s' place' blocks' := by
  simp only [step, Option.ite_none_right_eq_some] at hstep
  obtain ⟨hw, hrun⟩ := hstep
  have hwalk : s.walk (.worker w) = (s.workers w).walk := rfl
  -- where it goes without a change of its walk
  have hquiet : ∀ pc : Worker α, s.workers w ≠ .exited → pc.walk = (s.workers w).walk →
      ∃ place' blocks', Inv n (s.goto w pc) place' blocks' := by
    intro pc hlive hpc
    apply h.goes hw hlive s rfl rfl
    refine ⟨place, blocks, h.core.quiet ⟨rfl, rfl, rfl, rfl⟩ rfl rfl ?_, Core.narrows_refl⟩
    rw [goto_walk]
    exact Function.update_eq_iff.mpr ⟨hpc, fun _ _ => rfl⟩
  cases run_step hrun with
  | pop top hpc htop => exact h.pops hw hpc htop
  | pill v hpc htask =>
    rw [hpc] at hwalk
    apply h.goes hw (by simp [hpc]) (s.record (.touched v)) rfl rfl
    have hkeeps := (s.keeps_record (.touched v)).goto w (.cancel (.loop (s.next v)))
    apply h.core.consumes (k := .worker w) (s.status v) (by simp) (by rw [hwalk]; rfl)
      (by rw [hwalk]; rfl) htask hkeeps _ rfl (goto_walk _)
    exact (Function.update_eq_self v s.status).symm
  | take v hpc htask =>
    rw [hpc] at hwalk
    apply h.goes hw (by simp [hpc]) (s.record (.touched v)) rfl rfl
    have hstatus := h.core.status_of_run (k := .worker w) (by rw [hwalk]; rfl) (by rw [hwalk]; rfl) htask
    have hkeeps := (s.keeps_record (.touched v)).goto w (.resume v (s.task v) (s.next v))
    apply h.core.picks (k := .worker w) .ok (by simp) (by rw [hwalk]; rfl) (by rw [hwalk]; rfl)
      (fun _ => by rw [hwalk]; rfl) htask hkeeps _ rfl (goto_walk _)
    rw [← hstatus]
    exact (Function.update_eq_self v s.status).symm
  | resume v task top hpc =>
    rw [hpc] at hwalk
    have hsame : (s.resume v task (some w)).workers = s.workers ∧ (s.resume v task (some w)).stop = s.stop ∧
        (s.resume v task (some w)).walk = s.walk := by
      cases task <;> exact ⟨rfl, rfl, rfl⟩
    obtain ⟨hworkers, hstop, hsame_walk⟩ := hsame
    apply h.goes hw (by simp [hpc]) _ hstop hworkers
    have hkeeps := (s.keeps_resume v task (some w)).goto w (.busy top)
    have hgoto := goto_walk (s := s.resume v task (some w)) (w := w) (.busy top)
    rw [hsame_walk] at hgoto
    apply h.core.resumes (k := .worker w) .ok (by simp) (by rw [hwalk]; rfl) (by rw [hwalk]; rfl) _ hkeeps
      (resume_status task _) rfl hgoto (by rw [hwalk]; rfl) rfl
    intro q hq
    obtain rfl : w = q := hq w rfl
    exact Or.inl ⟨rfl, rfl⟩
  | last hpc => exact hquiet _ (by simp [hpc]) (by rw [hpc]; rfl)
  | next v hpc => exact hquiet _ (by simp [hpc]) (by rw [hpc]; rfl)
  | exit hpc => exact hquiet _ (by simp [hpc]) (by rw [hpc]; rfl)
  | cancel c c' s₁ hpc hnext =>
    rw [hpc] at hwalk
    obtain ⟨-, hworkers, hstop⟩ := cancel_keeps hnext
    apply h.goes hw (by simp [hpc]) _ hstop hworkers
    have hkeeps : s₁.Keeps (s₁.goto w (.cancel c')) := ⟨rfl, rfl, rfl, rfl⟩
    apply h.core.cancels (k := .worker w) (by simp) hwalk hnext hkeeps rfl rfl
    rw [goto_walk, cancel_walk hnext]
    rfl

/-- The thread that stops the pool goes on and comes to no other node. -/
theorem moves (h : Inv n s place blocks) {stop : Stop α} (hwalk : stop.walk = s.stop.walk)
    (hpill : stop.pill = s.stop.pill) (hjoined : ∀ w, w < stop.joined n → s.workers w = .exited)
    (hle : stop.emptied n ≤ n) (hhas : ∀ p h, stop.pill = some p → place p = .listed h → stop.Has h) :
    Inv n { s with stop := stop } place blocks := by
  refine ⟨h.core.quiet ⟨rfl, rfl, rfl, hpill⟩ rfl rfl ?_,
    h.phase.of_stop rfl (fun _ hq => hq) hjoined hle hhas⟩
  rw [stop_walk]
  exact Function.update_eq_iff.mpr ⟨hwalk, fun _ _ => rfl⟩

/-- A queue is emptied for the last time. -/
theorem empties (h : Inv n s place blocks) {c : Option (Cancel α)} {to_stop : Option (Cancel α) → Stop α}
    {done : Stop α} (hi : i < n) (hstep : s.cancel_queue i c to_stop done = some s') (hstop : s.stop = to_stop c)
    (hplace : ∀ c, (to_stop c).cancel_tasks = c ∧ (to_stop c).pill = s.stop.pill)
    (hdone : done.cancel_tasks = none ∧ done.pill = s.stop.pill)
    (hjoined : (∀ c, (to_stop c).joined n = n) ∧ done.joined n = n)
    (hemptied : (∀ c, (to_stop (some c)).emptied n = i + 1) ∧ done.emptied n = i + 1)
    (hhas : ∀ c h, ¬ (to_stop c).Has h) : ∃ place' blocks', Inv n s' place' blocks' := by
  obtain ⟨place', blocks', hcore, hworkers, hcases⟩ :=
    h.core.cancel_queue hstep (by rw [hstop]; exact (hplace c).1) hplace hdone
  have hexited : ∀ w, w < n → s.workers w = .exited := by
    intro w hw
    apply h.phase.joined
    rwa [hstop, hjoined.1]
  have hnot : ∀ p h, s.stop.pill = some p → place p ≠ .listed h := by
    intro p j hp hj
    have hhas' := h.phase.pill p j hp hj
    rw [hstop] at hhas'
    exact hhas c j hhas'
  refine ⟨place', blocks', hcore, ?_⟩
  rcases hcases with ⟨rfl, ⟨c', hstop'⟩, hlisted, hqueues⟩ | ⟨-, hc, hstop', hnarrows⟩ | ⟨hc, ⟨c', hstop'⟩, hnarrows⟩
  · apply h.phase.of_stop hworkers
    · intro q hq
      rw [hqueues, hq, ite_self]
    · rw [hstop', hjoined.1]
      exact hexited
    · rw [hstop', hemptied.1]
      omega
    · intro p j hp hj
      rw [hstop', (hplace _).2] at hp
      rcases hlisted p j hj with ⟨hqueue, -⟩ | ⟨hsame, -⟩
      · exact absurd hqueue (hnot p _ hp)
      · exact absurd hsame (hnot p _ hp)
  · obtain ⟨c, rfl⟩ := Option.ne_none_iff_exists'.mp hc
    apply h.phase.of_stop hworkers
    · intro q hq
      rw [hnarrows.queues, hq]
    · rw [hstop', hjoined.2]
      exact hexited
    · rw [hstop', hemptied.2]
      omega
    · intro p j hp hj
      rw [hstop', hdone.2] at hp
      exact absurd (hnarrows.listed p j hj) (hnot p _ hp)
  · obtain ⟨c, rfl⟩ := Option.ne_none_iff_exists'.mp hc
    apply h.phase.of_stop hworkers
    · intro q hq
      rw [hnarrows.queues, hq]
    · rw [hstop', hjoined.1]
      exact hexited
    · rw [hstop', hemptied.1]
      omega
    · intro p j hp hj
      rw [hstop', (hplace _).2] at hp
      exact absurd (hnarrows.listed p j hj) (hnot p _ hp)

/-- The queue of a worker that was joined by the destructor is emptied, and the pill
is not in it any more. -/
theorem cancels (h : Inv n s place blocks) {c : Option (Cancel α)} (hstop : s.stop = .cancel i p c)
    (hstep : s.cancel_queue i c (.cancel i p) (.push (i + 1) p) = some s') :
    ∃ place' blocks', Inv n s' place' blocks' := by
  have hpill : s.stop.pill = some p := by rw [hstop]; rfl
  obtain ⟨place', blocks', hcore, hworkers, hcases⟩ :=
    h.core.cancel_queue hstep (by rw [hstop]; rfl) (fun c => ⟨rfl, by rw [hpill]; rfl⟩) ⟨rfl, by rw [hpill]; rfl⟩
  have hexited : ∀ w, w < i + 1 → s.workers w = .exited := by
    intro w hw
    apply h.phase.joined
    rwa [hstop]
  have hhas : ∀ j, place p = .listed j → (Stop.cancel i p c).Has j := by
    intro j hj
    rw [← hstop]
    exact h.phase.pill p j hpill hj
  refine ⟨place', blocks', hcore, ?_⟩
  rcases hcases with ⟨rfl, ⟨c', hstop'⟩, hlisted, hqueues⟩ | ⟨htop, hc, hstop', hnarrows⟩ | ⟨hc, ⟨c', hstop'⟩, hnarrows⟩
  · apply h.phase.of_stop hworkers
    · intro q hq
      rw [hqueues, hq, ite_self]
    · rw [hstop']
      exact hexited
    · rw [hstop']
      exact Nat.zero_le n
    · intro p' j hp' hj
      rw [hstop'] at hp' ⊢
      obtain rfl : p = p' := Option.some.inj hp'
      rcases hlisted p j hj with ⟨-, rfl⟩ | ⟨hsame, hne⟩
      · rfl
      · exact absurd (hhas j hsame) hne
  · obtain ⟨c, rfl⟩ := Option.ne_none_iff_exists'.mp hc
    apply h.phase.of_stop hworkers
    · intro q hq
      rw [hnarrows.queues, hq]
    · rw [hstop']
      exact hexited
    · rw [hstop']
      exact Nat.zero_le n
    · intro p' j hp' hj
      rw [hstop'] at hp'
      obtain rfl : p = p' := Option.some.inj hp'
      have hlisted := hnarrows.listed p j hj
      obtain rfl : j = .stopper := hhas j hlisted
      have hempty := h.core.lists.empty htop
      have hmem := (h.core.owned.listed _ p).mpr hlisted
      rw [hempty] at hmem
      cases hmem
  · obtain ⟨c, rfl⟩ := Option.ne_none_iff_exists'.mp hc
    apply h.phase.of_stop hworkers
    · intro q hq
      rw [hnarrows.queues, hq]
    · rw [hstop']
      exact hexited
    · rw [hstop']
      exact Nat.zero_le n
    · intro p' j hp' hj
      rw [hstop'] at hp' ⊢
      obtain rfl : p = p' := Option.some.inj hp'
      exact hhas j (hnarrows.listed p j hj)

/-- The pill of the destructor is in the lists that the thread says, or nowhere. -/
theorem pill_nowhere (h : Inv n s place blocks) (hpill : s.stop.pill = some p) (hhas : ∀ j, ¬ s.stop.Has j) :
    place p = .nowhere := by
  cases hplace : place p with
  | nowhere => rfl
  | listed j => exact absurd (h.phase.pill p j hpill hplace) (hhas j)
  | pending j =>
    obtain ⟨x, hx, rfl⟩ := (h.core.owned.pending j p).mp hplace
    obtain ⟨q, hq, -⟩ := (h.core.owned.pending_ok j x hx).at_home
    have hlife := (h.core.owned.stack x.node hpill).1
    cases hlife.symm.trans hq

/-- The destructor pushes its pill and waits for the worker. -/
theorem push_core (h : Inv n s place blocks) (hstop : s.stop = .push i p) :
    Core { { s with next := Function.update s.next p none }.push_list i p p with stop := .join i p }
      (fun x => if x ∈ [p] then .listed (.queue i) else place x)
      (Function.update blocks (.queue i) (blocks (.queue i) ++ [.pill p])) := by
  have hpill : s.stop.pill = some p := by rw [hstop]; rfl
  have hnowhere := h.pill_nowhere hpill (by simp [hstop, Stop.Has])
  refine (h.core.push_pill (q := i) hpill hnowhere).quiet ⟨rfl, rfl, rfl, hpill.symm⟩ rfl rfl ?_
  funext j
  cases j with
  | queue q => rfl
  | worker w => rfl
  | stopper =>
    show (Stop.join i p : Stop α).walk = s.stop.walk
    rw [hstop]
    rfl

theorem push (h : Inv n s place blocks) (hi : i < n) (hstop : s.stop = .push i p) :
    ∃ place' blocks', Inv n
      { { s with next := Function.update s.next p none }.push_list i p p with stop := .join i p } place' blocks' := by
  refine ⟨_, _, h.push_core hstop, ?_⟩
  constructor
  · intro q hq
    rw [Function.update_of_ne (by simp only [ne_eq, Holder.queue.injEq]; omega), h.phase.queues_lt q hq]
  · exact h.phase.workers_lt
  · intro w hw
    apply h.phase.joined
    rwa [hstop]
  · exact Nat.zero_le n
  · intro p' j hp' hj
    obtain rfl : p = p' := Option.some.inj hp'
    rw [if_pos (by simp)] at hj
    cases hj
    exact Or.inl rfl

theorem stops (h : Inv n s place blocks) (hstep : step n s .stop = some s') :
    ∃ place' blocks', Inv n s' place' blocks' := by
  have hjoined := h.phase.joined
  have hle := h.phase.emptied_le
  cases stop_step hstep with
  | wait_join i hstop hi hexited =>
    rw [hstop] at hjoined
    refine ⟨place, blocks, h.moves (by rw [hstop]; rfl) (by rw [hstop]; rfl) (fun w hw => ?_)
      (by simp [Stop.emptied]) (by simp [Stop.pill])⟩
    rcases Nat.lt_succ_iff_lt_or_eq.mp hw with hlt | rfl
    · exact hjoined w hlt
    · exact hexited
  | wait_joined i hstop hi =>
    rw [hstop] at hjoined
    refine ⟨place, blocks, h.moves (by rw [hstop]; rfl) (by rw [hstop]; rfl) (fun w hw => ?_)
      (by simp [Stop.emptied]) (by simp [Stop.pill])⟩
    exact hjoined w (by simp only [Stop.joined] at hw ⊢; omega)
  | wait_cancel i c s' hstop hi hcancel =>
    apply h.empties hi hcancel hstop
    · exact fun c => ⟨rfl, by rw [hstop]; rfl⟩
    · exact ⟨rfl, by rw [hstop]; rfl⟩
    · exact ⟨fun c => rfl, rfl⟩
    · exact ⟨fun c => rfl, rfl⟩
    · simp [Stop.Has]
  | wait_end i c hstop hi =>
    have hwalk : s.stop.walk = ⟨none, none, false⟩ := h.phase.walk_of_emptied (Or.inl hstop) hi
    rw [hstop] at hjoined
    exact ⟨place, blocks, h.moves hwalk.symm (by rw [hstop]; rfl) hjoined le_rfl (by simp [Stop.pill])⟩
  | push i p hstop hi => exact h.push hi hstop
  | pushed i p hstop hi =>
    rw [hstop] at hjoined
    refine ⟨place, blocks, h.moves (by rw [hstop]; rfl) (by rw [hstop]; rfl) (fun w hw => ?_)
      (by simp [Stop.emptied]) ?_⟩
    · exact hjoined w (by simp only [Stop.joined] at hw ⊢; omega)
    · intro p' j hp' hj
      have hnot := h.phase.pill p' j (by rw [hstop]; exact hp') hj
      simp [hstop, Stop.Has] at hnot
  | join i p hstop hexited =>
    rw [hstop] at hjoined
    refine ⟨place, blocks, h.moves (by rw [hstop]; rfl) (by rw [hstop]; rfl) (fun w hw => ?_)
      (by simp [Stop.emptied]) ?_⟩
    · rcases Nat.lt_succ_iff_lt_or_eq.mp hw with hlt | rfl
      · exact hjoined w hlt
      · exact hexited
    · intro p' j hp' hj
      have hhas := h.phase.pill p' j (by rw [hstop]; exact hp') hj
      rw [hstop] at hhas
      rcases hhas with rfl | rfl
      · rfl
      · have hempty : blocks (.worker i) = [] := h.core.lists.empty (by simp [State.walk, hexited, Worker.walk])
        have hmem := (h.core.owned.listed _ p').mpr hj
        rw [hempty] at hmem
        cases hmem
  | cancel i p c s' hstop hcancel => exact h.cancels hstop hcancel
  | drain i p c s' hstop hi hcancel =>
    have hpill : s.stop.pill = some p := by rw [hstop]; rfl
    apply h.empties hi hcancel hstop
    · exact fun c => ⟨rfl, by rw [hpill]; rfl⟩
    · exact ⟨rfl, by rw [hpill]; rfl⟩
    · exact ⟨fun c => rfl, rfl⟩
    · exact ⟨fun c => rfl, rfl⟩
    · simp [Stop.Has]
  | finish i p c hstop hi =>
    have hpill : s.stop.pill = some p := by rw [hstop]; rfl
    have hwalk : s.stop.walk = ⟨none, none, false⟩ := h.phase.walk_of_emptied (Or.inr ⟨p, hstop⟩) hi
    rw [hstop] at hjoined
    refine ⟨place, blocks, h.core.returns hpill (h.pill_nowhere hpill (by simp [hstop, Stop.Has])) hwalk,
      h.phase.of_stop rfl (fun _ hq => hq) hjoined le_rfl ?_⟩
    intro p' j hp'
    cases hp'

theorem wait_stop (h : Inv n s place blocks) (hstep : step n s .wait_stop = some s') : Inv n s' place blocks := by
  simp only [step, Option.ite_none_right_eq_some, Option.some.injEq] at hstep
  obtain ⟨hstop, rfl⟩ := hstep
  exact h.moves (by rw [hstop]; rfl) (by rw [hstop]; rfl) (by simp [Stop.joined])
    (by simp [Stop.emptied]) (by simp [Stop.pill])

theorem destroy (h : Inv n s place blocks) (hstep : step n s (.destroy p) = some s') : Inv n s' place blocks := by
  simp only [step, Option.ite_none_right_eq_some] at hstep
  obtain ⟨hp, hstep⟩ := hstep
  have hnowhere := h.core.nowhere hp
  cases hstop : s.stop with
  | running =>
    simp only [hstop, Option.some.injEq] at hstep
    subst hstep
    refine ⟨h.core.destroy hp (by rw [hstop]; rfl) rfl (by rw [hstop]; rfl) rfl rfl rfl rfl rfl rfl,
      h.phase.of_stop rfl (fun _ hq => hq) (by simp [Stop.joined]) (by simp [Stop.emptied]) ?_⟩
    intro p' j hp' hj
    obtain rfl : p = p' := Option.some.inj hp'
    cases hnowhere.symm.trans hj
  | waited =>
    simp only [hstop, Option.some.injEq] at hstep
    subst hstep
    have hjoined := h.phase.joined
    rw [hstop] at hjoined
    refine ⟨h.core.destroy hp (by rw [hstop]; rfl) rfl (by rw [hstop]; rfl) rfl rfl rfl rfl rfl rfl,
      h.phase.of_stop rfl (fun _ hq => hq) hjoined (by simp [Stop.emptied]) ?_⟩
    intro p' j hp' hj
    obtain rfl : p = p' := Option.some.inj hp'
    cases hnowhere.symm.trans hj
  | wait_join i => simp [hstop] at hstep
  | wait_cancel i c => simp [hstop] at hstep
  | push i p' => simp [hstop] at hstep
  | join i p' => simp [hstop] at hstep
  | cancel i p' c => simp [hstop] at hstep
  | drain i p' c => simp [hstop] at hstep
  | returned => simp [hstop] at hstep

theorem step (h : Inv n s place blocks) {a : Action α} (hstep : step n s a = some s') :
    ∃ place' blocks', Inv n s' place' blocks' := by
  cases a with
  | attach user v q => exact h.attach hstep
  | push_deadpill user p u q => exact h.push_deadpill hstep
  | overwrite v next task status => exact ⟨_, _, h.overwrite hstep⟩
  | run w => exact h.run hstep
  | wait_stop => exact ⟨_, _, h.wait_stop hstep⟩
  | destroy p => exact ⟨_, _, h.destroy hstep⟩
  | stop => exact h.stops hstep

end Inv

/-- Whoever pushes whatever at whatever time. -/
theorem inv_of_run {as : List (Action α)} (hrun : Run (fun s a s' => step n s a = some s') construct as s) :
    ∃ place blocks, Inv n s place blocks := by
  apply hrun.invariant fun s => ∃ place blocks, Inv n s place blocks
  · rintro s a s' ⟨place, blocks, h⟩ hstep
    exact h.step hstep
  · exact ⟨_, _, Inv.construct_inv⟩

end kelcoro.thread_pool
