import Kelcoro.Lib.Progress
import Kelcoro.ThreadPool.Order
import Mathlib

namespace kelcoro.thread_pool

open kelcoro.lib

variable {α : Type} [DecidableEq α]

/-- How many steps there are at most to the next iteration of the loop, or to the end. -/
def Cancel.weight : Cancel α → Nat
  | .loop _ => 1
  | .resume _ _ _ => 2

def Worker.weight : Worker α → Nat
  | .pop | .run _ | .exited => 0
  | .busy _ => 1
  | .resume _ _ _ => 2
  | .cancel c => c.weight

/-- How many steps the thread that stops a pool of `n` workers takes at most, without
those for the nodes that it cancels, and those that its pill costs the workers. -/
def Stop.weight (n : Nat) : Stop α → Nat
  | .running => 13 * n + 4
  | .wait_join i => n - i + 12 * n + 4
  | .wait_cancel i none => 2 * (n - i) + 10 * n + 3
  | .wait_cancel i (some c) => 2 * (n - (i + 1)) + 10 * n + 3 + c.weight
  | .waited => 10 * n + 2
  | .push i _ => 8 * (n - i) + 2 * n + 2
  | .join i _ => 8 * (n - (i + 1)) + 2 * n + 5
  | .cancel i _ none => 8 * (n - (i + 1)) + 2 * n + 4
  | .cancel i _ (some c) => 8 * (n - (i + 1)) + 2 * n + 2 + c.weight
  | .drain i _ none => 2 * (n - i) + 1
  | .drain i _ (some c) => 2 * (n - (i + 1)) + 1 + c.weight
  | .returned => 0

namespace State

variable (s : State α) (lists : Holder → List α)

/-- What is left to do for queue `i` and its worker: four steps for a node in the
queue, one of which takes the list, three for a node in the list of the worker. -/
def share (i : Nat) : Nat :=
  4 * (lists (.queue i)).length + 3 * (lists (.worker i)).length + (s.workers i).weight

/-- What is left to do for the thread that stops the pool. -/
def stop_share (n : Nat) : Nat := 3 * (lists .stopper).length + s.stop.weight n

def weight (n : Nat) : Nat := ∑ i ∈ Finset.range n, s.share lists i + s.stop_share lists n

end State

/-- The steps that the workers and the thread that stops the pool take. -/
def Action.own : Action α → Bool
  | .run _ | .stop => true
  | _ => false

/-- The steps that a call allows. -/
def Action.costs : Action α → Nat
  | .attach _ _ _ => 4
  | .push_deadpill _ _ _ _ => 8
  | _ => 0

variable {n : Nat} {s s' s₁ : State α} {place place' : α → Place} {blocks blocks' : Holder → List (Block α)}
  {lists lists' : Holder → List α} {k : Holder} {walk : Walk α} {v p u : α} {q w i : Nat} {a : Action α}

namespace Core

/-- No list changes. -/
theorem listed_stay (h : Core s place blocks) (h' : Core s' place' blocks') (hnext : s'.next = s.next)
    (htop : ∀ k, (s'.walk k).top = (s.walk k).top) : listed blocks' = listed blocks :=
  funext fun k => h.listed_same h' hnext (htop k)

/-- A holder goes on with its list. -/
theorem listed_keep (h : Core s place blocks) (h' : Core s' place' blocks') (hnext : s'.next = s.next)
    (hwalk : s'.walk = Function.update s.walk k walk) (htop : walk.top = (s.walk k).top) :
    listed blocks' = listed blocks := by
  apply h.listed_stay h' hnext
  intro j
  by_cases hj : j = k
  · subst hj
    rw [hwalk, Function.update_self, htop]
  · rw [hwalk, Function.update_of_ne hj]

/-- A holder comes to the next node. -/
theorem listed_next (h : Core s place blocks) (h' : Core s' place' blocks') (hnext : s'.next = s.next)
    (hwalk : s'.walk = Function.update s.walk k walk) (htop : (s.walk k).top = some v) (hstep : walk.top = s.next v) :
    ∃ vs, listed blocks k = v :: vs ∧ listed blocks' = Function.update (listed blocks) k vs := by
  obtain ⟨vs, hlisted, hlinked⟩ := h.listed_cons htop
  refine ⟨vs, hlisted, funext fun j => ?_⟩
  by_cases hj : j = k
  · subst hj
    rw [Function.update_self]
    apply h'.listed_eq
    rw [hnext, hwalk, Function.update_self, hstep]
    exact hlinked
  · rw [Function.update_of_ne hj]
    exact h.listed_same h' hnext (by rw [hwalk, Function.update_of_ne hj])

/-- A holder takes the list of a queue. -/
theorem listed_take (h : Core s place blocks) (h' : Core s' place' blocks') (hnext : s'.next = s.next) {cancels : Bool}
    (hk : k ≠ .queue i) (hwalk : s'.walk = Function.update (Function.update s.walk k ⟨(s.queues i).first, none, cancels⟩)
      (.queue i) ⟨none, none, false⟩) :
    listed blocks' = Function.update (Function.update (listed blocks) k (listed blocks (.queue i))) (.queue i) [] := by
  funext j
  by_cases hji : j = .queue i
  · subst hji
    rw [Function.update_self]
    apply h'.listed_eq
    rw [hwalk, Function.update_self]
    rfl
  · rw [Function.update_of_ne hji]
    by_cases hj : j = k
    · subst hj
      rw [Function.update_self]
      apply h'.listed_eq
      rw [hnext, hwalk, Function.update_of_ne hji, Function.update_self]
      exact h.lists.linked (.queue i)
    · rw [Function.update_of_ne hj]
      exact h.listed_same h' hnext (by rw [hwalk, Function.update_of_ne hji, Function.update_of_ne hj])

/-- Nodes are pushed to a queue. -/
theorem listed_push {b : Block α} (h' : Core s' place' blocks') {place₁ : α → Place}
    (h : Core s' place₁ (Function.update blocks (.queue q) (blocks (.queue q) ++ [b]))) :
    listed blocks' = Function.update (listed blocks) (.queue q) (listed blocks (.queue q) ++ b.nodes) := by
  rw [h.listed_unique h']
  funext j
  by_cases hj : j = .queue q
  · subst hj
    simp [listed]
  · simp [listed, hj]

/-- `cancel_tasks` leaves the lists of the others alone, and comes closer to its end. -/
theorem listed_cancel (h : Core s place blocks) (h' : Core s' place' blocks') {c c' : Cancel α}
    (hwalk : s.walk k = c.walk) (hcancel : s.cancel c = some (c', s₁)) (hnext : s'.next = s₁.next)
    (hwalk' : s'.walk = Function.update s.walk k c'.walk) :
    (∀ j, j ≠ k → listed blocks' j = listed blocks j) ∧
      3 * (listed blocks' k).length + c'.weight < 3 * (listed blocks k).length + c.weight := by
  cases cancel_step hcancel with
  | skip v htask =>
    obtain ⟨vs, hold, hnew⟩ := h.listed_next h' hnext hwalk' (by rw [hwalk]; rfl) rfl
    rw [hnew]
    refine ⟨fun j hj => Function.update_of_ne hj .., ?_⟩
    simp only [Function.update_self, hold, List.length_cons, Cancel.weight]
    omega
  | take v htask =>
    obtain ⟨vs, hold, hnew⟩ := h.listed_next h' hnext hwalk' (by rw [hwalk]; rfl) rfl
    rw [hnew]
    refine ⟨fun j hj => Function.update_of_ne hj .., ?_⟩
    simp only [Function.update_self, hold, List.length_cons, Cancel.weight]
    omega
  | resume v task top =>
    have hsame := h.listed_keep h' (hnext.trans (s.keeps_resume v task none).next) hwalk' (by rw [hwalk]; rfl)
    rw [hsame]
    exact ⟨fun _ _ => rfl, by simp only [Cancel.weight]; omega⟩

end Core

theorem cancel_next_task {c c' : Cancel α} (hcancel : s.cancel c = some (c', s₁)) : s₁.next = s.next ∧ s₁.task = s.task := by
  cases cancel_step hcancel with
  | skip v htask => exact ⟨rfl, rfl⟩
  | take v htask => exact ⟨rfl, rfl⟩
  | resume v task top => exact ⟨(s.keeps_resume v task none).next, (s.keeps_resume v task none).task⟩

omit [DecidableEq α] in
theorem weight_of_share (hi : i < n) (hother : ∀ j, j ≠ i → s'.share lists' j = s.share lists j) :
    s'.weight lists' n + (s.share lists i + s.stop_share lists n) =
      s.weight lists n + (s'.share lists' i + s'.stop_share lists' n) := by
  have hsum := sum_of_ne (Finset.mem_range.mpr hi) hother
  unfold State.weight
  omega

omit [DecidableEq α] in
theorem weight_of_stop (hsame : ∀ j, s'.share lists' j = s.share lists j) :
    s'.weight lists' n + s.stop_share lists n = s.weight lists n + s'.stop_share lists' n := by
  have hsum : ∑ i ∈ Finset.range n, s'.share lists' i = ∑ i ∈ Finset.range n, s.share lists i :=
    Finset.sum_congr rfl fun j _ => hsame j
  unfold State.weight
  omega

omit [DecidableEq α] in
/-- Nodes are attached to a queue. -/
theorem weight_of_push (pays cost : Nat) (hq : q < n) {news : List α} (hworkers : s'.workers = s.workers)
    (hlists : lists' = Function.update lists (.queue q) (lists (.queue q) ++ news))
    (hstop : s'.stop.weight n + 4 * news.length + pays ≤ s.stop.weight n + cost) :
    s'.weight lists' n + pays ≤ s.weight lists n + cost := by
  have hother : ∀ j, j ≠ q → s'.share lists' j = s.share lists j := by
    intro j hj
    simp [State.share, hworkers, hlists, hj]
  have hshare : s'.share lists' q = s.share lists q + 4 * news.length := by
    simp only [State.share, hworkers, hlists, Function.update_self, List.length_append, ne_eq, reduceCtorEq,
      not_false_eq_true, Function.update_of_ne]
    omega
  have hweight := weight_of_share hq hother
  have hstopper : lists' .stopper = lists .stopper := by simp [hlists]
  unfold State.stop_share at hweight
  rw [hstopper] at hweight
  omega

omit [DecidableEq α] in
/-- The thread that stops the pool takes the list of queue `i`. -/
theorem weight_of_pop_all (hworkers : s'.workers = s.workers)
    (hlists : lists' = Function.update (Function.update lists .stopper (lists (.queue i))) (.queue i) [])
    (hnil : lists .stopper = []) (hqueue : n ≤ i → lists (.queue i) = [])
    (hless : s'.stop.weight n < s.stop.weight n) : s'.weight lists' n < s.weight lists n := by
  have hother : ∀ j, j ≠ i → s'.share lists' j = s.share lists j := by
    intro j hj
    simp [State.share, hworkers, hlists, hj]
  have hstopper : lists' .stopper = lists (.queue i) := by simp [hlists]
  by_cases hi : i < n
  · have hshare : s'.share lists' i + 4 * (lists (.queue i)).length = s.share lists i := by
      simp only [State.share, hworkers, hlists, Function.update_self, List.length_nil, ne_eq, reduceCtorEq,
        not_false_eq_true, Function.update_of_ne]
      omega
    have hweight := weight_of_share hi hother
    unfold State.stop_share at hweight
    rw [hstopper, hnil, List.length_nil] at hweight
    omega
  · have hempty := hqueue (by omega)
    have hshare : s'.share lists' i = s.share lists i := by simp [State.share, hworkers, hlists, hempty]
    have hsame : ∀ j, s'.share lists' j = s.share lists j := by
      intro j
      by_cases hj : j = i
      · rw [hj, hshare]
      · exact hother j hj
    have hweight := weight_of_stop (n := n) hsame
    unfold State.stop_share at hweight
    rw [hstopper, hnil, hempty] at hweight
    omega

omit [DecidableEq α] in
/-- Worker `w` goes on, with the lists of its queue and its own. -/
theorem weight_of_worker (hw : w < n) (hworkers : ∀ j, j ≠ w → s'.workers j = s.workers j) (hstop : s'.stop = s.stop)
    (hlists : ∀ k, k ≠ .queue w → k ≠ .worker w → lists' k = lists k)
    (hless : s'.share lists' w < s.share lists w) : s'.weight lists' n < s.weight lists n := by
  have hother : ∀ j, j ≠ w → s'.share lists' j = s.share lists j := by
    intro j hj
    unfold State.share
    rw [hlists _ (by simpa using hj) (by simp), hlists _ (by simp) (by simpa using hj), hworkers j hj]
  have hweight := weight_of_share hw hother
  have hstopper : s'.stop_share lists' n = s.stop_share lists n := by
    unfold State.stop_share
    rw [hlists _ (by simp) (by simp), hstop]
  omega

omit [DecidableEq α] in
/-- The thread that stops the pool goes on, with its own list. -/
theorem weight_of_stopper (hworkers : s'.workers = s.workers) (hlists : ∀ k, k ≠ .stopper → lists' k = lists k)
    (hless : s'.stop_share lists' n < s.stop_share lists n) : s'.weight lists' n < s.weight lists n := by
  have hsame : ∀ j, s'.share lists' j = s.share lists j := by
    intro j
    unfold State.share
    rw [hlists _ (by simp), hlists _ (by simp), hworkers]
  have hweight := weight_of_stop (n := n) hsame
  omega

/-- What worker `w` does to the lists in one step: it takes the list of its queue, comes
to the next node, which is a pill only if it cancels the rest, or goes on in the code. -/
inductive WorkerStep (s s' : State α) (lists lists' : Holder → List α) (w : Nat) : Prop
  | takes (hqueue : lists (.queue w) ≠ []) (hnil : lists (.worker w) = [])
      (hworker' : lists' (.worker w) = lists (.queue w)) (hqueue' : lists' (.queue w) = [])
      (hweight : (s'.workers w).weight = (s.workers w).weight)
  | next (v : α) (hworker : lists (.worker w) = v :: lists' (.worker w)) (hqueue' : lists' (.queue w) = lists (.queue w))
      (hpill : s.task v = .null → (s'.workers w).Cancels) (hweight : (s'.workers w).weight < (s.workers w).weight + 3)
  | stays (hworker' : lists' (.worker w) = lists (.worker w)) (hqueue' : lists' (.queue w) = lists (.queue w))
      (hweight : (s'.workers w).weight < (s.workers w).weight)
  | cancels (hqueue' : lists' (.queue w) = lists (.queue w)) (hcancels : (s'.workers w).Cancels)
      (hweight : 3 * (lists' (.worker w)).length + (s'.workers w).weight <
        3 * (lists (.worker w)).length + (s.workers w).weight)

/-- A step of worker `w` is its own matter. -/
structure WorkerOnly (s s' : State α) (lists lists' : Holder → List α) (w : Nat) : Prop where
  lists : ∀ k, k ≠ .queue w → k ≠ .worker w → lists' k = lists k
  workers : ∀ j, j ≠ w → s'.workers j = s.workers j
  task : s'.task = s.task
  stop : s'.stop = s.stop

theorem run_lists (h : Core s place blocks) (h' : Core s' place' blocks') (hrun : run s w = some s') :
    WorkerOnly s s' (listed blocks) (listed blocks') w ∧ WorkerStep s s' (listed blocks) (listed blocks') w := by
  have hwalk : s.walk (.worker w) = (s.workers w).walk := rfl
  have honly : ∀ (s₁ : State α) (pc : Worker α), s' = s₁.goto w pc → s₁.workers = s.workers → s₁.task = s.task →
      s₁.stop = s.stop → (∀ k, k ≠ .queue w → k ≠ .worker w → listed blocks' k = listed blocks k) →
      WorkerOnly s s' (listed blocks) (listed blocks') w ∧ s'.workers w = pc := by
    rintro s₁ pc rfl hworkers htask hstop hlists
    refine ⟨⟨hlists, fun j hj => ?_, htask, hstop⟩, by simp [State.goto]⟩
    simp [State.goto, hworkers, hj]
  cases run_step hrun with
  | pop top hpc htop =>
    have htake := h.listed_take h' rfl (by simp) (pop_walk htop)
    obtain ⟨vs, hcons, -⟩ := h.listed_cons (k := .queue w) htop
    obtain ⟨hworker, hpc'⟩ := honly (s.pop_all w) _ rfl rfl rfl rfl fun k hk hk' => by
      rw [htake, Function.update_of_ne hk, Function.update_of_ne hk']
    refine ⟨hworker, .takes (by simp [hcons]) (h.listed_eq (by rw [hwalk, hpc]; rfl)) ?_ ?_ (by rw [hpc', hpc]; rfl)⟩
    · rw [htake, Function.update_of_ne (by simp), Function.update_self]
    · rw [htake, Function.update_self]
  | pill v hpc htask =>
    obtain ⟨vs, hold, hnew⟩ := h.listed_next h' rfl (goto_walk _) (by rw [hwalk, hpc]; rfl) rfl
    obtain ⟨hworker, hpc'⟩ := honly _ _ rfl rfl rfl rfl fun k _ hk => by rw [hnew, Function.update_of_ne hk]
    refine ⟨hworker, .next v ?_ ?_ (fun _ => by rw [hpc']; trivial) ?_⟩
    · rw [hnew, hold, Function.update_self]
    · rw [hnew, Function.update_of_ne (by simp)]
    · rw [hpc', hpc]
      simp only [Worker.weight, Cancel.weight]
      omega
  | take v hpc htask =>
    obtain ⟨vs, hold, hnew⟩ := h.listed_next h' rfl (goto_walk _) (by rw [hwalk, hpc]; rfl) rfl
    obtain ⟨hworker, hpc'⟩ := honly _ _ rfl rfl rfl rfl fun k _ hk => by rw [hnew, Function.update_of_ne hk]
    refine ⟨hworker, .next v ?_ ?_ (fun hnull => absurd hnull htask) ?_⟩
    · rw [hnew, hold, Function.update_self]
    · rw [hnew, Function.update_of_ne (by simp)]
    · rw [hpc', hpc]
      simp only [Worker.weight]
      omega
  | resume v task top hpc =>
    have hsame : (s.resume v task (some w)).workers = s.workers ∧ (s.resume v task (some w)).stop = s.stop ∧
        (s.resume v task (some w)).walk = s.walk := by
      cases task <;> exact ⟨rfl, rfl, rfl⟩
    obtain ⟨hworkers, hstop, hsame_walk⟩ := hsame
    have hkeeps := s.keeps_resume v task (some w)
    have hgoto := goto_walk (s := s.resume v task (some w)) (w := w) (.busy top)
    rw [hsame_walk] at hgoto
    have hlists := h.listed_keep h' hkeeps.next hgoto (by rw [hwalk, hpc]; rfl)
    obtain ⟨hworker, hpc'⟩ := honly _ _ rfl hworkers hkeeps.task hstop fun k _ _ => by rw [hlists]
    refine ⟨hworker, .stays (by rw [hlists]) (by rw [hlists]) ?_⟩
    rw [hpc', hpc]
    simp only [Worker.weight]
    omega
  | last hpc =>
    have hlists := h.listed_keep h' rfl (goto_walk _) (by rw [hwalk, hpc]; rfl)
    obtain ⟨hworker, hpc'⟩ := honly s _ rfl rfl rfl rfl fun k _ _ => by rw [hlists]
    refine ⟨hworker, .stays (by rw [hlists]) (by rw [hlists]) ?_⟩
    rw [hpc', hpc]
    simp only [Worker.weight]
    omega
  | next v hpc =>
    have hlists := h.listed_keep h' rfl (goto_walk _) (by rw [hwalk, hpc]; rfl)
    obtain ⟨hworker, hpc'⟩ := honly s _ rfl rfl rfl rfl fun k _ _ => by rw [hlists]
    refine ⟨hworker, .stays (by rw [hlists]) (by rw [hlists]) ?_⟩
    rw [hpc', hpc]
    simp only [Worker.weight]
    omega
  | exit hpc =>
    have hlists := h.listed_keep h' rfl (goto_walk _) (by rw [hwalk, hpc]; rfl)
    obtain ⟨hworker, hpc'⟩ := honly s _ rfl rfl rfl rfl fun k _ _ => by rw [hlists]
    refine ⟨hworker, .cancels (by rw [hlists]) (by rw [hpc']; trivial) ?_⟩
    rw [hpc', hpc, hlists]
    simp only [Worker.weight, Cancel.weight]
    omega
  | cancel c c' s₁ hpc hnext =>
    rw [hpc] at hwalk
    obtain ⟨-, hworkers, hstop⟩ := cancel_keeps hnext
    have hgoto := goto_walk (s := s₁) (w := w) (.cancel c')
    rw [cancel_walk hnext] at hgoto
    have hkeeps := cancel_next_task hnext
    obtain ⟨hlists, hless⟩ := h.listed_cancel h' hwalk hnext rfl hgoto
    obtain ⟨hworker, hpc'⟩ := honly s₁ _ rfl hworkers hkeeps.2 hstop fun k _ hk => hlists k hk
    refine ⟨hworker, .cancels (hlists _ (by simp)) (by rw [hpc']; trivial) ?_⟩
    rw [hpc', hpc]
    exact hless

/-- Worker `w` goes on. -/
theorem run_weight (h : Core s place blocks) (h' : Core s' place' blocks') (hw : w < n) (hrun : run s w = some s') :
    s'.weight (listed blocks') n < s.weight (listed blocks) n := by
  obtain ⟨honly, hstep⟩ := run_lists h h' hrun
  refine weight_of_worker hw honly.workers honly.stop honly.lists ?_
  unfold State.share
  cases hstep with
  | takes hqueue hnil hworker' hqueue' hweight =>
    have hlength := List.length_pos_iff.mpr hqueue
    rw [hworker', hqueue', hnil, hweight, List.length_nil]
    omega
  | next v hworker hqueue' hpill hweight =>
    rw [hqueue', hworker, List.length_cons]
    omega
  | stays hworker' hqueue' hweight =>
    rw [hqueue', hworker']
    omega
  | cancels hqueue' hcancels hweight =>
    rw [hqueue']
    omega

/-- `cancel_tasks(queues[i].pop_all())` goes on. -/
theorem cancel_queue_weight (h : Core s place blocks) (h' : Core s' place' blocks') {c : Option (Cancel α)}
    {to_stop : Option (Cancel α) → Stop α} {done : Stop α} (rest : Nat)
    (hqueues : ∀ q, n ≤ q → listed blocks (.queue q) = [])
    (hcancel : s.cancel_queue i c to_stop done = some s') (hstop : s.stop = to_stop c)
    (hplace : ∀ c, (to_stop c).cancel_tasks = c)
    (hnone : rest + 1 < (to_stop none).weight n) (hsome : ∀ c, (to_stop (some c)).weight n = rest + c.weight)
    (hdone : done.weight n = rest) (hends : done.cancel_tasks = none) :
    s'.weight (listed blocks') n < s.weight (listed blocks) n := by
  have hwalk : s.walk .stopper = s.stop.walk := rfl
  rw [hstop, Stop.walk, hplace] at hwalk
  cases cancel_queue_step hcancel with
  | pop_all =>
    have htake := h.listed_take h' rfl (by simp) (pop_all_walk (s := s) (i := i) (hplace (some (.loop (s.queues i).first))))
    have hnil : listed blocks .stopper = [] := h.listed_eq (by rw [hwalk]; rfl)
    refine weight_of_pop_all rfl htake hnil (hqueues i) ?_
    simp only [hstop, hsome, Cancel.weight]
    exact hnone
  | done =>
    have hsame : ({ s with stop := done } : State α).walk = s.walk := by
      rw [stop_walk, Stop.walk, hends]
      exact Function.update_eq_iff.mpr ⟨hwalk.symm, fun _ _ => rfl⟩
    have hlists := h.listed_stay h' rfl fun k => by rw [hsame]
    rw [hlists]
    refine weight_of_stopper rfl (fun _ _ => rfl) ?_
    simp only [State.stop_share, hstop, hsome, hdone, Cancel.weight]
    omega
  | cancel c c' s₁ hnext =>
    have hwalk' : ({ s₁ with stop := to_stop (some c') } : State α).walk = Function.update s.walk .stopper c'.walk := by
      rw [stop_walk, cancel_walk hnext, Stop.walk, hplace]
    obtain ⟨-, hworkers, -⟩ := cancel_keeps hnext
    obtain ⟨hlists, hless⟩ := h.listed_cancel h' hwalk hnext rfl hwalk'
    refine weight_of_stopper hworkers hlists ?_
    simp only [State.stop_share, hstop, hsome]
    omega

/-- The thread that stops the pool goes on. -/
theorem stop_weight (h : Inv n s place blocks) (h' : Inv n s' place' blocks') (hstep : stop n s = some s') :
    s'.weight (listed blocks') n < s.weight (listed blocks) n := by
  have hqueues : ∀ q, n ≤ q → listed blocks (.queue q) = [] := fun q hq => by simp [listed, h.phase.queues_lt q hq]
  -- it comes to another place in the code, and no list changes
  have hmoves : s'.next = s.next → s'.workers = s.workers → s'.walk = Function.update s.walk .stopper s'.stop.walk →
      s'.stop.walk = s.stop.walk → s'.stop.weight n < s.stop.weight n →
      s'.weight (listed blocks') n < s.weight (listed blocks) n := by
    intro hnext hworkers hwalk hsame hless
    have hlists := h.core.listed_keep h'.core hnext hwalk (congrArg Walk.top hsame)
    rw [hlists]
    refine weight_of_stopper hworkers (fun _ _ => rfl) ?_
    simp only [State.stop_share]
    omega
  cases stop_step hstep with
  | wait_join i hstop hi hexited =>
    apply hmoves rfl rfl (stop_walk _) (by rw [hstop]; rfl)
    simp only [hstop, Stop.weight]
    omega
  | wait_joined i hstop hi =>
    apply hmoves rfl rfl (stop_walk _) (by rw [hstop]; rfl)
    simp only [hstop, Stop.weight]
    omega
  | wait_cancel i c s' hstop hi hcancel =>
    apply cancel_queue_weight h.core h'.core (2 * (n - (i + 1)) + 10 * n + 3) hqueues hcancel hstop (fun _ => rfl)
    · simp only [Stop.weight]
      omega
    · exact fun c => rfl
    · simp only [Stop.weight]
    · rfl
  | wait_end i c hstop hi =>
    apply hmoves rfl rfl (stop_walk _) (h.phase.walk_of_emptied (Or.inl hstop) hi).symm
    rw [hstop]
    cases c <;> simp only [Stop.weight] <;> omega
  | push i p hstop hi =>
    have hpush := h'.core.listed_push (h.push_core hstop)
    refine weight_of_push 1 0 hi rfl hpush ?_
    simp only [hstop, Stop.weight, Block.nodes, List.length_cons, List.length_nil]
    omega
  | pushed i p hstop hi =>
    apply hmoves rfl rfl (stop_walk _) (by rw [hstop]; rfl)
    simp only [hstop, Stop.weight]
    omega
  | join i p hstop hexited =>
    apply hmoves rfl rfl (stop_walk _) (by rw [hstop]; rfl)
    simp only [hstop, Stop.weight]
    omega
  | cancel i p c s' hstop hcancel =>
    apply cancel_queue_weight h.core h'.core (8 * (n - (i + 1)) + 2 * n + 2) hqueues hcancel hstop (fun _ => rfl)
    · simp only [Stop.weight]
      omega
    · exact fun c => rfl
    · simp only [Stop.weight]
    · rfl
  | drain i p c s' hstop hi hcancel =>
    apply cancel_queue_weight h.core h'.core (2 * (n - (i + 1)) + 1) hqueues hcancel hstop (fun _ => rfl)
    · simp only [Stop.weight]
      omega
    · exact fun c => rfl
    · simp only [Stop.weight]
    · rfl
  | finish i p c hstop hi =>
    apply hmoves rfl rfl (stop_walk (s := s) .returned) (h.phase.walk_of_emptied (Or.inr ⟨p, hstop⟩) hi).symm
    show Stop.weight n (.returned : Stop α) < s.stop.weight n
    rw [hstop]
    cases c <;> simp only [Stop.weight] <;> omega

/-- Every step of the workers and of the thread that stops the pool is paid for. -/
theorem step_weight (h : Inv n s place blocks) (h' : Inv n s' place' blocks') (hstep : step n s a = some s') :
    s'.weight (listed blocks') n + a.own.toNat ≤ s.weight (listed blocks) n + a.costs := by
  have hquiet : s'.next = s.next → s'.workers = s.workers → s'.walk = s.walk → s'.stop.weight n ≤ s.stop.weight n →
      s'.weight (listed blocks') n ≤ s.weight (listed blocks) n := by
    intro hnext hworkers hwalk hle
    rw [h.core.listed_stay h'.core hnext fun k => by rw [hwalk]]
    simp only [State.weight, State.share, State.stop_share, hworkers]
    omega
  cases a with
  | attach user v q =>
    obtain ⟨⟨hq, hv⟩, heq⟩ := Option.ite_none_right_eq_some.mp hstep
    cases heq
    refine weight_of_push 0 4 hq rfl (h'.core.listed_push (h.core.attach hv)) ?_
    simp [Block.nodes, State.attach, State.push_list]
  | push_deadpill user p u q =>
    obtain ⟨⟨hq, hpu, hp, hu⟩, heq⟩ := Option.ite_none_right_eq_some.mp hstep
    cases heq
    refine weight_of_push 0 8 hq rfl (h'.core.listed_push (h.core.push_deadpill hpu hp hu)) ?_
    simp [Block.nodes, State.push_deadpill, State.push_list]
  | overwrite v next task status =>
    obtain ⟨hv, heq⟩ := Option.ite_none_right_eq_some.mp hstep
    cases heq
    rw [(h.core.overwrite hv).listed_unique h'.core]
    simp [State.weight, State.share, State.stop_share, Action.own, Action.costs]
  | run w =>
    obtain ⟨hw, hrun⟩ := Option.ite_none_right_eq_some.mp hstep
    have hless := run_weight h.core h'.core hw hrun
    simp only [Action.own, Action.costs, Bool.toNat_true]
    omega
  | wait_stop =>
    obtain ⟨hstop, heq⟩ := Option.ite_none_right_eq_some.mp hstep
    cases heq
    apply hquiet rfl rfl
    · rw [stop_walk]
      exact Function.update_eq_iff.mpr ⟨by simp [State.walk, hstop, Stop.walk, Stop.cancel_tasks], fun _ _ => rfl⟩
    · rw [hstop]
      simp only [Stop.weight]
      omega
  | destroy p =>
    obtain ⟨hp, hstep⟩ := Option.ite_none_right_eq_some.mp hstep
    cases hstop : s.stop with
    | running =>
      simp only [hstop, Option.some.injEq] at hstep
      subst hstep
      apply hquiet rfl rfl
      · funext k
        cases k <;> simp [State.walk, hstop, State.record, Stop.walk, Stop.cancel_tasks]
      · rw [hstop]
        simp only [Stop.weight]
        omega
    | waited =>
      simp only [hstop, Option.some.injEq] at hstep
      subst hstep
      apply hquiet rfl rfl
      · funext k
        cases k <;> simp [State.walk, hstop, State.record, Stop.walk, Stop.cancel_tasks]
      · rw [hstop]
        simp only [Stop.weight]
        omega
    | wait_join i | wait_cancel i c | push i p' | join i p' | cancel i p' c | drain i p' c | returned =>
      simp [hstop] at hstep
  | stop =>
    have hless := stop_weight h h' hstep
    simp only [Action.own, Action.costs, Bool.toNat_true]
    omega

omit [DecidableEq α] in
theorem construct_weight : (construct : State α).weight (listed fun _ => []) n = 13 * n + 4 := by
  simp [State.weight, State.share, State.stop_share, construct, Worker.weight, Stop.weight, listed]

theorem own_steps_le {as : List (Action α)} (hrun : Run (Step n) construct as s) :
    as.countP Action.own ≤ (as.map Action.costs).sum + (13 * n + 4) := by
  obtain ⟨m, hle, place, blocks, -, hweight⟩ := hrun.paid
    (fun m s => ∃ place blocks, Inv n s place blocks ∧ s.weight (listed blocks) n = m) Action.own Action.costs (by
      rintro m s a s' ⟨place, blocks, h, rfl⟩ hstep
      obtain ⟨place', blocks', h'⟩ := h.step hstep.2
      exact ⟨_, by exact_mod_cast step_weight h h' hstep.2, place', blocks', h', rfl⟩)
    ⟨_, _, Inv.construct_inv, congrArg Nat.cast construct_weight⟩
  omega

end kelcoro.thread_pool
