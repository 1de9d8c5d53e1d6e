import Kelcoro.ThreadPool.Stop
import Mathlib

namespace kelcoro.thread_pool

open kelcoro.lib

variable {α : Type} [DecidableEq α]

omit [DecidableEq α] in
/-- The nodes that were attached to queue `q`, in their order. -/
def attached (q : Nat) : List (Event α) → List α
  | [] => []
  | .attached v q' :: log => if q' = q then attached q log ++ [v] else attached q log
  | _ :: log => attached q log

/-- A coroutine of a node is resumed, by the loop of a worker or by a
`cancel_tasks`. -/
structure Resumption (α : Type) where
  node : α
  status : schedule_errc
  worker : Option Nat
  deriving DecidableEq, Repr

/-- The nodes of queue `q` that were resumed, in their order. -/
def resumed (q : Nat) : List (Event α) → List (Resumption α)
  | [] => []
  | .resumed v status worker :: log =>
    if life v log = .node q then resumed q log ++ [⟨v, status, worker⟩] else resumed q log
  | _ :: log => resumed q log

/-- The worker runs no tasks any more. -/
def Worker.Cancels : Worker α → Prop
  | .cancel _ | .exited => True
  | _ => False

/-- What a holder has: the node that it is about to resume and those in its list. -/
def items (s : State α) (lists : Holder → List α) (k : Holder) : List α :=
  ((s.walk k).pending.map Pending.node).toList ++ lists k

/-- Those that were attached to queue `q`. -/
def part (s : State α) (lists : Holder → List α) (q : Nat) (k : Holder) : List α :=
  (items s lists k).filter fun v => life v s.log = .node q

/-- The nodes of a queue wait in the order in which they were attached: those that
its worker has are the first ones, and the thread that stops the pool has some only
after the worker is gone. -/
structure Line (s : State α) (lists : Holder → List α) : Prop where
  order : ∀ q, attached q s.log = (resumed q s.log).map Resumption.node ++
    (part s lists q (.worker q) ++ part s lists q .stopper ++ part s lists q (.queue q))
  stopper : ∀ q, part s lists q .stopper ≠ [] → s.workers q = .exited
  cancels : ∀ q, ∀ r ∈ resumed q s.log, r.status = .cancelled → (s.workers q).Cancels
  sorted : ∀ q, (resumed q s.log).Pairwise fun r r' => r.status = .cancelled → r'.status = .cancelled

variable {n : Nat} {s s' s₁ : State α} {place place' : α → Place} {blocks blocks' : Holder → List (Block α)}
  {lists lists' : Holder → List α} {k : Holder} {walk : Walk α} {v p u : α} {q w i : Nat}

/-- The lists of the holders. -/
def listed (blocks : Holder → List (Block α)) (k : Holder) : List α := nodes (blocks k)

namespace Core

/-- The links say what the list of a holder is. -/
theorem listed_eq (h : Core s place blocks) {vs : List α} (hlinked : Linked s.next (s.walk k).top vs) :
    listed blocks k = vs :=
  Segment.unique (h.lists.linked k) hlinked

theorem listed_same (h : Core s place blocks) (h' : Core s' place' blocks') (hnext : s'.next = s.next)
    (htop : (s'.walk k).top = (s.walk k).top) : listed blocks' k = listed blocks k := by
  apply h'.listed_eq
  rw [hnext, htop]
  exact h.lists.linked k

theorem listed_cons (h : Core s place blocks) (htop : (s.walk k).top = some v) :
    ∃ vs, listed blocks k = v :: vs ∧ Linked s.next (s.next v) vs := by
  obtain ⟨b, rest, vs, hblocks, hnodes, hlinked⟩ := h.lists.head htop
  exact ⟨vs ++ nodes rest, by simp [listed, hblocks, hnodes], hlinked⟩

theorem items_not_gone (h : Core s place blocks) (hv : v ∈ items s (listed blocks) k) : life v s.log ≠ .gone := by
  obtain hpending | hlisted := List.mem_append.mp hv
  · obtain ⟨x, hx, rfl⟩ : ∃ x, (s.walk k).pending = some x ∧ x.node = v := by simpa using hpending
    exact (h.owned.pending_ok k x hx).at_home.not_gone
  · exact h.not_gone hlisted

/-- Nobody else has the node that a holder is about to resume. -/
theorem pending_not_mem (h : Core s place blocks) {x : Pending α} (hx : (s.walk k).pending = some x) {j : Holder} :
    x.node ∉ listed blocks j ∧ ∀ y, j ≠ k → (s.walk j).pending = some y → y.node ≠ x.node := by
  have hplace : place x.node = .pending k := (h.owned.pending k x.node).mpr ⟨x, hx, rfl⟩
  refine ⟨fun hmem => ?_, fun y hj hy heq => ?_⟩
  · cases hplace.symm.trans ((h.owned.listed j x.node).mp hmem)
  · have hother : place y.node = .pending j := (h.owned.pending j y.node).mpr ⟨y, hy, rfl⟩
    rw [heq] at hother
    exact hj (Place.pending.inj (hother.symm.trans hplace))

/-- A pill is no node of a queue. -/
theorem life_of_null (h : Core s place blocks) (htop : (s.walk k).top = some v) (htask : s.task v = .null) :
    life v s.log = .pill := by
  obtain ⟨b, rest, vs, hblocks, hnodes, -⟩ := h.lists.head htop
  have hok := h.owned.ok k b (by simp [hblocks])
  obtain ⟨-, ⟨rfl, -⟩ | ⟨u, rfl, -⟩⟩ | ⟨hnull, -⟩ := h.owned.head_cases hblocks hnodes
  · exact hok.1
  · exact hok.2.1
  · exact absurd htask hnull

/-- A queue and its worker have nodes of this queue only. -/
theorem home (h : Core s place blocks) (hv : v ∈ listed blocks k) (hk : k.home = some i) (hlife : life v s.log = .node q) :
    q = i := by
  have hat : ∀ u, s.view.At u k → life u s.log = .node q → q = i := by
    rintro u ⟨q', hq', hhome⟩ hu
    have hsame : life u s.log = .node q' := hq'
    rw [hhome i hk]
    exact (Life.node.inj (hsame.symm.trans hu)).symm
  obtain ⟨b, hb, hmem⟩ := mem_nodes.mp hv
  have hok := h.owned.ok k b hb
  have hpill : ∀ p', life p' s.log = .pill → v ≠ p' := by
    rintro p' hp' rfl
    cases hp'.symm.trans hlife
  cases b with
  | task u =>
    obtain rfl : v = u := by simpa [Block.nodes] using hmem
    exact hat v hok.1 hlife
  | stop p u =>
    obtain rfl : v = u := by simpa [Block.nodes, hpill p hok.2.1] using hmem
    exact hat v hok.1.1 hlife
  | rest p u =>
    obtain rfl : v = u := by simpa [Block.nodes] using hmem
    exact hat v hok.1.1 hlife
  | pill p =>
    obtain rfl : v = p := by simpa [Block.nodes] using hmem
    exact absurd rfl (hpill v hok.1)

/-- Who is not about to resume a node and has no list has nothing. -/
theorem part_nil (h : Core s place blocks) (htop : (s.walk k).top = none) (hnone : (s.walk k).pending = none) :
    part s (listed blocks) q k = [] := by
  have hnil : listed blocks k = [] := h.listed_eq (by rw [htop]; rfl)
  simp [part, items, hnone, hnil]

end Core

/-- A holder to which nothing happens has what it had. -/
theorem part_same (h : Core s place blocks) (h' : Core s' place' blocks') (hnext : s'.next = s.next)
    (hwalk : s'.walk k = s.walk k) (hlife : ∀ v ∈ items s (listed blocks) k, life v s'.log = .node q ↔ life v s.log = .node q) :
    part s' (listed blocks') q k = part s (listed blocks) q k := by
  have hlisted := h.listed_same h' hnext (congrArg Walk.top hwalk)
  have hitems : items s' (listed blocks') k = items s (listed blocks) k := by
    simp only [items, hwalk, hlisted]
  unfold part
  rw [hitems]
  exact List.filter_congr fun v hv => by simp [hlife v hv]

/-- Where the holders are does not matter. -/
theorem Line.congr (h : Line s lists) (hattached : ∀ q, attached q s'.log = attached q s.log)
    (hresumed : ∀ q, resumed q s'.log = resumed q s.log) (hpart : ∀ q k, part s' lists' q k = part s lists q k)
    (hexited : ∀ q, s.workers q = .exited → s'.workers q = .exited)
    (hcancels : ∀ q, (s.workers q).Cancels → (s'.workers q).Cancels) : Line s' lists' where
  order q := by
    rw [hattached, hresumed, hpart, hpart, hpart]
    exact h.order q
  stopper q hq := by
    rw [hpart] at hq
    exact hexited q (h.stopper q hq)
  cancels q r hr hstatus := by
    rw [hresumed] at hr
    exact hcancels q (h.cancels q r hr hstatus)
  sorted q := by
    rw [hresumed]
    exact h.sorted q

/-- What a worker and the thread that stops the pool keep. -/
structure Advances (s s' : State α) : Prop where
  exited : ∀ q, s.workers q = .exited → s'.workers q = .exited
  cancels : ∀ q, (s.workers q).Cancels → (s'.workers q).Cancels

omit [DecidableEq α] in
theorem Advances.of_workers (hworkers : s'.workers = s.workers) : Advances s s' := by
  constructor <;> simp [hworkers]

omit [DecidableEq α] in
theorem Advances.goto (s₁ : State α) (w : Nat) (pc : Worker α) (hworkers : s₁.workers = s.workers)
    (hlive : s.workers w ≠ .exited) (hcancels : (s.workers w).Cancels → pc.Cancels) :
    Advances s (s₁.goto w pc) := by
  constructor
  · intro q hq
    have hne : q ≠ w := by
      rintro rfl
      exact hlive hq
    simpa [State.goto, hworkers, hne] using hq
  · intro q hq
    by_cases hqw : q = w
    · subst hqw
      simpa [State.goto] using hcancels hq
    · simpa [State.goto, hworkers, hqw] using hq

namespace Line

/-- A holder comes to the next node, or is about to resume it. -/
theorem walks (hline : Line s (listed blocks)) (h : Core s place blocks) (h' : Core s' place' blocks')
    (hadvances : Advances s s') (hnext : s'.next = s.next) (hlog : s'.log = .touched v :: s.log)
    (hwalk : s'.walk = Function.update s.walk k walk) (htop : (s.walk k).top = some v)
    (hnone : (s.walk k).pending = none) (hstep : walk.top = s.next v)
    (hpending : walk.pending.map Pending.node = some v ∨ walk.pending = none ∧ s.task v = .null) :
    Line s' (listed blocks') := by
  obtain ⟨vs, hlisted, hlinked⟩ := h.listed_cons htop
  have hlisted' : listed blocks' k = vs := by
    apply h'.listed_eq
    rw [hnext, hwalk, Function.update_self, hstep]
    exact hlinked
  have hlife : ∀ x, life x s'.log = life x s.log := fun x => by rw [hlog, life_touched]
  refine hline.congr (fun q => by rw [hlog]; rfl) (fun q => by rw [hlog]; rfl) (fun q j => ?_) hadvances.exited
    hadvances.cancels
  by_cases hj : j = k
  · subst hj
    have hold : items s (listed blocks) j = v :: vs := by simp [items, hnone, hlisted]
    have hnew : items s' (listed blocks') j = (walk.pending.map Pending.node).toList ++ vs := by
      simp [items, hwalk, hlisted']
    unfold part
    rw [hold, hnew]
    simp only [hlife]
    obtain hpick | ⟨hconsumed, htask⟩ := hpending
    · simp [hpick]
    · simp [hconsumed, h.life_of_null htop htask]
  · exact part_same h h' hnext (by rw [hwalk, Function.update_of_ne hj]) fun x _ => by rw [hlife]

/-- Nothing happens to a node. -/
theorem quiet (hline : Line s (listed blocks)) (h : Core s place blocks) (h' : Core s' place' blocks')
    (hadvances : Advances s s') (hnext : s'.next = s.next) (hwalk : s'.walk = s.walk)
    (hattached : ∀ q, attached q s'.log = attached q s.log) (hresumed : ∀ q, resumed q s'.log = resumed q s.log)
    (hlife : ∀ v q, life v s'.log = .node q ↔ life v s.log = .node q) : Line s' (listed blocks') :=
  hline.congr hattached hresumed (fun q j => part_same h h' hnext (by rw [hwalk]) fun v _ => hlife v q) hadvances.exited
    hadvances.cancels

/-- The list of a queue is taken, by its worker, or by the thread that stops the pool
when the worker is gone. -/
theorem takes (hline : Line s (listed blocks)) (h : Core s place blocks) (h' : Core s' place' blocks')
    (hadvances : Advances s s') (hnext : s'.next = s.next) (hlog : s'.log = s.log) {cancels : Bool}
    (hk : k = .worker i ∧ s.workers i ≠ .exited ∨ k = .stopper ∧ s.workers i = .exited)
    (htop : (s.walk k).top = none) (hnone : (s.walk k).pending = none)
    (hwalk : s'.walk = Function.update (Function.update s.walk k ⟨(s.queues i).first, none, cancels⟩) (.queue i)
      ⟨none, none, false⟩) : Line s' (listed blocks') := by
  have hne : k ≠ .queue i := by
    rintro rfl
    simp at hk
  have htaken : listed blocks' k = listed blocks (.queue i) := by
    apply h'.listed_eq
    rw [hnext, hwalk, Function.update_of_ne hne, Function.update_self]
    exact h.lists.linked (.queue i)
  have hempty : ∀ q, part s' (listed blocks') q (.queue i) = [] := by
    intro q
    apply h'.part_nil <;> rw [hwalk, Function.update_self]
  have hnothing : ∀ q, part s (listed blocks) q k = [] := fun q => h.part_nil htop hnone
  have hgot : ∀ q, part s' (listed blocks') q k = part s (listed blocks) q (.queue i) := by
    intro q
    have hpending : (s'.walk k).pending = none := by
      rw [hwalk, Function.update_of_ne hne, Function.update_self]
    have hqueue : (s.walk (.queue i)).pending = none := rfl
    simp [part, items, hpending, hqueue, htaken, hlog]
  have hother : ∀ q j, j ≠ k → j ≠ .queue i → part s' (listed blocks') q j = part s (listed blocks) q j := by
    intro q j hj hji
    exact part_same h h' hnext (by rw [hwalk, Function.update_of_ne hji, Function.update_of_ne hj]) fun v _ => by rw [hlog]
  have hhome : ∀ q, q ≠ i → part s (listed blocks) q (.queue i) = [] := by
    intro q hq
    refine List.filter_eq_nil_iff.mpr fun v hv hlife => ?_
    have hv' : v ∈ listed blocks (.queue i) := by simpa [items, State.walk] using hv
    exact hq (h.home hv' rfl (of_decide_eq_true hlife))
  refine ⟨fun q => ?_, fun q hq => ?_, fun q r hr hstatus => ?_, fun q => ?_⟩
  · rw [hlog, hline.order q]
    congr 1
    obtain ⟨rfl, hlive⟩ | ⟨rfl, hexited⟩ := hk
    · have hstopper : part s' (listed blocks') q .stopper = part s (listed blocks) q .stopper :=
        hother q .stopper (by simp) (by simp)
      by_cases hq : q = i
      · subst hq
        have hnil : part s (listed blocks) q .stopper = [] := by
          by_contra hne
          exact hlive (hline.stopper q hne)
        simp [hgot, hempty, hstopper, hnil, hnothing]
      · rw [hstopper, hother q (.worker q) (by simpa using hq) (by simp), hother q (.queue q) (by simp) (by simpa using hq)]
    · have hworker : part s' (listed blocks') q (.worker q) = part s (listed blocks) q (.worker q) :=
        hother q (.worker q) (by simp) (by simp)
      by_cases hq : q = i
      · subst hq
        simp [hgot, hempty, hworker, hnothing]
      · rw [hworker, hother q (.queue q) (by simp) (by simpa using hq), hgot, hhome q hq, hnothing]
  · apply hadvances.exited
    obtain ⟨rfl, -⟩ | ⟨rfl, hexited⟩ := hk
    · rw [hother q .stopper (by simp) (by simp)] at hq
      exact hline.stopper q hq
    · rw [hgot] at hq
      by_cases hqi : q = i
      · rw [hqi]
        exact hexited
      · exact absurd (hhome q hqi) hq
  · rw [hlog] at hr
    exact hadvances.cancels q (hline.cancels q r hr hstatus)
  · rw [hlog]
    exact hline.sorted q

/-- A holder resumes a task, with `cancelled` when no worker runs tasks of its queue
any more. -/
theorem resumes (hline : Line s (listed blocks)) (h : Core s place blocks) (h' : Core s' place' blocks')
    (hadvances : Advances s s') (x : Pending α) (worker : Option Nat) (hnext : s'.next = s.next)
    (hlog : s'.log = (s.resume x.node x.task worker).log) (hk : ∀ q, k ≠ .queue q)
    (hwalk : s'.walk = Function.update s.walk k walk) (hpending : (s.walk k).pending = some x)
    (htop : walk.top = (s.walk k).top) (hdone : walk.pending = none)
    (hworker : ∀ w, k = .worker w → ((s.workers w).Cancels ↔ x.status = .cancelled))
    (hstopper : k = .stopper → x.status = .cancelled) : Line s' (listed blocks') := by
  have hok := h.owned.pending_ok k x hpending
  obtain ⟨q₀, hq₀, hhome⟩ := hok.at_home
  have hnode : life x.node s.log = .node q₀ := hq₀
  have hlife : ∀ v q, life v s'.log = .node q ↔ v ≠ x.node ∧ life v s.log = .node q := by
    intro v q
    rw [hlog]
    by_cases hv : v = x.node
    · subst hv
      cases htask : x.task with
      | push_deadpill p =>
        by_cases hp : p = x.node <;> simp [State.resume, State.record, life_destroyed, life_resumed, hp]
      | null | coroutine => simp [State.resume, State.record, life_resumed]
    · cases htask : x.task with
      | push_deadpill p =>
        have hpill : life p s.log = .pill := (hok.frame p htask).1
        by_cases hp : p = v
        · subst hp
          simp [State.resume, State.record, life_destroyed, hpill]
        · simp [State.resume, State.record, life_destroyed, life_resumed, hp, hv, Ne.symm hv]
      | null | coroutine => simp [State.resume, State.record, life_resumed, hv, Ne.symm hv]
  have hattached : ∀ q, attached q s'.log = attached q s.log := by
    intro q
    rw [hlog]
    cases x.task <;> rfl
  have hresumed : ∀ q, resumed q s'.log =
      if q₀ = q then resumed q s.log ++ [⟨x.node, s.status x.node, worker⟩] else resumed q s.log := by
    intro q
    have hstep : resumed q s'.log = resumed q (.resumed x.node (s.status x.node) worker :: s.log) := by
      rw [hlog]
      cases x.task <;> rfl
    rw [hstep]
    simp [resumed, hnode]
  have hstatus : s.status x.node = x.status := hok.status
  have hlisted : ∀ j, listed blocks' j = listed blocks j := by
    intro j
    apply h.listed_same h' hnext
    by_cases hj : j = k
    · rw [hj, hwalk, Function.update_self, htop]
    · rw [hwalk, Function.update_of_ne hj]
  have hother : ∀ q j, j ≠ k → part s' (listed blocks') q j = part s (listed blocks) q j := by
    intro q j hj
    apply part_same h h' hnext (by rw [hwalk, Function.update_of_ne hj])
    intro v hv
    obtain ⟨hnot, hpendings⟩ := h.pending_not_mem hpending (j := j)
    have hne : v ≠ x.node := by
      rintro rfl
      obtain hmem | hmem := List.mem_append.mp hv
      · obtain ⟨y, hy, heq⟩ : ∃ y, (s.walk j).pending = some y ∧ y.node = x.node := by simpa using hmem
        exact hpendings y hj hy heq
      · exact hnot hmem
    simp [hlife, hne]
  have hgone : ∀ q, part s (listed blocks) q k = (if q₀ = q then [x.node] else []) ++ part s' (listed blocks') q k := by
    intro q
    have hold : items s (listed blocks) k = x.node :: listed blocks k := by simp [items, hpending]
    have hnew : items s' (listed blocks') k = listed blocks k := by simp [items, hwalk, hdone, hlisted]
    have hrest : (listed blocks k).filter (fun v => life v s'.log = .node q) =
        (listed blocks k).filter (fun v => life v s.log = .node q) := by
      apply List.filter_congr
      intro v hv
      have hne : v ≠ x.node := by
        rintro rfl
        exact (h.pending_not_mem hpending).1 hv
      simp [hlife, hne]
    unfold part
    rw [hold, hnew, hrest, List.filter_cons]
    split
    case isTrue hq =>
      have hq : q₀ = q := Life.node.inj (hnode.symm.trans (of_decide_eq_true hq))
      simp [hq]
    case isFalse hq =>
      have hq : q₀ ≠ q := by
        rintro rfl
        exact hq (decide_eq_true hnode)
      simp [hq]
  -- The node is the next one of its queue.
  have hnext_node : ∀ q, part s (listed blocks) q (.worker q) ++ part s (listed blocks) q .stopper ++
      part s (listed blocks) q (.queue q) = (if q₀ = q then [x.node] else []) ++
        (part s' (listed blocks') q (.worker q) ++ part s' (listed blocks') q .stopper ++
          part s' (listed blocks') q (.queue q)) := by
    intro q
    rw [hother q (.queue q) (hk q).symm]
    cases k with
    | queue q' => exact absurd rfl (hk q')
    | worker w =>
      obtain rfl : w = q₀ := hhome w rfl
      rw [hother q .stopper (by simp)]
      by_cases hq : w = q
      · subst hq
        simp [hgone]
      · rw [hother q (.worker q) (by simpa using Ne.symm hq)]
        simp [hq]
    | stopper =>
      rw [hother q (.worker q) (by simp), hgone q]
      by_cases hq : q₀ = q
      · subst hq
        have hexited : s.workers q₀ = .exited := hline.stopper q₀ (by simp [hgone])
        have hnil : part s (listed blocks) q₀ (.worker q₀) = [] := by
          apply h.part_nil <;> simp [State.walk, hexited, Worker.walk]
        simp [hnil]
      · simp [hq]
  -- It is cancelled when no worker runs tasks of its queue.
  have hcancelled : (s.workers q₀).Cancels ↔ x.status = .cancelled := by
    cases k with
    | queue q' => exact absurd rfl (hk q')
    | worker w =>
      obtain rfl : w = q₀ := hhome w rfl
      exact hworker w rfl
    | stopper =>
      have hexited : s.workers q₀ = .exited := hline.stopper q₀ (by simp [hgone])
      simp [hexited, Worker.Cancels, hstopper rfl]
  refine ⟨fun q => ?_, fun q hq => ?_, fun q r hr hr' => ?_, fun q => ?_⟩
  · rw [hattached, hresumed, hline.order q, hnext_node]
    split <;> simp
  · apply hadvances.exited
    apply hline.stopper
    by_cases hk' : .stopper = k
    · subst hk'
      simp [hgone, hq]
    · rwa [← hother q .stopper hk']
  · apply hadvances.cancels
    rw [hresumed] at hr
    split at hr
    · rename_i hq
      subst hq
      obtain hr | hr := List.mem_append.mp hr
      · exact hline.cancels q₀ r hr hr'
      · obtain rfl := List.mem_singleton.mp hr
        exact hcancelled.mpr (hstatus.symm.trans hr')
    · exact hline.cancels q r hr hr'
  · rw [hresumed]
    split
    · rename_i hq
      subst hq
      refine List.pairwise_append.mpr ⟨hline.sorted q₀, by simp, fun r hr r' hr' hcancel => ?_⟩
      obtain rfl := List.mem_singleton.mp hr'
      exact hstatus.trans (hcancelled.mp (hline.cancels q₀ r hr hcancel))
    · exact hline.sorted q

/-- Nodes are pushed to a queue. -/
theorem pushes (hline : Line s (listed blocks)) (h : Core s place blocks) (hadvances : Advances s s') {b : Block α}
    (hblocks : blocks' = Function.update blocks (.queue i) (blocks (.queue i) ++ [b]))
    (hpending : ∀ j, (s'.walk j).pending = (s.walk j).pending)
    (hlife : ∀ v, life v s.log ≠ .gone → life v s'.log = life v s.log)
    (hhome : ∀ v ∈ b.nodes, ∀ q, life v s'.log = .node q → q = i)
    (hattached : ∀ q, attached q s'.log = attached q s.log ++ b.nodes.filter fun v => life v s'.log = .node q)
    (hresumed : ∀ q, resumed q s'.log = resumed q s.log) : Line s' (listed blocks') := by
  subst hblocks
  have hfilter : ∀ q j, (items s (listed blocks) j).filter (fun v => life v s'.log = .node q) =
      part s (listed blocks) q j := by
    intro q j
    exact List.filter_congr fun v hv => by rw [hlife v (h.items_not_gone hv)]
  have hother : ∀ q j, j ≠ .queue i →
      part s' (listed (Function.update blocks (.queue i) (blocks (.queue i) ++ [b]))) q j = part s (listed blocks) q j := by
    intro q j hj
    rw [← hfilter]
    simp [part, items, hpending, listed, hj]
  have hpushed : ∀ q, part s' (listed (Function.update blocks (.queue i) (blocks (.queue i) ++ [b]))) q (.queue i) =
      part s (listed blocks) q (.queue i) ++ b.nodes.filter fun v => life v s'.log = .node q := by
    intro q
    rw [← hfilter]
    simp [part, items, hpending, listed]
  refine ⟨fun q => ?_, fun q hq => ?_, fun q r hr hstatus => ?_, fun q => ?_⟩
  · rw [hattached, hresumed, hline.order q, hother q (.worker q) (by simp), hother q .stopper (by simp)]
    by_cases hq : q = i
    · subst hq
      simp [hpushed]
    · have hnone : (b.nodes.filter fun v => life v s'.log = .node q) = [] :=
        List.filter_eq_nil_iff.mpr fun v hv hnode => hq (hhome v hv q (of_decide_eq_true hnode))
      rw [hother q (.queue q) (by simpa using hq), hnone, List.append_nil]
  · rw [hother q .stopper (by simp)] at hq
    exact hadvances.exited q (hline.stopper q hq)
  · rw [hresumed] at hr
    exact hadvances.cancels q (hline.cancels q r hr hstatus)
  · rw [hresumed]
    exact hline.sorted q

/-- `cancel_tasks` goes on. -/
theorem cancel (hline : Line s (listed blocks)) (h : Core s place blocks) (h' : Core s' place' blocks')
    (hadvances : Advances s s') {c c' : Cancel α} (hk : ∀ q, k ≠ .queue q) (hwalk : s.walk k = c.walk)
    (hstep : s.cancel c = some (c', s₁)) (hnext : s'.next = s₁.next) (hlog : s'.log = s₁.log)
    (hwalk' : s'.walk = Function.update s.walk k c'.walk) (hworker : ∀ w, k = .worker w → (s.workers w).Cancels) :
    Line s' (listed blocks') := by
  cases cancel_step hstep with
  | skip v htask =>
    exact hline.walks h h' hadvances hnext hlog hwalk' (by rw [hwalk]; rfl) (by rw [hwalk]; rfl) rfl
      (Or.inr ⟨rfl, htask⟩)
  | take v htask =>
    exact hline.walks h h' hadvances hnext hlog hwalk' (by rw [hwalk]; rfl) (by rw [hwalk]; rfl) rfl (Or.inl rfl)
  | resume v task top =>
    have hnext' : s'.next = s.next := hnext.trans (s.keeps_resume v task none).next
    exact hline.resumes h h' hadvances ⟨v, task, .cancelled⟩ none hnext' hlog hk hwalk'
      (by rw [hwalk]; rfl) (by rw [hwalk]; rfl) rfl (fun w hw => iff_of_true (hworker w hw) rfl) fun _ => rfl

end Line

theorem Core.listed_unique (h : Core s place blocks) (h' : Core s place' blocks') : listed blocks' = listed blocks :=
  funext fun _ => h.listed_same h' rfl rfl

theorem line_run (h : Core s place blocks) (hline : Line s (listed blocks)) (h' : Core s' place' blocks')
    (hrun : run s w = some s') : Line s' (listed blocks') := by
  have hwalk : s.walk (.worker w) = (s.workers w).walk := rfl
  -- where it goes without a change of its walk
  have hquiet : ∀ pc : Worker α, Advances s (s.goto w pc) → pc.walk = (s.workers w).walk → s.goto w pc = s' →
      Line s' (listed blocks') := by
    rintro pc hadvances hsame rfl
    refine hline.quiet h h' hadvances rfl ?_ (fun _ => rfl) (fun _ => rfl) fun _ _ => Iff.rfl
    rw [goto_walk, hsame]
    exact Function.update_eq_iff.mpr ⟨hwalk, fun _ _ => rfl⟩
  cases run_step hrun with
  | pop top hpc htop =>
    have hadvances : Advances s ((s.pop_all w).goto w (.run top)) :=
      .goto _ _ _ rfl (by simp [hpc]) (by simp [hpc, Worker.Cancels])
    apply hline.takes (k := .worker w) (i := w) h h' hadvances rfl rfl (Or.inl ⟨rfl, by simp [hpc]⟩) _ _ (pop_walk htop)
    · rw [hwalk, hpc]
      rfl
    · rw [hwalk, hpc]
      rfl
  | pill v hpc htask =>
    have hadvances : Advances s ((s.record (.touched v)).goto w (.cancel (.loop (s.next v)))) :=
      .goto _ _ _ rfl (by simp [hpc]) (by simp [hpc, Worker.Cancels])
    exact hline.walks (k := .worker w) h h' hadvances rfl rfl (goto_walk _) (by rw [hwalk, hpc]; rfl)
      (by rw [hwalk, hpc]; rfl) rfl (Or.inr ⟨rfl, htask⟩)
  | take v hpc htask =>
    have hadvances : Advances s ((s.record (.touched v)).goto w (.resume v (s.task v) (s.next v))) :=
      .goto _ _ _ rfl (by simp [hpc]) (by simp [hpc, Worker.Cancels])
    exact hline.walks (k := .worker w) h h' hadvances rfl rfl (goto_walk _) (by rw [hwalk, hpc]; rfl)
      (by rw [hwalk, hpc]; rfl) rfl (Or.inl rfl)
  | resume v task top hpc =>
    obtain ⟨hworkers, hsame⟩ : (s.resume v task (some w)).workers = s.workers ∧
        (s.resume v task (some w)).walk = s.walk := by
      cases task <;> exact ⟨rfl, rfl⟩
    have hadvances : Advances s ((s.resume v task (some w)).goto w (.busy top)) :=
      .goto _ _ _ hworkers (by simp [hpc]) (by simp [hpc, Worker.Cancels])
    have hgoto := goto_walk (s := s.resume v task (some w)) (w := w) (.busy top)
    rw [hsame] at hgoto
    have hnext := (s.keeps_resume v task (some w)).next
    apply hline.resumes (k := .worker w) h h' hadvances ⟨v, task, .ok⟩ (some w) hnext rfl (by simp) hgoto
      (by rw [hwalk, hpc]; rfl) (by rw [hwalk, hpc]; rfl) rfl _ (by simp)
    intro w' hw'
    obtain rfl : w = w' := Holder.worker.inj hw'
    simp [hpc, Worker.Cancels]
  | last hpc => exact hquiet .pop (.goto _ _ _ rfl (by simp [hpc]) (by simp [hpc, Worker.Cancels])) (by rw [hpc]; rfl) rfl
  | next v hpc =>
    exact hquiet (.run v) (.goto _ _ _ rfl (by simp [hpc]) (by simp [hpc, Worker.Cancels])) (by rw [hpc]; rfl) rfl
  | exit hpc => exact hquiet .exited (.goto _ _ _ rfl (by simp [hpc]) fun _ => trivial) (by rw [hpc]; rfl) rfl
  | cancel c c' s₁ hpc hnext =>
    obtain ⟨-, hworkers, -⟩ := cancel_keeps hnext
    have hadvances : Advances s (s₁.goto w (.cancel c')) := .goto _ _ _ hworkers (by simp [hpc]) fun _ => trivial
    have hgoto : (s₁.goto w (.cancel c')).walk = Function.update s.walk (.worker w) c'.walk := by
      rw [goto_walk, cancel_walk hnext]
      rfl
    apply hline.cancel (k := .worker w) h h' hadvances (by simp) (by rw [hwalk, hpc]; rfl) hnext rfl rfl hgoto
    intro w' hw'
    obtain rfl : w = w' := Holder.worker.inj hw'
    simp [hpc, Worker.Cancels]

/-- `cancel_tasks(queues[i].pop_all())`, after the worker of the queue was joined. -/
theorem line_cancel_queue (h : Core s place blocks) (hline : Line s (listed blocks)) (h' : Core s' place' blocks')
    {c : Option (Cancel α)} {to_stop : Option (Cancel α) → Stop α} {done : Stop α}
    (hstep : s.cancel_queue i c to_stop done = some s') (hc : s.stop.cancel_tasks = c)
    (hplace : ∀ c, (to_stop c).cancel_tasks = c) (hdone : done.cancel_tasks = none)
    (hexited : s.workers i = .exited) : Line s' (listed blocks') := by
  have hwalk : s.walk .stopper = s.stop.walk := rfl
  rw [Stop.walk, hc] at hwalk
  cases cancel_queue_step hstep with
  | pop_all =>
    exact hline.takes (k := .stopper) (i := i) h h' (.of_workers rfl) rfl rfl (Or.inr ⟨rfl, hexited⟩) (by rw [hwalk])
      (by rw [hwalk]) (pop_all_walk (hplace _))
  | done =>
    refine hline.quiet h h' (.of_workers rfl) rfl ?_ (fun _ => rfl) (fun _ => rfl) fun _ _ => Iff.rfl
    rw [stop_walk, Stop.walk, hdone]
    exact Function.update_eq_iff.mpr ⟨hwalk.symm, fun _ _ => rfl⟩
  | cancel c c' s₁ hnext =>
    obtain ⟨-, hworkers, -⟩ := cancel_keeps hnext
    have hgoto : ({ s₁ with stop := to_stop (some c') } : State α).walk = Function.update s.walk .stopper c'.walk := by
      rw [stop_walk, cancel_walk hnext, Stop.walk, hplace]
    exact hline.cancel (k := .stopper) h h' (.of_workers hworkers) (by simp) hwalk hnext rfl rfl hgoto (by simp)

theorem attached_push_list (s : State α) (i : Nat) (v u : α) (q : Nat) : attached q (s.push_list i v u).log = attached q s.log := by
  unfold State.push_list
  dsimp only
  split <;> rfl

theorem resumed_push_list (s : State α) (i : Nat) (v u : α) (q : Nat) : resumed q (s.push_list i v u).log = resumed q s.log := by
  unfold State.push_list
  dsimp only
  split <;> rfl

theorem life_push_list (s : State α) (i : Nat) (v u x : α) : life x (s.push_list i v u).log = life x s.log := by
  unfold State.push_list
  dsimp only
  split <;> rfl

theorem pending_push_list (s : State α) (i : Nat) (v u : α) (j : Holder) : ((s.push_list i v u).walk j).pending = (s.walk j).pending := by
  cases j <;> rfl

/-- The destructor pushes its pill. -/
theorem line_push (h : Inv n s place blocks) (hline : Line s (listed blocks))
    (h' : Core { { s with next := Function.update s.next p none }.push_list i p p with stop := .join i p } place' blocks')
    (hstop : s.stop = .push i p) :
    Line { { s with next := Function.update s.next p none }.push_list i p p with stop := .join i p } (listed blocks') := by
  have hpill : s.stop.pill = some p := by rw [hstop]; rfl
  have hlife : life p s.log = .pill := (h.core.owned.stack p hpill).1
  have hsame : ∀ x, life x (({ s with next := Function.update s.next p none } : State α).push_list i p p).log =
      life x s.log := fun x => life_push_list _ i p p x
  rw [(h.push_core hstop).listed_unique h']
  refine hline.pushes h.core ?_ rfl ?_ ?_ ?_ ?_ ?_
  · exact .of_workers rfl
  · intro j
    cases j with
    | queue q => rfl
    | worker w => rfl
    | stopper =>
      show (Stop.join i p : Stop α).walk.pending = s.stop.walk.pending
      rw [hstop]
      rfl
  · exact fun x _ => hsame x
  · intro x hx q hq
    obtain rfl : x = p := by simpa [Block.nodes] using hx
    cases (hlife.symm.trans (hsame x).symm).trans hq
  · intro q
    rw [List.filter_eq_nil_iff.mpr, List.append_nil]
    · exact attached_push_list _ i p p q
    · intro x hx hq
      obtain rfl : x = p := by simpa [Block.nodes] using hx
      cases (hlife.symm.trans (hsame x).symm).trans (of_decide_eq_true hq)
  · exact fun q => resumed_push_list _ i p p q

theorem line_stop (h : Inv n s place blocks) (hline : Line s (listed blocks)) (h' : Core s' place' blocks')
    (hstop : stop n s = some s') : Line s' (listed blocks') := by
  -- nothing happens to a node when the thread goes on to another place
  have hquiet : ∀ next : Stop α, next.walk = s.stop.walk → ({ s with stop := next } : State α) = s' →
      Line s' (listed blocks') := by
    rintro next hwalk rfl
    refine hline.quiet h.core h' (.of_workers rfl) rfl ?_ (fun _ => rfl) (fun _ => rfl) fun _ _ => Iff.rfl
    rw [stop_walk]
    exact Function.update_eq_iff.mpr ⟨hwalk, fun _ _ => rfl⟩
  have hjoined := h.phase.joined
  cases stop_step hstop with
  | wait_join i hpc hi hexited => exact hquiet _ (by rw [hpc]; rfl) rfl
  | wait_joined i hpc hi => exact hquiet _ (by rw [hpc]; rfl) rfl
  | wait_cancel i c s' hpc hi hcancel =>
    rw [hpc] at hjoined
    exact line_cancel_queue h.core hline h' hcancel (by rw [hpc]; rfl) (fun _ => rfl) rfl (hjoined i hi)
  | wait_end i c hpc hi => exact hquiet .waited (h.phase.walk_of_emptied (Or.inl hpc) hi).symm rfl
  | push i p hpc hi => exact line_push h hline h' hpc
  | pushed i p hpc hi => exact hquiet _ (by rw [hpc]; rfl) rfl
  | join i p hpc hexited => exact hquiet _ (by rw [hpc]; rfl) rfl
  | cancel i p c s' hpc hcancel =>
    rw [hpc] at hjoined
    exact line_cancel_queue h.core hline h' hcancel (by rw [hpc]; rfl) (fun _ => rfl) rfl (hjoined i (Nat.lt_succ_self i))
  | drain i p c s' hpc hi hcancel =>
    rw [hpc] at hjoined
    exact line_cancel_queue h.core hline h' hcancel (by rw [hpc]; rfl) (fun _ => rfl) rfl (hjoined i hi)
  | finish i p c hpc hi =>
    have hpill : s.stop.pill = some p := by rw [hpc]; rfl
    have hlife : life p s.log = .pill := (h.core.owned.stack p hpill).1
    refine hline.quiet h.core h' (.of_workers rfl) rfl ?_ (fun _ => rfl) (fun _ => rfl) fun v q => ?_
    · funext j
      cases j with
      | queue q => rfl
      | worker w => rfl
      | stopper => exact (h.phase.walk_of_emptied (Or.inr ⟨p, hpc⟩) hi).symm
    · show life v (.destroyed p :: s.log) = .node q ↔ life v s.log = .node q
      rw [life_destroyed]
      split
      · rename_i hp
        simp [← hp, hlife]
      · rfl

/-- A node is attached to a queue. -/
theorem line_attach (h : Core s place blocks) (hline : Line s (listed blocks)) (hv : life v s.log = .gone)
    (h' : Core (s.attach v q) place' blocks') : Line (s.attach v q) (listed blocks') := by
  have hlife : ∀ x, life x (s.attach v q).log = life x (.attached v q :: s.log) := fun x => life_push_list _ q v v x
  rw [(h.attach hv).listed_unique h']
  refine hline.pushes h ?_ rfl ?_ ?_ ?_ ?_ ?_
  · exact .of_workers rfl
  · exact fun j => pending_push_list _ q v v j
  · intro x hx
    have hne : v ≠ x := by
      rintro rfl
      exact hx hv
    rw [hlife, life_attached, if_neg hne]
  · intro x hx q' hq'
    obtain rfl : x = v := by simpa [Block.nodes] using hx
    rw [hlife, life_attached, if_pos rfl] at hq'
    exact (Life.node.inj hq').symm
  · intro q'
    have hattached : attached q' (s.attach v q).log = attached q' (.attached v q :: s.log) :=
      attached_push_list _ q v v q'
    rw [hattached]
    by_cases hq : q = q'
    · subst hq
      simp [attached, Block.nodes, hlife, life_attached]
    · simp [attached, Block.nodes, hlife, life_attached, hq]
  · exact fun q' => resumed_push_list _ q v v q'

/-- A pill of a `request_stop` is pushed. -/
theorem line_push_deadpill (h : Core s place blocks) (hline : Line s (listed blocks)) (hpu : p ≠ u)
    (hp : life p s.log = .gone) (hu : life u s.log = .gone) (h' : Core (s.push_deadpill p u q) place' blocks') :
    Line (s.push_deadpill p u q) (listed blocks') := by
  have hlife : ∀ x, life x (s.push_deadpill p u q).log = life x (.attached u q :: .pill p :: s.log) :=
    fun x => life_push_list _ q p u x
  rw [(h.push_deadpill hpu hp hu).listed_unique h']
  refine hline.pushes h ?_ rfl ?_ ?_ ?_ ?_ ?_
  · exact .of_workers rfl
  · exact fun j => pending_push_list _ q p u j
  · intro x hx
    have hne : u ≠ x ∧ p ≠ x := by
      constructor <;> rintro rfl
      · exact hx hu
      · exact hx hp
    rw [hlife, life_attached, if_neg hne.1, life_pill, if_neg hne.2]
  · intro x hx q' hq'
    rcases (by simpa [Block.nodes] using hx : x = p ∨ x = u) with rfl | rfl
    · rw [hlife, life_attached, if_neg hpu.symm, life_pill, if_pos rfl] at hq'
      cases hq'
    · rw [hlife, life_attached, if_pos rfl] at hq'
      exact (Life.node.inj hq').symm
  · intro q'
    have hattached : attached q' (s.push_deadpill p u q).log = attached q' (.attached u q :: .pill p :: s.log) :=
      attached_push_list _ q p u q'
    rw [hattached]
    by_cases hq : q = q'
    · subst hq
      simp [attached, Block.nodes, hlife, life_attached, life_pill, hpu.symm]
    · simp [attached, Block.nodes, hlife, life_attached, life_pill, hq, hpu.symm]
  · exact fun q' => resumed_push_list _ q p u q'

theorem line_step (h : Inv n s place blocks) (hline : Line s (listed blocks)) (h' : Core s' place' blocks')
    {a : Action α} (hstep : step n s a = some s') : Line s' (listed blocks') := by
  cases a with
  | attach user v q =>
    simp only [step, Option.ite_none_right_eq_some, Option.some.injEq] at hstep
    obtain ⟨⟨-, hv⟩, rfl⟩ := hstep
    exact line_attach h.core hline hv h'
  | push_deadpill user p u q =>
    simp only [step, Option.ite_none_right_eq_some, Option.some.injEq] at hstep
    obtain ⟨⟨-, hpu, hp, hu⟩, rfl⟩ := hstep
    exact line_push_deadpill h.core hline hpu hp hu h'
  | overwrite v next task status =>
    simp only [step, Option.ite_none_right_eq_some, Option.some.injEq] at hstep
    obtain ⟨hv, rfl⟩ := hstep
    have hblocks := (h.core.overwrite hv).listed_unique h'
    rw [hblocks]
    exact hline.congr (fun _ => rfl) (fun _ => rfl) (fun _ _ => rfl) (fun _ => id) fun _ => id
  | run w =>
    obtain ⟨-, hrun⟩ := Option.ite_none_right_eq_some.mp hstep
    exact line_run h.core hline h' hrun
  | wait_stop =>
    simp only [step, Option.ite_none_right_eq_some, Option.some.injEq] at hstep
    obtain ⟨hstop, rfl⟩ := hstep
    refine hline.quiet h.core h' (.of_workers rfl) rfl ?_ (fun _ => rfl) (fun _ => rfl) fun _ _ => Iff.rfl
    rw [stop_walk]
    exact Function.update_eq_iff.mpr ⟨by rw [State.walk, hstop]; rfl, fun _ _ => rfl⟩
  | destroy p =>
    obtain ⟨hp, hstep⟩ := Option.ite_none_right_eq_some.mp hstep
    have hlife : ∀ v q, life v (.pill p :: s.log) = .node q ↔ life v s.log = .node q := by
      intro v q
      rw [life_pill]
      split
      · rename_i hv
        simp [← hv, hp]
      · rfl
    split at hstep
    · rename_i hstop
      cases hstep
      refine hline.quiet h.core h' (.of_workers rfl) rfl ?_ (fun _ => rfl) (fun _ => rfl) hlife
      funext j
      cases j with
      | queue q => rfl
      | worker w => rfl
      | stopper => exact (congrArg Stop.walk hstop).symm
    · rename_i hstop
      cases hstep
      refine hline.quiet h.core h' (.of_workers rfl) rfl ?_ (fun _ => rfl) (fun _ => rfl) hlife
      funext j
      cases j with
      | queue q => rfl
      | worker w => rfl
      | stopper => exact (congrArg Stop.walk hstop).symm
    · cases hstep
  | stop => exact line_stop h hline h' hstep

theorem line_of_run {as : List (Action α)} (hrun : Run (fun s a s' => step n s a = some s') construct as s) :
    ∃ place blocks, Inv n s place blocks ∧ Line s (listed blocks) := by
  apply hrun.invariant fun s => ∃ place blocks, Inv n s place blocks ∧ Line s (listed blocks)
  · rintro s a s' ⟨place, blocks, h, hline⟩ hstep
    obtain ⟨place', blocks', h'⟩ := h.step hstep
    exact ⟨place', blocks', h', line_step h hline h'.core hstep⟩
  · exact ⟨_, _, Inv.construct_inv, fun _ => rfl, fun _ hq => absurd rfl hq, fun _ _ hr => absurd hr (by simp [resumed, construct]),
      fun _ => List.Pairwise.nil⟩

theorem resumed_status {log : List (Event α)} (h : Lawful Follows log) {r : Resumption α} (hr : r ∈ resumed q log) :
    r.status = .ok ∧ r.worker = some q ∨ r.status = .cancelled ∧ r.worker = none := by
  induction log with
  | nil => cases hr
  | cons e log ih =>
    obtain ⟨hfollows, hlawful⟩ := h
    cases e with
    | attached v q' | pill v | touched v | destroyed v => exact ih hlawful hr
    | resumed v status worker =>
      obtain ⟨q', hq', hfits⟩ := hfollows
      simp only [resumed, hq', Life.node.injEq] at hr
      split at hr
      · rename_i hq
        subst hq
        obtain hr | hr := List.mem_append.mp hr
        · exact ih hlawful hr
        · obtain rfl := List.mem_singleton.mp hr
          exact hfits
      · exact ih hlawful hr

/-- Any number of threads and tasks push nodes and request the pool to stop at any
time: the nodes of a queue are resumed in the order in which they were attached to it,
those with `ok` by its worker, and after one that is resumed with `cancelled` none is
with `ok`. A `worker` is a pool with one queue, whose destructor does what that of the
pool does first. -/
theorem queue_is_fifo {as : List (Action α)} (hrun : Run (fun s a s' => step n s a = some s') construct as s) (q : Nat) :
    (resumed q s.log).map Resumption.node <+: attached q s.log ∧
      (∀ r ∈ resumed q s.log, r.status = .ok ∧ r.worker = some q ∨ r.status = .cancelled ∧ r.worker = none) ∧
      (resumed q s.log).Pairwise fun r r' => r.status = .cancelled → r'.status = .cancelled := by
  obtain ⟨place, blocks, h, hline⟩ := line_of_run hrun
  exact ⟨⟨_, (hline.order q).symm⟩, fun r hr => resumed_status h.core.lawful hr, hline.sorted q⟩

/-- Three nodes, the last one behind the pill of a `request_stop`, and one that is
attached while the worker cancels. -/
theorem queue_is_fifo_stopped : ∃ s : State Nat,
    resumed 0 s.log = [⟨0, .ok, some 0⟩, ⟨1, .ok, some 0⟩, ⟨11, .cancelled, none⟩, ⟨2, .cancelled, none⟩] ∧
      (resumed 0 s.log).map Resumption.node <+: attached 0 s.log := by
  let actions : List (Action Nat) :=
    [.attach .outside 0 0, .attach .outside 1 0, .push_deadpill .outside 10 11 0, .attach .outside 2 0, .run 0, .run 0,
      .run 0, .run 0, .run 0, .run 0, .run 0, .run 0, .attach .outside 3 0, .run 0, .run 0, .run 0, .run 0]
  have htaken : (actions.foldlM (step 1) construct).any (fun s => resumed 0 s.log =
      [⟨0, .ok, some 0⟩, ⟨1, .ok, some 0⟩, ⟨11, .cancelled, none⟩, ⟨2, .cancelled, none⟩]) = true := by
    decide +kernel
  obtain ⟨s, hs, hend⟩ := (Option.any_eq_true ..).mp htaken
  have hrun : Run (fun s a s' => step 1 s a = some s') construct actions s := Run.of_foldlM (fun _ _ _ => id) hs
  exact ⟨s, of_decide_eq_true hend, (queue_is_fifo hrun 0).1⟩

end kelcoro.thread_pool
