import Kelcoro.Lib.Log
import Kelcoro.ThreadPool.Blocks
import Mathlib

namespace kelcoro.thread_pool

open kelcoro.lib

variable {α : Type} [DecidableEq α]

/-- A holder on its way through its list: the node it comes to next, the one that
it is about to resume, and whether it may have read the pill in front of the next
node. -/
structure Walk (α : Type) where
  top : Option α
  pending : Option (Pending α)
  cancels : Bool

def Cancel.walk : Cancel α → Walk α
  | .loop top => ⟨top, none, top.isSome⟩
  | .resume v task top => ⟨top, some ⟨v, task, .cancelled⟩, false⟩

def Worker.walk : Worker α → Walk α
  | .pop | .exited => ⟨none, none, false⟩
  | .run top => ⟨some top, none, false⟩
  | .resume v task top => ⟨top, some ⟨v, task, .ok⟩, false⟩
  | .busy top => ⟨top, none, false⟩
  | .cancel c => c.walk

/-- The `cancel_tasks` of the thread that stops the pool. -/
def Stop.cancel_tasks : Stop α → Option (Cancel α)
  | .wait_cancel _ c | .cancel _ _ c | .drain _ _ c => c
  | _ => none

def Stop.walk (stop : Stop α) : Walk α :=
  match stop.cancel_tasks with
  | some c => c.walk
  | none => ⟨none, none, false⟩

/-- The pill of the destructor. -/
def Stop.pill : Stop α → Option α
  | .push _ p | .join _ p | .cancel _ p _ | .drain _ p _ => some p
  | _ => none

namespace State

variable (s : State α)

def walk : Holder → Walk α
  | .queue q => ⟨(s.queues q).first, none, false⟩
  | .worker w => (s.workers w).walk
  | .stopper => s.stop.walk

def view : Nodes α where
  life v := life v s.log
  task := s.task
  status := s.status
  stack := s.stop.pill
  pending h := (s.walk h).pending

end State

/-- What may happen: memory is used for a node or a pill when it is no other one,
the pool accesses nodes that were not resumed, and resumes these only, with `ok`
by the worker of their queue, otherwise with `cancelled`. -/
def Follows (log : List (Event α)) : Event α → Prop
  | .attached v _ => life v log = .gone
  | .pill v => life v log = .gone
  | .touched v => life v log ≠ .gone
  | .resumed v status worker => ∃ q, life v log = .node q ∧
      (status = .ok ∧ worker = some q ∨ status = .cancelled ∧ worker = none)
  | .destroyed v => life v log = .pill

/-- The links lead through the lists. -/
structure Lists (next : α → Option α) (walk : Holder → Walk α) (last : Nat → Option α)
    (blocks : Holder → List (Block α)) : Prop where
  linked : ∀ h, Linked next (walk h).top (nodes (blocks h))
  tails : ∀ h, ∀ b ∈ (blocks h).tail, b.Whole
  whole : ∀ h, (walk h).cancels = false → ∀ b ∈ blocks h, b.Whole
  last : ∀ q before l, nodes (blocks (.queue q)) = before ++ [l] → last q = some l

namespace Lists

variable {next next' : α → Option α} {walk walk' : Holder → Walk α} {last last' : Nat → Option α}
  {blocks : Holder → List (Block α)} {h : Holder} {b : Block α} {v : α}

omit [DecidableEq α] in
theorem congr (hl : Lists next walk last blocks) (hsame : ∀ h, ∀ v ∈ nodes (blocks h), next' v = next v) :
    Lists next' walk last blocks :=
  { hl with linked := fun h => (hl.linked h).congr (hsame h) }

omit [DecidableEq α] in
/-- A holder comes to another list. -/
theorem update (hl : Lists next walk last blocks) {w : Walk α} {b : List (Block α)}
    (hlinked : Linked next w.top (nodes b)) (htails : ∀ c ∈ b.tail, c.Whole)
    (hwhole : w.cancels = false → ∀ c ∈ b, c.Whole)
    (hlast : ∀ q before l, h = .queue q → nodes b = before ++ [l] → last q = some l) :
    Lists next (Function.update walk h w) last (Function.update blocks h b) := by
  constructor
  · intro k
    by_cases hk : k = h
    · subst hk
      simpa using hlinked
    · rw [Function.update_of_ne hk, Function.update_of_ne hk]
      exact hl.linked k
  · intro k
    by_cases hk : k = h
    · subst hk
      simpa using htails
    · rw [Function.update_of_ne hk]
      exact hl.tails k
  · intro k
    by_cases hk : k = h
    · subst hk
      simpa using hwhole
    · rw [Function.update_of_ne hk, Function.update_of_ne hk]
      exact hl.whole k
  · intro q before l hsplit
    by_cases hk : Holder.queue q = h
    · subst hk
      rw [Function.update_self] at hsplit
      exact hlast q before l rfl hsplit
    · rw [Function.update_of_ne hk] at hsplit
      exact hl.last q before l hsplit

omit [DecidableEq α] in
theorem empty (hl : Lists next walk last blocks) (htop : (walk h).top = none) : blocks h = [] := by
  have hlinked := hl.linked h
  rw [htop] at hlinked
  have hnodes : nodes (blocks h) = [] := Segment.null_iff.mp hlinked
  cases hblocks : blocks h with
  | nil => rfl
  | cons b rest =>
    rw [hblocks, nodes_cons] at hnodes
    cases b <;> cases hnodes

omit [DecidableEq α] in
/-- The node that a holder comes to is the first one of a block. -/
theorem head (hl : Lists next walk last blocks) (htop : (walk h).top = some v) :
    ∃ b rest vs, blocks h = b :: rest ∧ b.nodes = v :: vs ∧ Linked next (next v) (vs ++ nodes rest) := by
  have hlinked := hl.linked h
  rw [htop] at hlinked
  cases hblocks : blocks h with
  | nil =>
    rw [hblocks] at hlinked
    cases hlinked
  | cons b rest =>
    rw [hblocks, nodes_cons] at hlinked
    obtain ⟨w, vs, hnodes⟩ : ∃ w vs, b.nodes = w :: vs := by
      cases b with
      | task w => exact ⟨w, [], rfl⟩
      | stop p u => exact ⟨p, [u], rfl⟩
      | rest p u => exact ⟨u, [], rfl⟩
      | pill p => exact ⟨p, [], rfl⟩
    rw [hnodes] at hlinked
    obtain ⟨htop', hrest⟩ := hlinked
    cases htop'
    exact ⟨b, rest, vs, rfl, hnodes, hrest⟩

/-- A block is pushed to a queue. -/
theorem push (hl : Lists next walk last blocks) {q : Nat} {queue : Queue α} {first l : α} {before : List α}
    (hwalk : walk (.queue q) = ⟨queue.first, none, false⟩) (hqueue : last q = queue.last)
    (hnews : Linked next (some first) b.nodes) (hlast : b.nodes = before ++ [l]) (hwhole : b.Whole)
    (hfresh : ∀ h, (nodes (blocks h)).Disjoint b.nodes)
    (hdisjoint : ∀ h, h ≠ .queue q → (nodes (blocks h)).Disjoint (nodes (blocks (.queue q)))) :
    Lists (queue.push_list next first l).1
      (Function.update walk (.queue q) ⟨(queue.push_list next first l).2.first, none, false⟩)
      (Function.update last q (queue.push_list next first l).2.last)
      (Function.update blocks (.queue q) (blocks (.queue q) ++ [b])) := by
  have hholds : queue.Holds next (nodes (blocks (.queue q))) := by
    have hlinked := hl.linked (.queue q)
    rw [hwalk] at hlinked
    exact ⟨hlinked, fun before l hsplit => hqueue.symm.trans (hl.last q before l hsplit)⟩
  have hpushed := hholds.push_list hnews hlast (hfresh _)
  have hnodes : nodes (blocks (.queue q) ++ [b]) = nodes (blocks (.queue q)) ++ b.nodes := by simp
  have hallwhole : ∀ c ∈ blocks (.queue q) ++ [b], c.Whole := by
    intro c hc
    rcases List.mem_append.mp hc with hc | hc
    · exact hl.whole (.queue q) (by rw [hwalk]) c hc
    · obtain rfl := List.mem_singleton.mp hc
      exact hwhole
  constructor
  · intro k
    by_cases hk : k = .queue q
    · subst hk
      simpa using hpushed.linked
    · rw [Function.update_of_ne hk, Function.update_of_ne hk]
      apply (hl.linked k).congr
      intro v hv
      exact hholds.push_list_next (hdisjoint k hk hv)
  · intro k
    by_cases hk : k = .queue q
    · subst hk
      rw [Function.update_self]
      exact fun c hc => hallwhole c (List.mem_of_mem_tail hc)
    · rw [Function.update_of_ne hk]
      exact hl.tails k
  · intro k
    by_cases hk : k = .queue q
    · subst hk
      rw [Function.update_self, Function.update_self]
      exact fun _ => hallwhole
    · rw [Function.update_of_ne hk, Function.update_of_ne hk]
      exact hl.whole k
  · intro q' before' l' hsplit
    by_cases hq : q' = q
    · subst hq
      rw [Function.update_self, hnodes] at hsplit
      rw [Function.update_self]
      exact hpushed.last before' l' hsplit
    · rw [Function.update_of_ne hq]
      rw [Function.update_of_ne (by simpa using hq)] at hsplit
      exact hl.last q' before' l' hsplit

end Lists

end kelcoro.thread_pool
