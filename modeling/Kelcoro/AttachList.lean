import Kelcoro.Lib.Waiters
import Kelcoro.AwaitersQueue
import Mathlib

namespace kelcoro.attach_list

open kelcoro.lib kelcoro.lib.waiters kelcoro.awaiters_queue

/-- An `attach_list` in progress: the pointer `top` of its loop. -/
structure Loop (α : Type) where
  call : Nat
  top : Option α

/-- A queue of awaiters and the loops that attach the nodes taken from it, the
innermost first; whose node each `task_node` is, which nodes the executor has
and which are in use, and the log of what happened. -/
structure Waiters (α : Type) where
  queue : Queue α
  task : α → Nat
  loops : List (Loop α)
  attached : List α
  busy : α → Bool
  entered : Nat
  taken : Nat
  log : List Event

variable {α : Type} [DecidableEq α]

omit [DecidableEq α] in
def construct : Waiters α where
  queue := Queue.construct
  task := fun _ => 0
  loops := []
  attached := []
  busy := fun _ => false
  entered := 0
  taken := 0
  log := []

namespace Waiters

variable (w : Waiters α)

/-- `task = handle` and `push(this)` of an awaiter. -/
def suspend (v : α) : Waiters α :=
  { w with
    queue := w.queue.push v
    task := Function.update w.task v w.entered
    busy := Function.update w.busy v true
    entered := w.entered + 1
    log := .enters w.entered :: w.log }

/-- `attach_list(e, pop_all())`, up to the first iteration of the loop. -/
def take : Waiters α :=
  { w with
    queue := w.queue.pop_all.2
    loops := { call := w.taken, top := w.queue.pop_all.1 } :: w.loops
    taken := w.taken + 1
    log := .takes w.taken :: w.log }

/-- The next iteration of the innermost loop, or its end. -/
def iterate : Option (Waiters α) :=
  match w.loops with
  | [] => none
  | loop :: loops =>
    match loop.top with
    | none => some { w with loops := loops }
    | some v =>
      some { w with
        loops := { loop with top := w.queue.next v } :: loops
        attached := v :: w.attached
        log := .attaches (w.task v) loop.call :: w.log }

/-- The executor resumes a coroutine; its node may be used again. -/
def resume (v : α) : Option (Waiters α) :=
  if v ∈ w.attached then
    some { w with attached := w.attached.erase v, busy := Function.update w.busy v false }
  else none

/-- Whoever has a node that is neither waiting nor taken writes its `next`. -/
def relink (v : α) (next : Option α) : Option (Waiters α) :=
  if w.busy v = false ∨ v ∈ w.attached then
    some { w with queue := { w.queue with next := Function.update w.queue.next v next } }
  else none

end Waiters

/-- What holds of waiters at any time: `held` are the nodes in the queue, and each
of the `parts` is a loop and the nodes that it has still to attach. -/
structure Inv (w : Waiters α) (held : List α) (parts : List (Loop α × List α)) : Prop where
  holds : w.queue.Holds held
  waiting : held.map w.task = (waiting w.log).reverse
  loops : w.loops = parts.map Prod.fst
  linked : ∀ p ∈ parts, Linked w.queue.next p.1.top p.2
  remaining : ∀ p ∈ parts, p.2.map w.task = remaining List.reverse p.1.call w.log
  finished : ∀ k, (∀ p ∈ parts, p.1.call ≠ k) → waiters.remaining List.reverse k w.log = []
  calls : (parts.map fun p => p.1.call).Nodup
  nodup : (held ++ (parts.flatMap Prod.snd ++ w.attached)).Nodup
  busy : ∀ v, w.busy v = true ↔ v ∈ held ++ (parts.flatMap Prod.snd ++ w.attached)
  lawful : Lawful (Follows List.reverse) w.log
  entered : ∀ j, .enters j ∈ w.log → j < w.entered
  started : ∀ k, .takes k ∈ w.log → k < w.taken
  called : ∀ p ∈ parts, p.1.call < w.taken

variable {w w' : Waiters α} {held : List α} {parts : List (Loop α × List α)} {v : α}

omit [DecidableEq α] in
theorem construct_inv : Inv (construct : Waiters α) [] [] := by
  constructor <;> simp [construct, Queue.construct_holds, waiting, remaining]

theorem map_update_of_not_mem {task : α → Nat} {j : Nat} {nodes : List α} (hv : v ∉ nodes) :
    nodes.map (Function.update task v j) = nodes.map task := by
  apply List.map_congr_left
  intro x hx
  apply Function.update_of_ne
  rintro rfl
  exact hv hx

theorem linked_update_of_not_mem {next : α → Option α} {p q : Option α} {nodes : List α}
    (h : Linked next p nodes) (hv : v ∉ nodes) : Linked (Function.update next v q) p nodes := by
  apply h.congr
  intro x hx
  apply Function.update_of_ne
  rintro rfl
  exact hv hx

namespace Inv

omit [DecidableEq α] in
theorem fair (h : Inv w held parts) : Fair List.reverse w.log :=
  fair_of_lawful List.reverse_perm h.lawful

omit [DecidableEq α] in
theorem empty_iff (h : Inv w held parts) : w.queue.first = none ↔ held = [] := h.holds.empty_iff

omit [DecidableEq α] in
theorem not_mem_rest (hv : v ∉ held ++ (parts.flatMap Prod.snd ++ w.attached)) :
    v ∉ held ∧ ∀ p ∈ parts, v ∉ p.2 := by
  refine ⟨fun hmem => hv (List.mem_append_left _ hmem), fun p hp hmem => hv ?_⟩
  exact List.mem_append_right _ (List.mem_append_left _ (List.mem_flatMap.mpr ⟨p, hp, hmem⟩))

omit [DecidableEq α] in
theorem held_disjoint (h : Inv w held parts) {p : Loop α × List α} (hp : p ∈ parts) : held.Disjoint p.2 := by
  intro x hx hx'
  have hapart := List.disjoint_of_nodup_append h.nodup
  exact hapart hx (List.mem_append_left _ (List.mem_flatMap.mpr ⟨p, hp, hx'⟩))

/-- A coroutine suspends with a node that is not in use. -/
theorem suspend (h : Inv w held parts) (hfree : w.busy v = false) :
    Inv (w.suspend v) (held ++ [v]) parts := by
  have hv : v ∉ held ++ (parts.flatMap Prod.snd ++ w.attached) := fun hmem => by
    simp [(h.busy v).mpr hmem] at hfree
  obtain ⟨hheld, hrest⟩ := not_mem_rest hv
  have hnew : .enters w.entered ∉ w.log := fun hmem => lt_irrefl _ (h.entered _ hmem)
  constructor
  · exact h.holds.push hheld
  · simp [Waiters.suspend, waiters.waiting, map_update_of_not_mem hheld, h.waiting]
  · exact h.loops
  · exact fun p hp => h.holds.push_linked (h.linked p hp) (hrest p hp) (h.held_disjoint hp)
  · exact fun p hp => (map_update_of_not_mem (hrest p hp)).trans (h.remaining p hp)
  · exact h.finished
  · exact h.calls
  · have hperm : (v :: (held ++ (parts.flatMap Prod.snd ++ w.attached))).Nodup :=
      List.nodup_cons.mpr ⟨hv, h.nodup⟩
    have hmiddle := List.perm_middle.nodup_iff.mpr hperm
    simpa [Waiters.suspend] using hmiddle
  · intro x
    by_cases hx : x = v
    · subst hx
      simp [Waiters.suspend]
    · simpa [Waiters.suspend, hx] using h.busy x
  · exact ⟨hnew, h.lawful⟩
  · intro j hmem
    rcases List.mem_cons.mp hmem with heq | hmem
    · cases heq
      exact Nat.lt_succ_self _
    · exact Nat.lt_succ_of_lt (h.entered j hmem)
  · exact fun k hmem => h.started k (by simpa [Waiters.suspend] using hmem)
  · exact h.called

omit [DecidableEq α] in
/-- All who wait are taken by a new innermost loop. -/
theorem take (h : Inv w held parts) :
    Inv w.take [] (({ call := w.taken, top := w.queue.first }, held) :: parts) := by
  have hnew : .takes w.taken ∉ w.log := fun hmem => lt_irrefl _ (h.started _ hmem)
  have hother : ∀ p ∈ parts, p.1.call ≠ w.taken := fun p hp => (h.called p hp).ne
  constructor
  · exact h.holds.pop_all.2
  · rfl
  · simp [Waiters.take, h.loops, Queue.pop_all]
  · intro p hp
    rcases List.mem_cons.mp hp with rfl | hp
    · exact h.holds.linked
    · exact h.linked p hp
  · intro p hp
    rcases List.mem_cons.mp hp with rfl | hp
    · simpa [Waiters.take, waiters.remaining] using h.waiting
    · simpa [Waiters.take, waiters.remaining, Ne.symm (hother p hp)] using h.remaining p hp
  · intro k hk
    have hne : w.taken ≠ k := hk _ (List.mem_cons_self ..)
    have hold := h.finished k fun p hp => hk p (List.mem_cons_of_mem _ hp)
    simpa [Waiters.take, waiters.remaining, hne] using hold
  · refine List.nodup_cons.mpr ⟨?_, h.calls⟩
    intro hmem
    obtain ⟨p, hp, heq⟩ := List.mem_map.mp hmem
    exact hother p hp heq
  · simpa [Waiters.take] using h.nodup
  · intro v
    simpa [Waiters.take] using h.busy v
  · exact ⟨hnew, h.lawful⟩
  · exact fun j hmem => h.entered j (by simpa [Waiters.take] using hmem)
  · intro k hmem
    rcases List.mem_cons.mp hmem with heq | hmem
    · cases heq
      exact Nat.lt_succ_self _
    · exact Nat.lt_succ_of_lt (h.started k hmem)
  · intro p hp
    rcases List.mem_cons.mp hp with rfl | hp
    · exact Nat.lt_succ_self _
    · exact Nat.lt_succ_of_lt (h.called p hp)

omit [DecidableEq α] in
/-- The innermost loop is over, or attaches the next node it has taken. -/
theorem iterate (h : Inv w held parts) (hstep : w.iterate = some w') :
    (∃ loop parts', parts = (loop, []) :: parts' ∧ loop.top = none ∧ Inv w' held parts') ∨
      ∃ loop v rest parts', parts = (loop, v :: rest) :: parts' ∧ loop.top = some v ∧
        w'.attached = v :: w.attached ∧
        Inv w' held (({ loop with top := w.queue.next v }, rest) :: parts') := by
  cases parts with
  | nil => simp [Waiters.iterate, h.loops] at hstep
  | cons p parts =>
    obtain ⟨loop, rest⟩ := p
    have hlinked : Linked w.queue.next loop.top rest := h.linked (loop, rest) (by simp)
    have hremaining : rest.map w.task = waiters.remaining List.reverse loop.call w.log :=
      h.remaining (loop, rest) (by simp)
    have hcalls : loop.call ∉ parts.map (fun p => p.1.call) ∧ (parts.map fun p => p.1.call).Nodup :=
      List.nodup_cons.mp h.calls
    simp only [Waiters.iterate, h.loops, List.map_cons] at hstep
    cases rest with
    | nil =>
      have htop : loop.top = none := Segment.nil_iff.mp hlinked
      simp only [htop, Option.some.injEq] at hstep
      subst hstep
      refine Or.inl ⟨loop, parts, rfl, htop, ?_⟩
      constructor
      · exact h.holds
      · exact h.waiting
      · rfl
      · exact fun p hp => h.linked p (List.mem_cons_of_mem _ hp)
      · exact fun p hp => h.remaining p (List.mem_cons_of_mem _ hp)
      · intro k hk
        by_cases hloop : loop.call = k
        · rw [← hloop]
          exact hremaining.symm
        · exact h.finished k (by simpa [hloop] using hk)
      · exact hcalls.2
      · simpa using h.nodup
      · simpa using h.busy
      · exact h.lawful
      · exact h.entered
      · exact h.started
      · exact fun p hp => h.called p (List.mem_cons_of_mem _ hp)
    | cons v rest =>
      have htop : loop.top = some v := hlinked.1
      simp only [htop, Option.some.injEq] at hstep
      subst hstep
      refine Or.inr ⟨loop, v, rest, parts, rfl, htop, rfl, ?_⟩
      have hperm : (held ++ ((v :: rest) ++ parts.flatMap Prod.snd ++ w.attached)).Perm
          (held ++ (rest ++ parts.flatMap Prod.snd ++ v :: w.attached)) := by
        apply List.Perm.append_left
        exact List.perm_middle.symm
      constructor
      · exact h.holds
      · exact h.waiting
      · rfl
      · intro p hp
        rcases List.mem_cons.mp hp with rfl | hp
        · exact hlinked.2
        · exact h.linked p (List.mem_cons_of_mem _ hp)
      · intro p hp
        rcases List.mem_cons.mp hp with rfl | hp
        · simp [waiters.remaining, ← hremaining]
        · have hne : loop.call ≠ p.1.call := fun heq => hcalls.1 (List.mem_map.mpr ⟨p, hp, heq.symm⟩)
          simpa [waiters.remaining, hne] using h.remaining p (List.mem_cons_of_mem _ hp)
      · intro k hk
        have hne : loop.call ≠ k := hk _ (List.mem_cons_self ..)
        have hold := h.finished k fun p hp => by
          rcases List.mem_cons.mp hp with rfl | hp
          · exact hne
          · exact hk p (List.mem_cons_of_mem _ hp)
        simpa [waiters.remaining, hne] using hold
      · exact h.calls
      · have hnodup := h.nodup
        simp only [List.flatMap_cons] at hnodup ⊢
        exact hperm.nodup_iff.mp hnodup
      · intro x
        have hbusy := h.busy x
        simp only [List.flatMap_cons] at hbusy ⊢
        exact hbusy.trans hperm.mem_iff
      · exact ⟨⟨rest.map w.task, by simp [← hremaining]⟩, h.lawful⟩
      · exact fun j hmem => h.entered j (by simpa using hmem)
      · exact fun k hmem => h.started k (by simpa using hmem)
      · intro p hp
        rcases List.mem_cons.mp hp with rfl | hp
        · exact h.called (loop, v :: rest) (by simp)
        · exact h.called p (List.mem_cons_of_mem _ hp)

theorem resume (h : Inv w held parts) (hstep : w.resume v = some w') : Inv w' held parts := by
  simp only [Waiters.resume, Option.ite_none_right_eq_some, Option.some.injEq] at hstep
  obtain ⟨hattached, rfl⟩ := hstep
  have hperm : (held ++ (parts.flatMap Prod.snd ++ w.attached)).Perm
      (v :: (held ++ (parts.flatMap Prod.snd ++ w.attached.erase v))) := by
    have herase := List.perm_cons_erase hattached
    exact ((herase.append_left _).append_left _).trans
      ((List.perm_middle.append_left _).trans List.perm_middle)
  have hnodup := List.nodup_cons.mp (hperm.nodup_iff.mp h.nodup)
  constructor
  · exact h.holds
  · exact h.waiting
  · exact h.loops
  · exact h.linked
  · exact h.remaining
  · exact h.finished
  · exact h.calls
  · exact hnodup.2
  · intro x
    by_cases hx : x = v
    · subst hx
      simpa using hnodup.1
    · have hbusy := (h.busy x).trans hperm.mem_iff
      simpa [hx] using hbusy
  · exact h.lawful
  · exact h.entered
  · exact h.started
  · exact h.called

theorem relink (h : Inv w held parts) {next : Option α} (hstep : w.relink v next = some w') :
    Inv w' held parts := by
  simp only [Waiters.relink, Option.ite_none_right_eq_some, Option.some.injEq] at hstep
  obtain ⟨hfree, rfl⟩ := hstep
  have hv : v ∉ held ∧ ∀ p ∈ parts, v ∉ p.2 := by
    rcases hfree with hfree | hattached
    · have hv : v ∉ held ++ (parts.flatMap Prod.snd ++ w.attached) := fun hmem => by
        simp [(h.busy v).mpr hmem] at hfree
      exact not_mem_rest hv
    · have hnodup := h.nodup
      rw [← List.append_assoc] at hnodup
      have hapart := List.disjoint_of_nodup_append hnodup
      refine ⟨fun hmem => hapart (List.mem_append_left _ hmem) hattached, fun p hp hmem => ?_⟩
      exact hapart (List.mem_append_right _ (List.mem_flatMap.mpr ⟨p, hp, hmem⟩)) hattached
  constructor
  · exact ⟨linked_update_of_not_mem h.holds.linked hv.1, h.holds.last⟩
  · exact h.waiting
  · exact h.loops
  · exact fun p hp => linked_update_of_not_mem (h.linked p hp) (hv.2 p hp)
  · exact h.remaining
  · exact h.finished
  · exact h.calls
  · exact h.nodup
  · exact h.busy
  · exact h.lawful
  · exact h.entered
  · exact h.started
  · exact h.called

end Inv

end kelcoro.attach_list
