import Kelcoro.ThreadPool.Walks
import Mathlib

namespace kelcoro.thread_pool

open kelcoro.lib

variable {α : Type} [DecidableEq α]

/-- What holds of the nodes at every moment. -/
structure Core (s : State α) (place : α → Place) (blocks : Holder → List (Block α)) : Prop where
  owned : Owned s.view place blocks
  lists : Lists s.next s.walk (fun q => (s.queues q).last) blocks
  null : ∀ p, s.stop.pill = some p → s.task p = .null
  lawful : Lawful Follows s.log

/-- Two states that differ in what a walk changes only. -/
structure State.Keeps (s s' : State α) : Prop where
  next : s'.next = s.next
  task : s'.task = s.task
  queues : s'.queues = s.queues
  pill : s'.stop.pill = s.stop.pill

/-- Nodes do not come to a list, and the queues are as they were. -/
structure Narrows (place : α → Place) (blocks : Holder → List (Block α)) (place' : α → Place)
    (blocks' : Holder → List (Block α)) : Prop where
  queues : ∀ q, blocks' (.queue q) = blocks (.queue q)
  listed : ∀ v h, place' v = .listed h → place v = .listed h

variable {s s' : State α} {place place' : α → Place} {blocks blocks' : Holder → List (Block α)} {h k : Holder}
  {v p u first last : α} {q w : Nat}

@[simp] theorem life_nil : life v [] = .gone := rfl

@[simp] theorem life_touched {log : List (Event α)} : life v (.touched u :: log) = life v log := rfl

theorem life_attached {log : List (Event α)} :
    life v (.attached u q :: log) = if u = v then .node q else life v log := rfl

theorem life_pill {log : List (Event α)} : life v (.pill u :: log) = if u = v then .pill else life v log := rfl

theorem life_resumed {log : List (Event α)} {status : schedule_errc} {worker : Option Nat} :
    life v (.resumed u status worker :: log) = if u = v then .gone else life v log := rfl

theorem life_destroyed {log : List (Event α)} :
    life v (.destroyed u :: log) = if u = v then .gone else life v log := rfl

namespace Core

omit [DecidableEq α] in
theorem narrows_refl : Narrows place blocks place blocks := ⟨fun _ => rfl, fun _ _ hv => hv⟩

/-- What is not said of the nodes does not matter. -/
theorem quiet (h : Core s place blocks) (hkeeps : s.Keeps s') (hstatus : s'.status = s.status)
    (hlog : s'.log = s.log) (hwalk : s'.walk = s.walk) : Core s' place blocks := by
  have hview : s'.view = s.view := by
    simp only [State.view, hlog, hkeeps.task, hstatus, hkeeps.pill, hwalk]
  constructor
  · rw [hview]
    exact h.owned
  · rw [hkeeps.next, hwalk, hkeeps.queues]
    exact h.lists
  · rw [hkeeps.pill, hkeeps.task]
    exact h.null
  · rw [hlog]
    exact h.lawful

theorem not_gone (h : Core s place blocks) (hv : v ∈ nodes (blocks k)) : life v s.log ≠ .gone :=
  h.owned.not_gone (v := v) (by simp [(h.owned.listed k v).mp hv])

/-- A task that a worker comes to has not been cancelled. -/
theorem status_of_run (h : Core s place blocks) (htop : (s.walk k).top = some v) (hcancels : (s.walk k).cancels = false)
    (htask : s.task v ≠ .null) : s.status v = .ok := by
  obtain ⟨b, rest, vs, hblocks, hnodes, -⟩ := h.lists.head htop
  have hb : b ∈ blocks k := by simp [hblocks]
  have hok := h.owned.ok k b hb
  obtain ⟨hnull, -⟩ | ⟨-, -, ⟨rfl, -⟩ | ⟨p, rfl⟩⟩ := h.owned.head_cases hblocks hnodes
  · exact absurd hnull htask
  · exact hok.2.2
  · exact (h.lists.whole k hcancels _ hb).elim

/-- The holder `k` goes on. -/
theorem lists_update (h : Core s place blocks) (hkeeps : s.Keeps s') {walk : Walk α} {bs : List (Block α)}
    (hk : ∀ q, k ≠ .queue q) (hwalk : s'.walk = Function.update s.walk k walk)
    (hlinked : Linked s.next walk.top (nodes bs)) (htails : ∀ b ∈ bs.tail, b.Whole)
    (hwhole : walk.cancels = false → ∀ b ∈ bs, b.Whole) :
    Lists s'.next s'.walk (fun q => (s'.queues q).last) (Function.update blocks k bs) := by
  rw [hkeeps.next, hkeeps.queues, hwalk]
  exact h.lists.update hlinked htails hwhole fun q _ _ hq => absurd hq (hk q)

/-- A holder takes a node out of its list, to resume its task. -/
theorem picks (h : Core s place blocks) (status : schedule_errc) (hk : ∀ q, k ≠ .queue q)
    (htop : (s.walk k).top = some v) (hnone : (s.walk k).pending = none)
    (hok : status = .ok → (s.walk k).cancels = false) (htask : s.task v ≠ .null) (hkeeps : s.Keeps s')
    (hstatus : s'.status = Function.update s.status v status) (hlog : s'.log = .touched v :: s.log)
    (hwalk : s'.walk = Function.update s.walk k ⟨s.next v, some ⟨v, s.task v, status⟩, false⟩) :
    ∃ place' blocks', Core s' place' blocks' ∧ Narrows place blocks place' blocks' := by
  obtain ⟨b, rest, vs, hblocks, hnodes, hrest⟩ := h.lists.head htop
  obtain ⟨hnull, -⟩ | ⟨-, rfl, hb⟩ := h.owned.head_cases hblocks hnodes
  · exact absurd hnull htask
  have hpick : b = .task v ∨ ∃ p, b = .rest p v := hb.imp And.left id
  have hwhole : ∀ c ∈ rest, c.Whole := fun c hc => h.lists.tails k c (by simpa [hblocks] using hc)
  have hpicked := h.owned.pick status hblocks hpick hnone fun heq => by
    rcases hb with ⟨hb, -⟩ | ⟨p, rfl⟩
    · exact hb
    · exact (h.lists.whole k (hok heq) (.rest p v) (by simp [hblocks])).elim
  have hview : s'.view = { s.view with
      status := Function.update s.view.status v status
      pending := Function.update s.view.pending k (some ⟨v, s.view.task v, status⟩) } := by
    simp only [State.view, hlog, hkeeps.task, hstatus, hkeeps.pill, hwalk, life_touched, Nodes.mk.injEq, true_and]
    funext j
    by_cases hj : j = k
    · subst hj
      simp
    · simp [hj]
  refine ⟨Function.update place v (.pending k), Function.update blocks k rest,
    ⟨by rwa [hview], h.lists_update hkeeps hk hwalk ?_ ?_ fun _ => hwhole, ?_, ?_⟩, ?_⟩
  · simpa using hrest
  · exact fun c hc => hwhole c (List.mem_of_mem_tail hc)
  · rw [hkeeps.pill, hkeeps.task]
    exact h.null
  · rw [hlog]
    exact ⟨h.not_gone (k := k) (by simp [hblocks, hnodes]), h.lawful⟩
  · refine ⟨fun q => Function.update_of_ne (hk q).symm .., fun w j hw => ?_⟩
    by_cases hwv : w = v
    · simp [hwv] at hw
    · rwa [Function.update_of_ne hwv] at hw

/-- A holder reads a pill. -/
theorem consumes (h : Core s place blocks) (status : schedule_errc) (hk : ∀ q, k ≠ .queue q)
    (htop : (s.walk k).top = some v) (hnone : (s.walk k).pending = none) (htask : s.task v = .null)
    (hkeeps : s.Keeps s') (hstatus : s'.status = Function.update s.status v status)
    (hlog : s'.log = .touched v :: s.log)
    (hwalk : s'.walk = Function.update s.walk k (Cancel.loop (s.next v)).walk) :
    ∃ place' blocks', Core s' place' blocks' ∧ Narrows place blocks place' blocks' := by
  obtain ⟨b, rest, vs, hblocks, hnodes, hrest⟩ := h.lists.head htop
  obtain ⟨-, hb⟩ | ⟨hnull, -⟩ := h.owned.head_cases hblocks hnodes
  swap
  · exact absurd htask hnull
  have hwhole : ∀ c ∈ rest, c.Whole := fun c hc => h.lists.tails k c (by simpa [hblocks] using hc)
  -- what is left of the block
  obtain ⟨keep, hkeep, hkeep_nodes, hlength⟩ : ∃ keep : List (Block α),
      (b = .pill v ∧ keep = [] ∨ ∃ u, b = .stop v u ∧ keep = [.rest v u]) ∧ nodes keep = vs ∧ keep.length ≤ 1 := by
    rcases hb with ⟨rfl, rfl⟩ | ⟨u, rfl, rfl⟩
    · exact ⟨[], Or.inl ⟨rfl, rfl⟩, rfl, by simp⟩
    · exact ⟨[.rest v u], Or.inr ⟨u, rfl, rfl⟩, rfl, by simp⟩
  have htails : ∀ c ∈ (keep ++ rest).tail, c.Whole := by
    intro c hc
    apply hwhole
    match keep, hlength with
    | [], _ => exact List.mem_of_mem_tail hc
    | [_], _ => exact hc
  have hlinked : Linked s.next (s.next v) (nodes (keep ++ rest)) := by
    rw [nodes_append, hkeep_nodes]
    exact hrest
  have hconsumed := h.owned.consume status hblocks hkeep
  have hview : s'.view = { s.view with status := Function.update s.view.status v status } := by
    simp only [State.view, hlog, hkeeps.task, hstatus, hkeeps.pill, hwalk, life_touched, Nodes.mk.injEq, true_and]
    funext j
    by_cases hj : j = k
    · subst hj
      rw [Function.update_self, hnone]
      rfl
    · rw [Function.update_of_ne hj]
  refine ⟨Function.update place v .nowhere, Function.update blocks k (keep ++ rest),
    ⟨by rwa [hview], h.lists_update hkeeps hk hwalk hlinked htails ?_, ?_, ?_⟩, ?_⟩
  · intro hcancels c hc
    have hnext : s.next v = none := by simpa [Cancel.walk] using hcancels
    rw [hnext] at hlinked
    have hnil : nodes (keep ++ rest) = [] := Segment.null_iff.mp hlinked
    have hcnodes : c.nodes = [] := by
      refine List.eq_nil_iff_forall_not_mem.mpr fun x hx => ?_
      have hmem := mem_nodes.mpr ⟨c, hc, hx⟩
      rw [hnil] at hmem
      cases hmem
    cases c <;> cases hcnodes
  · rw [hkeeps.pill, hkeeps.task]
    exact h.null
  · rw [hlog]
    exact ⟨h.not_gone (k := k) (by simp [hblocks, hnodes]), h.lawful⟩
  · refine ⟨fun q => Function.update_of_ne (hk q).symm .., fun w j hw => ?_⟩
    by_cases hwv : w = v
    · simp [hwv] at hw
    · rwa [Function.update_of_ne hwv] at hw

/-- A holder resumes a task. -/
theorem resumes (h : Core s place blocks) (status : schedule_errc) {task : Task α} {worker : Option Nat}
    {walk : Walk α} (hk : ∀ q, k ≠ .queue q)
    (hpending : (s.walk k).pending = some ⟨v, task, status⟩) (hcancels : (s.walk k).cancels = false)
    (hworker : ∀ q, (∀ q', k.home = some q' → q' = q) →
      status = .ok ∧ worker = some q ∨ status = .cancelled ∧ worker = none)
    (hkeeps : s.Keeps s') (hstatus : s'.status = s.status) (hlog : s'.log = (s.resume v task worker).log)
    (hwalk : s'.walk = Function.update s.walk k walk) (htop : walk.top = (s.walk k).top)
    (hdone : walk.pending = none) :
    ∃ place' blocks', Core s' place' blocks' ∧ Narrows place blocks place' blocks' := by
  have hok := h.owned.pending_ok k _ hpending
  obtain ⟨q, hq, hhome⟩ := hok.at_home
  have hread : s.status v = status := hok.status
  have hlife : ∀ x, life x s'.log = if x = v ∨ task = .push_deadpill x then .gone else life x s.log := by
    intro x
    rw [hlog]
    cases task with
    | push_deadpill p =>
      simp only [State.resume, State.record, life_destroyed, life_resumed, Task.push_deadpill.injEq]
      grind
    | null => simp [State.resume, State.record, life_resumed, eq_comm]
    | coroutine => simp [State.resume, State.record, life_resumed, eq_comm]
  have hresumed : Follows s.log (.resumed v (s.status v) worker) :=
    ⟨q, hq, by rw [hread]; exact hworker q hhome⟩
  have hblocks : Function.update blocks k (blocks k) = blocks := Function.update_eq_self k blocks
  have hview : s'.view = { s.view with
      life := fun x => if x = v ∨ task = .push_deadpill x then .gone else s.view.life x
      pending := Function.update s.view.pending k none } := by
    simp only [State.view, hkeeps.task, hstatus, hkeeps.pill, hwalk, Nodes.mk.injEq, true_and]
    refine ⟨funext hlife, ?_⟩
    funext j
    by_cases hj : j = k
    · subst hj
      simp [hdone]
    · simp [hj]
  have hresumed' := h.owned.resumed hpending
  refine ⟨Function.update place v .nowhere, blocks, ⟨by rwa [hview], ?_, ?_, ?_⟩, ?_⟩
  · rw [← hblocks]
    apply h.lists_update hkeeps hk hwalk
    · rw [htop]
      exact h.lists.linked k
    · exact h.lists.tails k
    · exact fun _ => h.lists.whole k hcancels
  · rw [hkeeps.pill, hkeeps.task]
    exact h.null
  · rw [hlog]
    cases task with
    | push_deadpill p =>
      have hpill : life p s.log = .pill := (hok.frame p rfl).1
      refine ⟨?_, hresumed, h.lawful⟩
      show life p (.resumed v (s.status v) worker :: s.log) = .pill
      rw [life_resumed, if_neg, hpill]
      rintro rfl
      cases hpill.symm.trans hq
    | null => exact ⟨hresumed, h.lawful⟩
    | coroutine => exact ⟨hresumed, h.lawful⟩
  · refine ⟨fun q => rfl, fun w j hw => ?_⟩
    by_cases hwv : w = v
    · simp [hwv] at hw
    · rwa [Function.update_of_ne hwv] at hw

/-- A holder takes the list of a queue. -/
theorem takes (h : Core s place blocks) {cancels : Bool} (hk : ∀ q, k ≠ .queue q)
    (hhome : ∀ q', k.home = some q' → q' = q) (htop : (s.walk k).top = none) (hnone : (s.walk k).pending = none)
    (hnext : s'.next = s.next) (htask : s'.task = s.task) (hpill : s'.stop.pill = s.stop.pill)
    (hstatus : s'.status = s.status) (hlog : s'.log = s.log) (hlast : ∀ q, (s'.queues q).last = (s.queues q).last)
    (hwalk : s'.walk = Function.update (Function.update s.walk k ⟨(s.queues q).first, none, cancels⟩) (.queue q)
      ⟨none, none, false⟩) :
    Core s' (fun v => if place v = .listed (.queue q) then .listed k else place v)
      (Function.update (Function.update blocks k (blocks (.queue q))) (.queue q) []) := by
  have hempty : blocks k = [] := h.lists.empty htop
  have hwhole := h.lists.whole (.queue q) rfl
  have hview : s'.view = s.view := by
    simp only [State.view, htask, hstatus, hpill, hlog, hwalk, Nodes.mk.injEq, true_and]
    funext j
    by_cases hj : j = .queue q
    · subst hj
      simp [State.walk]
    · rw [Function.update_of_ne hj]
      by_cases hjk : j = k
      · subst hjk
        rw [Function.update_self, hnone]
      · rw [Function.update_of_ne hjk]
  constructor
  · rw [hview]
    apply h.owned.transfer (hk q).symm hempty
    intro q' hq'
    rw [hhome q' hq', Holder.home]
  · have htaken := h.lists.update (h := k) (w := ⟨(s.queues q).first, none, cancels⟩)
      (h.lists.linked (.queue q)) (fun b hb => hwhole b (List.mem_of_mem_tail hb)) (fun _ => hwhole)
      fun q' _ _ hq' => absurd hq' (hk q')
    have hpopped := htaken.update (h := .queue q) (w := ⟨none, none, false⟩) (b := []) rfl (by simp) (by simp)
      fun _ before l _ hsplit => by simp at hsplit
    rw [hnext, hwalk]
    simpa only [hlast] using hpopped
  · rw [hpill, htask]
    exact h.null
  · rw [hlog]
    exact h.lawful

/-- Nodes that were nowhere are pushed to a queue. -/
theorem pushes (h : Core s place blocks) (b : Block α) (before : List α) {s₁ : State α}
    (hsame : ∀ v, life v s.log ≠ .gone → s.view.Same s₁.view v)
    (hgone : ∀ v, life v s.log = .gone → v ∉ b.nodes → ∀ k, life v s₁.log ≠ .node k)
    (hnext : ∀ v, v ∉ b.nodes → s₁.next v = s.next v) (hqueues : s₁.queues = s.queues)
    (hworkers : s₁.workers = s.workers) (hstop : s₁.stop = s.stop) (hfresh : ∀ v ∈ b.nodes, place v = .nowhere)
    (hmemory : ∀ v ∈ b.nodes, life v s.log = .gone ∨ s.stop.pill = some v)
    (hlinked : Linked s₁.next (some first) b.nodes) (hlast : b.nodes = before ++ [last]) (hwhole : b.Whole)
    (hok : ∀ place', b.Ok s₁.view place' (.queue q))
    (hframe : ∀ u ∈ b.nodes, ∀ p, s₁.task u = .push_deadpill p → life p s.log = .gone)
    (hone : ∀ u ∈ b.nodes, ∀ u' ∈ b.nodes, ∀ p, s₁.task u = .push_deadpill p → s₁.task u' = .push_deadpill p →
      u = u') (hlawful : Lawful Follows s₁.log) :
    Core (s₁.push_list q first last) (fun v => if v ∈ b.nodes then .listed (.queue q) else place v)
      (Function.update blocks (.queue q) (blocks (.queue q) ++ [b])) := by
  have hwalk : s₁.walk = s.walk := by
    funext j
    cases j <;> simp only [State.walk, hqueues, hworkers, hstop]
  have hpush_walk : (s₁.push_list q first last).walk = Function.update s.walk (.queue q)
      ⟨((s.queues q).push_list s₁.next first last).2.first, none, false⟩ := by
    rw [← hqueues, ← hwalk]
    funext j
    by_cases hj : j = .queue q
    · subst hj
      simp [State.walk, State.push_list]
    · rw [Function.update_of_ne hj]
      cases j with
      | queue q' => simp [State.walk, State.push_list, show q' ≠ q by simpa using hj]
      | worker w => rfl
      | stopper => rfl
  have hlife : ∀ v, life v (s₁.push_list q first last).log = life v s₁.log := by
    intro v
    unfold State.push_list
    dsimp only
    split <;> rfl
  have hview : (s₁.push_list q first last).view = s₁.view := by
    have hlife' : (fun v => life v (s₁.push_list q first last).log) = fun v => life v s₁.log := funext hlife
    have hpending : (fun j => ((s₁.push_list q first last).walk j).pending) = fun j => (s₁.walk j).pending := by
      funext j
      rw [hpush_walk, hwalk]
      by_cases hj : j = .queue q
      · subst hj
        simp [State.walk]
      · rw [Function.update_of_ne hj]
    simp only [State.view, hlife', hpending]
    rfl
  have hmem : ∀ k, ∀ v ∈ nodes (blocks k), place v = .listed k := fun k v => (h.owned.listed k v).mp
  have hdisjoint : ∀ k, (nodes (blocks k)).Disjoint b.nodes := by
    intro k v hv hvb
    cases (hmem k v hv).symm.trans (hfresh v hvb)
  have hfreshnext : Lists s₁.next s.walk (fun q => (s.queues q).last) blocks :=
    h.lists.congr fun k v hv => hnext v (hdisjoint k hv)
  constructor
  · rw [hview]
    apply h.owned.add hsame hgone _ _ hfresh _ hmemory hok hframe hone
    · simp only [State.view, hwalk]
    · simp only [State.view, hstop]
    · exact hlinked.nodup
  · have hpushed := hfreshnext.push (q := q) rfl rfl hlinked hlast hwhole hdisjoint
      fun k hk v hv hv' => by
        have heq := (hmem k v hv).symm.trans (hmem _ v hv')
        exact hk (Place.listed.inj heq)
    have hnext' : (s₁.push_list q first last).next = ((s.queues q).push_list s₁.next first last).1 := by
      rw [← hqueues]
      rfl
    have hlasts : (fun q' => ((s₁.push_list q first last).queues q').last) =
        Function.update (fun q' => (s.queues q').last) q ((s.queues q).push_list s₁.next first last).2.last := by
      rw [← hqueues]
      funext q'
      by_cases hq : q' = q
      · subst hq
        simp [State.push_list]
      · simp [State.push_list, hq]
    rw [hnext', hpush_walk, hlasts]
    exact hpushed
  · intro p hp
    have hp' : s.stop.pill = some p := by rwa [← hstop]
    have hpill : life p s.log = .pill := (h.owned.stack p hp').1
    exact (hsame p (by simp [hpill])).2.1.trans (h.null p hp')
  · unfold State.push_list
    dsimp only
    split
    · rename_i l hl
      refine ⟨?_, hlawful⟩
      rw [hqueues] at hl
      have hholds : (s.queues q).Holds s.next (nodes (blocks (.queue q))) :=
        ⟨h.lists.linked (.queue q), h.lists.last q⟩
      have hmem := hholds.tail_mem hl
      have hlisted := h.not_gone hmem
      show life l s₁.log ≠ .gone
      have hlife : life l s₁.log = life l s.log := (hsame l hlisted).1
      rwa [hlife]
    · exact hlawful

theorem nowhere (h : Core s place blocks) (hv : life v s.log = .gone) : place v = .nowhere := by
  by_contra hne
  exact h.owned.not_gone hne hv

theorem attach (h : Core s place blocks) (hv : life v s.log = .gone) :
    Core (s.attach v q) (fun x => if x ∈ [v] then .listed (.queue q) else place x)
      (Function.update blocks (.queue q) (blocks (.queue q) ++ [.task v])) := by
  have hother : ∀ x, life x s.log ≠ .gone → x ≠ v := by
    rintro x hx rfl
    exact hx hv
  apply h.pushes (.task v) []
  · intro x hx
    have hxv := hother x hx
    refine ⟨?_, Function.update_of_ne hxv .., Function.update_of_ne hxv ..⟩
    exact if_neg hxv.symm
  · intro x hx hxv k
    have hne : v ≠ x := by simpa [Block.nodes, eq_comm] using hxv
    simp [life_attached, hne, hx]
  · intro x hx
    exact Function.update_of_ne (by simpa [Block.nodes] using hx) ..
  · rfl
  · rfl
  · rfl
  · intro x hx
    obtain rfl : x = v := by simpa [Block.nodes] using hx
    exact h.nowhere hv
  · intro x hx
    obtain rfl : x = v := by simpa [Block.nodes] using hx
    exact Or.inl hv
  · exact ⟨rfl, by simp⟩
  · rfl
  · trivial
  · intro place'
    refine ⟨⟨q, by simp [State.view, life_attached], fun q' hq' => ?_⟩, ?_, ?_⟩
    · exact (Option.some.inj hq').symm
    · exact Function.update_self ..
    · exact Function.update_self ..
  · intro x hx p hp
    obtain rfl : x = v := by simpa [Block.nodes] using hx
    simp at hp
  · intro x hx x' hx' _ _ _
    obtain rfl : x = v := by simpa [Block.nodes] using hx
    exact (by simpa [Block.nodes] using hx' : x' = x).symm
  · exact ⟨hv, h.lawful⟩

theorem push_deadpill (h : Core s place blocks) (hpu : p ≠ u) (hp : life p s.log = .gone)
    (hu : life u s.log = .gone) :
    Core (s.push_deadpill p u q) (fun x => if x ∈ [p, u] then .listed (.queue q) else place x)
      (Function.update blocks (.queue q) (blocks (.queue q) ++ [.stop p u])) := by
  have hother : ∀ x, life x s.log ≠ .gone → x ≠ p ∧ x ≠ u := by
    refine fun x hx => ⟨?_, ?_⟩ <;> rintro rfl
    · exact hx hp
    · exact hx hu
  apply h.pushes (.stop p u) [p]
  · intro x hx
    obtain ⟨hxp, hxu⟩ := hother x hx
    refine ⟨?_, ?_, ?_⟩
    · simp [State.view, life_attached, life_pill, hxp.symm, hxu.symm]
    · simp [State.view, hxp, hxu]
    · simp [State.view, hxp, hxu]
  · intro x hx hxb k
    obtain ⟨hxp, hxu⟩ : x ≠ p ∧ x ≠ u := by simpa [Block.nodes] using hxb
    simp [life_attached, life_pill, hxp.symm, hxu.symm, hx]
  · intro x hx
    obtain ⟨hxp, hxu⟩ : x ≠ p ∧ x ≠ u := by simpa [Block.nodes] using hx
    simp [hxp, hxu]
  · rfl
  · rfl
  · rfl
  · intro x hx
    rcases (by simpa [Block.nodes] using hx : x = p ∨ x = u) with rfl | rfl
    · exact h.nowhere hp
    · exact h.nowhere hu
  · intro x hx
    rcases (by simpa [Block.nodes] using hx : x = p ∨ x = u) with rfl | rfl
    · exact Or.inl hp
    · exact Or.inl hu
  · exact ⟨rfl, by simp, by simp [hpu.symm]⟩
  · rfl
  · trivial
  · intro place'
    refine ⟨⟨⟨q, by simp [State.view, life_attached], fun q' hq' => ?_⟩, ?_, ?_⟩, ?_, ?_⟩
    · exact (Option.some.inj hq').symm
    · simp [State.view, hpu.symm]
    · simp [State.view, hpu.symm]
    · simp [State.view, life_attached, life_pill, hpu.symm]
    · simp [State.view]
  · intro x hx p' hp'
    rcases (by simpa [Block.nodes] using hx : x = p ∨ x = u) with rfl | rfl
    · simp at hp'
    · obtain rfl : p = p' := by simpa [hpu.symm] using hp'
      exact hp
  · intro x hx x' hx' p' htask htask'
    rcases (by simpa [Block.nodes] using hx : x = p ∨ x = u) with rfl | rfl
    · simp at htask
    · rcases (by simpa [Block.nodes] using hx' : x' = p ∨ x' = x) with rfl | rfl
      · simp at htask'
      · rfl
  · refine ⟨?_, hp, h.lawful⟩
    show life u (.pill p :: s.log) = .gone
    rw [life_pill, if_neg hpu, hu]

/-- The destructor pushes its pill. -/
theorem push_pill (h : Core s place blocks) (hpill : s.stop.pill = some p) (hp : place p = .nowhere) :
    Core ({ s with next := Function.update s.next p none }.push_list q p p)
      (fun x => if x ∈ [p] then .listed (.queue q) else place x)
      (Function.update blocks (.queue q) (blocks (.queue q) ++ [.pill p])) := by
  have hlife : life p s.log = .pill := (h.owned.stack p hpill).1
  apply h.pushes (.pill p) []
  · exact fun x hx => ⟨rfl, rfl, rfl⟩
  · intro x hx _ k
    simp [hx]
  · intro x hx
    exact Function.update_of_ne (by simpa [Block.nodes] using hx) ..
  · rfl
  · rfl
  · rfl
  · intro x hx
    obtain rfl : x = p := by simpa [Block.nodes] using hx
    exact hp
  · intro x hx
    obtain rfl : x = p := by simpa [Block.nodes] using hx
    exact Or.inr hpill
  · exact ⟨rfl, by simp⟩
  · rfl
  · trivial
  · exact fun place' => ⟨hlife, h.null p hpill, hpill⟩
  · intro x hx p' hp'
    obtain rfl : x = p := by simpa [Block.nodes] using hx
    cases (h.null x hpill).symm.trans hp'
  · intro x hx x' hx' _ _ _
    obtain rfl : x = p := by simpa [Block.nodes] using hx
    exact (by simpa [Block.nodes] using hx' : x' = x).symm
  · exact h.lawful

/-- Memory that is no node is used for something else. -/
theorem overwrite (h : Core s place blocks) {next : Option α} {task : Task α} {status : schedule_errc}
    (hv : life v s.log = .gone) :
    Core { s with
      next := Function.update s.next v next
      task := Function.update s.task v task
      status := Function.update s.status v status } place blocks := by
  have hother : ∀ x, life x s.log ≠ .gone → x ≠ v := by
    rintro x hx rfl
    exact hx hv
  constructor
  · apply h.owned.congr
    · exact fun x hx => ⟨rfl, Function.update_of_ne (hother x hx) .., Function.update_of_ne (hother x hx) ..⟩
    · intro x hx q hq
      cases hx.symm.trans hq
    · rfl
    · exact h.owned.stack
    · exact fun _ _ _ => rfl
  · exact h.lists.congr fun k x hx => Function.update_of_ne (hother x (h.not_gone hx)) ..
  · intro p hp
    have hlife : life p s.log = .pill := (h.owned.stack p hp).1
    exact (Function.update_of_ne (hother p (by simp [hlife])) ..).trans (h.null p hp)
  · exact h.lawful

/-- The destructor is called. -/
theorem destroy (h : Core s place blocks) (hp : life p s.log = .gone) (hnone : s.stop.pill = none)
    (hpill : s'.stop.pill = some p) (hstop : s'.stop.walk = s.stop.walk) (hnext : s'.next = s.next)
    (htask : s'.task = Function.update s.task p .null) (hstatus : s'.status = Function.update s.status p .ok)
    (hqueues : s'.queues = s.queues) (hworkers : s'.workers = s.workers) (hlog : s'.log = .pill p :: s.log) :
    Core s' place blocks := by
  have hother : ∀ x, life x s.log ≠ .gone → x ≠ p := by
    rintro x hx rfl
    exact hx hp
  have hwalk : s'.walk = s.walk := by
    funext j
    cases j <;> simp only [State.walk, hqueues, hworkers, hstop]
  have hlife : ∀ x, life x s'.log = if p = x then .pill else life x s.log := by
    intro x
    rw [hlog, life_pill]
  constructor
  · apply h.owned.congr
    · intro x hx
      have hxp := hother x hx
      refine ⟨(hlife x).trans (if_neg hxp.symm), ?_, ?_⟩
      · simp [State.view, htask, hxp]
      · simp [State.view, hstatus, hxp]
    · intro x hx q hq
      have hx' : life x s.log = .gone := hx
      have hq' : life x s'.log = .node q := hq
      rw [hlife, hx'] at hq'
      split at hq' <;> cases hq'
    · simp only [State.view, hwalk]
    · intro p' hp'
      obtain rfl : p = p' := Option.some.inj (hpill.symm.trans hp')
      refine ⟨(hlife p).trans (if_pos rfl), fun u hu htask' => ?_⟩
      have hframe : life p s.log = .pill := h.owned.pill_of_frame hu htask'
      cases hp.symm.trans hframe
    · intro k p' hmem
      have hstack : s.stop.pill = some p' := (h.owned.ok k _ hmem).2.2
      cases hnone.symm.trans hstack
  · rw [hnext, hwalk, hqueues]
    exact h.lists
  · intro p' hp'
    obtain rfl : p = p' := Option.some.inj (hpill.symm.trans hp')
    rw [htask, Function.update_self]
  · rw [hlog]
    exact ⟨hp, h.lawful⟩

/-- The destructor returns. -/
theorem returns (h : Core s place blocks) (hpill : s.stop.pill = some p) (hp : place p = .nowhere)
    (hwalk : s.stop.walk = ⟨none, none, false⟩) :
    Core ({ s with stop := .returned }.record (.destroyed p)) place blocks := by
  have hwalks : ({ s with stop := .returned }.record (.destroyed p)).walk = s.walk := by
    funext j
    cases j with
    | queue q => rfl
    | worker w => rfl
    | stopper => exact hwalk.symm
  constructor
  · apply h.owned.destroyed hpill hp
    · exact fun x hx => if_neg hx.symm
    · exact if_pos rfl
    · rfl
    · rfl
    · rfl
    · simp only [State.view]
      rw [hwalks]
  · rw [hwalks]
    exact h.lists
  · intro p' hp'
    cases hp'
  · exact ⟨(h.owned.stack p hpill).1, h.lawful⟩

end Core

end kelcoro.thread_pool
