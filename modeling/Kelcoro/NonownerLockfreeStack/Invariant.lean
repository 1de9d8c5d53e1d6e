import Kelcoro.NonownerLockfreeStack.System
import Mathlib

namespace kelcoro.nonowner_lockfree_stack

open kelcoro.lib

variable {α : Type} [DecidableEq α]

/-- What the nodes of a call look like while it is at `pc`. -/
def Pc.Carries (next : Node α → Option (Node α)) (nodes : List α) : Pc α → Prop
  | .push_load v | .push_exchange v | .try_push_load v | .try_push_exchange v => nodes = [v]
  | .walk first last => Linked next (some first) (nodes.map .of) ∧
      ∃ before after, nodes.map .of = before ++ last :: after
  | .list_load first last => Linked next (some first) (nodes.map .of) ∧
      ∃ before, nodes.map .of = before ++ [last]
  | .list_exchange first last => Segment next (some first) (nodes.map .of) (next last) ∧
      ∃ before, nodes.map .of = before ++ [last]
  | .pop | .close | .returned => nodes = []

/-- What holds of a stack at any time: the links from `top` are its content, and
the nodes that the calls are about to push are outside of it and of each other. -/
structure Inv (s : State α) : Prop where
  not_begun : ∀ i, s.begun ≤ i → s.calls i = idle
  linked : s.stack.top ≠ some .closed_marker →
    Linked s.stack.next s.stack.top ((content s.log).map .of)
  closed : s.stack.top = some .closed_marker →
    content s.log = [] ∧ ∀ i, ¬ (s.calls i).pc.NeedsOpen
  carries : ∀ i, (s.calls i).pc.Carries s.stack.next (s.calls i).nodes
  nodup : ∀ i, (s.calls i).nodes.Nodup
  apart : ∀ i j, i ≠ j → (s.calls i).nodes.Disjoint (s.calls j).nodes
  outside : ∀ i, (s.calls i).nodes.Disjoint (content s.log)
  busy : ∀ v, s.busy v = true ↔ v ∈ content s.log ∨ ∃ i, v ∈ (s.calls i).nodes

variable {s s' : State α} {i : Nat}

omit [DecidableEq α] in
theorem Pc.Carries.congr {next next' : Node α → Option (Node α)} {nodes : List α} {pc : Pc α}
    (h : pc.Carries next nodes) (hsame : ∀ v ∈ nodes, next' (.of v) = next (.of v)) :
    pc.Carries next' nodes := by
  have hlinks : ∀ x ∈ nodes.map Node.of, next' x = next x := by
    intro x hx
    obtain ⟨v, hv, rfl⟩ := List.mem_map.mp hx
    exact hsame v hv
  cases pc with
  | walk first last => exact ⟨h.1.congr hlinks, h.2⟩
  | list_load first last => exact ⟨h.1.congr hlinks, h.2⟩
  | list_exchange first last =>
    obtain ⟨hsegment, before, hbefore⟩ := h
    have hlast : next' last = next last := hlinks last (by simp [hbefore])
    exact ⟨hlast ▸ hsegment.congr hlinks, before, hbefore⟩
  | _ => exact h

omit [DecidableEq α] in
theorem Inv.content_nodup (h : Inv s) : (content s.log).Nodup := by
  by_cases htop : s.stack.top = some .closed_marker
  · rw [(h.closed htop).1]
    exact List.nodup_nil
  · exact (h.linked htop).nodup.of_map _

omit [DecidableEq α] in
theorem construct_inv (closed : Bool) : Inv (construct closed : State α) := by
  cases closed <;> constructor <;>
    simp [construct, Stack.construct, content, idle, Pc.Carries, Pc.NeedsOpen]

namespace Inv

omit [DecidableEq α] in
/-- Writing links that are in no list. -/
theorem relink (h : Inv s) {next : Node α → Option (Node α)}
    (hnext : ∀ v, s.busy v = true → next (.of v) = s.stack.next (.of v)) :
    Inv { s with stack := { s.stack with next := next } } where
  not_begun := h.not_begun
  linked htop := by
    apply (h.linked htop).congr
    intro x hx
    obtain ⟨v, hv, rfl⟩ := List.mem_map.mp hx
    exact hnext v ((h.busy v).mpr (Or.inl hv))
  closed := h.closed
  carries j := (h.carries j).congr fun v hv => hnext v ((h.busy v).mpr (Or.inr ⟨j, hv⟩))
  nodup := h.nodup
  apart := h.apart
  outside := h.outside
  busy := h.busy

omit [DecidableEq α] in
/-- Call `i` goes on, and writes the links of its own nodes. -/
theorem goto (h : Inv s) {pc : Pc α} {next : Node α → Option (Node α)}
    (hrunning : (s.calls i).pc ≠ .returned)
    (hopen : pc.NeedsOpen → (s.calls i).pc.NeedsOpen)
    (hnext : ∀ v, v ∉ (s.calls i).nodes → next (.of v) = s.stack.next (.of v))
    (hcarries : pc.Carries next (s.calls i).nodes) :
    Inv ({ s with stack := { s.stack with next := next } }.goto i pc) := by
  have hnodes : ∀ j, (({ s with stack := { s.stack with next := next } }.goto i pc).calls j).nodes =
      (s.calls j).nodes := by
    intro j
    by_cases hj : j = i
    · subst hj
      simp [State.goto]
    · simp [State.goto, hj]
  constructor
  · intro j hj
    have hne : j ≠ i := by
      rintro rfl
      exact hrunning (by rw [h.not_begun j hj]; rfl)
    exact (Function.update_of_ne hne ..).trans (h.not_begun j hj)
  · intro htop
    apply (h.linked htop).congr
    intro x hx
    obtain ⟨v, hv, rfl⟩ := List.mem_map.mp hx
    exact hnext v fun hmem => h.outside i hmem hv
  · intro htop
    obtain ⟨hcontent, hnone⟩ := h.closed htop
    refine ⟨hcontent, fun j => ?_⟩
    by_cases hj : j = i
    · subst hj
      simp only [State.goto, Function.update_self]
      exact fun hneeds => hnone j (hopen hneeds)
    · simp only [State.goto, Function.update_of_ne hj]
      exact hnone j
  · intro j
    rw [hnodes j]
    by_cases hj : j = i
    · subst hj
      simpa [State.goto] using hcarries
    · simp only [State.goto, Function.update_of_ne hj]
      exact (h.carries j).congr fun v hv => hnext v (h.apart j i hj hv)
  · intro j
    rw [hnodes j]
    exact h.nodup j
  · intro j k hjk
    rw [hnodes j, hnodes k]
    exact h.apart j k hjk
  · intro j
    rw [hnodes j]
    exact h.outside j
  · intro v
    simp only [hnodes]
    exact h.busy v

omit [DecidableEq α] in
/-- A call ends; the events of the log and what is busy change with it. -/
theorem ends (h : Inv s) {top : Option (Node α)} {busy : α → Bool} {log : List (Event α)}
    (hlinked : top ≠ some .closed_marker → Linked s.stack.next top ((content log).map .of))
    (hclosed : top = some .closed_marker →
      content log = [] ∧ ∀ j, j ≠ i → ¬ (s.calls j).pc.NeedsOpen)
    (houtside : ∀ j, j ≠ i → (s.calls j).nodes.Disjoint (content log))
    (hbusy : ∀ v, busy v = true ↔ v ∈ content log ∨ ∃ j, j ≠ i ∧ v ∈ (s.calls j).nodes) :
    Inv ⟨⟨top, s.stack.next⟩, Function.update s.calls i idle, s.begun, busy, log⟩ := by
  have hself : Function.update s.calls i idle i = idle := Function.update_self ..
  have hother : ∀ j, j ≠ i → Function.update s.calls i idle j = s.calls j := fun j hj =>
    Function.update_of_ne hj ..
  constructor <;> dsimp only
  · intro j hj
    by_cases hji : j = i
    · rw [hji, hself]
    · rw [hother j hji]
      exact h.not_begun j hj
  · exact hlinked
  · intro htop
    obtain ⟨hcontent, hnone⟩ := hclosed htop
    refine ⟨hcontent, fun j => ?_⟩
    by_cases hj : j = i
    · rw [hj, hself]
      exact id
    · rw [hother j hj]
      exact hnone j hj
  · intro j
    by_cases hj : j = i
    · rw [hj, hself]
      rfl
    · rw [hother j hj]
      exact h.carries j
  · intro j
    by_cases hj : j = i
    · rw [hj, hself]
      exact List.nodup_nil
    · rw [hother j hj]
      exact h.nodup j
  · intro j k hjk
    by_cases hj : j = i
    · rw [hj, hself]
      simp [idle]
    · by_cases hk : k = i
      · rw [hk, hself]
        simp [idle]
      · rw [hother j hj, hother k hk]
        exact h.apart j k hjk
  · intro j
    by_cases hj : j = i
    · rw [hj, hself]
      simp [idle]
    · rw [hother j hj]
      exact houtside j hj
  · intro v
    rw [hbusy v]
    apply or_congr_right
    constructor
    · rintro ⟨j, hj, hv⟩
      exact ⟨j, by rwa [hother j hj]⟩
    · rintro ⟨j, hv⟩
      have hj : j ≠ i := by
        rintro rfl
        simp [idle] at hv
      exact ⟨j, hj, by rwa [hother j hj] at hv⟩

omit [DecidableEq α] in
theorem opened (h : Inv s) (hneeds : (s.calls i).pc.NeedsOpen) : s.stack.top ≠ some .closed_marker :=
  fun htop => (h.closed htop).2 i hneeds

omit [DecidableEq α] in
/-- Call `i` stays where it is and writes the links of its own nodes. -/
theorem stays (h : Inv s) {next : Node α → Option (Node α)}
    (hrunning : (s.calls i).pc ≠ .returned)
    (hnext : ∀ v, v ∉ (s.calls i).nodes → next (.of v) = s.stack.next (.of v))
    (hcarries : (s.calls i).pc.Carries next (s.calls i).nodes) :
    Inv { s with stack := { s.stack with next := next } } := by
  have hgoto := h.goto hrunning id hnext hcarries
  simpa [State.goto] using hgoto

omit [DecidableEq α] in
/-- A list that ends at the top is pushed. -/
theorem pushes (h : Inv s) {first : Node α} (hopen : s.stack.top ≠ some .closed_marker)
    (hsegment : Segment s.stack.next (some first) ((s.calls i).nodes.map .of) s.stack.top) :
    Inv ({ s with stack := { s.stack with top := some first } }.pushed i) := by
  have hfirst : some first ≠ some Node.closed_marker := by
    cases hnodes : (s.calls i).nodes with
    | nil =>
      rw [hnodes] at hsegment
      exact Segment.nil_iff.mp hsegment ▸ hopen
    | cons v rest =>
      rw [hnodes] at hsegment
      rw [hsegment.1]
      simp
  apply h.ends
  · intro _
    simp only [content, List.map_append]
    exact hsegment.append (h.linked hopen)
  · exact fun htop => absurd htop hfirst
  · intro j hj
    simp only [content, List.disjoint_append_right]
    exact ⟨h.apart j i hj, h.outside j⟩
  · intro v
    simp only [content, List.mem_append, h.busy v]
    constructor
    · rintro (hv | ⟨j, hv⟩)
      · exact Or.inl (Or.inr hv)
      · by_cases hj : j = i
        · exact Or.inl (Or.inl (hj ▸ hv))
        · exact Or.inr ⟨j, hj, hv⟩
    · rintro ((hv | hv) | ⟨j, -, hv⟩)
      · exact Or.inr ⟨i, hv⟩
      · exact Or.inl hv
      · exact Or.inr ⟨j, hv⟩

/-- A push is refused; its nodes are as free as they were before. -/
theorem refuses (h : Inv s) : Inv (s.refused i) := by
  apply h.ends
  · exact h.linked
  · exact fun htop => ⟨(h.closed htop).1, fun j _ => (h.closed htop).2 j⟩
  · exact fun j _ => h.outside j
  · intro v
    by_cases hv : v ∈ (s.calls i).nodes
    · simp only [hv, if_true, Bool.false_eq_true, false_iff, not_or, not_exists, not_and]
      exact ⟨fun hcontent => h.outside i hv hcontent, fun j hj hother => h.apart j i hj hother hv⟩
    · simp only [hv, if_false, h.busy v]
      apply or_congr_right
      constructor
      · rintro ⟨j, hj⟩
        exact ⟨j, by rintro rfl; exact hv hj, hj⟩
      · rintro ⟨j, -, hj⟩
        exact ⟨j, hj⟩

/-- A call without nodes takes the content of the stack. -/
theorem delivers (h : Inv s) {top : Option (Node α)} {e : Event α}
    (hnodes : (s.calls i).nodes = []) (hcontent : content (e :: s.log) = [])
    (htop : top = none ∨
      top = some .closed_marker ∧ ∀ j, j ≠ i → ¬ (s.calls j).pc.NeedsOpen) :
    Inv ({ s with stack := { s.stack with top := top } }.delivered i e) := by
  apply h.ends
  · intro hopen
    obtain rfl : top = none := htop.resolve_right fun hclosed => hopen hclosed.1
    rw [hcontent]
    rfl
  · intro hclosed
    refine ⟨hcontent, ?_⟩
    rcases htop with rfl | ⟨-, hnone⟩
    · cases hclosed
    · exact hnone
  · intro j _
    rw [hcontent]
    exact List.disjoint_nil_right _
  · intro v
    simp only [hcontent, List.not_mem_nil, false_or]
    by_cases hv : v ∈ content s.log
    · simp only [hv, if_true, Bool.false_eq_true, false_iff, not_exists, not_and]
      exact fun j _ hj => h.outside j hj hv
    · simp only [hv, if_false, h.busy v, false_or]
      constructor
      · rintro ⟨j, hj⟩
        refine ⟨j, ?_, hj⟩
        rintro rfl
        simp [hnodes] at hj
      · rintro ⟨j, -, hj⟩
        exact ⟨j, hj⟩

/-- The link of a node that call `i` is about to push is rewritten to the top. -/
theorem reloads {last : Node α} (hlast : last ∈ (s.calls i).nodes.map .of) {v : α}
    (hv : v ∉ (s.calls i).nodes) :
    (s.stack.load_last last).next (.of v) = s.stack.next (.of v) := by
  apply Function.update_of_ne
  rintro rfl
  obtain ⟨w, hw, heq⟩ := List.mem_map.mp hlast
  cases heq
  exact hv hw

/-- Where a single node is pushed, the load changes only its link. -/
theorem load (h : Inv s) {node : α} {pc : Pc α} (hrunning : (s.calls i).pc ≠ .returned)
    (hnodes : (s.calls i).nodes = [node]) (hopen : pc.NeedsOpen → (s.calls i).pc.NeedsOpen)
    (hcarries : pc.Carries (s.stack.load node).next [node]) :
    Inv ({ s with stack := s.stack.load node }.goto i pc) := by
  apply h.goto hrunning hopen
  · exact fun v hv => reloads (by simp [hnodes]) hv
  · rwa [hnodes]

/-- A failed exchange of a single node. -/
theorem load_again (h : Inv s) {node : α} (hrunning : (s.calls i).pc ≠ .returned)
    (hnodes : (s.calls i).nodes = [node])
    (hcarries : (s.calls i).pc.Carries (s.stack.load node).next [node]) :
    Inv { s with stack := s.stack.load node } := by
  apply h.stays (i := i) hrunning
  · exact fun v hv => reloads (by simp [hnodes]) hv
  · rwa [hnodes]

/-- The last node of a list is linked to the top. -/
theorem attached (h : Inv s) {first last : Node α} {before : List (Node α)} {p : Option (Node α)}
    (hsegment : Segment s.stack.next (some first) ((s.calls i).nodes.map .of) p)
    (hbefore : (s.calls i).nodes.map .of = before ++ [last]) :
    (Pc.list_exchange first last).Carries (s.stack.load_last last).next (s.calls i).nodes := by
  have hnodup : (before ++ [last]).Nodup := by
    rw [← hbefore]
    exact (h.nodup i).map fun _ _ heq => by cases heq; rfl
  have hlast : last ∉ before := fun hmem =>
    (List.nodup_append.mp hnodup).2.2 last hmem last (by simp) rfl
  refine ⟨?_, before, hbefore⟩
  rw [hbefore] at hsegment ⊢
  simpa [Stack.load_last] using hsegment.set_last hlast s.stack.top

/-- A failed exchange of a list. -/
theorem load_last_again (h : Inv s) {first last : Node α}
    (hpc : (s.calls i).pc = .list_exchange first last) :
    Inv { s with stack := s.stack.load_last last } := by
  have hcarries := h.carries i
  rw [hpc] at hcarries
  obtain ⟨hsegment, before, hbefore⟩ := hcarries
  apply h.stays (i := i) (by simp [hpc])
  · exact fun v hv => reloads (by simp [hbefore]) hv
  · rw [hpc]
    exact h.attached hsegment hbefore

/-- The end of the list is one step closer. -/
theorem walk (h : Inv s) {first last : Node α} (hpc : (s.calls i).pc = .walk first last)
    (hrun : nonowner_lockfree_stack.run s i = some s') : Inv s' := by
  have hcarries := h.carries i
  rw [hpc] at hcarries
  obtain ⟨hlinked, before, after, hsplit⟩ := hcarries
  have hrest : Linked s.stack.next (s.stack.next last) after := by
    rw [hsplit] at hlinked
    obtain ⟨r, -, hr⟩ := Segment.append_iff.mp hlinked
    exact hr.2
  simp only [nonowner_lockfree_stack.run, hpc] at hrun
  cases hnext : s.stack.next last with
  | none =>
    simp only [hnext, Option.some.injEq] at hrun hrest
    subst hrun
    obtain rfl : after = [] := Segment.null_iff.mp hrest
    apply h.goto (by simp [hpc])
    · simp [hpc, Pc.NeedsOpen]
    · exact fun _ _ => rfl
    · exact ⟨hlinked, before, hsplit⟩
  | some next =>
    simp only [hnext, Option.some.injEq] at hrun hrest
    subst hrun
    cases after with
    | nil => cases hrest
    | cons x after =>
      obtain rfl : next = x := by simpa using hrest.1
      apply h.goto (by simp [hpc])
      · simp [hpc, Pc.NeedsOpen]
      · exact fun _ _ => rfl
      · exact ⟨hlinked, before ++ [last], after, by simpa using hsplit⟩

theorem run (h : Inv s) (hallowed : Allowed s (.run i))
    (hrun : nonowner_lockfree_stack.run s i = some s') : Inv s' := by
  have hcarries := h.carries i
  cases hpc : (s.calls i).pc with
  | push_load node =>
    rw [hpc] at hcarries
    simp only [nonowner_lockfree_stack.run, hpc, Option.some.injEq] at hrun
    subst hrun
    exact h.load (by simp [hpc]) hcarries (by simp [hpc, Pc.NeedsOpen]) rfl
  | try_push_load node =>
    rw [hpc] at hcarries
    simp only [nonowner_lockfree_stack.run, hpc, Option.some.injEq] at hrun
    subst hrun
    exact h.load (by simp [hpc]) hcarries (by simp [Pc.NeedsOpen]) rfl
  | push_exchange node =>
    rw [hpc] at hcarries
    simp only [nonowner_lockfree_stack.run, hpc, Stack.compare_exchange] at hrun
    by_cases htop : s.stack.top = s.stack.next (.of node)
    · simp only [if_pos htop, Option.some.injEq] at hrun
      subst hrun
      apply h.pushes (h.opened (i := i) (by simp [hpc, Pc.NeedsOpen]))
      rw [hcarries]
      exact ⟨rfl, htop.symm⟩
    · simp only [if_neg htop, Option.some.injEq] at hrun
      subst hrun
      exact h.load_again (i := i) (by simp [hpc]) hcarries (by rw [hpc]; rfl)
  | try_push_exchange node =>
    rw [hpc] at hcarries
    simp only [nonowner_lockfree_stack.run, hpc, Stack.compare_exchange] at hrun
    by_cases hclosed : s.stack.next (.of node) = some .closed_marker
    · simp only [if_pos hclosed, Option.some.injEq] at hrun
      subst hrun
      exact h.refuses
    · rw [if_neg hclosed] at hrun
      by_cases htop : s.stack.top = s.stack.next (.of node)
      · simp only [if_pos htop, Option.some.injEq] at hrun
        subst hrun
        apply h.pushes (htop ▸ hclosed)
        rw [hcarries]
        exact ⟨rfl, htop.symm⟩
      · simp only [if_neg htop, Option.some.injEq] at hrun
        subst hrun
        exact h.load_again (i := i) (by simp [hpc]) hcarries (by rw [hpc]; rfl)
  | walk first last => exact h.walk hpc hrun
  | list_load first last =>
    rw [hpc] at hcarries
    obtain ⟨hlinked, before, hbefore⟩ := hcarries
    simp only [nonowner_lockfree_stack.run, hpc, Option.some.injEq] at hrun
    subst hrun
    apply h.goto (by simp [hpc])
    · simp [hpc, Pc.NeedsOpen]
    · exact fun v hv => reloads (by simp [hbefore]) hv
    · exact h.attached hlinked hbefore
  | list_exchange first last =>
    rw [hpc] at hcarries
    simp only [nonowner_lockfree_stack.run, hpc, Stack.compare_exchange_list] at hrun
    by_cases htop : s.stack.top = s.stack.next last
    · simp only [if_pos htop, Option.some.injEq] at hrun
      subst hrun
      apply h.pushes (h.opened (i := i) (by simp [hpc, Pc.NeedsOpen]))
      rw [htop]
      exact hcarries.1
    · simp only [if_neg htop, Option.some.injEq] at hrun
      subst hrun
      exact h.load_last_again hpc
  | pop =>
    rw [hpc] at hcarries
    simp only [nonowner_lockfree_stack.run, hpc, Stack.try_pop_all, Option.some.injEq] at hrun
    subst hrun
    exact h.delivers hcarries rfl (Or.inl rfl)
  | close =>
    rw [hpc] at hcarries
    simp only [nonowner_lockfree_stack.run, hpc, Stack.close, Option.some.injEq] at hrun
    subst hrun
    exact h.delivers hcarries rfl (Or.inr ⟨rfl, fun j _ => hallowed hpc j⟩)
  | returned => simp [nonowner_lockfree_stack.run, hpc] at hrun

theorem spurious (h : Inv s) (hrun : nonowner_lockfree_stack.spurious s i = some s') : Inv s' := by
  have hcarries := h.carries i
  cases hpc : (s.calls i).pc with
  | push_exchange node =>
    rw [hpc] at hcarries
    simp only [nonowner_lockfree_stack.spurious, hpc, Option.some.injEq] at hrun
    subst hrun
    exact h.load_again (i := i) (by simp [hpc]) hcarries (by rw [hpc]; rfl)
  | try_push_exchange node =>
    rw [hpc] at hcarries
    simp only [nonowner_lockfree_stack.spurious, hpc, Option.ite_none_left_eq_some,
      Option.some.injEq] at hrun
    obtain ⟨-, rfl⟩ := hrun
    exact h.load_again (i := i) (by simp [hpc]) hcarries (by rw [hpc]; rfl)
  | list_exchange first last =>
    simp only [nonowner_lockfree_stack.spurious, hpc, Option.some.injEq] at hrun
    subst hrun
    exact h.load_last_again hpc
  | _ => simp [nonowner_lockfree_stack.spurious, hpc] at hrun

/-- A call begins with nodes that no other call has. -/
theorem begins (h : Inv s) (call : Call α) (hcarries : call.pc.Carries s.stack.next call.nodes)
    (hnodup : call.nodes.Nodup) (hfree : ∀ v ∈ call.nodes, s.busy v = false)
    (hopen : call.pc.NeedsOpen → s.stack.top ≠ some .closed_marker) :
    Inv { s with
      calls := Function.update s.calls s.begun call
      begun := s.begun + 1
      busy := fun v => if v ∈ call.nodes then true else s.busy v } := by
  have hfresh : s.calls s.begun = idle := h.not_begun s.begun le_rfl
  have hself : Function.update s.calls s.begun call s.begun = call := Function.update_self ..
  have hother : ∀ j, j ≠ s.begun → Function.update s.calls s.begun call j = s.calls j := fun j hj =>
    Function.update_of_ne hj ..
  have hapart : ∀ j, j ≠ s.begun → (s.calls j).nodes.Disjoint call.nodes := by
    intro j _ v hj hv
    have hbusy := (h.busy v).mpr (Or.inr ⟨j, hj⟩)
    simp [hfree v hv] at hbusy
  constructor <;> dsimp only
  · intro j hj
    rw [hother j (by omega)]
    exact h.not_begun j (by omega)
  · exact h.linked
  · intro htop
    refine ⟨(h.closed htop).1, fun j => ?_⟩
    by_cases hj : j = s.begun
    · rw [hj, hself]
      exact fun hneeds => hopen hneeds htop
    · rw [hother j hj]
      exact (h.closed htop).2 j
  · intro j
    by_cases hj : j = s.begun
    · rw [hj, hself]
      exact hcarries
    · rw [hother j hj]
      exact h.carries j
  · intro j
    by_cases hj : j = s.begun
    · rw [hj, hself]
      exact hnodup
    · rw [hother j hj]
      exact h.nodup j
  · intro j k hjk
    by_cases hj : j = s.begun
    · rw [hj, hself, hother k (by omega)]
      exact (hapart k (by omega)).symm
    · by_cases hk : k = s.begun
      · rw [hk, hself, hother j hj]
        exact hapart j hj
      · rw [hother j hj, hother k hk]
        exact h.apart j k hjk
  · intro j
    by_cases hj : j = s.begun
    · rw [hj, hself]
      intro v hv hcontent
      have hbusy := (h.busy v).mpr (Or.inl hcontent)
      simp [hfree v hv] at hbusy
    · rw [hother j hj]
      exact h.outside j
  · intro v
    by_cases hv : v ∈ call.nodes
    · simp only [hv, if_true, true_iff]
      exact Or.inr ⟨s.begun, by rwa [hself]⟩
    · simp only [hv, if_false, h.busy v]
      apply or_congr_right
      constructor
      · rintro ⟨j, hj⟩
        have hne : j ≠ s.begun := by
          rintro rfl
          simp [hfresh, idle] at hj
        exact ⟨j, by rwa [hother j hne]⟩
      · rintro ⟨j, hj⟩
        have hne : j ≠ s.begun := by
          rintro rfl
          rw [hself] at hj
          exact hv hj
        exact ⟨j, by rwa [hother j hne] at hj⟩

theorem call (h : Inv s) {op : Op α} (hallowed : Allowed s (.call op))
    (hstep : nonowner_lockfree_stack.step s (.call op) = some s') : Inv s' := by
  simp only [nonowner_lockfree_stack.step, Option.some.injEq] at hstep
  subst hstep
  have hopened : s.stack.closed = false → s.stack.top ≠ some .closed_marker := by
    simp [Stack.closed]
  cases op with
  | push node =>
    apply h.begins (Op.push node).start rfl (List.nodup_singleton node)
    · simpa [Op.start] using hallowed.2
    · exact fun _ => hopened hallowed.1
  | try_push node =>
    have hfree : s.busy node = false := hallowed
    apply h.begins (Op.try_push node).start rfl (List.nodup_singleton node)
    · simpa [Op.start] using hfree
    · simp [Op.start, Pc.NeedsOpen]
  | push_stack nodes =>
    cases nodes with
    | nil =>
      apply h.begins (Op.push_stack []).start rfl List.nodup_nil
      · simp [Op.start, idle]
      · simp [Op.start, idle, Pc.NeedsOpen]
    | cons first rest =>
      obtain ⟨hopen, hfree, hlinked⟩ := hallowed
      apply h.begins (Op.push_stack (first :: rest)).start ⟨hlinked, [], rest.map .of, rfl⟩
      · exact hlinked.nodup.of_map _
      · exact hfree
      · exact fun _ => hopened hopen
  | try_pop_all =>
    apply h.begins Op.try_pop_all.start rfl List.nodup_nil
    · simp [Op.start]
    · exact fun _ => hopened hallowed
  | close =>
    apply h.begins Op.close.start rfl List.nodup_nil
    · simp [Op.start]
    · simp [Op.start, Pc.NeedsOpen]

theorem step (h : Inv s) {a : Action α} (hstep : Step s a s') : Inv s' := by
  obtain ⟨hallowed, hstep⟩ := hstep
  cases a with
  | call op => exact h.call hallowed hstep
  | run i => exact h.run hallowed hstep
  | spurious i => exact h.spurious hstep
  | link node next =>
    simp only [nonowner_lockfree_stack.step, Option.some.injEq] at hstep
    subst hstep
    apply h.relink
    intro v hv
    apply Function.update_of_ne
    rintro heq
    cases heq
    simp [show s.busy node = false from hallowed] at hv

end Inv

theorem inv_of_run {closed : Bool} {as : List (Action α)}
    (hrun : Run Step (construct closed) as s) : Inv s :=
  hrun.invariant Inv (fun _ _ _ h hstep => h.step hstep) (construct_inv closed)

end kelcoro.nonowner_lockfree_stack
