import Kelcoro.Lib.Progress
import Kelcoro.NonownerLockfreeStack.Delivered
import Mathlib

namespace kelcoro.nonowner_lockfree_stack

open kelcoro.lib

variable {α : Type} [DecidableEq α]

/-- How many steps a call has left if no other call ends before it: an exchange that
expects another top than the stack has fails once. -/
def Call.weight (s : Stack α) (c : Call α) : Nat :=
  match c.pc with
  | .push_load _ | .try_push_load _ | .list_load _ _ => 2
  | .push_exchange v | .try_push_exchange v => if s.next (.of v) = s.top then 1 else 2
  | .list_exchange _ last => if s.next last = s.top then 1 else 2
  | .walk _ last => c.nodes.length - (c.nodes.map Node.of).idxOf last + 2
  | .pop | .close => 1
  | .returned => 0

/-- A call that has not returned yet. -/
def Call.live (c : Call α) : Nat := if c.pc = .returned then 0 else 1

/-- The steps of a call that no other call disturbs. -/
def Op.weight : Op α → Nat
  | .push _ | .try_push _ => 2
  | .push_stack [] => 0
  | .push_stack (first :: rest) => (first :: rest).length + 2
  | .try_pop_all | .close => 1

namespace State

variable (s : State α)

def weights : Nat := ∑ i ∈ Finset.range s.begun, (s.calls i).weight s.stack

/-- How many calls have not returned yet. -/
def unfinished : Nat := ∑ i ∈ Finset.range s.begun, (s.calls i).live

/-- The steps that are left: each two calls disturb each other once at most. -/
def weight : Nat := s.weights + s.unfinished.choose 2

end State

namespace Action

def own : Action α → Bool
  | .run _ => true
  | _ => false

def begins : Action α → Bool
  | .call _ => true
  | _ => false

def costs : Action α → Nat
  | .call op => op.weight
  | _ => 0

end Action

/-- One step of call `i`: it goes on and writes the links of its own nodes only, or it
ends and writes the top only. -/
inductive RunStep (s s' : State α) (i : Nat) : Prop
  | goes (htop : s'.stack.top = s.stack.top)
      (hnext : ∀ x, x ∉ (s.calls i).nodes.map Node.of → s'.stack.next x = s.stack.next x)
      (hother : ∀ j, j ≠ i → s'.calls j = s.calls j) (hlive : (s'.calls i).live = (s.calls i).live)
      (hweight : (s'.calls i).weight s'.stack < (s.calls i).weight s.stack)
  | ends (hcalls : s'.calls = Function.update s.calls i idle) (hnext : s'.stack.next = s.stack.next)
      (hlive : (s.calls i).live = 1) (hweight : 0 < (s.calls i).weight s.stack)

variable {s s' : State α} {i : Nat}

theorem idxOf_of_split {l before after : List (Node α)} {x : Node α} (hnodup : l.Nodup) (hsplit : l = before ++ x :: after) :
    l.idxOf x = before.length := by
  subst hsplit
  have hbefore : x ∉ before := fun hmem => (List.nodup_append.mp hnodup).2.2 x hmem x (by simp) rfl
  rw [List.idxOf_append_of_notMem hbefore, List.idxOf_cons_self, Nat.add_zero]

/-- Call `i` goes on at another place, and reloads the link `x` of one of its nodes. -/
theorem RunStep.of_goto {pc : Pc α} {x : Node α} (hx : x ∈ (s.calls i).nodes.map Node.of)
    (hs : s' = { s with stack := s.stack.load_last x }.goto i pc) (hlive : (s.calls i).pc ≠ .returned)
    (hlive' : pc ≠ .returned)
    (hweight : Call.weight (s.stack.load_last x) { s.calls i with pc := pc } < (s.calls i).weight s.stack) :
    RunStep s s' i := by
  subst hs
  refine .goes rfl (fun y hy => ?_) (fun j hj => ?_) ?_ ?_
  · apply Function.update_of_ne
    rintro rfl
    exact hy hx
  · exact Function.update_of_ne hj ..
  · simp [State.goto, Call.live, hlive, hlive']
  · simpa [State.goto] using hweight

/-- Call `i` reloads the link of one of its nodes after a failed exchange. -/
theorem RunStep.of_failed {x : Node α} (hx : x ∈ (s.calls i).nodes.map Node.of)
    (hs : s' = { s with stack := s.stack.load_last x })
    (hweight : (s.calls i).weight (s.stack.load_last x) < (s.calls i).weight s.stack) : RunStep s s' i := by
  subst hs
  refine .goes rfl (fun y hy => ?_) (fun j _ => rfl) rfl hweight
  apply Function.update_of_ne
  rintro rfl
  exact hy hx

theorem Call.live_of_pc {c : Call α} (hpc : c.pc ≠ .returned) : c.live = 1 := if_neg hpc

/-- The end of the list that `push_stack` was given is one step closer. -/
theorem Inv.walk_step (h : Inv s) {first last : Node α} (hpc : (s.calls i).pc = .walk first last)
    (hrun : nonowner_lockfree_stack.run s i = some s') : s'.begun = s.begun ∧ RunStep s s' i := by
  have hcarries := h.carries i
  rw [hpc] at hcarries
  obtain ⟨hlinked, before, after, hsplit⟩ := hcarries
  have hnodup : ((s.calls i).nodes.map Node.of).Nodup := (h.nodup i).map fun _ _ heq => by cases heq; rfl
  have hlength : (s.calls i).nodes.length = before.length + (after.length + 1) := by
    have hmap := congrArg List.length hsplit
    simpa using hmap
  have hrest : Linked s.stack.next (s.stack.next last) after := by
    rw [hsplit] at hlinked
    obtain ⟨r, -, hr⟩ := Segment.append_iff.mp hlinked
    exact hr.2
  have hindex := idxOf_of_split hnodup hsplit
  simp only [nonowner_lockfree_stack.run, hpc] at hrun
  cases hnext : s.stack.next last with
  | none =>
    simp only [hnext, Option.some.injEq] at hrun
    subst hrun
    refine ⟨rfl, .goes rfl (fun _ _ => rfl) (fun j hj => Function.update_of_ne hj ..) ?_ ?_⟩
    · simp [State.goto, Call.live, hpc]
    · simp only [State.goto, Function.update_self, Call.weight, hpc, hindex]
      omega
  | some next =>
    simp only [hnext, Option.some.injEq] at hrun hrest
    subst hrun
    cases after with
    | nil => cases hrest
    | cons x after =>
      obtain rfl : next = x := by simpa using hrest.1
      have hindex' : ((s.calls i).nodes.map Node.of).idxOf next = (before ++ [last]).length :=
        idxOf_of_split hnodup (by simpa using hsplit)
      rw [List.length_append, List.length_singleton] at hindex'
      refine ⟨rfl, .goes rfl (fun _ _ => rfl) (fun j hj => Function.update_of_ne hj ..) ?_ ?_⟩
      · simp [State.goto, Call.live, hpc]
      · simp only [State.goto, Function.update_self, Call.weight, hpc, hindex, hindex', List.length_cons] at hlength ⊢
        omega

/-- What a step of a call does. -/
theorem Inv.run_step (h : Inv s) (hrun : nonowner_lockfree_stack.run s i = some s') :
    s'.begun = s.begun ∧ RunStep s s' i := by
  have hcarries := h.carries i
  cases hpc : (s.calls i).pc with
  | push_load node =>
    rw [hpc] at hcarries
    have hnodes : (s.calls i).nodes = [node] := hcarries
    simp only [nonowner_lockfree_stack.run, hpc, Option.some.injEq] at hrun
    refine ⟨by rw [← hrun]; rfl, .of_goto (by simp [hnodes]) hrun.symm (by simp [hpc]) (by simp) ?_⟩
    simp [Call.weight, hpc, Stack.load_last]
  | try_push_load node =>
    rw [hpc] at hcarries
    have hnodes : (s.calls i).nodes = [node] := hcarries
    simp only [nonowner_lockfree_stack.run, hpc, Option.some.injEq] at hrun
    refine ⟨by rw [← hrun]; rfl, .of_goto (by simp [hnodes]) hrun.symm (by simp [hpc]) (by simp) ?_⟩
    simp [Call.weight, hpc, Stack.load_last]
  | list_load first last =>
    rw [hpc] at hcarries
    obtain ⟨-, before, hbefore⟩ := hcarries
    simp only [nonowner_lockfree_stack.run, hpc, Option.some.injEq] at hrun
    refine ⟨by rw [← hrun]; rfl, .of_goto (by simp [hbefore]) hrun.symm (by simp [hpc]) (by simp) ?_⟩
    simp [Call.weight, hpc, Stack.load_last]
  | push_exchange node =>
    rw [hpc] at hcarries
    have hnodes : (s.calls i).nodes = [node] := hcarries
    simp only [nonowner_lockfree_stack.run, hpc, Stack.compare_exchange] at hrun
    by_cases htop : s.stack.top = s.stack.next (.of node)
    · simp only [if_pos htop, Option.some.injEq] at hrun
      subst hrun
      exact ⟨rfl, .ends rfl rfl (Call.live_of_pc (by simp [hpc])) (by simp [Call.weight, hpc, htop.symm])⟩
    · simp only [if_neg htop, Option.some.injEq] at hrun
      refine ⟨by rw [← hrun], .of_failed (by simp [hnodes]) hrun.symm ?_⟩
      simp [Call.weight, hpc, Stack.load_last, Ne.symm htop]
  | try_push_exchange node =>
    rw [hpc] at hcarries
    have hnodes : (s.calls i).nodes = [node] := hcarries
    simp only [nonowner_lockfree_stack.run, hpc, Stack.compare_exchange] at hrun
    have hpositive : 0 < (s.calls i).weight s.stack := by
      simp only [Call.weight, hpc]
      split <;> omega
    by_cases hclosed : s.stack.next (.of node) = some .closed_marker
    · simp only [if_pos hclosed, Option.some.injEq] at hrun
      subst hrun
      exact ⟨rfl, .ends rfl rfl (Call.live_of_pc (by simp [hpc])) hpositive⟩
    · rw [if_neg hclosed] at hrun
      by_cases htop : s.stack.top = s.stack.next (.of node)
      · simp only [if_pos htop, Option.some.injEq] at hrun
        subst hrun
        exact ⟨rfl, .ends rfl rfl (Call.live_of_pc (by simp [hpc])) hpositive⟩
      · simp only [if_neg htop, Option.some.injEq] at hrun
        refine ⟨by rw [← hrun], .of_failed (by simp [hnodes]) hrun.symm ?_⟩
        simp [Call.weight, hpc, Stack.load_last, Ne.symm htop]
  | list_exchange first last =>
    rw [hpc] at hcarries
    obtain ⟨-, before, hbefore⟩ := hcarries
    simp only [nonowner_lockfree_stack.run, hpc, Stack.compare_exchange_list] at hrun
    by_cases htop : s.stack.top = s.stack.next last
    · simp only [if_pos htop, Option.some.injEq] at hrun
      subst hrun
      exact ⟨rfl, .ends rfl rfl (Call.live_of_pc (by simp [hpc])) (by simp [Call.weight, hpc, htop.symm])⟩
    · simp only [if_neg htop, Option.some.injEq] at hrun
      refine ⟨by rw [← hrun], .of_failed (by simp [hbefore]) hrun.symm ?_⟩
      simp [Call.weight, hpc, Stack.load_last, Ne.symm htop]
  | walk first last => exact h.walk_step hpc hrun
  | pop =>
    simp only [nonowner_lockfree_stack.run, hpc, Option.some.injEq] at hrun
    subst hrun
    exact ⟨rfl, .ends rfl rfl (Call.live_of_pc (by simp [hpc])) (by simp [Call.weight, hpc])⟩
  | close =>
    simp only [nonowner_lockfree_stack.run, hpc, Option.some.injEq] at hrun
    subst hrun
    exact ⟨rfl, .ends rfl rfl (Call.live_of_pc (by simp [hpc])) (by simp [Call.weight, hpc])⟩
  | returned => simp [nonowner_lockfree_stack.run, hpc] at hrun

namespace Call

variable {c : Call α} {t t' : Stack α}

/-- Only the links of its own nodes matter to a call. -/
theorem weight_congr (hcarries : c.pc.Carries t.next c.nodes) (htop : t'.top = t.top)
    (hnext : ∀ v ∈ c.nodes, t'.next (.of v) = t.next (.of v)) : c.weight t' = c.weight t := by
  unfold weight
  cases hpc : c.pc with
  | push_exchange v | try_push_exchange v =>
    rw [hpc] at hcarries
    have hnodes : c.nodes = [v] := hcarries
    simp only [htop, hnext v (by simp [hnodes])]
  | list_exchange first last =>
    rw [hpc] at hcarries
    obtain ⟨-, before, hbefore⟩ := hcarries
    obtain ⟨v, hv, rfl⟩ := List.mem_map.mp (show last ∈ c.nodes.map Node.of by simp [hbefore])
    simp only [htop, hnext v hv]
  | _ => rfl

/-- Another top costs a call one exchange at most. -/
theorem weight_le : c.weight t' ≤ c.weight t + c.live := by
  unfold weight live
  cases hpc : c.pc with
  | push_exchange v | try_push_exchange v | list_exchange first last =>
    simp only [reduceCtorEq, if_false]
    split <;> split <;> omega
  | _ => simp

end Call

theorem choose_two_succ (k : Nat) : (k + 1).choose 2 = k + k.choose 2 := by
  rw [Nat.choose_succ_succ', Nat.choose_one_right]

/-- There are no more unfinished calls than calls. -/
theorem unfinished_le (s : State α) : s.unfinished ≤ s.begun := by
  have hle : s.unfinished ≤ ∑ _j ∈ Finset.range s.begun, 1 := by
    refine Finset.sum_le_sum fun j _ => ?_
    unfold Call.live
    split <;> omega
  simpa using hle

theorem start_weight (op : Op α) (t : Stack α) : op.start.weight t = op.weight ∧ op.start.live ≤ 1 := by
  cases op with
  | push_stack nodes => cases nodes <;> simp [Op.start, Call.weight, Op.weight, Call.live, idle]
  | _ => simp [Op.start, Call.weight, Op.weight, Call.live]

/-- A call brings its own steps, and may be disturbed by each of the calls before it. -/
theorem call_weight {op : Op α} (hstep : step s (.call op) = some s') :
    s'.begun = s.begun + 1 ∧ s'.weight ≤ s.weight + op.weight + s.begun := by
  simp only [step, Option.some.injEq] at hstep
  subst hstep
  refine ⟨rfl, ?_⟩
  obtain ⟨hweight, hlive⟩ := start_weight op s.stack
  have hother : ∀ j ∈ Finset.range s.begun, Function.update s.calls s.begun op.start j = s.calls j := fun j hj =>
    Function.update_of_ne (Finset.mem_range.mp hj).ne ..
  have hpairs : (s.unfinished + op.start.live).choose 2 ≤ s.unfinished.choose 2 + s.begun := by
    have hle := unfinished_le s
    obtain hzero | hone : op.start.live = 0 ∨ op.start.live = 1 := by omega
    · rw [hzero, Nat.add_zero]
      omega
    · rw [hone, choose_two_succ]
      omega
  have hweights : ∑ j ∈ Finset.range (s.begun + 1), (Function.update s.calls s.begun op.start j).weight s.stack =
      s.weights + op.weight := by
    rw [Finset.sum_range_succ, Function.update_self, hweight]
    congr 1
    exact Finset.sum_congr rfl fun j hj => by rw [hother j hj]
  have hunfinished : ∑ j ∈ Finset.range (s.begun + 1), (Function.update s.calls s.begun op.start j).live =
      s.unfinished + op.start.live := by
    rw [Finset.sum_range_succ, Function.update_self]
    congr 1
    exact Finset.sum_congr rfl fun j hj => by rw [hother j hj]
  simp only [State.weight, State.weights, State.unfinished] at hweights hunfinished hpairs ⊢
  rw [hweights, hunfinished]
  omega

namespace Inv

/-- A call that takes a step has begun. -/
theorem lt_begun (h : Inv s) (hpositive : 0 < (s.calls i).weight s.stack) : i < s.begun := by
  by_contra hge
  rw [h.not_begun i (by omega)] at hpositive
  simp [Call.weight, idle] at hpositive

/-- What call `i` does with its own nodes does not matter to the others. -/
theorem weight_of_other (h : Inv s) {j : Nat} (hj : j ≠ i) (hcall : s'.calls j = s.calls j) (htop : s'.stack.top = s.stack.top)
    (hnext : ∀ x, x ∉ (s.calls i).nodes.map Node.of → s'.stack.next x = s.stack.next x) :
    (s'.calls j).weight s'.stack = (s.calls j).weight s.stack := by
  rw [hcall]
  refine Call.weight_congr (h.carries j) htop fun v hv => hnext _ fun hmem => ?_
  obtain ⟨w, hw, heq⟩ := List.mem_map.mp hmem
  cases heq
  exact h.apart j i hj hv hw

/-- Every step of a call is paid for, and the one that ends it pays for the exchanges
of the others that fail because of it. -/
theorem run_weight (h : Inv s) (hrun : nonowner_lockfree_stack.run s i = some s') : s'.weight + 1 ≤ s.weight := by
  obtain ⟨hbegun, hstep⟩ := h.run_step hrun
  unfold State.weight State.weights State.unfinished
  rw [hbegun]
  cases hstep with
  | goes htop hnext hother hlive hweight =>
    have hi := Finset.mem_range.mpr (h.lt_begun (Nat.zero_lt_of_lt hweight))
    have hweights := sum_of_ne hi fun j hj => h.weight_of_other hj (hother j hj) htop hnext
    have hunfinished : ∑ j ∈ Finset.range s.begun, (s'.calls j).live = ∑ j ∈ Finset.range s.begun, (s.calls j).live := by
      refine Finset.sum_congr rfl fun j _ => ?_
      by_cases hj : j = i
      · rw [hj, hlive]
      · rw [hother j hj]
    rw [hunfinished]
    omega
  | ends hcalls _ hlive hweight =>
    have hi := Finset.mem_range.mpr (h.lt_begun hweight)
    have hidle : s'.calls i = idle := by rw [hcalls, Function.update_self]
    have hother : ∀ j, j ≠ i → s'.calls j = s.calls j := fun j hj => by rw [hcalls, Function.update_of_ne hj]
    -- the others may have one more exchange before them
    have hweights : ∑ j ∈ Finset.range s.begun, (s'.calls j).weight s'.stack ≤
        ∑ j ∈ Finset.range s.begun, if j = i then 0 else (s.calls j).weight s.stack + (s.calls j).live := by
      refine Finset.sum_le_sum fun j _ => ?_
      by_cases hj : j = i
      · rw [hj, hidle, if_pos rfl]
        exact Nat.zero_le _
      · rw [hother j hj, if_neg hj]
        exact Call.weight_le
    have hraised := sum_of_ne (f := fun j => (s.calls j).weight s.stack + (s.calls j).live)
      (g := fun j => if j = i then 0 else (s.calls j).weight s.stack + (s.calls j).live) hi fun j hj => if_neg hj
    have hunfinished := sum_of_ne (f := fun j => (s.calls j).live) (g := fun j => (s'.calls j).live) hi
      fun j hj => by rw [hother j hj]
    have hgone : (s'.calls i).live = 0 := by simp [hidle, idle, Call.live]
    simp only [if_true, Finset.sum_add_distrib, hlive, hgone] at hraised hunfinished
    have hpairs : (∑ j ∈ Finset.range s.begun, (s.calls j).live).choose 2 =
        ∑ j ∈ Finset.range s.begun, (s'.calls j).live + (∑ j ∈ Finset.range s.begun, (s'.calls j).live).choose 2 := by
      have hone : ∑ j ∈ Finset.range s.begun, (s.calls j).live = ∑ j ∈ Finset.range s.begun, (s'.calls j).live + 1 := by
        omega
      rw [hone, choose_two_succ]
    omega

/-- Links are written, and no call is further from its end than before. -/
theorem weight_of_relink (hbegun : s'.begun = s.begun) (hcalls : s'.calls = s.calls)
    (hle : ∀ j, (s.calls j).weight s'.stack ≤ (s.calls j).weight s.stack) : s'.weight ≤ s.weight := by
  unfold State.weight State.weights State.unfinished
  rw [hbegun, hcalls]
  exact Nat.add_le_add_right (Finset.sum_le_sum fun j _ => hle j) _

/-- An exchange that fails although it need not rereads the top into the link of one of
the nodes of its call. -/
theorem spurious_step (h : Inv s) (hrun : nonowner_lockfree_stack.spurious s i = some s') :
    ∃ x ∈ (s.calls i).nodes.map Node.of, s' = { s with stack := s.stack.load_last x } ∧
      (s.calls i).weight (s.stack.load_last x) ≤ (s.calls i).weight s.stack := by
  have hcarries := h.carries i
  cases hpc : (s.calls i).pc with
  | push_exchange node =>
    rw [hpc] at hcarries
    have hnodes : (s.calls i).nodes = [node] := hcarries
    simp only [nonowner_lockfree_stack.spurious, hpc, Option.some.injEq] at hrun
    refine ⟨.of node, by simp [hnodes], hrun.symm, ?_⟩
    simp only [Call.weight, hpc, Stack.load_last, Function.update_self, if_true]
    split <;> omega
  | try_push_exchange node =>
    rw [hpc] at hcarries
    have hnodes : (s.calls i).nodes = [node] := hcarries
    simp only [nonowner_lockfree_stack.spurious, hpc, Option.ite_none_left_eq_some, Option.some.injEq] at hrun
    refine ⟨.of node, by simp [hnodes], hrun.2.symm, ?_⟩
    simp only [Call.weight, hpc, Stack.load_last, Function.update_self, if_true]
    split <;> omega
  | list_exchange first last =>
    rw [hpc] at hcarries
    obtain ⟨-, before, hbefore⟩ := hcarries
    simp only [nonowner_lockfree_stack.spurious, hpc, Option.some.injEq] at hrun
    refine ⟨last, by simp [hbefore], hrun.symm, ?_⟩
    simp only [Call.weight, hpc, Stack.load_last, Function.update_self, if_true]
    split <;> omega
  | _ => simp [nonowner_lockfree_stack.spurious, hpc] at hrun

/-- It costs nothing. -/
theorem spurious_weight (h : Inv s) (hrun : nonowner_lockfree_stack.spurious s i = some s') :
    s'.begun = s.begun ∧ s'.weight ≤ s.weight := by
  obtain ⟨x, hx, rfl, hle⟩ := h.spurious_step hrun
  refine ⟨rfl, weight_of_relink rfl rfl fun j => ?_⟩
  by_cases hj : j = i
  · rw [hj]
    exact hle
  · have hother : (({ s with stack := s.stack.load_last x } : State α).calls j).weight (s.stack.load_last x)
        = (s.calls j).weight s.stack := by
      refine h.weight_of_other hj rfl rfl fun y hy => ?_
      apply Function.update_of_ne
      rintro rfl
      exact hy hx
    exact hother.le

/-- The owner of a node writes its link. -/
theorem link_weight (h : Inv s) {node : α} {next : Option (Node α)} (hbusy : s.busy node = false)
    (hstep : nonowner_lockfree_stack.step s (.link node next) = some s') : s'.begun = s.begun ∧ s'.weight ≤ s.weight := by
  simp only [nonowner_lockfree_stack.step, Option.some.injEq] at hstep
  subst hstep
  refine ⟨rfl, weight_of_relink rfl rfl fun j => ?_⟩
  refine le_of_eq (Call.weight_congr (h.carries j) rfl fun v hv => ?_)
  apply Function.update_of_ne
  intro heq
  cases heq
  have htrue := (h.busy node).mpr (Or.inr ⟨j, hv⟩)
  rw [hbusy] at htrue
  cases htrue

end Inv

/-- The node whose link the exchange expects as the top. -/
def Pc.exchanges : Pc α → Option (Node α)
  | .push_exchange v | .try_push_exchange v => some (.of v)
  | .list_exchange _ last => some last
  | _ => none

/-- The top is what call `i` expects at its next exchange. -/
structure Expects (s : State α) (i : Nat) (x : Node α) : Prop where
  inv : Inv s
  exchanges : (s.calls i).pc.exchanges = some x
  top : s.stack.top = s.stack.next x

/-- A successful exchange of call `j`, with which the call ends. -/
structure Exchanged (s s' : State α) (j : Nat) : Prop where
  ended : (s'.calls j).pc = .returned
  logged : ∃ e, s'.log = e :: s.log

omit [DecidableEq α] in
/-- The node is one of the nodes of the call. -/
theorem Inv.exchanges_own (h : Inv s) {x : Node α} (hx : (s.calls i).pc.exchanges = some x) :
    x ∈ (s.calls i).nodes.map Node.of := by
  have hcarries := h.carries i
  cases hpc : (s.calls i).pc with
  | push_exchange node | try_push_exchange node =>
    rw [hpc] at hx hcarries
    have hnodes : (s.calls i).nodes = [node] := hcarries
    cases hx
    simp [hnodes]
  | list_exchange first last =>
    rw [hpc] at hx hcarries
    obtain ⟨-, before, hbefore⟩ := hcarries
    cases hx
    simp [hbefore]
  | _ => simp [hpc, Pc.exchanges] at hx

/-- A step that comes to an exchange, or comes back to it, has just read the top. -/
theorem top_of_run (hrun : nonowner_lockfree_stack.run s i = some s') {x : Node α}
    (hx : (s'.calls i).pc.exchanges = some x) : s'.stack.top = s'.stack.next x := by
  cases hpc : (s.calls i).pc with
  | push_load node | try_push_load node | list_load first last =>
    simp only [nonowner_lockfree_stack.run, hpc, Option.some.injEq] at hrun
    subst hrun
    simp only [State.goto, Function.update_self, Pc.exchanges, Option.some.injEq] at hx
    subst hx
    simp [State.goto, Stack.load_last]
  | push_exchange node =>
    simp only [nonowner_lockfree_stack.run, hpc, Stack.compare_exchange] at hrun
    by_cases htop : s.stack.top = s.stack.next (.of node)
    · simp only [if_pos htop, Option.some.injEq] at hrun
      subst hrun
      simp [State.pushed, idle, Pc.exchanges] at hx
    · simp only [if_neg htop, Option.some.injEq] at hrun
      subst hrun
      simp only [hpc, Pc.exchanges, Option.some.injEq] at hx
      subst hx
      simp
  | try_push_exchange node =>
    simp only [nonowner_lockfree_stack.run, hpc, Stack.compare_exchange] at hrun
    by_cases hclosed : s.stack.next (.of node) = some .closed_marker
    · simp only [if_pos hclosed, Option.some.injEq] at hrun
      subst hrun
      simp [State.refused, idle, Pc.exchanges] at hx
    · rw [if_neg hclosed] at hrun
      by_cases htop : s.stack.top = s.stack.next (.of node)
      · simp only [if_pos htop, Option.some.injEq] at hrun
        subst hrun
        simp [State.pushed, idle, Pc.exchanges] at hx
      · simp only [if_neg htop, Option.some.injEq] at hrun
        subst hrun
        simp only [hpc, Pc.exchanges, Option.some.injEq] at hx
        subst hx
        simp
  | list_exchange first last =>
    simp only [nonowner_lockfree_stack.run, hpc, Stack.compare_exchange_list] at hrun
    by_cases htop : s.stack.top = s.stack.next last
    · simp only [if_pos htop, Option.some.injEq] at hrun
      subst hrun
      simp [State.pushed, idle, Pc.exchanges] at hx
    · simp only [if_neg htop, Option.some.injEq] at hrun
      subst hrun
      simp only [hpc, Pc.exchanges, Option.some.injEq] at hx
      subst hx
      simp [Stack.load_last]
  | walk first last =>
    simp only [nonowner_lockfree_stack.run, hpc] at hrun
    cases hnext : s.stack.next last <;> simp only [hnext, Option.some.injEq] at hrun <;> subst hrun <;>
      simp [State.goto, Pc.exchanges] at hx
  | pop | close =>
    simp only [nonowner_lockfree_stack.run, hpc, Option.some.injEq] at hrun
    subst hrun
    simp [State.delivered, idle, Pc.exchanges] at hx
  | returned => simp [nonowner_lockfree_stack.run, hpc] at hrun

/-- So has an exchange that fails for no reason. -/
theorem top_of_spurious (hrun : nonowner_lockfree_stack.spurious s i = some s') {x : Node α}
    (hx : (s'.calls i).pc.exchanges = some x) : s'.stack.top = s'.stack.next x := by
  cases hpc : (s.calls i).pc with
  | push_exchange node =>
    simp only [nonowner_lockfree_stack.spurious, hpc, Option.some.injEq] at hrun
    subst hrun
    simp only [hpc, Pc.exchanges, Option.some.injEq] at hx
    subst hx
    simp
  | try_push_exchange node =>
    simp only [nonowner_lockfree_stack.spurious, hpc, Option.ite_none_left_eq_some, Option.some.injEq] at hrun
    obtain ⟨-, rfl⟩ := hrun
    simp only [hpc, Pc.exchanges, Option.some.injEq] at hx
    subst hx
    simp
  | list_exchange first last =>
    simp only [nonowner_lockfree_stack.spurious, hpc, Option.some.injEq] at hrun
    subst hrun
    simp only [hpc, Pc.exchanges, Option.some.injEq] at hx
    subst hx
    simp [Stack.load_last]
  | _ => simp [nonowner_lockfree_stack.spurious, hpc] at hrun

theorem Inv.expects_of_own (h : Inv s) {a : Action α} (ha : a = .run i ∨ a = .spurious i) (hstep : Step s a s')
    {x : Node α} (hx : (s'.calls i).pc.exchanges = some x) : Expects s' i x := by
  refine ⟨h.step hstep, hx, ?_⟩
  obtain rfl | rfl := ha
  · exact top_of_run hstep.2 hx
  · exact top_of_spurious hstep.2 hx

/-- What call `i` expects stays the top until an exchange of another call succeeds. -/
theorem Expects.step {x : Node α} (h : Expects s i x) {a : Action α} (hstep : Step s a s') (hrun : a ≠ .run i)
    (hspurious : a ≠ .spurious i) : Expects s' i x ∨ ∃ j, a = .run j ∧ Exchanged s s' j := by
  have hinv := h.inv.step hstep
  have hown := h.inv.exchanges_own h.exchanges
  obtain ⟨v, hv, rfl⟩ := List.mem_map.mp hown
  have hkeeps : s'.stack.top = s.stack.top → s'.stack.next (.of v) = s.stack.next (.of v) → s'.calls i = s.calls i →
      Expects s' i (.of v) := fun htop hnext hcall => ⟨hinv, by rw [hcall, h.exchanges], by rw [htop, hnext, h.top]⟩
  -- what call `j` writes are links of its own nodes
  have hother : ∀ j, j ≠ i → Node.of v ∉ (s.calls j).nodes.map Node.of := by
    intro j hj hmem
    obtain ⟨w, hw, heq⟩ := List.mem_map.mp hmem
    cases heq
    exact h.inv.apart j i hj hw hv
  cases a with
  | call op =>
    have hbegun : i ≠ s.begun := by
      rintro rfl
      have hexchanges := h.exchanges
      simp [h.inv.not_begun _ le_rfl, idle, Pc.exchanges] at hexchanges
    obtain rfl : _ = s' := Option.some.inj hstep.2
    exact Or.inl (hkeeps rfl rfl (Function.update_of_ne hbegun ..))
  | run j =>
    have hj : j ≠ i := fun heq => hrun (by rw [heq])
    obtain ⟨-, hruns⟩ := h.inv.run_step hstep.2
    cases hruns with
    | goes htop hnext hcalls _ _ => exact Or.inl (hkeeps htop (hnext _ (hother j hj)) (hcalls i hj.symm))
    | ends hcalls hnext _ _ =>
      have hended : (s'.calls j).pc = .returned := by rw [hcalls, Function.update_self]; rfl
      cases h.inv.logs_of_run hstep.2 with
      | nothing _ htop _ =>
        exact Or.inl (hkeeps htop (by rw [hnext]) (by rw [hcalls, Function.update_of_ne hj.symm]))
      | pushed _ hlog _ _ => exact Or.inr ⟨j, rfl, hended, _, hlog⟩
      | popped hlog _ _ => exact Or.inr ⟨j, rfl, hended, _, hlog⟩
      | closed hlog _ _ => exact Or.inr ⟨j, rfl, hended, _, hlog⟩
  | spurious j =>
    have hj : j ≠ i := fun heq => hspurious (by rw [heq])
    obtain ⟨y, hy, rfl, -⟩ := h.inv.spurious_step hstep.2
    refine Or.inl (hkeeps rfl (Function.update_of_ne ?_ ..) rfl)
    rintro rfl
    exact hother j hj hy
  | link node next =>
    obtain rfl : _ = s' := Option.some.inj hstep.2
    refine Or.inl (hkeeps rfl (Function.update_of_ne ?_ ..) rfl)
    rintro heq
    cases heq
    have hbusy := (h.inv.busy v).mpr (Or.inr ⟨i, hv⟩)
    have hfree : s.busy v = false := hstep.1
    rw [hfree] at hbusy
    cases hbusy

/-- The top is another one than call `i` expects, so an exchange succeeded since it read
the top. -/
theorem Expects.fails {x : Node α} (h : Expects s i x) {as : List (Action α)} (hrun : Run Step s as s')
    (has : .run i ∉ as ∧ .spurious i ∉ as) (htop : s'.stack.top ≠ s'.stack.next x) :
    ∃ before j after s₁ s₂, as = before ++ .run j :: after ∧ Run Step s before s₁ ∧ Step s₁ (.run j) s₂ ∧
      Exchanged s₁ s₂ j ∧ Run Step s₂ after s' := by
  have hkeep : ∀ s a s', a ∈ as → Expects s i x → Step s a s' → Expects s' i x ∨ ∃ j, a = .run j ∧ Exchanged s s' j := by
    intro s a s' ha h hstep
    apply h.step hstep
    · rintro rfl
      exact has.1 ha
    · rintro rfl
      exact has.2 ha
  obtain hkept | ⟨before, a, after, s₁, s₂, hsplit, hbefore, hstep, ⟨j, rfl, hexchanged⟩, hafter⟩ :=
    hrun.kept_or_taken (Expects · i x) (fun s a s' => ∃ j, a = .run j ∧ Exchanged s s' j) hkeep h
  · exact absurd hkept.top htop
  · exact ⟨before, j, after, s₁, s₂, hsplit, hbefore, hstep, hexchanged, hafter⟩

/-- The stack is lock-free: in whatever order the calls take their steps, they take no
more than they would take one after another, and one more for each two of them. So as
long as calls take steps, calls return: when a call has read the top and finds another one
at its exchange, then the exchange of another call succeeded meanwhile. -/
theorem own_steps_are_bounded {closed : Bool} {as : List (Action α)} (hrun : Run Step (construct closed) as s) :
    as.countP Action.own ≤ (as.map Action.costs).sum + s.begun.choose 2 ∧
      ∀ i a s₁ x bs s₂, a = .run i ∨ a = .spurious i → Step s a s₁ → (s₁.calls i).pc.exchanges = some x →
        Run Step s₁ bs s₂ → .run i ∉ bs ∧ .spurious i ∉ bs → s₂.stack.top ≠ s₂.stack.next x →
        ∃ before j after s₃ s₄, bs = before ++ .run j :: after ∧ Run Step s₁ before s₃ ∧ Step s₃ (.run j) s₄ ∧
          Exchanged s₃ s₄ j ∧ Run Step s₄ after s₂ := by
  refine ⟨?_, fun i a s₁ x bs s₂ ha hstep hx hrun' hbs htop =>
    ((inv_of_run hrun).expects_of_own ha hstep hx).fails hrun' hbs htop⟩
  have hstep : ∀ (m : Int) (s : State α) (a : Action α) (s' : State α),
      Inv s ∧ (s.weight : Int) ≤ m + (s.begun.choose 2 : Nat) → Step s a s' →
      ∃ m', m' + a.own.toNat ≤ m + a.costs ∧ Inv s' ∧ (s'.weight : Int) ≤ m' + (s'.begun.choose 2 : Nat) := by
    rintro m s a s' ⟨h, hle⟩ hstep
    have h' := h.step hstep
    cases a with
    | call op =>
      obtain ⟨hbegun, hweight⟩ := call_weight hstep.2
      refine ⟨m + op.weight, by simp [Action.own, Action.costs], h', ?_⟩
      rw [hbegun, choose_two_succ]
      omega
    | run i =>
      obtain ⟨hbegun, -⟩ := h.run_step hstep.2
      have hweight := h.run_weight hstep.2
      refine ⟨m - 1, by simp [Action.own, Action.costs], h', ?_⟩
      rw [hbegun]
      omega
    | spurious i =>
      obtain ⟨hbegun, hweight⟩ := h.spurious_weight hstep.2
      refine ⟨m, by simp [Action.own, Action.costs], h', ?_⟩
      rw [hbegun]
      omega
    | link node next =>
      obtain ⟨hbegun, hweight⟩ := h.link_weight hstep.1 hstep.2
      refine ⟨m, by simp [Action.own, Action.costs], h', ?_⟩
      rw [hbegun]
      omega
  have hinit : Inv (construct closed : State α) ∧
      ((construct closed : State α).weight : Int) ≤ 0 + ((construct closed : State α).begun.choose 2 : Nat) :=
    ⟨construct_inv closed, by simp [construct, State.weight, State.weights, State.unfinished]⟩
  obtain ⟨m, hle, -, hweight⟩ := hrun.paid
    (fun m s => Inv s ∧ (s.weight : Int) ≤ m + (s.begun.choose 2 : Nat)) Action.own Action.costs hstep hinit
  omega

/-- Two pushes meet: the exchange of the second one fails because the one of the first
succeeded, it is repeated, and the bound is met. -/
theorem own_steps_are_bounded_of_two : ∃ (as bs : List (Action Nat)) (s s₁ s₂ s' : State Nat),
    Run Step (construct false) as s ∧ Step s (.run 1) s₁ ∧ Run Step s₁ [.run 0] s₂ ∧
      s₂.stack.top = some (.of 1) ∧ s₂.stack.next (.of 2) = none ∧
      (∃ before j after s₃ s₄, [.run 0] = before ++ .run j :: after ∧ Run Step s₁ before s₃ ∧ Step s₃ (.run j) s₄ ∧
        Exchanged s₃ s₄ j ∧ Run Step s₄ after s₂) ∧
      Run Step (construct false) bs s' ∧ bs.countP Action.own = 5 ∧
      bs.countP Action.own ≤ (bs.map Action.costs).sum + s'.begun.choose 2 := by
  have hrun : ∃ s s₁ s₂ s' : State Nat, Run Step (construct false) [.call (.push 1), .call (.push 2), .run 0] s ∧
      Step s (.run 1) s₁ ∧ Run Step s₁ [.run 0] s₂ ∧ Run Step s₂ [.run 1, .run 1] s' ∧
      (s₁.calls 1).pc.exchanges = some (.of 2) ∧ s₂.stack.top = some (.of 1) ∧ s₂.stack.next (.of 2) = none :=
    ⟨_, _, _, _,
      .cons ⟨⟨rfl, rfl⟩, rfl⟩ <| .cons ⟨⟨rfl, rfl⟩, rfl⟩ <| .cons ⟨(fun h => by cases h), rfl⟩ <| .nil _,
      ⟨(fun h => by cases h), rfl⟩, .cons ⟨(fun h => by cases h), rfl⟩ <| .nil _,
      .cons ⟨(fun h => by cases h), rfl⟩ <| .cons ⟨(fun h => by cases h), rfl⟩ <| .nil _, rfl, rfl, rfl⟩
  obtain ⟨s, s₁, s₂, s', hbefore, hstep, hother, hagain, hexchanges, htop, hnext⟩ := hrun
  have hbs := hbefore.append (.cons hstep (hother.append hagain))
  obtain ⟨-, hfails⟩ := own_steps_are_bounded hbefore
  obtain ⟨hbound, -⟩ := own_steps_are_bounded hbs
  refine ⟨_, _, s, s₁, s₂, s', hbefore, hstep, hother, htop, hnext, ?_, hbs, by decide, hbound⟩
  exact hfails 1 (.run 1) s₁ (.of 2) [.run 0] s₂ (Or.inl rfl) hstep hexchanges hother ⟨by simp, by simp⟩
    (by simp [htop, hnext])

end kelcoro.nonowner_lockfree_stack
