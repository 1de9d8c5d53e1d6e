import Kelcoro.Lib.Log
import Kelcoro.NonownerLockfreeStack.Invariant
import Mathlib

namespace kelcoro.nonowner_lockfree_stack

open kelcoro.lib

variable {α : Type} [DecidableEq α]

/-- How many times a node was pushed. -/
def pushes (v : α) : List (Event α) → Nat
  | [] => 0
  | .pushed nodes :: log => nodes.count v + pushes v log
  | .popped .. :: log => pushes v log
  | .closed .. :: log => pushes v log

/-- How many times a node was handed out again. -/
def returns (v : α) : List (Event α) → Nat
  | [] => 0
  | .pushed _ :: log => returns v log
  | .popped .. :: log => (content log).count v + returns v log
  | .closed .. :: log => (content log).count v + returns v log

theorem pushes_eq (v : α) (log : List (Event α)) :
    pushes v log = returns v log + (content log).count v := by
  induction log with
  | nil => rfl
  | cons e log ih =>
    cases e with
    | pushed nodes =>
      simp only [pushes, returns, content, List.count_append]
      omega
    | popped top next =>
      simp only [pushes, returns, content, List.count_nil]
      omega
    | closed top next =>
      simp only [pushes, returns, content, List.count_nil]
      omega

/-- The event handed out a list that started at `top`. -/
def Event.HandsOut (e : Event α) (top : Option (Node α)) (next : Node α → Option (Node α)) : Prop :=
  e = .popped top next ∨ e = .closed top next

/-- What may follow the events of a log: only an open stack takes nodes, and
what is handed out is the content. -/
def Follows (log : List (Event α)) (e : Event α) : Prop :=
  (∀ nodes, e = .pushed nodes → ∀ top next, .closed top next ∉ log) ∧
    ∀ top next, e.HandsOut top next → Linked next top ((content log).map .of)

variable {s s' : State α} {i : Nat}

omit [DecidableEq α] in
theorem not_pushed_of_lawful {log later earlier : List (Event α)} {top : Option (Node α)}
    {next : Node α → Option (Node α)} {nodes : List α} (h : Lawful Follows log)
    (hsplit : log = later ++ .closed top next :: earlier) : .pushed nodes ∉ later := by
  intro hmem
  obtain ⟨before, after, rfl⟩ := List.append_of_mem hmem
  have hsplit' : log = before ++ .pushed nodes :: (after ++ .closed top next :: earlier) := by
    simpa using hsplit
  have hfollows := h.follows hsplit'
  exact hfollows.1 nodes rfl top next (by simp)

/-- What a step of a call does to the top and to the log. The links of a node
that no stack and no call has stay as they are. -/
inductive Logs (s s' : State α) : Prop
  | nothing (hlog : s'.log = s.log) (htop : s'.stack.top = s.stack.top)
      (hnext : ∀ v, s.busy v = false → s'.stack.next (.of v) = s.stack.next (.of v))
  | pushed (nodes : List α) (hlog : s'.log = .pushed nodes :: s.log)
      (hopen : s.stack.top ≠ some .closed_marker) (hnext : s'.stack.next = s.stack.next)
  | popped (hlog : s'.log = .popped s.stack.top s.stack.next :: s.log)
      (hopen : s.stack.top ≠ some .closed_marker) (hnext : s'.stack.next = s.stack.next)
  | closed (hlog : s'.log = .closed s.stack.close.1 s.stack.next :: s.log)
      (htop : s'.stack.top = some .closed_marker) (hnext : s'.stack.next = s.stack.next)

omit [DecidableEq α] in
theorem Inv.not_of_free (h : Inv s) {v : α} (hfree : s.busy v = false) : v ∉ (s.calls i).nodes := by
  intro hmem
  have hbusy := (h.busy v).mpr (Or.inr ⟨i, hmem⟩)
  simp [hfree] at hbusy

/-- A call that links the last of its nodes to the top. -/
theorem Inv.logs_load (h : Inv s) (i : Nat) (last : Node α) (hlast : last ∈ (s.calls i).nodes.map .of)
    (hlog : s'.log = s.log) (hstack : s'.stack = s.stack.load_last last) : Logs s s' := by
  refine .nothing hlog (by rw [hstack]; rfl) fun v hfree => ?_
  rw [hstack]
  exact Inv.reloads hlast (h.not_of_free hfree)

theorem Inv.logs_of_run (h : Inv s) (hrun : nonowner_lockfree_stack.run s i = some s') :
    Logs s s' := by
  have hcarries := h.carries i
  cases hpc : (s.calls i).pc with
  | push_load node =>
    rw [hpc] at hcarries
    simp only [nonowner_lockfree_stack.run, hpc, Option.some.injEq] at hrun
    subst hrun
    exact h.logs_load i (.of node) (by rw [hcarries]; simp) rfl rfl
  | try_push_load node =>
    rw [hpc] at hcarries
    simp only [nonowner_lockfree_stack.run, hpc, Option.some.injEq] at hrun
    subst hrun
    exact h.logs_load i (.of node) (by rw [hcarries]; simp) rfl rfl
  | push_exchange node =>
    rw [hpc] at hcarries
    simp only [nonowner_lockfree_stack.run, hpc, Stack.compare_exchange] at hrun
    by_cases htop : s.stack.top = s.stack.next (.of node)
    · simp only [if_pos htop, Option.some.injEq] at hrun
      subst hrun
      exact .pushed _ rfl (h.opened (i := i) (by simp [hpc, Pc.NeedsOpen])) rfl
    · simp only [if_neg htop, Option.some.injEq] at hrun
      subst hrun
      exact h.logs_load i (.of node) (by rw [hcarries]; simp) rfl rfl
  | try_push_exchange node =>
    rw [hpc] at hcarries
    simp only [nonowner_lockfree_stack.run, hpc, Stack.compare_exchange] at hrun
    by_cases hclosed : s.stack.next (.of node) = some .closed_marker
    · simp only [if_pos hclosed, Option.some.injEq] at hrun
      subst hrun
      exact .nothing rfl rfl fun _ _ => rfl
    · rw [if_neg hclosed] at hrun
      by_cases htop : s.stack.top = s.stack.next (.of node)
      · simp only [if_pos htop, Option.some.injEq] at hrun
        subst hrun
        exact .pushed _ rfl (htop ▸ hclosed) rfl
      · simp only [if_neg htop, Option.some.injEq] at hrun
        subst hrun
        exact h.logs_load i (.of node) (by rw [hcarries]; simp) rfl rfl
  | walk first last =>
    simp only [nonowner_lockfree_stack.run, hpc] at hrun
    cases hnext : s.stack.next last with
    | none =>
      simp only [hnext, Option.some.injEq] at hrun
      subst hrun
      exact .nothing rfl rfl fun _ _ => rfl
    | some next =>
      simp only [hnext, Option.some.injEq] at hrun
      subst hrun
      exact .nothing rfl rfl fun _ _ => rfl
  | list_load first last =>
    rw [hpc] at hcarries
    obtain ⟨-, before, hbefore⟩ := hcarries
    simp only [nonowner_lockfree_stack.run, hpc, Option.some.injEq] at hrun
    subst hrun
    exact h.logs_load i last (by rw [hbefore]; simp) rfl rfl
  | list_exchange first last =>
    rw [hpc] at hcarries
    obtain ⟨-, before, hbefore⟩ := hcarries
    simp only [nonowner_lockfree_stack.run, hpc, Stack.compare_exchange_list] at hrun
    by_cases htop : s.stack.top = s.stack.next last
    · simp only [if_pos htop, Option.some.injEq] at hrun
      subst hrun
      exact .pushed _ rfl (h.opened (i := i) (by simp [hpc, Pc.NeedsOpen])) rfl
    · simp only [if_neg htop, Option.some.injEq] at hrun
      subst hrun
      exact h.logs_load i last (by rw [hbefore]; simp) rfl rfl
  | pop =>
    simp only [nonowner_lockfree_stack.run, hpc, Stack.try_pop_all, Option.some.injEq] at hrun
    subst hrun
    exact .popped rfl (h.opened (i := i) (by simp [hpc, Pc.NeedsOpen])) rfl
  | close =>
    simp only [nonowner_lockfree_stack.run, hpc, Option.some.injEq] at hrun
    subst hrun
    exact .closed rfl rfl rfl
  | returned => simp [nonowner_lockfree_stack.run, hpc] at hrun

theorem Inv.logs_of_spurious (h : Inv s) (hrun : nonowner_lockfree_stack.spurious s i = some s') :
    Logs s s' := by
  have hcarries := h.carries i
  cases hpc : (s.calls i).pc with
  | push_exchange node =>
    rw [hpc] at hcarries
    simp only [nonowner_lockfree_stack.spurious, hpc, Option.some.injEq] at hrun
    subst hrun
    exact h.logs_load i (.of node) (by rw [hcarries]; simp) rfl rfl
  | try_push_exchange node =>
    rw [hpc] at hcarries
    simp only [nonowner_lockfree_stack.spurious, hpc, Option.ite_none_left_eq_some,
      Option.some.injEq] at hrun
    obtain ⟨-, rfl⟩ := hrun
    exact h.logs_load i (.of node) (by rw [hcarries]; simp) rfl rfl
  | list_exchange first last =>
    rw [hpc] at hcarries
    obtain ⟨-, before, hbefore⟩ := hcarries
    simp only [nonowner_lockfree_stack.spurious, hpc, Option.some.injEq] at hrun
    subst hrun
    exact h.logs_load i last (by rw [hbefore]; simp) rfl rfl
  | _ => simp [nonowner_lockfree_stack.spurious, hpc] at hrun

/-- The owner of a node may write its link; everything else is a step of a call. -/
theorem Inv.logs (h : Inv s) {a : Action α} (hstep : Step s a s') :
    Logs s s' ∨ ∃ node next, a = .link node next ∧
      s' = { s with stack := { s.stack with next := Function.update s.stack.next (.of node) next } } := by
  have hnext := hstep.2
  cases a with
  | call op =>
    simp only [nonowner_lockfree_stack.step, Option.some.injEq] at hnext
    subst hnext
    exact Or.inl (.nothing rfl rfl fun _ _ => rfl)
  | run i => exact Or.inl (h.logs_of_run hnext)
  | spurious i => exact Or.inl (h.logs_of_spurious hnext)
  | link node next =>
    simp only [nonowner_lockfree_stack.step, Option.some.injEq] at hnext
    exact Or.inr ⟨node, next, rfl, hnext.symm⟩

/-- What the log of a stack says at any time. -/
structure LogInv (closed : Bool) (s : State α) : Prop where
  inv : Inv s
  lawful : Lawful Follows s.log
  marked : closed = true ∨ (∃ top next, .closed top next ∈ s.log) → s.stack.top = some .closed_marker
  never : closed = true → ∀ nodes, .pushed nodes ∉ s.log

omit [DecidableEq α] in
theorem construct_logInv (closed : Bool) : LogInv closed (construct closed : State α) where
  inv := construct_inv closed
  lawful := trivial
  marked h := by
    obtain rfl : closed = true := by simpa [construct] using h
    rfl
  never _ _ := List.not_mem_nil

theorem LogInv.step {closed : Bool} (h : LogInv closed s) {a : Action α} (hstep : Step s a s') :
    LogInv closed s' := by
  have hinv := h.inv.step hstep
  obtain hlogs | ⟨node, next, -, rfl⟩ := h.inv.logs hstep
  · cases hlogs with
    | nothing hlog htop _ =>
      refine ⟨hinv, hlog ▸ h.lawful, ?_, hlog ▸ h.never⟩
      rw [hlog, htop]
      exact h.marked
    | pushed nodes hlog hopen _ =>
      refine ⟨hinv, ?_, ?_, fun hclosed => absurd (h.marked (Or.inl hclosed)) hopen⟩
      · rw [hlog]
        refine ⟨⟨fun _ _ top next hmem => hopen (h.marked (Or.inr ⟨top, next, hmem⟩)), ?_⟩, h.lawful⟩
        rintro top next (heq | heq) <;> cases heq
      · rw [hlog]
        exact fun hmarked => absurd (h.marked (by simpa using hmarked)) hopen
    | popped hlog hopen _ =>
      refine ⟨hinv, ?_, ?_, fun hclosed => absurd (h.marked (Or.inl hclosed)) hopen⟩
      · rw [hlog]
        refine ⟨⟨fun _ heq => (by cases heq), ?_⟩, h.lawful⟩
        rintro top next (heq | heq) <;> cases heq
        exact h.inv.linked hopen
      · rw [hlog]
        exact fun hmarked => absurd (h.marked (by simpa using hmarked)) hopen
    | closed hlog htop _ =>
      refine ⟨hinv, ?_, fun _ => htop, fun hclosed => by simpa [hlog] using h.never hclosed⟩
      rw [hlog]
      refine ⟨⟨fun _ heq => (by cases heq), ?_⟩, h.lawful⟩
      rintro top next (heq | heq) <;> cases heq
      by_cases hclosed : s.stack.top = some .closed_marker
      · rw [Stack.close_closed hclosed, (h.inv.closed hclosed).1]
        rfl
      · exact Stack.Holds.close ⟨hclosed, h.inv.linked hclosed⟩
  · exact ⟨hinv, h.lawful, h.marked, h.never⟩

theorem logInv_of_run {closed : Bool} {as : List (Action α)}
    (hrun : Run Step (construct closed) as s) : LogInv closed s :=
  hrun.invariant (LogInv closed) (fun _ _ _ h hstep => h.step hstep) (construct_logInv closed)

/-- A list that was handed out stays what it is: only its owner writes links of
nodes that are in no stack and in no call. -/
theorem Inv.free_links (h : Inv s) {a : Action α} (hstep : Step s a s') {v : α} (hfree : s.busy v = false)
    (hlink : ∀ next, a ≠ .link v next) : s'.stack.next (.of v) = s.stack.next (.of v) := by
  obtain hlogs | ⟨node, next, rfl, rfl⟩ := h.logs hstep
  · cases hlogs with
    | nothing _ _ hnext => exact hnext v hfree
    | pushed _ _ _ hnext => rw [hnext]
    | popped _ _ hnext => rw [hnext]
    | closed _ _ hnext => rw [hnext]
  · apply Function.update_of_ne
    rintro heq
    cases heq
    exact hlink next rfl

/-- Threads that push nodes and lists on a stack and pop and close it, one access
to `top` at a time: what is reachable from `top` is the acyclic list of the nodes
pushed since the last pop; every push of a node is answered by one pop or close,
or the node is still there; pops hand out the nodes last pushed first, lists in
one piece; and a closed stack takes no nodes. -/
theorem nodes_are_delivered_once {closed : Bool} {as : List (Action α)}
    (hrun : Run Step (construct closed) as s) :
    (s.stack.top ≠ some .closed_marker →
        Linked s.stack.next s.stack.top ((content s.log).map .of)) ∧
      (s.stack.top = some .closed_marker → content s.log = []) ∧
      (content s.log).Nodup ∧
      (∀ v, pushes v s.log = returns v s.log + (content s.log).count v) ∧
      (∀ later e earlier top next, s.log = later ++ e :: earlier → e.HandsOut top next →
        Linked next top ((content earlier).map .of)) ∧
      (∀ later top next earlier, s.log = later ++ .closed top next :: earlier →
        ∀ nodes, .pushed nodes ∉ later) ∧
      (closed = true → ∀ nodes, .pushed nodes ∉ s.log) ∧
      ∀ a s', Step s a s' → ∀ v, s.busy v = false → (∀ next, a ≠ .link v next) →
        s'.stack.next (.of v) = s.stack.next (.of v) := by
  have h := logInv_of_run hrun
  refine ⟨h.inv.linked, fun htop => (h.inv.closed htop).1, h.inv.content_nodup,
    fun v => pushes_eq v s.log, ?_, ?_, h.never, ?_⟩
  · intro later e earlier top next hsplit hhands
    exact (h.lawful.follows hsplit).2 top next hhands
  · intro later top next earlier hsplit nodes
    exact not_pushed_of_lawful h.lawful hsplit
  · intro a s' hstep v hfree hlink
    exact h.inv.free_links hstep hfree hlink

/-- Two pushes meet, the second of them fails and is repeated, a pop takes both
nodes, and one of them is pushed again. -/
theorem nodes_are_delivered_once_of_two :
    ∃ s : State Nat, s.stack.top = some (.of 1) ∧ s.log.length = 4 ∧
      pushes 1 s.log = returns 1 s.log + 1 ∧ pushes 2 s.log = returns 2 s.log := by
  have hrun : ∃ as, ∃ s : State Nat, Run Step (construct false) as s ∧
      s.stack.top = some (.of 1) ∧ s.log.length = 4 ∧ content s.log = [1] :=
    ⟨[.call (.push 1), .call (.push 2), .run 0, .run 1, .run 0, .run 1, .run 1, .call .try_pop_all,
        .run 2, .call (.try_push 1), .run 3, .spurious 3, .run 3], _,
      .cons ⟨⟨rfl, rfl⟩, rfl⟩ <| .cons ⟨⟨rfl, rfl⟩, rfl⟩ <| .cons ⟨nofun, rfl⟩ <|
        .cons ⟨nofun, rfl⟩ <| .cons ⟨nofun, rfl⟩ <| .cons ⟨nofun, rfl⟩ <| .cons ⟨nofun, rfl⟩ <|
        .cons ⟨rfl, rfl⟩ <| .cons ⟨nofun, rfl⟩ <| .cons ⟨rfl, rfl⟩ <| .cons ⟨nofun, rfl⟩ <|
        .cons ⟨trivial, rfl⟩ <| .cons ⟨nofun, rfl⟩ <| .nil _,
      rfl, rfl, rfl⟩
  obtain ⟨as, s, hrun, htop, hlength, hcontent⟩ := hrun
  obtain ⟨-, -, -, hpushes, -⟩ := nodes_are_delivered_once hrun
  have hone := hpushes 1
  have htwo := hpushes 2
  rw [hcontent] at hone htwo
  exact ⟨s, htop, hlength, hone, htwo⟩

end kelcoro.nonowner_lockfree_stack
