import Kelcoro.Latch.Waiters
import Mathlib

namespace kelcoro.latch

open kelcoro.lib kelcoro.nonowner_lockfree_stack

/-- The next operation reads or writes a field of the latch: the counter, the
stack, or the executor that `wakeup_all` copies right before it closes the
stack. -/
def Pc.Accesses : Pc → Prop
  | .attach_list _ | .attach _ _ | .returned => False
  | _ => True

/-- The decrement of a `count_down` or `arrive_and_wait` was executed. -/
def Call.Decremented (c : Call) : Prop :=
  match c.pc with
  | .close | .attach_list _ | .attach _ _ => True
  | .returned => c.op ≠ .wait
  | _ => False

/-- Once a coroutine has passed, the calls whose decrement was executed are done
with the latch. -/
def Destructible (s : State) : Prop :=
  (∃ i, (s.calls i).status = .resumed ∨ (s.calls i).status = .passed) →
    ∀ i, (s.calls i).Decremented → ¬ (s.calls i).pc.Accesses

/-- Not a decrement by 0 of a counter that is 0. -/
def Effective (s : State) (a : Action) : Prop :=
  ∀ i, a = .run i → (s.calls i).pc = .fetch_sub 0 → s.counter ≠ 0

def EffectiveStep (count : Int) (s : State) (a : Action) (s' : State) : Prop :=
  Effective s a ∧ Step count s a s'

/-- Only one call closes the stack, and nothing gets past the latch before. -/
structure Single (s : State) : Prop where
  woken : ∀ i, (s.calls i).status = .attached ∨ (s.calls i).status = .resumed ∨
    (s.calls i).status = .passed → s.stack.top = some .closed_marker
  loaded : ∀ i, (s.calls i).pc = .try_push_exchange →
    s.stack.next (.of i) = some .closed_marker → s.stack.top = some .closed_marker
  attaching : ∀ i, (∃ top, (s.calls i).pc = .attach_list top) ∨
    (∃ top next, (s.calls i).pc = .attach top next) → s.stack.top = some .closed_marker
  opened : ∀ i, (s.calls i).pc = .close → s.stack.top ≠ some .closed_marker
  one : ∀ i j, (s.calls i).pc = .close → (s.calls j).pc = .close → i = j

variable {count : Int} {s s' : State} {holder : Option Nat} {waiters : List Nat} {i : Nat}

theorem Single.destructible (h : Single s) : Destructible s := by
  rintro ⟨j, hj⟩ i hdecremented haccesses
  have htop : s.stack.top = some .closed_marker := h.woken j (Or.inr hj)
  have hopened := h.opened i
  unfold Call.Decremented at hdecremented
  cases hpc : (s.calls i).pc with
  | close => exact hopened hpc htop
  | _ => simp_all [Pc.Accesses]

theorem construct_single (count : Int) : Single (construct count) := by
  constructor <;> simp [construct, idle]

namespace Single

/-- One call changes, and the stack stays closed or open. -/
theorem update (h : Single s) {c : Call} {stack : Stack Nat}
    (hcalls : s'.calls = Function.update s.calls i c) (hstack : s'.stack = stack)
    (hclosed : s.stack.top = some .closed_marker → stack.top = some .closed_marker)
    (hnext : ∀ j, j ≠ i → (s.calls j).pc = .try_push_exchange →
      stack.next (.of j) = s.stack.next (.of j))
    (hwoken : c.status = .attached ∨ c.status = .resumed ∨ c.status = .passed →
      stack.top = some .closed_marker)
    (hloaded : c.pc = .try_push_exchange → stack.next (.of i) = some .closed_marker →
      stack.top = some .closed_marker)
    (hattaching : (∃ top, c.pc = .attach_list top) ∨ (∃ top next, c.pc = .attach top next) →
      stack.top = some .closed_marker)
    (hopened : ∀ j, (Function.update s.calls i c j).pc = .close → stack.top ≠ some .closed_marker)
    (hone : c.pc = .close → ∀ j, (s.calls j).pc = .close → j = i) : Single s' := by
  subst hstack
  constructor <;> simp only [hcalls]
  · intro j hj
    by_cases hji : j = i
    · subst hji
      simp only [Function.update_self] at hj
      exact hwoken hj
    · rw [Function.update_of_ne hji] at hj
      exact hclosed (h.woken j hj)
  · intro j hj hmarker
    by_cases hji : j = i
    · subst hji
      simp only [Function.update_self] at hj
      exact hloaded hj hmarker
    · rw [Function.update_of_ne hji] at hj
      rw [hnext j hji hj] at hmarker
      exact hclosed (h.loaded j hj hmarker)
  · intro j hj
    by_cases hji : j = i
    · subst hji
      simp only [Function.update_self] at hj
      exact hattaching hj
    · rw [Function.update_of_ne hji] at hj
      exact hclosed (h.attaching j hj)
  · exact hopened
  · intro j k hj hk
    by_cases hji : j = i <;> by_cases hki : k = i
    · rw [hji, hki]
    · subst hji
      rw [Function.update_self] at hj
      rw [Function.update_of_ne hki] at hk
      exact (hone hj k hk).symm
    · subst hki
      rw [Function.update_self] at hk
      rw [Function.update_of_ne hji] at hj
      exact hone hk j hj
    · rw [Function.update_of_ne hji] at hj
      rw [Function.update_of_ne hki] at hk
      exact h.one j k hj hk

/-- A call goes on, with at most the `next` field of its own node written. -/
theorem goto (h : Single s) {pc : Pc} {stack : Stack Nat} (htop : stack.top = s.stack.top)
    (hnext : ∀ j, j ≠ i → stack.next (.of j) = s.stack.next (.of j))
    (hloaded : pc = .try_push_exchange → stack.next (.of i) = some .closed_marker →
      s.stack.top = some .closed_marker)
    (hattaching : (∃ top, pc = .attach_list top) ∨ (∃ top next, pc = .attach top next) →
      s.stack.top = some .closed_marker)
    (hclose : pc ≠ .close) : Single ({ s with stack := stack }.goto i pc) := by
  refine h.update (c := { s.calls i with pc := pc }) rfl rfl (fun hclosed => htop.trans hclosed)
    (fun j hj _ => hnext j hj) (fun hs => htop.trans (h.woken i hs))
    (fun hpc hmarker => htop.trans (hloaded hpc hmarker)) (fun hpc => htop.trans (hattaching hpc)) ?_
    (fun hpc => absurd hpc hclose)
  intro j hj
  by_cases hji : j = i
  · subst hji
    simp only [Function.update_self] at hj
    exact absurd hj hclose
  · rw [Function.update_of_ne hji] at hj
    show stack.top ≠ _
    rw [htop]
    exact h.opened j hj

/-- A call goes on without writing anything. -/
theorem quiet (h : Single s) {pc : Pc} (hloaded : pc ≠ .try_push_exchange)
    (hattaching : ∀ top, pc ≠ .attach_list top) (hattach : ∀ top next, pc ≠ .attach top next)
    (hclose : pc ≠ .close) : Single (s.goto i pc) := by
  refine h.goto rfl (fun _ _ => rfl) (fun heq => absurd heq hloaded) ?_ hclose
  rintro (⟨top, heq⟩ | ⟨top, next, heq⟩)
  · exact absurd heq (hattaching top)
  · exact absurd heq (hattach top next)

theorem abort (h : Single s) : Single s.abort :=
  ⟨h.woken, h.loaded, h.attaching, h.opened, h.one⟩

theorem load (h : Single s) {pc : Pc} (hattaching : ∀ top, pc ≠ .attach_list top)
    (hattach : ∀ top next, pc ≠ .attach top next) (hclose : pc ≠ .close) :
    Single ({ s with stack := s.stack.load i }.goto i pc) := by
  refine h.goto (Stack.load_top ..) (fun j hj => ?_) (fun _ hmarker => ?_) ?_ hclose
  · apply Stack.load_next_of_ne
    rintro heq
    cases heq
    exact hj rfl
  · simpa using hmarker
  · rintro (⟨top, heq⟩ | ⟨top, next, heq⟩)
    · exact absurd heq (hattaching top)
    · exact absurd heq (hattach top next)

/-- A `compare_exchange_weak` that fails loads the top into the node. -/
theorem failed (h : Single s)
    (hpc : (s.calls i).pc = .try_push_exchange ∨ ∃ n, (s.calls i).pc = .push_exchange n) :
    Single { s with stack := s.stack.load i } := by
  have hsame : ({ s with stack := s.stack.load i } : State).goto i (s.calls i).pc =
      { s with stack := s.stack.load i } := by
    simp [State.goto, State.put]
  rw [← hsame]
  rcases hpc with hpc | ⟨n, hpc⟩ <;> rw [hpc] <;> exact h.load (by simp) (by simp) (by simp)

/-- A coroutine goes on because the stack is closed. -/
theorem pass (h : Single s) (htop : s.stack.top = some .closed_marker) : Single (s.pass i) := by
  refine h.update (c := { s.calls i with pc := .returned, status := .passed }) rfl rfl id
    (fun _ _ _ => rfl) (fun _ => htop) (fun _ _ => htop) (fun _ => htop) ?_ (fun hpc => by cases hpc)
  intro j hj
  by_cases hji : j = i
  · subst hji
    simp at hj
  · rw [Function.update_of_ne hji] at hj
    exact h.opened j hj

/-- A node is pushed, which only happens to an open stack. -/
theorem suspend (h : Single s) {pc : Pc} (hpc : pc = .returned ∨ ∃ n, pc = .count_down_assert n)
    (hopened : s.stack.top ≠ some .closed_marker) :
    Single ({ s with stack := { s.stack with top := some (.of i) } }.suspend i pc) := by
  have hquiet : pc ≠ .try_push_exchange ∧ (∀ top, pc ≠ .attach_list top) ∧
      (∀ top next, pc ≠ .attach top next) ∧ pc ≠ .close := by
    rcases hpc with rfl | ⟨n, rfl⟩ <;> simp
  refine h.update (c := { s.calls i with pc := pc, status := .waiting }) rfl rfl
    (fun hclosed => absurd hclosed hopened) (fun _ _ _ => rfl) ?_ (fun heq => absurd heq hquiet.1) ?_ ?_
    (fun heq => absurd heq hquiet.2.2.2)
  · rintro (hs | hs | hs) <;> cases hs
  · rintro (⟨top, heq⟩ | ⟨top, next, heq⟩)
    · exact absurd heq (hquiet.2.1 top)
    · exact absurd heq (hquiet.2.2.1 top next)
  · intro _ _
    show (some (.of i) : Option (Node Nat)) ≠ _
    simp

/-- The call that closes the stack is the only one to do so. -/
theorem close (h : Single s) (hi : (s.calls i).pc = .close) :
    Single ({ s with stack := s.stack.close.2 }.goto i (.attach_list s.stack.close.1)) := by
  refine h.update (c := { s.calls i with pc := .attach_list s.stack.close.1 }) rfl rfl (fun _ => rfl)
    (fun _ _ _ => rfl) (fun _ => rfl) (fun _ _ => rfl) (fun _ => rfl) ?_ (fun hpc => by cases hpc)
  intro j hj
  by_cases hji : j = i
  · subst hji
    simp at hj
  · rw [Function.update_of_ne hji] at hj
    exact absurd (h.one j i hj hi) hji

/-- The decrement of a call that is not without effect: the one that brings the
counter to 0 will close the stack, and no other call is about to. -/
theorem fetch_sub (h : Single s) (hinv : Inv count s holder waiters) {n : Int}
    (hi : (s.calls i).pc = .fetch_sub n) (heffective : n = 0 → s.counter ≠ 0) :
    Single ({ s with counter := s.counter - n }.goto i
      (if s.counter = n then .close else .returned)) := by
  by_cases hlast : s.counter = n
  · have hcounter : s.counter ≠ 0 := by
      intro hzero
      exact heffective (hlast.symm.trans hzero) hzero
    have hopened : s.stack.top ≠ some .closed_marker := fun htop => hcounter (hinv.closed_zero htop)
    have hnone : ∀ j, (s.calls j).pc ≠ .close := by
      intro j hj
      have hknows := hinv.pc j
      rw [hj] at hknows
      exact hcounter hknows.1
    rw [if_pos hlast]
    exact h.update (c := { s.calls i with pc := .close }) rfl rfl id (fun _ _ _ => rfl)
      (fun hs => h.woken i hs) (fun hpc => by cases hpc) (fun hpc => by simp at hpc)
      (fun _ _ => hopened) fun _ j hj => absurd hj (hnone j)
  · rw [if_neg hlast]
    refine h.update (c := { s.calls i with pc := .returned }) rfl rfl id (fun _ _ _ => rfl)
      (fun hs => h.woken i hs) (fun hpc => by cases hpc) (fun hpc => by simp at hpc) ?_
      fun hpc => by cases hpc
    intro j hj
    by_cases hji : j = i
    · subst hji
      simp at hj
    · rw [Function.update_of_ne hji] at hj
      exact h.opened j hj

/-- A waiter is attached by the call that closed the stack. -/
theorem attach (h : Single s) {j : Nat} {next : Option (Node Nat)}
    (hi : (s.calls i).pc = .attach (.of j) next) :
    Single ((s.attach j).goto i (.attach_list next)) := by
  have htop := h.attaching i (Or.inr ⟨_, _, hi⟩)
  have hattached : Single (s.attach j) := by
    refine h.update (c := { s.calls j with status := .attached }) rfl rfl id (fun _ _ _ => rfl)
      (fun _ => htop) (fun _ _ => htop) (fun _ => htop) ?_ fun hpc k hk => h.one k j hk hpc
    intro k hk
    by_cases hkj : k = j
    · subst hkj
      simp only [Function.update_self] at hk
      exact h.opened k hk
    · rw [Function.update_of_ne hkj] at hk
      exact h.opened k hk
  exact hattached.goto rfl (fun _ _ => rfl) (fun hpc => by cases hpc) (fun _ => htop) (by simp)

/-- Every effective step keeps the invariant. -/
theorem run (h : Single s) (hinv : Inv count s holder waiters)
    (heffective : ∀ n, (s.calls i).pc = .fetch_sub n → n = 0 → s.counter ≠ 0)
    (hrun : run s i = some s') : Single s' := by
  unfold latch.run at hrun
  cases hpc : (s.calls i).pc with
  | arrive_assert n =>
    simp only [hpc] at hrun
    split at hrun
    · split at hrun
      · cases hrun
        exact h.quiet (by simp) (by simp) (by simp) (by simp)
      · cases hrun
        exact h.quiet (by simp) (by simp) (by simp) (by simp)
    · cases hrun
      exact h.abort
  | await_ready =>
    simp only [hpc] at hrun
    split at hrun
    · rename_i hclosed
      cases hrun
      exact h.pass (by simpa [Stack.closed] using hclosed)
    · cases hrun
      exact h.quiet (by simp) (by simp) (by simp) (by simp)
  | try_push_load =>
    simp only [hpc] at hrun
    cases hrun
    exact h.load (by simp) (by simp) (by simp)
  | try_push_exchange =>
    simp only [hpc] at hrun
    split at hrun
    · rename_i hmarker
      cases hrun
      exact h.pass (h.loaded i hpc hmarker)
    · rename_i hmarker
      by_cases htop : s.stack.top = s.stack.next (.of i)
      · simp only [Stack.compare_exchange, if_pos htop] at hrun
        cases hrun
        exact h.suspend (Or.inl rfl) (htop ▸ hmarker)
      · simp only [Stack.compare_exchange, if_neg htop] at hrun
        cases hrun
        exact h.failed (Or.inl hpc)
  | push_load n =>
    simp only [hpc] at hrun
    cases hrun
    exact h.load (by simp) (by simp) (by simp)
  | push_exchange n =>
    simp only [hpc] at hrun
    by_cases htop : s.stack.top = s.stack.next (.of i)
    · simp only [Stack.compare_exchange, if_pos htop] at hrun
      cases hrun
      refine h.suspend (Or.inr ⟨n, rfl⟩) fun hclosed => ?_
      -- the counter is not below the decrement that is still to come
      have hle := hinv.pending_le (hinv.begun_of_pc (i := i) (by simp [hpc]))
      have hknows := hinv.pc i
      rw [hpc] at hle hknows
      have hpos : 0 < n := hknows.1
      have hzero := hinv.closed_zero hclosed
      simp only [Pc.pending] at hle
      omega
    · simp only [Stack.compare_exchange, if_neg htop] at hrun
      cases hrun
      exact h.failed (Or.inr ⟨n, hpc⟩)
  | count_down_assert n =>
    simp only [hpc] at hrun
    split at hrun
    · cases hrun
      exact h.quiet (by simp) (by simp) (by simp) (by simp)
    · cases hrun
      exact h.abort
  | fetch_sub n =>
    have hle := (hinv.fetch_sub hpc rfl).1
    have hsingle := h.fetch_sub hinv hpc (heffective n hpc)
    simp only [hpc, if_pos hle] at hrun
    split at hrun
    · rename_i hlast
      cases hrun
      rwa [if_pos hlast] at hsingle
    · rename_i hlast
      cases hrun
      rwa [if_neg hlast] at hsingle
  | close =>
    simp only [hpc] at hrun
    cases hrun
    exact h.close hpc
  | attach_list top =>
    cases top with
    | none =>
      simp only [hpc] at hrun
      cases hrun
      exact h.quiet (by simp) (by simp) (by simp) (by simp)
    | some top =>
      simp only [hpc] at hrun
      split at hrun
      · cases hrun
        exact h.goto rfl (fun _ _ => rfl) (by simp) (fun _ => h.attaching i (Or.inl ⟨_, hpc⟩)) (by simp)
      · cases hrun
        exact h.abort
  | attach top next =>
    cases top with
    | closed_marker =>
      simp only [hpc] at hrun
      cases hrun
      exact h.abort
    | of j =>
      simp only [hpc] at hrun
      cases hrun
      exact h.attach hpc
  | returned => simp [hpc] at hrun

/-- What the executor does, and new calls, concern no closing of the stack. -/
theorem other (h : Single s) (hinv : Inv count s holder waiters) {a : Action} (ha : ∀ i, a ≠ .run i)
    (hstep : Step count s a s') : Single s' := by
  unfold Step step at hstep
  have hrunning : ¬ s.aborted = true := by simp [hinv.not_aborted]
  cases a with
  | call op =>
    simp only at hstep
    split at hstep
    · cases hstep
      have hidle := hinv.not_begun s.begun le_rfl
      refine h.update (i := s.begun) (c := { op := op, pc := op.start, status := .running }) rfl rfl id
        (fun _ _ _ => rfl) (by simp) ?_ ?_ ?_ ?_
      · cases op <;> simp [Op.start]
      · cases op <;> simp [Op.start]
      · intro j hj
        by_cases hjb : j = s.begun
        · subst hjb
          simp only [Function.update_self] at hj
          cases op <;> cases hj
        · rw [Function.update_of_ne hjb] at hj
          exact h.opened j hj
      · intro hpc
        cases op <;> cases hpc
    · cases hstep
  | run i => exact absurd rfl (ha i)
  | spurious i =>
    simp only [if_neg hrunning, spurious] at hstep
    cases hpc : (s.calls i).pc with
    | try_push_exchange =>
      simp only [hpc] at hstep
      split at hstep
      · cases hstep
      · cases hstep
        exact h.failed (Or.inl hpc)
    | push_exchange n =>
      simp only [hpc] at hstep
      cases hstep
      exact h.failed (Or.inr ⟨n, hpc⟩)
    | _ => simp [hpc] at hstep
  | relink i next =>
    simp only at hstep
    split at hstep
    · rename_i hattached
      cases hstep
      have htop := h.woken i (hattached.imp_right Or.inl)
      refine h.update (i := i) (c := s.calls i) (by simp) rfl id (fun j hj _ => ?_) (fun _ => htop)
        (fun _ _ => htop) (fun _ => htop) ?_ fun hpc j hj => h.one j i hj hpc
      · apply Function.update_of_ne
        rintro heq
        cases heq
        exact hj rfl
      · intro j hj
        rw [Function.update_eq_self] at hj
        exact h.opened j hj
    · cases hstep
  | resume i =>
    simp only at hstep
    split at hstep
    · rename_i hattached
      cases hstep
      have htop := h.woken i (Or.inl hattached)
      refine h.update (c := { s.calls i with status := .resumed }) rfl rfl id (fun _ _ _ => rfl)
        (fun _ => htop) (fun _ _ => htop) (fun _ => htop) ?_ fun hpc j hj => h.one j i hj hpc
      intro j hj
      by_cases hji : j = i
      · subst hji
        simp only [Function.update_self] at hj
        exact h.opened j hj
      · rw [Function.update_of_ne hji] at hj
        exact h.opened j hj
    · cases hstep

end Single

theorem single_of_run (hcount : 0 ≤ count) {as : List Action}
    (hrun : Run (EffectiveStep count) (construct count) as s) : Single s := by
  obtain ⟨holder, hconstruct⟩ := construct_inv hcount
  suffices h : (∃ holder waiters, Inv count s holder waiters) ∧ Single s from h.2
  apply hrun.invariant fun s => (∃ holder waiters, Inv count s holder waiters) ∧ Single s
  · rintro s a s' ⟨⟨holder, waiters, hinv⟩, h⟩ ⟨heffective, hstep⟩
    obtain ⟨holder', waiters', -, hinv'⟩ := hinv.step hstep
    refine ⟨⟨holder', waiters', hinv'⟩, ?_⟩
    by_cases ha : ∃ i, a = .run i
    · obtain ⟨i, rfl⟩ := ha
      have hrunning : ¬ s.aborted = true := by simp [hinv.not_aborted]
      have hnext : latch.run s i = some s' := by
        simpa [Step, step, hrunning] using hstep
      apply h.run hinv _ hnext
      rintro n hpc rfl
      exact heffective i rfl hpc
    · exact h.other hinv (fun i heq => ha ⟨i, heq⟩) hstep
  · exact ⟨⟨holder, [], hconstruct⟩, construct_single count⟩

/-- In runs in which no decrement by 0 is executed while the counter is 0, the
latch may be destroyed as soon as a coroutine has passed it. -/
theorem destructible_of_effective (hcount : 0 ≤ count) {as : List Action}
    (hrun : Run (EffectiveStep count) (construct count) as s) : Destructible s :=
  (single_of_run hcount hrun).destructible

/-- A waiter, and the `count_down` that ends the wait. -/
theorem destructible_of_effective_count_down : ∃ as s, Run (EffectiveStep 1) (construct 1) as s ∧
    (s.calls 0).status = .resumed ∧ Destructible s := by
  let as : List Action := [.call .wait, .run 0, .run 0, .run 0, .call (.count_down 1), .run 1, .run 1,
    .run 1, .run 1, .run 1, .resume 0]
  obtain ⟨s, hrun, hstatus⟩ : ∃ s, Run (EffectiveStep 1) (construct 1) as s ∧
      (s.calls 0).status = .resumed := by
    refine ⟨_, .cons ⟨?_, rfl⟩ <| .cons ⟨?_, rfl⟩ <| .cons ⟨?_, rfl⟩ <| .cons ⟨?_, rfl⟩ <|
      .cons ⟨?_, rfl⟩ <| .cons ⟨?_, rfl⟩ <| .cons ⟨?_, rfl⟩ <| .cons ⟨?_, rfl⟩ <| .cons ⟨?_, rfl⟩ <|
      .cons ⟨?_, rfl⟩ <| .cons ⟨?_, rfl⟩ <| .nil _, rfl⟩
    all_goals
      intro i hi hpc
      cases hi <;> cases hpc
  exact ⟨as, s, hrun, hstatus, destructible_of_effective (by decide) hrun⟩

/-- With a `count_down(0)` while the counter is 0 the latch is not safe: here the
call that brought the counter to 0 has still to close the stack when the waiter,
woken by the other call, goes on. -/
theorem not_destructible : ¬ ∀ (count : Int) (as : List Action) (s : State), 0 ≤ count →
    Run (Step count) (construct count) as s → Destructible s := by
  intro hall
  let as : List Action := [.call .wait, .run 0, .run 0, .run 0, .call (.count_down 1), .run 1, .run 1,
    .call (.count_down 0), .run 2, .run 2, .run 2, .run 2, .run 2, .resume 0]
  obtain ⟨s, hrun, hstatus, hpc⟩ : ∃ s, Run (Step 1) (construct 1) as s ∧
      (s.calls 0).status = .resumed ∧ (s.calls 1).pc = .close :=
    ⟨_, .cons rfl <| .cons rfl <| .cons rfl <| .cons rfl <| .cons rfl <| .cons rfl <| .cons rfl <|
      .cons rfl <| .cons rfl <| .cons rfl <| .cons rfl <| .cons rfl <| .cons rfl <| .cons rfl <|
      .nil _, rfl, rfl⟩
  have hsafe := hall 1 as s (by decide) hrun ⟨0, Or.inl hstatus⟩ 1
  simp [Call.Decremented, Pc.Accesses, hpc] at hsafe

end kelcoro.latch
