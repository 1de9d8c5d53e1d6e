import Kelcoro.Latch.Invariant
import Mathlib

namespace kelcoro.latch

open kelcoro.lib kelcoro.nonowner_lockfree_stack Finset

variable {count : Int} {s s' : State} {holder : Option Nat} {waiters : List Nat} {i : Nat}

namespace Inv

/-- A `compare_exchange_weak` that fails loads the top into the node. -/
theorem failed (h : Inv count s holder waiters)
    (hpc : (s.calls i).pc = .try_push_exchange ∨ ∃ n, (s.calls i).pc = .push_exchange n) :
    Inv count { s with stack := s.stack.load i } holder waiters := by
  have hknows := h.pc i
  have hb := h.batch i
  have hsame : ({ s with stack := s.stack.load i } : State).goto i (s.calls i).pc =
      { s with stack := s.stack.load i } := by
    simp [State.goto, State.put]
  rw [← hsame]
  rcases hpc with hpc | ⟨n, hpc⟩
  · rw [hpc] at hknows hb ⊢
    exact h.load hpc (by simp) (by simp) hknows.1 rfl ⟨hknows.1, h.closed_zero⟩ hb
  · rw [hpc] at hknows hb ⊢
    exact h.load hpc (by simp) (by simp) hknows.2.1 rfl hknows hb

/-- Every operation of a call keeps the invariant, and the waiters are taken out
of the stack only once. -/
theorem run (h : Inv count s holder waiters) (hrun : run s i = some s') :
    ∃ holder' waiters', (holder ≠ none → holder' = holder) ∧ Inv count s' holder' waiters' := by
  unfold latch.run at hrun
  have hknows := h.pc i
  have hb := h.batch i
  have hbegun := h.begun_of_pc (i := i)
  cases hpc : (s.calls i).pc with
  | arrive_assert n =>
    rw [hpc] at hknows hb hbegun
    obtain ⟨hn, hstatus, hop⟩ := hknows
    have hle : n ≤ s.counter := by
      have hpending := h.pending_le (hbegun (by simp))
      rwa [hpc] at hpending
    simp only [hpc, if_pos (And.intro hn hle)] at hrun
    by_cases hzero : n = 0
    · rw [if_pos hzero] at hrun
      cases hrun
      exact ⟨holder, waiters, fun _ => rfl, h.goto hpc (by simp) (by simp) hzero.symm hstatus hb⟩
    · rw [if_neg hzero] at hrun
      cases hrun
      exact ⟨holder, waiters, fun _ => rfl, h.goto hpc (by simp) (by simp) rfl ⟨by omega, hstatus, hop⟩ hb⟩
  | await_ready =>
    rw [hpc] at hknows hb
    simp only [hpc] at hrun
    by_cases hclosed : s.stack.closed
    · rw [if_pos hclosed] at hrun
      cases hrun
      have hzero : s.counter = 0 := (h.closed_zero (by simpa [Stack.closed] using hclosed))
      exact ⟨holder, waiters, fun _ => rfl, h.pass hpc (by simp) (by simp) hknows rfl hzero hb⟩
    · rw [if_neg hclosed] at hrun
      cases hrun
      exact ⟨holder, waiters, fun _ => rfl, h.goto hpc (by simp) (by simp) rfl hknows hb⟩
  | try_push_load =>
    rw [hpc] at hknows hb
    simp only [hpc] at hrun
    cases hrun
    exact ⟨holder, waiters, fun _ => rfl, h.load hpc (by simp) (by simp) hknows rfl ⟨hknows, h.closed_zero⟩ hb⟩
  | try_push_exchange =>
    rw [hpc] at hknows hb
    obtain ⟨hstatus, hmarker⟩ := hknows
    simp only [hpc] at hrun
    by_cases hclosed : s.stack.next (.of i) = some .closed_marker
    · rw [if_pos hclosed] at hrun
      cases hrun
      exact ⟨holder, waiters, fun _ => rfl, h.pass hpc (by simp) (by simp) hstatus rfl (hmarker hclosed) hb⟩
    · rw [if_neg hclosed] at hrun
      by_cases htop : s.stack.top = s.stack.next (.of i)
      · have hholder : holder = none := by
          by_contra hne
          exact hclosed (htop ▸ (h.closed hne).1)
        subst hholder
        simp only [Stack.compare_exchange, if_pos htop] at hrun
        cases hrun
        exact ⟨none, i :: waiters, fun _ => rfl, h.suspend hpc (by simp) (by simp) hstatus rfl trivial htop rfl⟩
      · simp only [Stack.compare_exchange, if_neg htop] at hrun
        cases hrun
        exact ⟨holder, waiters, fun _ => rfl, h.failed (Or.inl hpc)⟩
  | push_load n =>
    rw [hpc] at hknows hb
    simp only [hpc] at hrun
    cases hrun
    exact ⟨holder, waiters, fun _ => rfl, h.load hpc (by simp) (by simp) hknows.2.1 rfl hknows hb⟩
  | push_exchange n =>
    rw [hpc] at hknows hb hbegun
    obtain ⟨hn, hstatus, hop⟩ := hknows
    simp only [hpc] at hrun
    by_cases htop : s.stack.top = s.stack.next (.of i)
    · -- the counter is positive, so the stack is not closed
      have hle := h.pending_le (hbegun (by simp))
      rw [hpc] at hle
      have hholder : holder = none := by
        by_contra hne
        have hzero := (h.closed hne).2
        simp only [Pc.pending] at hle
        omega
      subst hholder
      simp only [Stack.compare_exchange, if_pos htop] at hrun
      cases hrun
      exact ⟨none, i :: waiters, fun _ => rfl, h.suspend hpc (by simp) (by simp) hstatus rfl ⟨hn.le, hop⟩ htop rfl⟩
    · simp only [Stack.compare_exchange, if_neg htop] at hrun
      cases hrun
      exact ⟨holder, waiters, fun _ => rfl, h.failed (Or.inr ⟨n, hpc⟩)⟩
  | count_down_assert n =>
    rw [hpc] at hknows hb hbegun
    have hle : n ≤ s.counter := by
      have hpending := h.pending_le (hbegun (by simp))
      rwa [hpc] at hpending
    simp only [hpc, if_pos (And.intro hknows.1 hle)] at hrun
    cases hrun
    exact ⟨holder, waiters, fun _ => rfl, h.goto hpc (by simp) (by simp) rfl hknows hb⟩
  | fetch_sub n =>
    obtain ⟨hle, hinv⟩ := h.fetch_sub hpc rfl
    simp only [hpc, if_pos hle] at hrun
    by_cases hlast : s.counter = n
    · rw [if_pos hlast] at hrun hinv
      cases hrun
      exact ⟨holder, waiters, fun _ => rfl, hinv⟩
    · rw [if_neg hlast] at hrun hinv
      cases hrun
      exact ⟨holder, waiters, fun _ => rfl, hinv⟩
  | close =>
    simp only [hpc] at hrun
    cases hrun
    by_cases htop : s.stack.top = some .closed_marker
    · exact ⟨holder, waiters, fun _ => rfl, h.close_again hpc htop⟩
    · have hholder : holder = none := by
        by_contra hne
        exact htop (h.closed hne).1
      subst hholder
      exact ⟨some i, waiters, fun hne => absurd rfl hne, h.close hpc⟩
  | attach_list top =>
    rw [hpc] at hknows hb
    cases top with
    | none =>
      simp only [hpc] at hrun
      cases hrun
      exact ⟨holder, waiters, fun _ => rfl, h.goto hpc (by simp) (by simp) rfl trivial
        (List.map_eq_nil_iff.mp (Segment.null_iff.mp hb))⟩
    | some top =>
      simp only [hpc] at hrun
      -- the list is not empty: its first node is that of a waiter
      have hlinked : Linked s.stack.next (some top)
          ((if holder = some i then waiters else []).map .of) := hb
      generalize hnodes : (if holder = some i then waiters else []) = nodes at hlinked
      cases nodes with
      | nil => cases hlinked
      | cons j js =>
        obtain ⟨htop, hrest⟩ := hlinked
        cases htop
        have hmem : j ∈ waiters := by
          by_cases hholder : holder = some i
          · rw [if_pos hholder] at hnodes
            simp [hnodes]
          · rw [if_neg hholder] at hnodes
            cases hnodes
        have halive : alive s (.of j) = true := by
          simp [alive, (h.waiting j).mp hmem]
        rw [if_pos halive] at hrun
        cases hrun
        exact ⟨holder, waiters, fun _ => rfl, h.goto hpc (by simp) (by simp) rfl hknows ⟨j, js, hnodes, rfl, hrest⟩⟩
  | attach top next =>
    rw [hpc] at hb
    obtain ⟨j, js, hnodes, rfl, hrest⟩ := hb
    simp only [hpc] at hrun
    cases hrun
    obtain ⟨js', -, hinv⟩ := h.attach hpc
    exact ⟨holder, js', fun _ => rfl, hinv⟩
  | returned => simp [hpc] at hrun

/-- A new call, with its decrement within the count. -/
theorem call (h : Inv count s holder waiters) {op : Op} (hn : 0 ≤ op.decrement)
    (hsum : s.decrements + op.decrement ≤ count) :
    Inv count { s.put s.begun { op := op, pc := op.start, status := .running } with
      begun := s.begun + 1
      decrements := s.decrements + op.decrement } holder waiters := by
  have hidle : s.calls s.begun = idle := h.not_begun s.begun le_rfl
  have hcalls : ∀ {P : Nat → Call → Prop}, P s.begun { op := op, pc := op.start, status := .running } →
      (∀ j, j ≠ s.begun → P j (s.calls j)) →
      ∀ j, P j (Function.update s.calls s.begun { op := op, pc := op.start, status := .running } j) := by
    intro P hnew hP j
    by_cases hj : j = s.begun
    · subst hj
      simpa using hnew
    · simpa [hj] using hP j hj
  constructor
  · exact h.not_aborted
  · intro j hj
    have hne : j ≠ s.begun := by
      rintro rfl
      exact absurd hj (by simp)
    exact (Function.update_of_ne hne ..).trans (h.not_begun j (by simp only at hj; omega))
  · have hstart : op.start.pending = op.decrement := by cases op <;> rfl
    have hrest : ∑ j ∈ range s.begun, (Function.update s.calls s.begun
        { op := op, pc := op.start, status := .running } j).pc.pending =
        ∑ j ∈ range s.begun, (s.calls j).pc.pending := by
      apply sum_congr rfl
      intro j hj
      rw [Function.update_of_ne (mem_range.mp hj).ne]
    have hcounter := h.counter
    show s.counter = count - (s.decrements + op.decrement) + ∑ j ∈ range (s.begun + 1),
      (Function.update s.calls s.begun { op := op, pc := op.start, status := .running } j).pc.pending
    rw [sum_range_succ, hrest]
    simp only [Function.update_self, hstart]
    omega
  · exact hsum
  · apply hcalls (P := fun j c => c.pc.Knows s.counter (s.stack.next (.of j)) c.op c.status)
    · cases op <;> simp_all [Op.start, Pc.Knows, Op.decrement]
    · exact fun j _ => h.pc j
  · exact hcalls (P := fun _ c => c.status.Knows s.counter) trivial fun j _ => h.status j
  · intro hzero
    rcases h.zero hzero with hclosed | ⟨j, hj⟩
    · exact Or.inl hclosed
    · have hne : j ≠ s.begun := by
        rintro rfl
        rw [hidle] at hj
        cases hj
      exact Or.inr ⟨j, by simpa [State.put, hne] using hj⟩
  · exact h.nodup
  · apply hcalls (P := fun j c => j ∈ waiters ↔ c.status = .waiting)
    · rw [h.waiting, hidle]
      simp [idle]
    · exact fun j _ => h.waiting j
  · apply hcalls (P := fun j c => s.attaches j = c.status.attaches)
    · rw [h.attaches, hidle]
      rfl
    · exact fun j _ => h.attaches j
  · exact h.stacked
  · exact h.closed
  · apply hcalls (P := fun j c => c.pc.Batch s.stack.next (if holder = some j then waiters else []))
    · have hb := h.batch s.begun
      rw [hidle] at hb
      cases op <;> exact hb
    · exact fun j _ => h.batch j

/-- What the executor does with the nodes and coroutines attached to it. -/
theorem executor (h : Inv count s holder waiters) (status : Status) (next : Option (Node Nat))
    (hattached : (s.calls i).status.attaches = 1) (hstatus : status.attaches = 1) :
    Inv count ({ s with stack := { s.stack with next := Function.update s.stack.next (.of i) next } }.put i
      { s.calls i with status := status }) holder waiters := by
  have hbegun : i < s.begun := by
    by_contra hnot
    rw [h.not_begun i (by omega)] at hattached
    cases hattached
  have hknows := h.pc i
  have hold := h.status i
  have hnot : (s.calls i).status ≠ .waiting ∧ (s.calls i).status ≠ .running := by
    constructor <;> intro heq <;> rw [heq] at hattached <;> cases hattached
  have hnotin : i ∉ waiters := fun hmem => hnot.1 ((h.waiting i).mp hmem)
  have hnext : ∀ j, j ≠ i → Function.update s.stack.next (.of i) next (.of j) = s.stack.next (.of j) := by
    intro j hj
    apply Function.update_of_ne
    rintro heq
    cases heq
    exact hj rfl
  refine h.goes_on hbegun rfl ?_ ?_ ?_ (hstatus.trans hattached.symm) id rfl
    (fun j hj => hnext j fun heq => hnotin (hj heq)) ?_
  · cases hpc : (s.calls i).pc <;> simp_all [Pc.Knows]
  · cases hs : (s.calls i).status <;> cases status <;> simp_all [Status.Knows, Status.attaches]
  · cases status <;> simp_all [Status.attaches]
  · apply (h.batch i).congr
    intro j hj
    apply hnext
    rintro rfl
    split at hj
    · exact hnotin hj
    · cases hj

/-- Every step keeps the invariant. -/
theorem step (h : Inv count s holder waiters) {a : Action} (hstep : Step count s a s') :
    ∃ holder' waiters', (holder ≠ none → holder' = holder) ∧ Inv count s' holder' waiters' := by
  unfold Step latch.step at hstep
  have hrunning : ¬ s.aborted = true := by simp [h.not_aborted]
  cases a with
  | call op =>
    simp only at hstep
    split at hstep
    · rename_i hallowed
      cases hstep
      exact ⟨holder, waiters, fun _ => rfl, h.call hallowed.1 hallowed.2⟩
    · cases hstep
  | run i =>
    simp only [if_neg hrunning] at hstep
    exact h.run hstep
  | spurious i =>
    simp only [if_neg hrunning, spurious] at hstep
    cases hpc : (s.calls i).pc with
    | try_push_exchange =>
      simp only [hpc] at hstep
      split at hstep
      · cases hstep
      · cases hstep
        exact ⟨holder, waiters, fun _ => rfl, h.failed (Or.inl hpc)⟩
    | push_exchange n =>
      simp only [hpc] at hstep
      cases hstep
      exact ⟨holder, waiters, fun _ => rfl, h.failed (Or.inr ⟨n, hpc⟩)⟩
    | _ => simp [hpc] at hstep
  | relink i next =>
    simp only at hstep
    split at hstep
    · rename_i hattached
      cases hstep
      have hone : (s.calls i).status.attaches = 1 := by
        rcases hattached with hs | hs <;> rw [hs] <;> rfl
      have hinv := h.executor _ next hone hone
      refine ⟨holder, waiters, fun _ => rfl, ?_⟩
      simpa [State.put] using hinv
    · cases hstep
  | resume i =>
    simp only at hstep
    split at hstep
    · rename_i hattached
      cases hstep
      have hone : (s.calls i).status.attaches = 1 := by
        rw [hattached]
        rfl
      have hinv := h.executor .resumed (s.stack.next (.of i)) hone rfl
      refine ⟨holder, waiters, fun _ => rfl, ?_⟩
      simpa [State.put] using hinv
    · cases hstep

end Inv

/-- What every run keeps. -/
theorem Inv.of_run (h : Inv count s holder waiters) {as : List Action}
    (hrun : Run (Step count) s as s') :
    ∃ holder' waiters', (holder ≠ none → holder' = holder) ∧ Inv count s' holder' waiters' := by
  apply hrun.invariant fun s => ∃ holder' waiters', (holder ≠ none → holder' = holder) ∧
    Inv count s holder' waiters'
  · rintro s a s' ⟨holder₁, waiters₁, hsame₁, h₁⟩ hstep
    obtain ⟨holder₂, waiters₂, hsame₂, h₂⟩ := h₁.step hstep
    refine ⟨holder₂, waiters₂, fun hne => ?_, h₂⟩
    have heq := hsame₁ hne
    exact (hsame₂ (heq ▸ hne)).trans heq
  · exact ⟨holder, waiters, fun _ => rfl, h⟩

/-- A latch that was just made; it is closed when there is nothing to wait for. -/
theorem construct_inv (hcount : 0 ≤ count) : ∃ holder, Inv count (construct count) holder [] := by
  have hready : ∀ {P : Call → Prop}, P idle → ∀ i, P ((construct count).calls i) := fun hP _ => hP
  refine ⟨if count = 0 then some 0 else none, rfl, fun _ _ => rfl, ?_, hcount, fun _ => trivial,
    fun _ => trivial, ?_, List.nodup_nil, ?_, fun _ => rfl, ?_, ?_, ?_⟩
  · simp [construct, idle, Pc.pending]
  · intro hzero
    have hcount' : count = 0 := hzero
    exact Or.inl (by simp [construct, Stack.construct, hcount'])
  · simp [construct, idle]
  · intro hholder
    have hcount' : count ≠ 0 := by
      rintro heq
      simp [heq] at hholder
    constructor <;> simp [construct, Stack.construct, hcount']
  · intro hholder
    have hcount' : count = 0 := by
      by_contra hne
      simp [hne] at hholder
    simp [construct, Stack.construct, hcount']
  · intro i
    exact ite_self []

/-- When the counter is 0 and the calls that decrement it have returned, no
coroutine waits any more. -/
theorem Inv.none_left (h : Inv count s holder waiters) (hzero : s.counter = 0)
    (hreturned : ∀ i, (s.calls i).op ≠ .wait → (s.calls i).pc = .returned) :
    s.stack.top = some .closed_marker ∧ waiters = [] := by
  have hpc : ∀ i, (s.calls i).pc ≠ .close ∧ (∀ top, (s.calls i).pc ≠ .attach_list top) ∧
      ∀ top next, (s.calls i).pc ≠ .attach top next := by
    intro i
    have hknows := h.pc i
    by_cases hop : (s.calls i).op = .wait
    · refine ⟨?_, ?_, ?_⟩ <;> intros <;> intro heq <;> rw [heq] at hknows <;> exact hknows.2 hop
    · simp [hreturned i hop]
  have htop : s.stack.top = some .closed_marker := by
    rcases h.zero hzero with htop | ⟨i, hi⟩
    · exact htop
    · exact absurd hi (hpc i).1
  refine ⟨htop, ?_⟩
  cases holder with
  | none => exact absurd htop (h.stacked rfl).opened
  | some j =>
    obtain ⟨-, hlist, hattach⟩ := hpc j
    have hb := h.batch j
    rw [if_pos rfl] at hb
    cases hj : (s.calls j).pc with
    | attach_list top => exact absurd hj (hlist top)
    | attach top next => exact absurd hj (hattach top next)
    | _ =>
      rw [hj] at hb
      exact hb

/-- In every run no assertion fails and no coroutine goes on before the counter
is 0; a coroutine that suspended is attached once, and is attached when the
counter is 0 and all calls that decrement it returned; and a closed stack stays
closed. -/
theorem waiters_are_attached_once (hcount : 0 ≤ count) {as : List Action}
    (hrun : Run (Step count) (construct count) as s) :
    s.aborted = false ∧
    (∀ i, (s.calls i).status = .resumed ∨ (s.calls i).status = .passed → s.counter = 0) ∧
    (∀ i, s.attaches i =
      if (s.calls i).status = .attached ∨ (s.calls i).status = .resumed then 1 else 0) ∧
    (s.counter = 0 → (∀ i, (s.calls i).op ≠ .wait → (s.calls i).pc = .returned) →
      s.stack.top = some .closed_marker ∧ ∀ i, (s.calls i).status ≠ .waiting) ∧
    (s.stack.top = some .closed_marker → ∀ bs s', Run (Step count) s bs s' →
      s'.stack.top = some .closed_marker) := by
  obtain ⟨_, hconstruct⟩ := construct_inv hcount
  obtain ⟨holder, waiters, -, h⟩ := hconstruct.of_run hrun
  refine ⟨h.not_aborted, ?_, ?_, ?_, ?_⟩
  · intro i hi
    have hknows := h.status i
    rcases hi with hi | hi <;> rw [hi] at hknows <;> exact hknows
  · intro i
    rw [h.attaches i]
    cases (s.calls i).status <;> rfl
  · intro hzero hreturned
    obtain ⟨htop, rfl⟩ := h.none_left hzero hreturned
    refine ⟨htop, fun i hi => ?_⟩
    cases (h.waiting i).mpr hi
  · intro htop bs s' hrest
    obtain ⟨holder', waiters', hsame, h'⟩ := h.of_run hrest
    have hholder : holder ≠ none := fun hnone => (h.stacked hnone).opened htop
    have hholder' : holder' ≠ none := by rwa [hsame hholder]
    exact (h'.closed hholder').1

/-- A waiter and a coroutine that arrives are pushed; the last decrement attaches
both, and the executor resumes one of them. -/
theorem waiters_are_attached_once_of_two : ∃ as s, Run (Step 2) (construct 2) as s ∧
    s.counter = 0 ∧ s.attaches 0 = 1 ∧ s.attaches 1 = 1 ∧ s.aborted = false := by
  let as : List Action := [.call .wait, .call (.arrive_and_wait 1), .run 0, .run 0, .run 0, .run 1,
    .run 1, .run 1, .run 1, .run 1, .call (.count_down 1), .run 2, .run 2, .run 2, .run 2, .run 2,
    .run 2, .run 2, .run 2, .resume 0]
  obtain ⟨s, hrun, hfirst, hsecond⟩ : ∃ s, Run (Step 2) (construct 2) as s ∧
      (s.calls 0).status = .resumed ∧ (s.calls 1).status = .attached :=
    ⟨_, .cons rfl <| .cons rfl <| .cons rfl <| .cons rfl <| .cons rfl <| .cons rfl <| .cons rfl <|
      .cons rfl <| .cons rfl <| .cons rfl <| .cons rfl <| .cons rfl <| .cons rfl <| .cons rfl <|
      .cons rfl <| .cons rfl <| .cons rfl <| .cons rfl <| .cons rfl <| .cons rfl <| .nil _, rfl, rfl⟩
  obtain ⟨haborted, hpassed, hattaches, -, -⟩ := waiters_are_attached_once (by decide) hrun
  refine ⟨as, s, hrun, hpassed 0 (Or.inl hfirst), ?_, ?_, haborted⟩
  · rw [hattaches 0, if_pos (Or.inr hfirst)]
  · rw [hattaches 1, if_pos (Or.inl hsecond)]

end kelcoro.latch
