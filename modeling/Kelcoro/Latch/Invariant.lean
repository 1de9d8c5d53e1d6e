import Kelcoro.Latch.Model
import Mathlib

namespace kelcoro.latch

open kelcoro.lib kelcoro.nonowner_lockfree_stack Finset

/-- The decrement a call has still to do. -/
def Pc.pending : Pc → Int
  | .arrive_assert n | .push_load n | .push_exchange n | .count_down_assert n | .fetch_sub n => n
  | _ => 0

/-- The nodes a call that wakes the waiters up has still to attach. -/
def Pc.Batch (next : Node Nat → Option (Node Nat)) (nodes : List Nat) : Pc → Prop
  | .attach_list top => Linked next top (nodes.map .of)
  | .attach top rest => ∃ j js, nodes = j :: js ∧ top = .of j ∧ Linked next rest (js.map .of)
  | _ => nodes = []

def Status.attaches : Status → Nat
  | .attached | .resumed => 1
  | _ => 0

/-- What a call at `pc` knows about the counter, about its own coroutine, and
about the pointer its node holds. -/
def Pc.Knows (counter : Int) (next : Option (Node Nat)) (op : Op) (status : Status) : Pc → Prop
  | .arrive_assert n => 0 ≤ n ∧ status = .running ∧ op ≠ .wait
  | .await_ready | .try_push_load => status = .running
  | .try_push_exchange => status = .running ∧ (next = some .closed_marker → counter = 0)
  | .push_load n | .push_exchange n => 0 < n ∧ status = .running ∧ op ≠ .wait
  | .count_down_assert n | .fetch_sub n => 0 ≤ n ∧ op ≠ .wait
  | .close | .attach_list _ | .attach _ _ => counter = 0 ∧ op ≠ .wait
  | .returned => True

def Status.Knows (counter : Int) : Status → Prop
  | .running | .waiting => True
  | .attached | .resumed | .passed => counter = 0

/-- What holds of a latch at any time. `waiters` are the coroutines that wait to
be attached; they are in the stack, or `holder` took them out of it. -/
structure Inv (count : Int) (s : State) (holder : Option Nat) (waiters : List Nat) : Prop where
  not_aborted : s.aborted = false
  not_begun : ∀ i, s.begun ≤ i → s.calls i = idle
  counter : s.counter = count - s.decrements + ∑ i ∈ range s.begun, (s.calls i).pc.pending
  decrements : s.decrements ≤ count
  pc : ∀ i, (s.calls i).pc.Knows s.counter (s.stack.next (.of i)) (s.calls i).op (s.calls i).status
  status : ∀ i, (s.calls i).status.Knows s.counter
  zero : s.counter = 0 → s.stack.top = some .closed_marker ∨ ∃ i, (s.calls i).pc = .close
  nodup : waiters.Nodup
  waiting : ∀ i, i ∈ waiters ↔ (s.calls i).status = .waiting
  attaches : ∀ i, s.attaches i = (s.calls i).status.attaches
  stacked : holder = none → s.stack.Holds waiters
  closed : holder ≠ none → s.stack.top = some .closed_marker ∧ s.counter = 0
  batch : ∀ i, (s.calls i).pc.Batch s.stack.next (if holder = some i then waiters else [])

variable {count : Int} {s s' : State} {holder : Option Nat} {waiters : List Nat} {i : Nat}

theorem Pc.Knows.pending_nonneg {counter : Int} {next : Option (Node Nat)} {op : Op} {status : Status}
    {pc : Pc} (h : pc.Knows counter next op status) : 0 ≤ pc.pending := by
  cases pc <;> simp_all [Pc.Knows, Pc.pending] <;> omega

namespace Inv

theorem closed_zero (h : Inv count s holder waiters) (htop : s.stack.top = some .closed_marker) :
    s.counter = 0 := by
  cases holder with
  | none => exact absurd htop (h.stacked rfl).opened
  | some i => exact (h.closed (by simp)).2

/-- The counter has room for every decrement that is still to be done. -/
theorem pending_le (h : Inv count s holder waiters) (hi : i < s.begun) :
    (s.calls i).pc.pending ≤ s.counter := by
  have hle : (s.calls i).pc.pending ≤ ∑ i ∈ range s.begun, (s.calls i).pc.pending :=
    single_le_sum (fun j _ => (h.pc j).pending_nonneg) (mem_range.mpr hi)
  have hcounter := h.counter
  have hdecrements := h.decrements
  omega

theorem begun_of_pc (h : Inv count s holder waiters) (hpc : (s.calls i).pc ≠ .returned) :
    i < s.begun := by
  by_contra hnot
  rw [h.not_begun i (by omega)] at hpc
  exact hpc rfl

end Inv

theorem sum_update {f : Nat → Call} {n : Nat} (hi : i < n) (c : Call) :
    ∑ j ∈ range n, (Function.update f i c j).pc.pending =
      ∑ j ∈ range n, (f j).pc.pending - (f i).pc.pending + c.pc.pending := by
  have hmem : i ∈ range n := mem_range.mpr hi
  rw [← add_sum_erase _ _ hmem, ← add_sum_erase _ (fun j => (f j).pc.pending) hmem]
  have hrest : ∑ j ∈ (range n).erase i, (Function.update f i c j).pc.pending =
      ∑ j ∈ (range n).erase i, (f j).pc.pending := by
    apply sum_congr rfl
    intro j hj
    rw [Function.update_of_ne (ne_of_mem_erase hj)]
  rw [hrest, Function.update_self]
  omega

theorem Pc.Batch.congr {next next' : Node Nat → Option (Node Nat)} {nodes : List Nat} {pc : Pc}
    (h : pc.Batch next nodes) (hsame : ∀ j ∈ nodes, next' (.of j) = next (.of j)) :
    pc.Batch next' nodes := by
  have hlinked : ∀ {p js}, js ⊆ nodes → Linked next p (js.map .of) → Linked next' p (js.map .of) := by
    intro p js hsub hlinked
    apply hlinked.congr
    intro x hx
    obtain ⟨j, hj, rfl⟩ := List.mem_map.mp hx
    exact hsame j (hsub hj)
  cases pc with
  | attach_list top => exact hlinked (List.Subset.refl _) h
  | attach top rest =>
    obtain ⟨j, js, rfl, htop, hrest⟩ := h
    exact ⟨j, js, rfl, htop, hlinked (List.subset_cons_self j js) hrest⟩
  | _ => exact h

theorem Pc.Knows.mono {counter counter' : Int} {next : Option (Node Nat)} {op : Op} {status : Status}
    {pc : Pc} (h : pc.Knows counter next op status) (hzero : counter = 0 → counter' = 0) :
    pc.Knows counter' next op status := by
  cases pc <;> simp_all [Pc.Knows]

theorem Status.Knows.mono {counter counter' : Int} {status : Status} (h : status.Knows counter)
    (hzero : counter = 0 → counter' = 0) : status.Knows counter' := by
  cases status <;> simp_all [Status.Knows]

namespace Inv

/-- One call goes on, while nothing happens to the waiters. -/
theorem advance (h : Inv count s holder waiters) (hi : i < s.begun) {c : Call} {stack : Stack Nat}
    {counter : Int} {holder' : Option Nat}
    (hcounter : counter + (s.calls i).pc.pending = s.counter + c.pc.pending)
    (hzero : s.counter = 0 → counter = 0)
    (hpc : c.pc.Knows counter (stack.next (.of i)) c.op c.status) (hstatus : c.status.Knows counter)
    (hwaiting : c.status = .waiting ↔ (s.calls i).status = .waiting)
    (hattaches : c.status.attaches = (s.calls i).status.attaches)
    (hlast : counter = 0 → stack.top = some .closed_marker ∨ c.pc = .close ∨
      ∃ j, j ≠ i ∧ (s.calls j).pc = .close)
    (hstacked : holder' = none → stack.Holds waiters)
    (hclosed : holder' ≠ none → stack.top = some .closed_marker ∧ counter = 0)
    (hnext : ∀ j, (j = i → i ∈ waiters) → stack.next (.of j) = s.stack.next (.of j))
    (hother : ∀ j, j ≠ i → (holder' = some j ↔ holder = some j))
    (hbatch : c.pc.Batch stack.next (if holder' = some i then waiters else [])) :
    Inv count ({ s with stack := stack, counter := counter }.put i c) holder' waiters := by
  have hcalls : ∀ {P : Nat → Call → Prop}, P i c → (∀ j, j ≠ i → P j (s.calls j)) →
      ∀ j, P j (Function.update s.calls i c j) := by
    intro P hPi hP j
    by_cases hj : j = i
    · subst hj
      simpa using hPi
    · simpa [hj] using hP j hj
  constructor
  · exact h.not_aborted
  · intro j hj
    have hne : j ≠ i := by
      rintro rfl
      exact absurd hi (not_lt.mpr hj)
    exact (Function.update_of_ne hne ..).trans (h.not_begun j hj)
  · show counter = count - s.decrements + ∑ j ∈ range s.begun, (Function.update s.calls i c j).pc.pending
    have hold := h.counter
    rw [sum_update hi]
    omega
  · exact h.decrements
  · apply hcalls (P := fun j c => c.pc.Knows counter (stack.next (.of j)) c.op c.status) hpc
    intro j hj
    rw [hnext j fun heq => absurd heq hj]
    exact (h.pc j).mono hzero
  · exact hcalls (P := fun _ c => c.status.Knows counter) hstatus fun j _ => (h.status j).mono hzero
  · intro hcounter'
    rcases hlast hcounter' with htop | hclose | ⟨j, hj, hclose⟩
    · exact Or.inl htop
    · exact Or.inr ⟨i, by simpa [State.put] using hclose⟩
    · exact Or.inr ⟨j, by simpa [State.put, hj] using hclose⟩
  · exact h.nodup
  · exact hcalls (P := fun j c => j ∈ waiters ↔ c.status = .waiting) ((h.waiting i).trans hwaiting.symm)
      fun j _ => h.waiting j
  · exact hcalls (P := fun j c => s.attaches j = c.status.attaches) ((h.attaches i).trans hattaches.symm)
      fun j _ => h.attaches j
  · exact hstacked
  · exact hclosed
  · apply hcalls (P := fun j c => c.pc.Batch stack.next (if holder' = some j then waiters else [])) hbatch
    intro j hj
    simp only [hother j hj]
    apply (h.batch j).congr
    intro k hk
    split at hk
    · exact hnext k fun heq => heq ▸ hk
    · cases hk

/-- One call goes on, while nothing happens to the counter and to what the stack
points to; only nodes that are in no list are written. -/
theorem goes_on (h : Inv count s holder waiters) (hi : i < s.begun) {c : Call} {stack : Stack Nat}
    (hpending : c.pc.pending = (s.calls i).pc.pending)
    (hpc : c.pc.Knows s.counter (stack.next (.of i)) c.op c.status)
    (hstatus : c.status.Knows s.counter) (hwaiting : c.status = .waiting ↔ (s.calls i).status = .waiting)
    (hattaches : c.status.attaches = (s.calls i).status.attaches)
    (hclose : (s.calls i).pc = .close → c.pc = .close) (htop : stack.top = s.stack.top)
    (hnext : ∀ j, (j = i → i ∈ waiters) → stack.next (.of j) = s.stack.next (.of j))
    (hbatch : c.pc.Batch stack.next (if holder = some i then waiters else [])) :
    Inv count ({ s with stack := stack }.put i c) holder waiters := by
  refine h.advance hi (by rw [hpending]) id hpc hstatus hwaiting hattaches ?_ ?_ ?_ hnext
    (fun _ _ => Iff.rfl) hbatch
  · intro hzero
    rcases h.zero hzero with hclosed | ⟨j, hj⟩
    · exact Or.inl (htop.trans hclosed)
    · right
      by_cases hji : j = i
      · subst hji
        exact Or.inl (hclose hj)
      · exact Or.inr ⟨j, hji, hj⟩
  · intro hholder
    obtain ⟨hopened, hlinked⟩ := h.stacked hholder
    refine ⟨by rwa [htop], ?_⟩
    rw [htop]
    apply hlinked.congr
    intro x hx
    obtain ⟨j, hj, rfl⟩ := List.mem_map.mp hx
    exact hnext j fun heq => heq ▸ hj
  · intro hholder
    rw [htop]
    exact h.closed hholder

/-- A call goes on without writing anything. -/
theorem goto (h : Inv count s holder waiters) {pc pc' : Pc} (hi : (s.calls i).pc = pc)
    (hrunning : pc ≠ .returned) (hclose : pc ≠ .close) (hpending : pc'.pending = pc.pending)
    (hpc : pc'.Knows s.counter (s.stack.next (.of i)) (s.calls i).op (s.calls i).status)
    (hbatch : pc'.Batch s.stack.next (if holder = some i then waiters else [])) :
    Inv count (s.goto i pc') holder waiters := by
  subst hi
  exact h.goes_on (h.begun_of_pc hrunning) hpending hpc (h.status i) Iff.rfl rfl
    (fun heq => absurd heq hclose) rfl (fun _ _ => rfl) hbatch

/-- A call goes on after it wrote the `next` field of its own node, which is in
no list yet. -/
theorem load (h : Inv count s holder waiters) {pc pc' : Pc} (hi : (s.calls i).pc = pc)
    (hrunning : pc ≠ .returned) (hclose : pc ≠ .close) (hstatus : (s.calls i).status = .running)
    (hpending : pc'.pending = pc.pending)
    (hpc : pc'.Knows s.counter s.stack.top (s.calls i).op (s.calls i).status)
    (hbatch : pc'.Batch (s.stack.load i).next (if holder = some i then waiters else [])) :
    Inv count ({ s with stack := s.stack.load i }.goto i pc') holder waiters := by
  subst hi
  refine h.goes_on (h.begun_of_pc hrunning) hpending ?_ (h.status i) Iff.rfl rfl
    (fun heq => absurd heq hclose) rfl (fun j hj => ?_) hbatch
  · rwa [Stack.load_next_self]
  · apply Stack.load_next_of_ne
    rintro heq
    cases heq
    have hwaiting := (h.waiting i).mp (hj rfl)
    cases hstatus.symm.trans hwaiting

/-- A call ends because the latch is ready. -/
theorem pass (h : Inv count s holder waiters) {pc : Pc} (hi : (s.calls i).pc = pc)
    (hrunning : pc ≠ .returned) (hclose : pc ≠ .close) (hstatus : (s.calls i).status = .running)
    (hpending : pc.pending = 0) (hzero : s.counter = 0)
    (hbatch : (if holder = some i then waiters else []) = []) :
    Inv count (s.pass i) holder waiters := by
  subst hi
  exact h.goes_on (h.begun_of_pc hrunning) hpending.symm trivial hzero (by simp [hstatus])
    (by simp [hstatus, Status.attaches]) (fun heq => absurd heq hclose) rfl (fun _ _ => rfl) hbatch

/-- The decrement of a call; the call that brings the counter to 0 closes the
stack. -/
theorem fetch_sub (h : Inv count s holder waiters) {n : Int} (hi : (s.calls i).pc = .fetch_sub n)
    {pc : Pc} (hpc : pc = if s.counter = n then .close else .returned) :
    n ≤ s.counter ∧ Inv count ({ s with counter := s.counter - n }.goto i pc) holder waiters := by
  have hbegun : i < s.begun := h.begun_of_pc (by simp [hi])
  have hle : n ≤ s.counter := by
    have hpending := h.pending_le hbegun
    rwa [hi] at hpending
  have hknows := h.pc i
  have hb := h.batch i
  rw [hi] at hknows hb
  obtain ⟨hn, hop⟩ := hknows
  have hzero : s.counter = 0 → s.counter - n = 0 := by omega
  refine ⟨hle, h.advance hbegun ?_ hzero ?_ ((h.status i).mono hzero) Iff.rfl rfl ?_ h.stacked ?_
    (fun _ _ => rfl) (fun _ _ => Iff.rfl) ?_⟩
  · rw [hi, hpc]
    split <;> simp [Pc.pending]
  · show pc.Knows (s.counter - n) _ _ _
    subst hpc
    split
    · exact ⟨by omega, hop⟩
    · trivial
  · intro hlast
    right
    left
    show pc = .close
    rw [hpc, if_pos (by omega)]
  · intro hholder
    obtain ⟨hclosed, hcounter⟩ := h.closed hholder
    exact ⟨hclosed, hzero hcounter⟩
  · show pc.Batch _ _
    subst hpc
    by_cases hlast : s.counter = n
    · rw [if_pos hlast]
      exact hb
    · rw [if_neg hlast]
      exact hb

/-- The first `close` takes all waiters out of the stack. -/
theorem close (h : Inv count s none waiters) (hi : (s.calls i).pc = .close) :
    Inv count ({ s with stack := s.stack.close.2 }.goto i (.attach_list s.stack.close.1)) (some i)
      waiters := by
  have hbegun : i < s.begun := h.begun_of_pc (by simp [hi])
  have hknows := h.pc i
  rw [hi] at hknows
  refine h.advance hbegun (by rw [hi]; rfl) id hknows (h.status i) Iff.rfl rfl (fun _ => Or.inl rfl)
    (fun hholder => by cases hholder) (fun _ => ⟨rfl, hknows.1⟩) (fun _ _ => rfl) ?_ ?_
  · intro j hj
    simp [Ne.symm hj]
  · rw [if_pos rfl]
    exact (h.stacked rfl).close

/-- Another `close` finds nothing. -/
theorem close_again (h : Inv count s holder waiters) (hi : (s.calls i).pc = .close)
    (htop : s.stack.top = some .closed_marker) :
    Inv count ({ s with stack := s.stack.close.2 }.goto i (.attach_list s.stack.close.1)) holder
      waiters := by
  have hbegun : i < s.begun := h.begun_of_pc (by simp [hi])
  have hknows := h.pc i
  have hb := h.batch i
  rw [hi] at hknows hb
  refine h.advance hbegun (by rw [hi]; rfl) id hknows (h.status i) Iff.rfl rfl (fun _ => Or.inl rfl)
    ?_ (fun _ => ⟨rfl, hknows.1⟩) (fun _ _ => rfl) (fun _ _ => Iff.rfl) ?_
  · intro hholder
    exact absurd htop (h.stacked hholder).opened
  · have hnil : (if holder = some i then waiters else []) = [] := hb
    rw [hnil, Stack.close_closed htop]
    exact rfl

/-- A `compare_exchange_weak` pushes the node of a coroutine. -/
theorem suspend (h : Inv count s none waiters) {pc pc' : Pc} (hi : (s.calls i).pc = pc)
    (hrunning : pc ≠ .returned) (hclose : pc ≠ .close) (hstatus : (s.calls i).status = .running)
    (hpending : pc'.pending = pc.pending) (hpc : pc'.Knows s.counter s.stack.top (s.calls i).op .waiting)
    (htop : s.stack.top = s.stack.next (.of i)) (hbatch : pc'.Batch s.stack.next []) :
    Inv count ({ s with stack := { s.stack with top := some (.of i) } }.suspend i pc') none
      (i :: waiters) := by
  subst hi
  have hbegun := h.begun_of_pc hrunning
  have hnew : i ∉ waiters := by
    intro hmem
    have hwaiting := (h.waiting i).mp hmem
    cases hstatus.symm.trans hwaiting
  constructor
  · exact h.not_aborted
  · intro j hj
    have hne : j ≠ i := by
      rintro rfl
      exact absurd hbegun (not_lt.mpr hj)
    exact (Function.update_of_ne hne ..).trans (h.not_begun j hj)
  · have hcounter := h.counter
    show s.counter = count - s.decrements + ∑ j ∈ range s.begun, (Function.update s.calls i _ j).pc.pending
    rw [sum_update hbegun]
    simp only
    omega
  · exact h.decrements
  · intro j
    by_cases hj : j = i
    · subst hj
      simpa [State.suspend, State.put, ← htop] using hpc
    · simpa [State.suspend, State.put, hj] using h.pc j
  · intro j
    by_cases hj : j = i
    · subst hj
      simp [State.suspend, State.put, Status.Knows]
    · simpa [State.suspend, State.put, hj] using h.status j
  · intro hzero
    rcases h.zero hzero with hclosed | ⟨j, hj⟩
    · exact absurd hclosed (h.stacked rfl).opened
    · have hji : j ≠ i := by
        rintro rfl
        exact hclose hj
      exact Or.inr ⟨j, by simpa [State.suspend, State.put, hji] using hj⟩
  · exact List.nodup_cons.mpr ⟨hnew, h.nodup⟩
  · intro j
    by_cases hj : j = i
    · subst hj
      simp [State.suspend, State.put]
    · simpa [State.suspend, State.put, hj] using h.waiting j
  · intro j
    have hattaches := h.attaches j
    by_cases hj : j = i
    · subst hj
      simpa [State.suspend, State.put, hstatus, Status.attaches] using hattaches
    · simpa [State.suspend, State.put, hj] using hattaches
  · intro _
    exact (h.stacked rfl).push htop
  · intro hholder
    exact absurd rfl hholder
  · intro j
    by_cases hj : j = i
    · subst hj
      simpa [State.suspend, State.put] using hbatch
    · simpa [State.suspend, State.put, hj] using h.batch j

/-- The next waiter is attached to the executor. -/
theorem attach (h : Inv count s holder waiters) {j : Nat} {next : Option (Node Nat)}
    (hi : (s.calls i).pc = .attach (.of j) next) :
    ∃ js, waiters = j :: js ∧ Inv count ((s.attach j).goto i (.attach_list next)) holder js := by
  have hbegun : i < s.begun := h.begun_of_pc (by simp [hi])
  have hknows := h.pc i
  have hb := h.batch i
  rw [hi] at hknows hb
  obtain ⟨hzero, hop⟩ := hknows
  obtain ⟨j', js, hnodes, htop, hrest⟩ := hb
  cases htop
  have hholder : holder = some i := by
    by_contra hne
    rw [if_neg hne] at hnodes
    cases hnodes
  subst hholder
  rw [if_pos rfl] at hnodes
  subst hnodes
  obtain ⟨hj, hjs⟩ := List.nodup_cons.mp h.nodup
  have hwaiting : (s.calls j).status = .waiting := (h.waiting j).mp (by simp)
  have hjbegun : j < s.begun := by
    by_contra hnot
    rw [h.not_begun j (by omega)] at hwaiting
    cases hwaiting
  generalize hs' : (s.attach j).goto i (.attach_list next) = s'
  have hpc : ∀ k, (s'.calls k).pc = if k = i then .attach_list next else (s.calls k).pc := by
    intro k
    by_cases hki : k = i
    · subst hki
      simp [← hs', State.goto, State.attach, State.put]
    · by_cases hkj : k = j
      · subst hkj
        simp [← hs', State.goto, State.attach, State.put, hki]
      · simp [← hs', State.goto, State.attach, State.put, hki, hkj]
  have hstatus : ∀ k, (s'.calls k).status = if k = j then .attached else (s.calls k).status := by
    intro k
    by_cases hki : k = i <;> by_cases hkj : k = j <;>
      simp_all [← hs', State.goto, State.attach, State.put, Function.update]
  have hops : ∀ k, (s'.calls k).op = (s.calls k).op := by
    intro k
    by_cases hki : k = i <;> by_cases hkj : k = j <;>
      simp_all [← hs', State.goto, State.attach, State.put, Function.update]
  have hcounter : s'.counter = s.counter := by
    rw [← hs']
    rfl
  have hstack : s'.stack = s.stack := by
    rw [← hs']
    rfl
  refine ⟨js, rfl, ?_⟩
  constructor
  · rw [← hs']
    exact h.not_aborted
  · intro k hk
    have hk' : s.begun ≤ k := by rwa [← hs'] at hk
    have hki : k ≠ i := by omega
    have hkj : k ≠ j := by omega
    have hold := h.not_begun k hk'
    simpa [← hs', State.goto, State.attach, State.put, hki, hkj] using hold
  · have hsum : ∑ k ∈ range s.begun, (s'.calls k).pc.pending =
        ∑ k ∈ range s.begun, (s.calls k).pc.pending := by
      apply sum_congr rfl
      intro k _
      rw [hpc k]
      by_cases hki : k = i
      · rw [if_pos hki, hki, hi]
        rfl
      · rw [if_neg hki]
    have hold := h.counter
    rw [← hsum, ← hcounter] at hold
    rw [← hs'] at hold ⊢
    exact hold
  · rw [← hs']
    exact h.decrements
  · intro k
    rw [hpc k, hops k, hstatus k, hcounter, hstack]
    have hold := h.pc k
    by_cases hki : k = i
    · subst hki
      rw [if_pos rfl]
      exact ⟨hzero, hop⟩
    · rw [if_neg hki]
      by_cases hkj : k = j
      · subst hkj
        rw [hwaiting] at hold
        cases hkpc : (s.calls k).pc <;> simp_all [Pc.Knows]
      · rwa [if_neg hkj]
  · intro k
    rw [hstatus k, hcounter]
    by_cases hkj : k = j
    · rw [if_pos hkj]
      exact hzero
    · rw [if_neg hkj]
      exact h.status k
  · intro _
    rw [hstack]
    exact Or.inl (h.closed (by simp)).1
  · exact hjs
  · intro k
    rw [hstatus k]
    have hold := h.waiting k
    by_cases hkj : k = j
    · subst hkj
      simp [hj]
    · simpa [hkj] using hold
  · intro k
    rw [hstatus k]
    have hold := h.attaches k
    by_cases hkj : k = j
    · subst hkj
      rw [hwaiting] at hold
      simp [← hs', State.goto, State.attach, State.put, Status.attaches, hold]
    · simpa [← hs', State.goto, State.attach, State.put, hkj] using hold
  · intro hholder
    cases hholder
  · intro hholder
    rw [hstack, hcounter]
    exact h.closed hholder
  · intro k
    rw [hpc k, hstack]
    have hold := h.batch k
    by_cases hki : k = i
    · subst hki
      rw [if_pos rfl, if_pos rfl]
      exact hrest
    · have hne : some i ≠ some k := fun heq => hki (Option.some.inj heq).symm
      rw [if_neg hne] at hold ⊢
      rwa [if_neg hki]

end Inv

end kelcoro.latch
