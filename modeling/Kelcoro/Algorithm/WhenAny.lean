import Kelcoro.Algorithm.WhenAll
import Kelcoro.Lib.Log
import Kelcoro.Lib.Progress
import Mathlib

namespace kelcoro.when_any

open kelcoro.lib
open kelcoro.when_all (Expected)

/-- How a state keeps the result and the index of the task that it is of. -/
structure Result (V : Nat → Type) (E σ : Type) where
  construct : σ
  emplace : σ → (i : Nat) → Expected (V i) E → σ
  read : σ → Option ((i : Nat) × Expected (V i) E)
  read_emplace : ∀ result i outcome, read (emplace result i outcome) = some ⟨i, outcome⟩

/-- The `result` of a `when_any_state`, an optional variant. -/
def when_any_state (V : Nat → Type) (E : Type) : Result V E (Option ((i : Nat) × Expected (V i) E)) where
  construct := none
  emplace _ i outcome := some ⟨i, outcome⟩
  read result := result
  read_emplace _ _ _ := rfl

/-- A `job_for_when_any`, by what it does next: it looks whether the state has
expired, waits for its task, locks the state, calls `set_result` or
`set_exception`, calls `set_exception` after a construction that threw, transfers
control to the owner. -/
inductive Job (T E : Type) where
  | absent
  | created
  | resumed
  | waiting
  | completed (outcome : Expected T E)
  | locked (outcome : Expected T E)
  | thrown (e : E)
  | last
  | finished
  deriving DecidableEq, Repr

/-- The job has a `shared_ptr` to the state. -/
def Job.holds {T E : Type} : Job T E → Bool
  | .locked _ | .thrown _ => true
  | _ => false

/-- The job was resumed and has still to come to the end of it. -/
def Job.Busy {T E : Type} : Job T E → Prop
  | .resumed | .waiting | .completed _ | .locked _ | .thrown _ => True
  | _ => False

/-- The start loop accesses the frame of `when_any`, and resumes job `i`; and what
happens under the mutex: `set_result` stores the value of task `i`, or its
construction throws, `set_exception` stores an exception, a job finds that there
is no owner any more. -/
inductive Entry (V : Nat → Type) (E : Type) where
  | touch_loop
  | start (i : Nat)
  | succeeds (i : Nat) (v : V i)
  | throws (i : Nat)
  | fails (i : Nat) (e : E)
  | refused (i : Nat)

/-- A `when_any` of tasks with results of the types `V i`. `returned` are the
results of each time its coroutine went on to the `co_return`. -/
structure State (V : Nat → Type) (E σ : Type) where
  created : Nat
  started : Nat
  jobs : (i : Nat) → Job (V i) E
  result : σ
  count_waiters : Nat
  owner : Bool
  destroyed : Bool
  returned : List (Option ((i : Nat) × Expected (V i) E))
  log : List (Entry V E)

variable {V : Nat → Type} {E σ : Type}

/-- The coroutine comes to its `suspend_and`. -/
def construct (S : Result V E σ) (n : Nat) : State V E σ where
  created := 0
  started := 0
  jobs := fun _ => .absent
  result := S.construct
  count_waiters := n
  owner := true
  destroyed := false
  returned := []
  log := []

namespace State

def goto (s : State V E σ) (i : Nat) (job : Job (V i) E) : State V E σ :=
  { s with jobs := Function.update s.jobs i job }

def record (s : State V E σ) (e : Entry V E) : State V E σ := { s with log := e :: s.log }

/-- `state.expired()`: the frame of `when_any` is gone, and no job has a `shared_ptr`. -/
def expired (n : Nat) (s : State V E σ) : Bool :=
  s.destroyed && (List.range n).all fun i => !(s.jobs i).holds

end State

def set_exception (S : Result V E σ) (s : State V E σ) (i : Nat) (e : E) : State V E σ :=
  if s.owner then
    let count_waiters := s.count_waiters - 1
    let s := { s with
      result := S.emplace s.result i (.unexpected e)
      count_waiters := count_waiters }.record (.fails i e)
    if count_waiters = 0 then s.goto i .last else s.goto i .finished
  else (s.record (.refused i)).goto i .finished

def set_result (S : Result V E σ) (s : State V E σ) (i : Nat) (v : V i) : State V E σ :=
  if s.owner then
    ({ s with result := S.emplace s.result i (.value v), owner := false }.record (.succeeds i v)).goto i .last
  else (s.record (.refused i)).goto i .finished

/-- `set_result` where the construction throws; `left` is what it leaves of the
old result. -/
def set_result_throws (s : State V E σ) (i : Nat) (e : E) (left : σ) : Option (State V E σ) :=
  match s.jobs i with
  | .locked (.value _) =>
    if s.owner then some (({ s with result := left }.record (.throws i)).goto i (.thrown e)) else none
  | _ => none

/-- The next step of job `i`. -/
def run (S : Result V E σ) (n : Nat) (s : State V E σ) (i : Nat) : Option (State V E σ) :=
  match s.jobs i with
  | .resumed => some (if s.expired n then s.goto i .finished else s.goto i .waiting)
  | .completed outcome => some (if s.expired n then s.goto i .finished else s.goto i (.locked outcome))
  | .locked (.value v) => some (set_result S s i v)
  | .locked (.unexpected e) => some (set_exception S s i e)
  | .thrown e => some (set_exception S s i e)
  | .last => some ({ s with returned := S.read s.result :: s.returned }.goto i .finished)
  | _ => none

/-- The start loop creates a job, or resumes the next one when it has created all;
a task ends; a job goes on; the frame of `when_any`, which has returned, is
destroyed. -/
inductive Action (V : Nat → Type) (E σ : Type) where
  | create
  | start
  | complete (i : Nat) (outcome : Expected (V i) E)
  | run (i : Nat)
  | throw (i : Nat) (e : E) (left : σ)
  | destroy

def step (S : Result V E σ) (n : Nat) (s : State V E σ) : Action V E σ → Option (State V E σ)
  | .create =>
    if s.created < n then
      some (({ s with created := s.created + 1 }.record .touch_loop).goto s.created .created)
    else none
  | .start =>
    if s.created = n ∧ s.started < n then
      some (({ s with started := s.started + 1 }.record (.start s.started)).goto s.started .resumed)
    else none
  | .complete i outcome =>
    match s.jobs i with
    | .waiting => some (s.goto i (.completed outcome))
    | _ => none
  | .run i => run S n s i
  | .throw i e left => set_result_throws s i e left
  | .destroy => if s.returned.isEmpty then none else some { s with destroyed := true }

def Step (S : Result V E σ) (n : Nat) (s : State V E σ) (a : Action V E σ) (s' : State V E σ) : Prop :=
  step S n s a = some s'

/-- The first success of a log. -/
def succeeded : List (Entry V E) → Option ((i : Nat) × Expected (V i) E)
  | [] => none
  | .succeeds i v :: log => (succeeded log).or (some ⟨i, .value v⟩)
  | .touch_loop :: log | .start _ :: log | .throws _ :: log | .fails .. :: log | .refused _ :: log =>
    succeeded log

/-- The failures of a log, the last one first. -/
def failed : List (Entry V E) → List (Nat × E)
  | [] => []
  | .fails i e :: log => (i, e) :: failed log
  | .touch_loop :: log | .start _ :: log | .throws _ :: log | .succeeds .. :: log | .refused _ :: log =>
    failed log

/-- What the order in which the mutex was taken decides: the first task to succeed
or, when all have failed, the last one to fail. -/
def decision (n : Nat) (log : List (Entry V E)) : Option ((i : Nat) × Expected (V i) E) :=
  match succeeded log with
  | some r => some r
  | none =>
    if ∀ i, i < n → i ∈ (failed log).map Prod.fst then
      (failed log).head?.map fun p => ⟨p.1, .unexpected p.2⟩
    else none

/-- What may follow the entries of a log: the start loop leaves the frame alone
once it has resumed a job, and results are stored only until it is decided. -/
def Follows (n : Nat) (log : List (Entry V E)) : Entry V E → Prop
  | .touch_loop => ∀ i, .start i ∉ log
  | .start _ => True
  | .succeeds _ _ | .throws _ => decision n log = none
  | .fails i _ => decision n log = none ∧ i ∉ (failed log).map Prod.fst
  | .refused _ => succeeded log ≠ none

structure Inv (S : Result V E σ) (n : Nat) (s : State V E σ) : Prop where
  created : s.created ≤ n
  absent : ∀ i, s.created ≤ i → s.jobs i = .absent
  pending : ∀ i, s.started ≤ i → i < s.created → s.jobs i = .created
  lawful : Lawful (Follows n) s.log
  started : ∀ i, .start i ∈ s.log → s.created = n
  owner : s.owner = true ↔ succeeded s.log = none
  count : s.count_waiters + (failed s.log).length = n
  nodup : ((failed s.log).map Prod.fst).Nodup
  failed : ∀ i ∈ (failed s.log).map Prod.fst, i < n ∧ (s.jobs i = .last ∨ s.jobs i = .finished)
  undecided : decision n s.log = none → s.returned = [] ∧ ∀ i, s.jobs i ≠ .last
  decided : ∀ r, decision n s.log = some r → S.read s.result = some r ∧
    (s.returned = [some r] ∧ (∀ i, s.jobs i ≠ .last) ∨
      s.returned = [] ∧ ∃ i, s.jobs i = .last ∧ ∀ j, s.jobs j = .last → j = i)
  finished : ∀ i, s.jobs i = .finished → decision n s.log ≠ none ∨ i ∈ (when_any.failed s.log).map Prod.fst
  destroyed : s.destroyed = true → s.returned ≠ []

variable {S : Result V E σ} {n : Nat} {s s' : State V E σ} {i : Nat}

theorem decision_of_succeeded {log : List (Entry V E)} {r : (i : Nat) × Expected (V i) E}
    (h : succeeded log = some r) : decision n log = some r := by
  simp [decision, h]

theorem decision_eq_none (hn : 0 < n) {log : List (Entry V E)} :
    decision n log = none ↔ succeeded log = none ∧ ∃ i, i < n ∧ i ∉ (failed log).map Prod.fst := by
  unfold decision
  split
  · rename_i r hr
    simp [hr]
  · rename_i hnone
    split
    · rename_i hall
      refine iff_of_false ?_ fun ⟨_, i, hi, hnot⟩ => hnot (hall i hi)
      intro hhead
      rw [Option.map_eq_none_iff, List.head?_eq_none_iff] at hhead
      have hzero := hall 0 hn
      simp [hhead] at hzero
    · rename_i hall
      refine iff_of_true rfl ⟨hnone, ?_⟩
      by_contra hnot
      exact hall fun i hi => by_contra fun hmem => hnot ⟨i, hi, hmem⟩

theorem construct_inv (S : Result V E σ) (hn : 0 < n) : Inv S n (construct S n) := by
  have hnone : decision n ([] : List (Entry V E)) = none :=
    (decision_eq_none hn).mpr ⟨rfl, 0, hn, List.not_mem_nil⟩
  constructor <;> simp [construct, succeeded, when_any.failed, hnone]

/-- What is decided stays decided. -/
theorem decision_cons {log : List (Entry V E)} {e : Entry V E} {r : (i : Nat) × Expected (V i) E}
    (hfollows : Follows n log e) (hr : decision n log = some r) : decision n (e :: log) = some r := by
  cases e with
  | succeeds i v | throws i =>
    have hnone : decision n log = none := hfollows
    cases hnone.symm.trans hr
  | fails i e =>
    have hnone : decision n log = none := hfollows.1
    cases hnone.symm.trans hr
  | _ => exact hr

namespace Inv

/-- An entry that stores nothing. -/
theorem record (h : Inv S n s) {e : Entry V E} (hfollows : Follows n s.log e)
    (hsucceeded : succeeded (e :: s.log) = succeeded s.log)
    (hfailed : when_any.failed (e :: s.log) = when_any.failed s.log)
    (hstart : ∀ i, e = .start i → s.created = n) : Inv S n (s.record e) := by
  have hdecision : decision n (e :: s.log) = decision n s.log := by
    simp only [decision, hsucceeded, hfailed]
  constructor <;> dsimp only [State.record]
  · exact h.created
  · exact h.absent
  · exact h.pending
  · exact ⟨hfollows, h.lawful⟩
  · intro i hi
    rcases List.mem_cons.mp hi with heq | hi
    · exact hstart i heq.symm
    · exact h.started i hi
  · rw [hsucceeded]
    exact h.owner
  · rw [hfailed]
    exact h.count
  · rw [hfailed]
    exact h.nodup
  · rw [hfailed]
    exact h.failed
  · rw [hdecision]
    exact h.undecided
  · rw [hdecision]
    exact h.decided
  · rw [hdecision, hfailed]
    exact h.finished
  · exact h.destroyed

/-- A job goes on, and nothing is stored. -/
theorem goto (h : Inv S n s) {job : Job (V i) E} (hi : i < s.created) (hpending : s.started ≤ i → job = .created)
    (hlast : s.jobs i ≠ .last) (hfinished : s.jobs i ≠ .finished) (hjob : job ≠ .last)
    (hdone : job = .finished → decision n s.log ≠ none) : Inv S n (s.goto i job) := by
  have hother : ∀ j, j ≠ i → (s.goto i job).jobs j = s.jobs j := fun j hj => Function.update_of_ne hj ..
  have hself : (s.goto i job).jobs i = job := Function.update_self ..
  have hnotlast : ∀ j, (s.goto i job).jobs j = .last ↔ s.jobs j = .last := by
    intro j
    by_cases hj : j = i
    · subst hj
      rw [hself]
      exact iff_of_false hjob hlast
    · rw [hother j hj]
  exact { h with
    absent := fun j hj => by
      have hle : s.created ≤ j := hj
      rw [hother j (by omega)]
      exact h.absent j hle
    pending := fun j hj hlt => by
      by_cases hji : j = i
      · subst hji
        rw [hself]
        exact hpending hj
      · rw [hother j hji]
        exact h.pending j hj hlt
    failed := fun j hj => by
      obtain ⟨hlt, hpc⟩ := h.failed j hj
      have hji : j ≠ i := by
        rintro rfl
        exact hpc.elim hlast hfinished
      rw [hother j hji]
      exact ⟨hlt, hpc⟩
    undecided := fun hnone => by
      obtain ⟨hreturned, hnot⟩ := h.undecided hnone
      exact ⟨hreturned, fun j => (hnotlast j).not.mpr (hnot j)⟩
    decided := fun r hr => by
      obtain ⟨hread, hreturned⟩ := h.decided r hr
      refine ⟨hread, ?_⟩
      rcases hreturned with ⟨hreturned, hnone⟩ | ⟨hreturned, k, hk, hone⟩
      · exact Or.inl ⟨hreturned, fun j => (hnotlast j).not.mpr (hnone j)⟩
      · exact Or.inr ⟨hreturned, k, (hnotlast k).mpr hk, fun j hj => hone j ((hnotlast j).mp hj)⟩
    finished := fun j hj => by
      by_cases hji : j = i
      · subst hji
        rw [hself] at hj
        exact Or.inl (hdone hj)
      · rw [hother j hji] at hj
        exact h.finished j hj }

theorem lt_created (h : Inv S n s) (hbusy : (s.jobs i).Busy) : i < s.created := by
  by_contra hle
  rw [h.absent i (by omega)] at hbusy
  exact hbusy

theorem lt_started (h : Inv S n s) (hbusy : (s.jobs i).Busy) : i < s.started := by
  by_contra hle
  rw [h.pending i (by omega) (h.lt_created hbusy)] at hbusy
  exact hbusy

theorem lt (h : Inv S n s) (hbusy : (s.jobs i).Busy) : i < n :=
  Nat.lt_of_lt_of_le (h.lt_created hbusy) h.created

/-- A job that was resumed goes on, and nothing is stored. -/
theorem goes (h : Inv S n s) {job : Job (V i) E} (hbusy : (s.jobs i).Busy) (hjob : job ≠ .last)
    (hdone : job = .finished → decision n s.log ≠ none) : Inv S n (s.goto i job) := by
  have hstarted := h.lt_started hbusy
  apply h.goto (h.lt_created hbusy) (fun hle => by omega) _ _ hjob hdone
  · intro hpc
    rw [hpc] at hbusy
    exact hbusy
  · intro hpc
    rw [hpc] at hbusy
    exact hbusy

/-- While a job goes on and nobody has succeeded nothing is decided. -/
theorem undecided_of_busy (h : Inv S n s) (hn : 0 < n) (howner : s.owner = true)
    (hbusy : (s.jobs i).Busy) : decision n s.log = none ∧ i ∉ (when_any.failed s.log).map Prod.fst := by
  have hnot : i ∉ (when_any.failed s.log).map Prod.fst := by
    intro hmem
    rcases (h.failed i hmem).2 with hpc | hpc
    · rw [hpc] at hbusy
      exact hbusy
    · rw [hpc] at hbusy
      exact hbusy
  exact ⟨(decision_eq_none hn).mpr ⟨h.owner.mp howner, i, h.lt hbusy, hnot⟩, hnot⟩

/-- A job that finds no owner. -/
theorem refused (h : Inv S n s) (howner : ¬ s.owner = true) (hbusy : (s.jobs i).Busy) :
    Inv S n ((s.record (.refused i)).goto i .finished) := by
  have hsome : succeeded s.log ≠ none := fun hnone => howner (h.owner.mpr hnone)
  obtain ⟨r, hr⟩ := Option.ne_none_iff_exists'.mp hsome
  have hrecord : Inv S n (s.record (.refused i)) := h.record hsome rfl rfl (by simp)
  refine hrecord.goes hbusy (by simp) fun _ => ?_
  rw [show decision n (s.record (.refused i)).log = some r from decision_of_succeeded hr]
  simp

/-- A job stores an outcome: that decides the result, or the job is over. -/
theorem stores (h : Inv S n s) (hn : 0 < n) (howner : s.owner = true) (hbusy : (s.jobs i).Busy)
    {e : Entry V E} {result : σ} {count : Nat} {owner : Bool} {job : Job (V i) E} (hfollows : Follows n s.log e) (hstart : ∀ j, e ≠ .start j)
    (howner' : owner = true ↔ succeeded (e :: s.log) = none)
    (hcount : count + (when_any.failed (e :: s.log)).length = n)
    (hnodup : ((when_any.failed (e :: s.log)).map Prod.fst).Nodup)
    (hfailed : ∀ j ∈ (when_any.failed (e :: s.log)).map Prod.fst,
      j = i ∨ j ∈ (when_any.failed s.log).map Prod.fst)
    (hold : ∀ j ∈ (when_any.failed s.log).map Prod.fst, j ∈ (when_any.failed (e :: s.log)).map Prod.fst)
    (hdecision : decision n (e :: s.log) = none ∧ job = .finished ∧
        i ∈ (when_any.failed (e :: s.log)).map Prod.fst ∨
      ∃ r, decision n (e :: s.log) = some r ∧ S.read result = some r ∧ job = .last) :
    Inv S n (({ s with result := result, count_waiters := count, owner := owner }.record e).goto i job) := by
  obtain ⟨hnone, -⟩ := h.undecided_of_busy hn howner hbusy
  obtain ⟨hreturned, hnotlast⟩ := h.undecided hnone
  have hi := h.lt_created hbusy
  have hstarted := h.lt_started hbusy
  have hother : ∀ j, j ≠ i → (Function.update s.jobs i job) j = s.jobs j := fun j hj =>
    Function.update_of_ne hj ..
  have hself : (Function.update s.jobs i job) i = job := Function.update_self ..
  have hone : ∀ j, (Function.update s.jobs i job) j = .last → j = i := by
    intro j hj
    by_contra hji
    exact hnotlast j ((hother j hji).symm.trans hj)
  have hjob : job = .last ∨ job = .finished := by
    rcases hdecision with ⟨-, hjob, -⟩ | ⟨r, -, -, hjob⟩
    · exact Or.inr hjob
    · exact Or.inl hjob
  constructor <;> dsimp only [State.goto, State.record]
  · exact h.created
  · intro j hj
    rw [hother j (by omega)]
    exact h.absent j hj
  · intro j hj hlt
    rw [hother j (by omega)]
    exact h.pending j hj hlt
  · exact ⟨hfollows, h.lawful⟩
  · intro j hj
    rcases List.mem_cons.mp hj with heq | hj
    · exact absurd heq.symm (hstart j)
    · exact h.started j hj
  · exact howner'
  · exact hcount
  · exact hnodup
  · intro j hj
    by_cases hji : j = i
    · subst hji
      rw [hself]
      exact ⟨h.lt hbusy, hjob⟩
    · rw [hother j hji]
      exact h.failed j ((hfailed j hj).resolve_left hji)
  · intro hundecided
    refine ⟨hreturned, fun j hj => ?_⟩
    obtain rfl := hone j hj
    rcases hdecision with ⟨-, hjob, -⟩ | ⟨r, hr, -, -⟩
    · rw [hself, hjob] at hj
      cases hj
    · cases hundecided.symm.trans hr
  · intro r hr
    rcases hdecision with ⟨hundecided, -, -⟩ | ⟨r', hr', hread, hjob⟩
    · cases hundecided.symm.trans hr
    · obtain rfl : r' = r := Option.some.inj (hr'.symm.trans hr)
      exact ⟨hread, Or.inr ⟨hreturned, i, hself.trans hjob, hone⟩⟩
  · intro j hj
    rcases hdecision with ⟨-, -, hmem⟩ | ⟨r, hr, -, -⟩
    · by_cases hji : j = i
      · subst hji
        exact Or.inr hmem
      · rw [hother j hji] at hj
        exact Or.inr (hold j ((h.finished j hj).resolve_left fun hsome => hsome hnone))
    · exact Or.inl (by simp [hr])
  · exact h.destroyed

theorem set_exception (h : Inv S n s) (hn : 0 < n) {e : E} (hbusy : (s.jobs i).Busy) :
    Inv S n (when_any.set_exception S s i e) := by
  unfold when_any.set_exception
  by_cases howner : s.owner = true
  · obtain ⟨hnone, hnew⟩ := h.undecided_of_busy hn howner hbusy
    have hsucceeded := h.owner.mp howner
    have hnodup : (i :: (when_any.failed s.log).map Prod.fst).Nodup := List.nodup_cons.mpr ⟨hnew, h.nodup⟩
    have hbound : ∀ j ∈ i :: (when_any.failed s.log).map Prod.fst, j < n := by
      intro j hj
      rcases List.mem_cons.mp hj with rfl | hj
      · exact h.lt hbusy
      · exact (h.failed j hj).1
    have hlength := length_le_of_parties hnodup hbound
    have hall := length_eq_iff_parties hnodup hbound
    rw [List.length_cons, List.length_map] at hlength hall
    have hcount := h.count
    have hcount' : s.count_waiters - 1 + (when_any.failed (.fails i e :: s.log)).length = n := by
      rw [when_any.failed, List.length_cons]
      omega
    have hfollows : Follows n s.log (.fails i e) := ⟨hnone, hnew⟩
    have hiff : s.owner = true ↔ succeeded (.fails i e :: s.log) = none := h.owner
    rw [if_pos howner]
    by_cases hzero : s.count_waiters - 1 = 0
    · rw [if_pos hzero]
      have hevery := hall.mp (by omega)
      have hdecision : decision n (.fails i e :: s.log) = some ⟨i, .unexpected e⟩ := by
        unfold decision
        rw [show succeeded (.fails i e :: s.log) = none from hsucceeded]
        exact (if_pos hevery).trans rfl
      exact h.stores hn howner hbusy hfollows (by simp) hiff hcount' hnodup
        (fun j hj => List.mem_cons.mp hj) (fun j hj => List.mem_cons_of_mem _ hj)
        (Or.inr ⟨_, hdecision, S.read_emplace _ _ _, rfl⟩)
    · rw [if_neg hzero]
      have hnot : ¬ ∀ j, j < n → j ∈ i :: (when_any.failed s.log).map Prod.fst := by
        intro hevery
        have heq := hall.mpr hevery
        omega
      have hundecided : decision n (.fails i e :: s.log) = none := by
        unfold decision
        rw [show succeeded (.fails i e :: s.log) = none from hsucceeded]
        exact if_neg hnot
      exact h.stores hn howner hbusy hfollows (by simp) hiff hcount' hnodup
        (fun j hj => List.mem_cons.mp hj) (fun j hj => List.mem_cons_of_mem _ hj)
        (Or.inl ⟨hundecided, rfl, List.mem_cons_self ..⟩)
  · rw [if_neg howner]
    exact h.refused howner hbusy

theorem set_result (h : Inv S n s) (hn : 0 < n) {v : V i} (hbusy : (s.jobs i).Busy) :
    Inv S n (when_any.set_result S s i v) := by
  unfold when_any.set_result
  by_cases howner : s.owner = true
  · obtain ⟨hnone, -⟩ := h.undecided_of_busy hn howner hbusy
    have hsucceeded : succeeded (.succeeds i v :: s.log) = some ⟨i, .value v⟩ := by
      simp [succeeded, h.owner.mp howner]
    rw [if_pos howner]
    exact h.stores hn howner hbusy hnone (by simp) (by simp [hsucceeded]) h.count h.nodup
      (fun j hj => Or.inr hj) (fun j hj => hj)
      (Or.inr ⟨_, decision_of_succeeded hsucceeded, S.read_emplace _ _ _, rfl⟩)
  · rw [if_neg howner]
    exact h.refused howner hbusy

/-- A construction that throws spoils a result that is not decided. -/
theorem throw (h : Inv S n s) (hn : 0 < n) {e : E} {left : σ}
    (hstep : set_result_throws s i e left = some s') : Inv S n s' := by
  unfold set_result_throws at hstep
  cases hpc : s.jobs i with
  | locked outcome =>
    cases outcome with
    | value v =>
      simp only [hpc, Option.ite_none_right_eq_some, Option.some.injEq] at hstep
      obtain ⟨howner, rfl⟩ := hstep
      have hbusy : (s.jobs i).Busy := by simp [hpc, Job.Busy]
      obtain ⟨hnone, -⟩ := h.undecided_of_busy hn howner hbusy
      have hleft : Inv S n { s with result := left } :=
        { h with decided := fun r hr => by cases hnone.symm.trans hr }
      have hrecord : Inv S n ({ s with result := left }.record (.throws i)) :=
        hleft.record hnone rfl rfl (by simp)
      exact hrecord.goes hbusy (by simp) (by simp)
    | unexpected e => simp [hpc] at hstep
  | _ => simp [hpc] at hstep

/-- The owner is resumed, and returns the result. -/
theorem resumes (h : Inv S n s) (hpc : s.jobs i = .last) :
    Inv S n ({ s with returned := S.read s.result :: s.returned }.goto i .finished) := by
  have hsome : decision n s.log ≠ none := fun hnone => (h.undecided hnone).2 i hpc
  obtain ⟨r, hr⟩ := Option.ne_none_iff_exists'.mp hsome
  obtain ⟨hread, hcase⟩ := h.decided r hr
  have hone : s.returned = [] ∧ ∀ j, s.jobs j = .last → j = i := by
    rcases hcase with ⟨-, hnone⟩ | ⟨hreturned, k, hk, hone⟩
    · exact absurd hpc (hnone i)
    · refine ⟨hreturned, fun j hj => ?_⟩
      rw [hone j hj, hone i hpc]
  have hother : ∀ j, j ≠ i → (Function.update s.jobs i .finished) j = s.jobs j := fun j hj =>
    Function.update_of_ne hj ..
  have hself : (Function.update s.jobs i .finished) i = .finished := Function.update_self ..
  have hnotlast : ∀ j, (Function.update s.jobs i .finished) j ≠ .last := by
    intro j hj
    by_cases hji : j = i
    · subst hji
      simp at hj
    · exact hji (hone.2 j ((hother j hji).symm.trans hj))
  have hi : i < s.created := by
    by_contra hle
    cases hpc.symm.trans (h.absent i (by omega))
  exact { h with
    absent := fun j hj => by
      have hle : s.created ≤ j := hj
      exact (hother j (by omega)).trans (h.absent j hle)
    pending := fun j hj hlt => by
      have hold := h.pending j hj hlt
      have hji : j ≠ i := by
        rintro rfl
        cases hpc.symm.trans hold
      exact (hother j hji).trans hold
    failed := fun j hj => by
      refine ⟨(h.failed j hj).1, ?_⟩
      by_cases hji : j = i
      · subst hji
        exact Or.inr hself
      · dsimp only [State.goto]
        rw [hother j hji]
        exact (h.failed j hj).2
    undecided := fun hnone => absurd hnone hsome
    decided := fun r' hr' => by
      obtain rfl : r = r' := Option.some.inj (hr.symm.trans hr')
      refine ⟨hread, Or.inl ⟨?_, hnotlast⟩⟩
      dsimp only [State.goto]
      rw [hread, hone.1]
    finished := fun _ _ => Or.inl hsome
    destroyed := fun _ => List.cons_ne_nil _ _ }

theorem decided_of_expired (h : Inv S n s) (hexpired : s.expired n = true) : decision n s.log ≠ none := by
  intro hnone
  simp only [State.expired, Bool.and_eq_true] at hexpired
  exact h.destroyed hexpired.1 (h.undecided hnone).1

theorem run (h : Inv S n s) (hn : 0 < n) (hstep : when_any.run S n s i = some s') : Inv S n s' := by
  unfold when_any.run at hstep
  cases hpc : s.jobs i with
  | resumed | completed outcome =>
    have hbusy : (s.jobs i).Busy := by simp [hpc, Job.Busy]
    simp only [hpc, Option.some.injEq] at hstep
    split at hstep
    · rename_i hexpired
      subst hstep
      exact h.goes hbusy (by simp) fun _ => h.decided_of_expired hexpired
    · subst hstep
      exact h.goes hbusy (by simp) (by simp)
  | locked outcome =>
    have hbusy : (s.jobs i).Busy := by simp [hpc, Job.Busy]
    cases outcome with
    | value v =>
      simp only [hpc, Option.some.injEq] at hstep
      subst hstep
      exact h.set_result hn hbusy
    | unexpected e =>
      simp only [hpc, Option.some.injEq] at hstep
      subst hstep
      exact h.set_exception hn hbusy
  | thrown e =>
    simp only [hpc, Option.some.injEq] at hstep
    subst hstep
    exact h.set_exception hn (by simp [hpc, Job.Busy])
  | last =>
    simp only [hpc, Option.some.injEq] at hstep
    subst hstep
    exact h.resumes hpc
  | _ => simp [hpc] at hstep

theorem create (h : Inv S n s) (hstep : Step S n s .create s') : Inv S n s' := by
  simp only [Step, when_any.step, Option.ite_none_right_eq_some, Option.some.injEq] at hstep
  obtain ⟨hlt, rfl⟩ := hstep
  have hnostart : ∀ i, .start i ∉ s.log := fun i hi => by
    have heq := h.started i hi
    omega
  have habsent : s.jobs s.created = .absent := h.absent _ le_rfl
  have hother : ∀ j, j ≠ s.created → Function.update s.jobs s.created .created j = s.jobs j := fun j hj =>
    Function.update_of_ne hj ..
  have hself : Function.update s.jobs s.created .created s.created = .created := Function.update_self ..
  have hsame : ∀ j, (Function.update s.jobs s.created .created j = .last ↔ s.jobs j = .last) ∧
      (Function.update s.jobs s.created .created j = .finished ↔ s.jobs j = .finished) := by
    intro j
    by_cases hj : j = s.created
    · subst hj
      simp [habsent]
    · rw [hother j hj]
      exact ⟨Iff.rfl, Iff.rfl⟩
  have hrecord : Inv S n (s.record .touch_loop) := h.record hnostart rfl rfl (by simp)
  exact { hrecord with
    created := hlt
    absent := fun j hj => by
      have hle : s.created + 1 ≤ j := hj
      exact (hother j (by omega)).trans (h.absent j (by omega))
    pending := fun j hj hlt => by
      by_cases hjs : j = s.created
      · subst hjs
        exact hself
      · have hle : j < s.created + 1 := hlt
        exact (hother j hjs).trans (h.pending j hj (by omega))
    started := fun j hj => absurd (by simpa [State.goto, State.record] using hj) (hnostart j)
    failed := fun j hj => by
      obtain ⟨hlt, hpc⟩ := hrecord.failed j hj
      exact ⟨hlt, hpc.imp (hsame j).1.mpr (hsame j).2.mpr⟩
    undecided := fun hnone => by
      obtain ⟨hreturned, hnot⟩ := hrecord.undecided hnone
      exact ⟨hreturned, fun j => (hsame j).1.not.mpr (hnot j)⟩
    decided := fun r hr => by
      obtain ⟨hread, hreturned⟩ := hrecord.decided r hr
      refine ⟨hread, ?_⟩
      rcases hreturned with ⟨hreturned, hnot⟩ | ⟨hreturned, k, hk, hone⟩
      · exact Or.inl ⟨hreturned, fun j => (hsame j).1.not.mpr (hnot j)⟩
      · exact Or.inr ⟨hreturned, k, (hsame k).1.mpr hk, fun j hj => hone j ((hsame j).1.mp hj)⟩
    finished := fun j hj => hrecord.finished j ((hsame j).2.mp hj) }

theorem step (h : Inv S n s) (hn : 0 < n) {a : Action V E σ} (hstep : Step S n s a s') : Inv S n s' := by
  cases a with
  | create => exact h.create hstep
  | start =>
    simp only [Step, when_any.step, Option.ite_none_right_eq_some, Option.some.injEq] at hstep
    obtain ⟨⟨hcreated, hlt⟩, rfl⟩ := hstep
    have hpc : s.jobs s.started = .created := h.pending _ le_rfl (by omega)
    have hstarted : Inv S n { s with started := s.started + 1 } :=
      { h with pending := fun j hj => h.pending j (Nat.le_of_succ_le hj) }
    have hrecord : Inv S n ({ s with started := s.started + 1 }.record (.start s.started)) :=
      hstarted.record trivial rfl rfl fun _ _ => hcreated
    have hlast : s.jobs s.started ≠ .last := by simp [hpc]
    have hfinished : s.jobs s.started ≠ .finished := by simp [hpc]
    refine hrecord.goto (i := s.started) ?_ (fun hle => ?_) hlast hfinished (by simp) (by simp)
    · exact lt_of_lt_of_eq hlt hcreated.symm
    · exact absurd hle (Nat.not_succ_le_self _)
  | complete i outcome =>
    simp only [Step, when_any.step] at hstep
    split at hstep
    · rename_i hpc
      cases hstep
      exact h.goes (by simp [hpc, Job.Busy]) (by simp) (by simp)
    · cases hstep
  | run i => exact h.run hn hstep
  | throw i e left => exact h.throw hn hstep
  | destroy =>
    simp only [Step, when_any.step, Option.ite_none_left_eq_some, Option.some.injEq] at hstep
    obtain ⟨hreturned, rfl⟩ := hstep
    exact { h with destroyed := fun _ => by simpa using hreturned }

end Inv

theorem inv_of_run (hn : 0 < n) {as : List (Action V E σ)} (hrun : Run (Step S n) (construct S n) as s) :
    Inv S n s :=
  hrun.invariant (Inv S n) (fun _ _ _ h hstep => h.step hn hstep) (construct_inv S hn)

theorem set_exception_jobs {j : Nat} {e : E} (hij : i ≠ j) : (set_exception S s j e).jobs i = s.jobs i := by
  unfold set_exception
  split
  · dsimp only
    split <;> exact Function.update_of_ne hij ..
  · exact Function.update_of_ne hij ..

theorem set_exception_log {e : E} : ∃ entry, (set_exception S s i e).log = entry :: s.log := by
  unfold set_exception
  split
  · dsimp only
    split <;> exact ⟨_, rfl⟩
  · exact ⟨_, rfl⟩

theorem set_result_log {v : V i} : ∃ entry, (set_result S s i v).log = entry :: s.log := by
  unfold set_result
  split <;> exact ⟨_, rfl⟩

theorem step_log {a : Action V E σ} (hstep : Step S n s a s') : s'.log = s.log ∨ ∃ entry, s'.log = entry :: s.log := by
  cases a with
  | create | start =>
    obtain ⟨-, heq⟩ := Option.ite_none_right_eq_some.mp hstep
    cases heq
    exact .inr ⟨_, rfl⟩
  | complete j outcome =>
    simp only [Step, when_any.step] at hstep
    split at hstep
    case h_1 =>
      cases hstep
      exact .inl rfl
    case h_2 => cases hstep
  | run j =>
    simp only [Step, when_any.step, when_any.run] at hstep
    split at hstep <;> cases hstep
    · split <;> exact .inl rfl
    · split <;> exact .inl rfl
    · exact .inr set_result_log
    · exact .inr set_exception_log
    · exact .inr set_exception_log
    · exact .inl rfl
  | throw j e left =>
    simp only [Step, when_any.step, set_result_throws] at hstep
    split at hstep
    case h_1 =>
      obtain ⟨-, heq⟩ := Option.ite_none_right_eq_some.mp hstep
      cases heq
      exact .inr ⟨_, rfl⟩
    case h_2 => cases hstep
  | destroy =>
    obtain ⟨-, heq⟩ := Option.ite_none_left_eq_some.mp hstep
    cases heq
    exact .inl rfl

theorem decided_step (hn : 0 < n) (h : Inv S n s) {a : Action V E σ} (hstep : Step S n s a s')
    (hdecided : decision n s.log ≠ none) : decision n s'.log ≠ none := by
  have hlawful := (h.step hn hstep).lawful
  obtain ⟨r, hr⟩ := Option.ne_none_iff_exists'.mp hdecided
  obtain hlog | ⟨entry, hlog⟩ := step_log hstep
  · rwa [hlog]
  · rw [hlog] at hlawful ⊢
    rw [decision_cons hlawful.1 hr]
    simp

/-- A step that concerns job `i` while its outcome is on the way is one of that job. -/
theorem Inv.jobs_stay (h : Inv S n s) {a : Action V E σ} (hstep : Step S n s a s') {outcome : Expected (V i) E}
    (hjob : s.jobs i = .completed outcome ∨ s.jobs i = .locked outcome) :
    a = .run i ∨ (∃ e left, a = .throw i e left) ∨ s'.jobs i = s.jobs i := by
  have hne : ∀ {job : Job (V i) E}, s.jobs i = job → job ≠ .completed outcome ∧ job ≠ .locked outcome → False := by
    rintro job rfl ⟨hcompleted, hlocked⟩
    exact hjob.elim hcompleted hlocked
  cases a with
  | create =>
    simp only [Step, when_any.step, Option.ite_none_right_eq_some, Option.some.injEq] at hstep
    obtain ⟨-, rfl⟩ := hstep
    have hi : i ≠ s.created := by
      rintro rfl
      exact hne (h.absent _ le_rfl) (by simp)
    exact .inr (.inr (Function.update_of_ne hi ..))
  | start =>
    simp only [Step, when_any.step, Option.ite_none_right_eq_some, Option.some.injEq] at hstep
    obtain ⟨⟨hcreated, hlt⟩, rfl⟩ := hstep
    have hi : i ≠ s.started := by
      rintro rfl
      exact hne (h.pending _ le_rfl (by omega)) (by simp)
    exact .inr (.inr (Function.update_of_ne hi ..))
  | complete j outcome =>
    simp only [Step, when_any.step] at hstep
    split at hstep
    case h_1 hwaiting =>
      cases hstep
      have hi : i ≠ j := by
        rintro rfl
        exact hne hwaiting (by simp)
      exact .inr (.inr (Function.update_of_ne hi ..))
    case h_2 => cases hstep
  | run j =>
    by_cases hij : i = j
    · exact .inl (by rw [hij])
    · refine .inr (.inr ?_)
      simp only [Step, when_any.step, when_any.run] at hstep
      split at hstep <;> cases hstep
      · split <;> exact Function.update_of_ne hij ..
      · split <;> exact Function.update_of_ne hij ..
      · unfold when_any.set_result
        split <;> exact Function.update_of_ne hij ..
      · exact set_exception_jobs hij
      · exact set_exception_jobs hij
      · exact Function.update_of_ne hij ..
  | throw j e left =>
    by_cases hij : i = j
    · subst hij
      exact .inr (.inl ⟨e, left, rfl⟩)
    · refine .inr (.inr ?_)
      simp only [Step, when_any.step, set_result_throws] at hstep
      split at hstep
      case h_1 =>
        obtain ⟨-, heq⟩ := Option.ite_none_right_eq_some.mp hstep
        cases heq
        exact Function.update_of_ne hij ..
      case h_2 => cases hstep
  | destroy =>
    simp only [Step, when_any.step, Option.ite_none_left_eq_some, Option.some.injEq] at hstep
    obtain ⟨-, rfl⟩ := hstep
    exact .inr (.inr rfl)

/-- The value of task `i` is on its way to the state, or the result is decided. -/
def Succeeds (n : Nat) (s : State V E σ) (i : Nat) (v : V i) : Prop :=
  (s.jobs i = .completed (.value v) ∨ s.jobs i = .locked (.value v)) ∨ decision n s.log ≠ none

/-- It comes there, unless its construction throws. -/
theorem Succeeds.step (hn : 0 < n) {v : V i} (h : Succeeds n s i v) (hinv : Inv S n s) {a : Action V E σ}
    (hstep : Step S n s a s') (hthrow : ∀ e left, a ≠ .throw i e left) : Succeeds n s' i v := by
  obtain hjob | hdecided := h
  · obtain rfl | ⟨e, left, rfl⟩ | hsame := hinv.jobs_stay hstep hjob
    · simp only [Step, when_any.step, when_any.run] at hstep
      obtain hjob | hjob := hjob
      · rw [hjob] at hstep
        cases hstep
        split
        case isTrue hexpired => exact .inr (hinv.decided_of_expired hexpired)
        case isFalse => exact .inl (.inr (Function.update_self ..))
      · rw [hjob] at hstep
        cases hstep
        refine .inr ?_
        unfold set_result
        by_cases howner : s.owner = true
        · have hsucceeded : succeeded (.succeeds i v :: s.log) = some ⟨i, .value v⟩ := by
            simp [succeeded, hinv.owner.mp howner]
          rw [if_pos howner]
          show decision n (.succeeds i v :: s.log) ≠ none
          rw [decision_of_succeeded hsucceeded]
          simp
        · obtain ⟨r, hr⟩ := Option.ne_none_iff_exists'.mp fun hnone => howner (hinv.owner.mpr hnone)
          have hrefused : succeeded (.refused i :: s.log) = some r := hr
          rw [if_neg howner]
          show decision n (.refused i :: s.log) ≠ none
          rw [decision_of_succeeded hrefused]
          simp
    · exact absurd rfl (hthrow e left)
    · exact .inl (by rwa [hsame])
  · exact .inr (decided_step hn hinv hstep hdecided)

/-- What is decided was returned, or a job is about to resume the coroutine with it. -/
theorem Inv.returns (h : Inv S n s) {r : (i : Nat) × Expected (V i) E} (hr : decision n s.log = some r) :
    s.returned = [some r] ∨
      s.returned = [] ∧ ∃ i s', i < n ∧ Step S n s (.run i) s' ∧ s'.returned = [some r] := by
  obtain ⟨hread, hcase⟩ := h.decided r hr
  obtain ⟨hone, -⟩ | ⟨hnil, i, hi, -⟩ := hcase
  · exact .inl hone
  · have hlt : i < n := by
      by_contra hle
      cases hi.symm.trans (h.absent i (le_trans h.created (by omega)))
    have hrun : Step S n s (.run i) ({ s with returned := S.read s.result :: s.returned }.goto i .finished) := by
      simp only [Step, when_any.step, when_any.run, hi]
    exact .inr ⟨hnil, i, _, hlt, hrun, by simp [State.goto, hread, hnil]⟩

/-- The task of the job has not ended, as far as the job knows. -/
def Job.Pending {T E : Type} : Job T E → Prop
  | .absent | .created | .waiting => True
  | _ => False

end kelcoro.when_any
