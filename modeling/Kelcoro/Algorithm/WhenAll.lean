import Kelcoro.Lib.Parties
import Kelcoro.Lib.Run
import Mathlib

namespace kelcoro.when_all

open kelcoro.lib Finset

/-- `expected<T, std::exception_ptr>`. -/
inductive Expected (T E : Type) where
  | value (v : T)
  | unexpected (e : E)
  deriving DecidableEq, Repr

/-- A `job_for_when_all`, by what it does next. -/
inductive Job (T E : Type) where
  | absent
  | waiting
  | completed (outcome : Expected T E)
  | stored
  | last
  | finished
  deriving DecidableEq, Repr

/-- What happens to the frame of the `when_all` coroutine: the start loop or a
job accesses its tasks, results or count, job `i` is started, decrements the
count, or transfers control to the coroutine. -/
inductive Event where
  | touch_loop
  | start (i : Nat)
  | touch (i : Nat)
  | decrement (i : Nat)
  | resume (i : Nat)
  deriving DecidableEq, Repr

/-- A `when_all` of tasks with results of the types `V i`. `returned` are the
results of each time its coroutine went on to the `co_return`; `outcomes` is how
the tasks ended. -/
structure State (V : Nat → Type) (E : Type) where
  started : Nat
  jobs : (i : Nat) → Job (V i) E
  results : (i : Nat) → Option (Expected (V i) E)
  count : Nat
  outcomes : (i : Nat) → Option (Expected (V i) E)
  returned : List ((i : Nat) → Option (Expected (V i) E))
  log : List Event

variable {V : Nat → Type} {E : Type}

/-- The coroutine comes to its `suspend_and`; without tasks it returns at once. -/
def construct (V : Nat → Type) (E : Type) (n : Nat) : State V E where
  started := 0
  jobs := fun _ => .absent
  results := fun _ => none
  count := n
  outcomes := fun _ => none
  returned := if n = 0 then [fun _ => none] else []
  log := []

namespace State

def goto (s : State V E) (i : Nat) (job : Job (V i) E) : State V E :=
  { s with jobs := Function.update s.jobs i job }

def record (s : State V E) (e : Event) : State V E := { s with log := s.log ++ [e] }

@[simp] theorem record_started (s : State V E) (e : Event) : (s.record e).started = s.started := rfl

@[simp] theorem record_jobs (s : State V E) (e : Event) : (s.record e).jobs = s.jobs := rfl

end State

/-- The next step of job `i`. -/
def run (s : State V E) (i : Nat) : Option (State V E) :=
  match s.jobs i with
  | .completed outcome =>
    let s := s.record (.touch i)
    some ({ s with results := Function.update s.results i (some outcome) }.goto i .stored)
  | .stored =>
    let s := (s.record (.touch i)).record (.decrement i)
    let c := s.count
    let s := { s with count := c - 1 }
    if c = 1 then some (s.goto i .last) else some (s.goto i .finished)
  | .last =>
    let s := s.record (.resume i)
    some ({ s with returned := s.returned ++ [s.results] }.goto i .finished)
  | _ => none

/-- The start loop creates the next job, which starts its task; a task ends; a
job goes on. A task that ends at once does so right after it was started. -/
inductive Action (V : Nat → Type) (E : Type) where
  | start
  | complete (i : Nat) (outcome : Expected (V i) E)
  | run (i : Nat)

def step (n : Nat) (s : State V E) : Action V E → Option (State V E)
  | .start =>
    if s.started < n then
      let s := ((s.record .touch_loop).record (.start s.started)).record (.touch s.started)
      some ({ s with started := s.started + 1 }.goto s.started .waiting)
    else none
  | .complete i outcome =>
    match s.jobs i with
    | .waiting =>
      some ({ s with outcomes := Function.update s.outcomes i (some outcome) }.goto i
        (.completed outcome))
    | _ => none
  | .run i => run s i

def Step (n : Nat) (s : State V E) (a : Action V E) (s' : State V E) : Prop :=
  step n s a = some s'

/-- An access to the frame that comes too late: of a job after its decrement, of
the loop after the last start, of anyone after the coroutine was resumed. -/
def Late (n : Nat) : Event → Event → Prop
  | .decrement i, .touch j => i = j
  | .start i, .touch_loop => i + 1 = n
  | .resume _, .touch _ | .resume _, .touch_loop => True
  | _, _ => False

/-- What a job has still to take from the count. -/
def Job.left {T : Type} : Job T E → Nat
  | .last | .finished => 0
  | _ => 1

/-- What is known of the task of a job, and of its place in the results. -/
def Job.Stored {T : Type} (outcome result : Option (Expected T E)) : Job T E → Prop
  | .absent | .waiting => outcome = none
  | .completed o => outcome = some o
  | .stored | .last | .finished => ∃ o, outcome = some o ∧ result = some o

structure Inv (n : Nat) (s : State V E) : Prop where
  started_le : s.started ≤ n
  absent : ∀ i, s.jobs i = .absent ↔ s.started ≤ i
  count : s.count = ∑ i ∈ range n, (s.jobs i).left
  stored : ∀ i, (s.jobs i).Stored (s.outcomes i) (s.results i)
  last : ∀ i, s.jobs i = .last → s.count = 0 ∧ s.returned = [] ∧ ∀ j, s.jobs j = .last → j = i
  returned : s.returned = [] ∨ ∃ results, s.returned = [results] ∧ s.count = 0 ∧
    ∀ i, i < n → ∃ o, s.outcomes i = some o ∧ results i = some o
  zero : s.count = 0 → s.returned ≠ [] ∨ ∃ i, s.jobs i = .last
  log : s.log.Pairwise fun a b => ¬ Late n a b
  logged_start : ∀ i, .start i ∈ s.log → i < s.started
  logged_decrement : ∀ i, .decrement i ∈ s.log → (s.jobs i).left = 0
  logged_resume : ∀ i, .resume i ∈ s.log → s.returned ≠ []

variable {n : Nat} {s s' : State V E} {i : Nat}

theorem construct_inv (V : Nat → Type) (E : Type) (n : Nat) : Inv n (construct V E n) := by
  constructor <;> simp [construct, Job.left, Job.Stored]
  by_cases hn : n = 0 <;> simp [hn]

namespace Inv

/-- A job that has still to decrement keeps the coroutine suspended. -/
theorem suspended (h : Inv n s) (hi : i < n) (hleft : (s.jobs i).left = 1) :
    0 < s.count ∧ s.returned = [] := by
  have hle : (s.jobs i).left ≤ ∑ j ∈ range n, (s.jobs j).left :=
    single_le_sum (f := fun j => (s.jobs j).left) (fun _ _ => Nat.zero_le _) (mem_range.mpr hi)
  have hcount := h.count
  have hpos : 0 < s.count := by omega
  refine ⟨hpos, ?_⟩
  rcases h.returned with hnil | ⟨results, -, hzero, -⟩
  · exact hnil
  · omega

theorem lt_of_ne_absent (h : Inv n s) (hi : s.jobs i ≠ .absent) : i < n := by
  have habsent := h.absent i
  have hstarted := h.started_le
  by_contra hnot
  exact hi (habsent.mpr (by omega))

/-- An access by a job that has still to decrement is not late. -/
theorem touch_in_time (h : Inv n s) (hi : i < n) (hleft : (s.jobs i).left = 1) :
    ∀ a ∈ s.log, ¬ Late n a (.touch i) := by
  intro a ha hlate
  cases a with
  | decrement j =>
    cases hlate
    have hdone := h.logged_decrement i ha
    omega
  | resume j => exact h.logged_resume j ha (h.suspended hi hleft).2
  | _ => exact hlate

/-- A job that has still to decrement goes on, and the coroutine is suspended
before and after it. -/
theorem goes_on (h : Inv n s) (hi : i < n) (hleft : (s.jobs i).left = 1) {job : Job (V i) E}
    (hjobs : s'.jobs = Function.update s.jobs i job) (hjob : job.left = 1)
    (hcount : s'.count = s.count) (hreturned : s'.returned = s.returned)
    (hstarted : s.started ≤ s'.started ∧ s'.started ≤ n)
    (habsent : ∀ j, s'.jobs j = .absent ↔ s'.started ≤ j)
    (hstored : job.Stored (s'.outcomes i) (s'.results i))
    (hother : ∀ j, j ≠ i → s'.outcomes j = s.outcomes j ∧ s'.results j = s.results j)
    (hlog : s'.log.Pairwise fun a b => ¬ Late n a b)
    (hevents : ∀ e ∈ s'.log, e ∈ s.log ∨ e = .touch_loop ∨ e = .touch i ∨
      (e = .start i ∧ i < s'.started)) : Inv n s' := by
  obtain ⟨hpos, hnil⟩ := h.suspended hi hleft
  have hsame : ∀ j, j ≠ i → s'.jobs j = s.jobs j := by
    intro j hj
    rw [hjobs, Function.update_of_ne hj]
  have hself : s'.jobs i = job := by rw [hjobs, Function.update_self]
  have hlefts : ∀ j, (s'.jobs j).left = (s.jobs j).left := by
    intro j
    by_cases hj : j = i
    · subst hj
      rw [hself, hjob, hleft]
    · rw [hsame j hj]
  have hnotlast : ∀ j, s'.jobs j ≠ .last := by
    intro j hj
    have hzero : (s.jobs j).left = 0 := by
      rw [← hlefts j, hj]
      rfl
    have hji : j ≠ i := by
      rintro rfl
      omega
    rw [hsame j hji] at hj
    have hcount' := (h.last j hj).1
    omega
  constructor
  · exact hstarted.2
  · exact habsent
  · rw [hcount, h.count]
    exact sum_congr rfl fun j _ => (hlefts j).symm
  · intro j
    by_cases hj : j = i
    · subst hj
      rwa [hself]
    · obtain ⟨houtcome, hresult⟩ := hother j hj
      rw [hsame j hj, houtcome, hresult]
      exact h.stored j
  · exact fun j hj => absurd hj (hnotlast j)
  · exact Or.inl (hreturned.trans hnil)
  · intro hzero
    omega
  · exact hlog
  · intro j hj
    rcases hevents _ hj with hold | heq | heq | ⟨heq, hlt⟩
    · exact lt_of_lt_of_le (h.logged_start j hold) hstarted.1
    · cases heq
    · cases heq
    · cases heq
      exact hlt
  · intro j hj
    rw [hlefts j]
    rcases hevents _ hj with hold | heq | heq | ⟨heq, -⟩
    · exact h.logged_decrement j hold
    · cases heq
    · cases heq
    · cases heq
  · intro j hj
    rw [hreturned]
    rcases hevents _ hj with hold | heq | heq | ⟨heq, -⟩
    · exact h.logged_resume j hold
    · cases heq
    · cases heq
    · cases heq

/-- The start loop starts the next task. -/
theorem start (h : Inv n s) (hlt : s.started < n) (hstep : Step n s .start s') : Inv n s' := by
  have habsent : s.jobs s.started = .absent := (h.absent _).mpr le_rfl
  have hleft : (s.jobs s.started).left = 1 := by
    rw [habsent]
    rfl
  obtain ⟨-, hnil⟩ := h.suspended hlt hleft
  unfold Step step at hstep
  rw [if_pos hlt] at hstep
  cases hstep
  refine h.goes_on hlt hleft rfl rfl rfl rfl ⟨Nat.le_succ _, hlt⟩ ?_ ?_ (fun _ _ => ⟨rfl, rfl⟩) ?_ ?_
  · intro j
    by_cases hj : j = s.started
    · subst hj
      simp [State.goto]
    · have hold := h.absent j
      simp only [State.goto, State.record_jobs, State.record_started, Function.update_of_ne hj]
      exact hold.trans ⟨fun hle => by omega, fun hle => by omega⟩
  · have hstored := h.stored s.started
    rw [habsent] at hstored
    exact hstored
  · have hloop : ∀ a ∈ s.log, ¬ Late n a .touch_loop := by
      intro a ha hlate
      cases a with
      | start j =>
        have hstart := h.logged_start j ha
        have heq : j + 1 = n := hlate
        omega
      | resume j => exact h.logged_resume j ha hnil
      | _ => exact hlate
    have hstart : ∀ a ∈ s.log ++ [.touch_loop], ¬ Late n a (.start s.started) := by
      intro a _ hlate
      cases a <;> exact hlate
    refine pairwise_snoc (pairwise_snoc (pairwise_snoc h.log hloop) hstart) ?_
    intro a ha hlate
    rcases List.mem_append.mp ha with ha | ha
    · rcases List.mem_append.mp ha with ha | ha
      · exact h.touch_in_time hlt hleft a ha hlate
      · cases List.mem_singleton.mp ha
        exact hlate
    · cases List.mem_singleton.mp ha
      exact hlate
  · intro e he
    simp only [State.goto, State.record, List.append_assoc, List.mem_append, List.mem_cons] at he ⊢
    grind

/-- A task ends. -/
theorem complete (h : Inv n s) {outcome : Expected (V i) E} (hstep : Step n s (.complete i outcome) s') :
    Inv n s' := by
  unfold Step step at hstep
  cases hjob : s.jobs i with
  | waiting =>
    have hleft : (s.jobs i).left = 1 := by
      rw [hjob]
      rfl
    have hi : i < n := h.lt_of_ne_absent (by simp [hjob])
    simp only [hjob] at hstep
    cases hstep
    refine h.goes_on hi hleft rfl rfl rfl rfl ⟨le_rfl, h.started_le⟩ ?_ ?_ ?_ h.log fun e he => Or.inl he
    · intro j
      by_cases hj : j = i
      · subst hj
        have hold := h.absent j
        simpa [State.goto, hjob] using hold
      · simpa [State.goto, hj] using h.absent j
    · simp [State.goto, Job.Stored]
    · intro j hj
      simp [State.goto, hj]
  | _ => simp [hjob] at hstep

/-- The decrement of a job; the one that takes the last off is the only one to
transfer control. -/
theorem decrement (h : Inv n s) (hjob : s.jobs i = .stored) {job : Job (V i) E}
    (heq : job = if s.count = 1 then .last else .finished)
    (hjobs : s'.jobs = Function.update s.jobs i job) (hcount : s'.count = s.count - 1)
    (hrest : s'.started = s.started ∧ s'.results = s.results ∧ s'.outcomes = s.outcomes ∧
      s'.returned = s.returned ∧ s'.log = (s.log ++ [.touch i]) ++ [.decrement i]) : Inv n s' := by
  obtain ⟨hstarted, hresults, houtcomes, hreturned, hlog⟩ := hrest
  have hleft : (s.jobs i).left = 1 := by
    rw [hjob]
    rfl
  have hi : i < n := h.lt_of_ne_absent (by simp [hjob])
  obtain ⟨hpos, hnil⟩ := h.suspended hi hleft
  have hself : s'.jobs i = job := by rw [hjobs, Function.update_self]
  have hsame : ∀ j, j ≠ i → s'.jobs j = s.jobs j := by
    intro j hj
    rw [hjobs, Function.update_of_ne hj]
  have hdone : job.left = 0 ∧ job ≠ .absent := by
    rw [heq]
    split <;> simp [Job.left]
  have hlast : ∀ j, s'.jobs j = .last → j = i ∧ s.count = 1 := by
    intro j hj
    have hji : j = i := by
      by_contra hne
      rw [hsame j hne] at hj
      have hzero := (h.last j hj).1
      omega
    subst hji
    rw [hself, heq] at hj
    split at hj
    · exact ⟨rfl, by assumption⟩
    · cases hj
  have hevents : ∀ e, e ∈ s'.log → e ∈ s.log ∨ e = .touch i ∨ e = .decrement i := by
    intro e he
    rw [hlog] at he
    simpa [or_assoc] using he
  constructor
  · rw [hstarted]
    exact h.started_le
  · intro j
    rw [hstarted]
    have hold := h.absent j
    by_cases hj : j = i
    · subst hj
      rw [hself]
      simp_all
    · rw [hsame j hj]
      exact hold
  · have hsum := sum_moved (f := fun j => (s.jobs j).left) (g := fun j => (s'.jobs j).left) hi
      fun j hj => by rw [hsame j hj]
    simp only [hself, hdone.1, hleft] at hsum
    have hold := h.count
    omega
  · intro j
    rw [houtcomes, hresults]
    have hold := h.stored j
    by_cases hj : j = i
    · subst hj
      rw [hjob] at hold
      rw [hself, heq]
      split <;> exact hold
    · rw [hsame j hj]
      exact hold
  · intro j hj
    obtain ⟨rfl, hone⟩ := hlast j hj
    exact ⟨by omega, hreturned.trans hnil, fun k hk => (hlast k hk).1⟩
  · exact Or.inl (hreturned.trans hnil)
  · intro hzero
    refine Or.inr ⟨i, ?_⟩
    rw [hself, heq, if_pos (by omega)]
  · rw [hlog]
    refine pairwise_snoc (pairwise_snoc h.log (h.touch_in_time hi hleft)) fun a _ hlate => ?_
    cases a <;> exact hlate
  · intro j hj
    rw [hstarted]
    rcases hevents _ hj with hold | heq | heq
    · exact h.logged_start j hold
    · cases heq
    · cases heq
  · intro j hj
    by_cases hji : j = i
    · subst hji
      rw [hself]
      exact hdone.1
    · rw [hsame j hji]
      rcases hevents _ hj with hold | heq | heq
      · exact h.logged_decrement j hold
      · cases heq
      · cases heq
        exact absurd rfl hji
  · intro j hj
    rw [hreturned]
    rcases hevents _ hj with hold | heq | heq
    · exact h.logged_resume j hold
    · cases heq
    · cases heq

/-- The last job resumes the coroutine, which returns the outcomes of all
tasks. -/
theorem transfer (h : Inv n s) (hjob : s.jobs i = .last)
    (hjobs : s'.jobs = Function.update s.jobs i .finished)
    (hreturned : s'.returned = s.returned ++ [s.results])
    (hrest : s'.started = s.started ∧ s'.results = s.results ∧ s'.outcomes = s.outcomes ∧
      s'.count = s.count ∧ s'.log = s.log ++ [.resume i]) : Inv n s' := by
  obtain ⟨hstarted, hresults, houtcomes, hcount, hlog⟩ := hrest
  obtain ⟨hzero, hnil, honly⟩ := h.last i hjob
  rw [hnil, List.nil_append] at hreturned
  have hself : s'.jobs i = .finished := by rw [hjobs, Function.update_self]
  have hsame : ∀ j, j ≠ i → s'.jobs j = s.jobs j := by
    intro j hj
    rw [hjobs, Function.update_of_ne hj]
  have hlefts : ∀ j, (s'.jobs j).left = (s.jobs j).left := by
    intro j
    by_cases hj : j = i
    · subst hj
      rw [hself, hjob]
      rfl
    · rw [hsame j hj]
  have hevents : ∀ e, e ∈ s'.log → e ∈ s.log ∨ e = .resume i := by
    intro e he
    rw [hlog] at he
    simpa using he
  constructor
  · rw [hstarted]
    exact h.started_le
  · intro j
    rw [hstarted]
    have hold := h.absent j
    by_cases hj : j = i
    · subst hj
      rw [hself]
      simp_all
    · rw [hsame j hj]
      exact hold
  · rw [hcount, h.count]
    exact sum_congr rfl fun j _ => (hlefts j).symm
  · intro j
    rw [houtcomes, hresults]
    have hold := h.stored j
    by_cases hj : j = i
    · subst hj
      rw [hjob] at hold
      rw [hself]
      exact hold
    · rw [hsame j hj]
      exact hold
  · intro j hj
    have hji : j ≠ i := by
      rintro rfl
      cases hself.symm.trans hj
    rw [hsame j hji] at hj
    exact absurd (honly j hj) hji
  · refine Or.inr ⟨s.results, hreturned, hcount.trans hzero, fun j hj => ?_⟩
    rw [houtcomes]
    have hdone : (s.jobs j).left = 0 := by
      have hsum := h.count
      rw [hzero] at hsum
      exact sum_eq_zero_iff.mp hsum.symm j (mem_range.mpr hj)
    have hold := h.stored j
    cases hj : s.jobs j with
    | last | finished =>
      rw [hj] at hold
      exact hold
    | _ =>
      rw [hj] at hdone
      cases hdone
  · intro _
    left
    simp [hreturned]
  · rw [hlog]
    refine pairwise_snoc h.log fun a _ hlate => ?_
    cases a <;> exact hlate
  · intro j hj
    rw [hstarted]
    rcases hevents _ hj with hold | heq
    · exact h.logged_start j hold
    · cases heq
  · intro j hj
    rw [hlefts j]
    rcases hevents _ hj with hold | heq
    · exact h.logged_decrement j hold
    · cases heq
  · intro j _
    simp [hreturned]

/-- A job stores the outcome of its task, then it decrements the count; the job
that takes the last one off transfers control to the coroutine. -/
theorem run (h : Inv n s) (hstep : Step n s (.run i) s') : Inv n s' := by
  unfold Step step when_all.run at hstep
  have hstored := h.stored i
  have habsent : ∀ job : Job (V i) E, s.jobs i ≠ .absent → job ≠ .absent →
      ∀ j, Function.update s.jobs i job j = .absent ↔ s.started ≤ j := by
    intro job hold hnew j
    by_cases hj : j = i
    · subst hj
      have hj := h.absent j
      simp_all
    · simpa [hj] using h.absent j
  cases hjob : s.jobs i with
  | completed outcome =>
    have hleft : (s.jobs i).left = 1 := by
      rw [hjob]
      rfl
    have hi : i < n := h.lt_of_ne_absent (by simp [hjob])
    rw [hjob] at hstored
    simp only [hjob] at hstep
    cases hstep
    refine h.goes_on hi hleft rfl rfl rfl rfl ⟨le_rfl, h.started_le⟩
      (habsent .stored (by simp [hjob]) (by simp)) ?_ ?_ ?_ ?_
    · exact ⟨outcome, hstored, by simp [State.goto, State.record]⟩
    · intro j hj
      simp [State.goto, State.record, hj]
    · exact pairwise_snoc h.log (h.touch_in_time hi hleft)
    · intro e he
      rcases List.mem_append.mp he with he | he
      · exact Or.inl he
      · exact Or.inr (Or.inr (Or.inl (List.mem_singleton.mp he)))
  | stored =>
    simp only [hjob] at hstep
    have hcount : ((s.record (.touch i)).record (.decrement i)).count = s.count := rfl
    simp only [hcount] at hstep
    by_cases hone : s.count = 1
    · rw [if_pos hone] at hstep
      cases hstep
      exact h.decrement hjob (if_pos hone).symm rfl rfl ⟨rfl, rfl, rfl, rfl, rfl⟩
    · rw [if_neg hone] at hstep
      cases hstep
      exact h.decrement hjob (if_neg hone).symm rfl rfl ⟨rfl, rfl, rfl, rfl, rfl⟩
  | last =>
    simp only [hjob] at hstep
    cases hstep
    exact h.transfer hjob rfl rfl ⟨rfl, rfl, rfl, rfl, rfl⟩
  | _ => simp [hjob] at hstep

theorem step (h : Inv n s) {a : Action V E} (hstep : Step n s a s') : Inv n s' := by
  cases a with
  | start =>
    by_cases hlt : s.started < n
    · exact h.start hlt hstep
    · simp [Step, when_all.step, hlt] at hstep
  | complete i outcome => exact h.complete hstep
  | run i => exact h.run hstep

theorem of_run {as : List (Action V E)} (hrun : Run (Step n) (construct V E n) as s) : Inv n s :=
  hrun.invariant (Inv n) (fun _ _ _ h hstep => h.step hstep) (construct_inv V E n)

end Inv

end kelcoro.when_all
