import Kelcoro.Lib.Progress
import Kelcoro.ThreadPool.NotEmpty
import Mathlib

namespace kelcoro.thread_pool.not_empty

open kelcoro.lib

variable {ι α : Type} [DecidableEq ι] [DecidableEq α]

/-- How many steps a thread takes at most until it is outside or asleep, and one that
it wakes. A `push_list(first)` that looks for the last node is not counted. -/
def Pc.weight : Pc α → Nat
  | .outside | .asleep | .find_last _ _ => 0
  | .unlock _ => 1
  | .pop_all_locked | .while_not_first => 2
  | .pop_all | .pop_all_not_empty => 3
  | .notify_one => 5
  | .push_list_locked _ _ => 6
  | .push_list _ _ => 7

def Call.costs : Call α → Nat
  | .push _ | .push_list _ _ => 7
  | .push_list_first _ => 0
  | .pop_all | .pop_all_not_empty => 3

namespace Action

def own : Action ι α → Bool
  | .run _ _ => true
  | _ => false

/-- The steps that a call or a wake-up for no reason allow. -/
def costs : Action ι α → Nat
  | .call _ c => c.costs
  | .run _ _ => 0
  | .wake_up _ => 3

/-- It is a call that has to look for the last node of its list. -/
def Walks : Action ι α → Prop
  | .call _ (.push_list_first (some _)) => True
  | _ => False

end Action

/-- The steps that are left, while no thread looks for a last node. -/
def State.weight [Fintype ι] (s : State ι α) : Nat := ∑ i, (s.pc i).weight

def State.Walks (s : State ι α) : Prop := ∃ i first last, s.pc i = .find_last first last

variable {s s' s₁ : State ι α} {i j : ι} {pc : Pc α} {a : Action ι α} {woken : Option ι}

omit [DecidableEq α] in
theorem weight_of_set [Fintype ι] (hpcs : s₁.pc = s.pc) : (s₁.set i pc).weight + (s.pc i).weight = s.weight + pc.weight := by
  have hsum := sum_of_ne (f := fun j => (s.pc j).weight) (g := fun j => ((s₁.set i pc).pc j).weight) (Finset.mem_univ i)
    fun j hj => by rw [set_pc_of_ne hj, hpcs]
  rw [set_pc_self] at hsum
  exact hsum

omit [DecidableEq α] in
theorem not_walks_set (hwalks : ¬ s.Walks) (hpcs : s₁.pc = s.pc) (hpc : ∀ first last, pc ≠ .find_last first last) :
    ¬ (s₁.set i pc).Walks := by
  rintro ⟨j, first, last, hj⟩
  by_cases hji : j = i
  · rw [hji, set_pc_self] at hj
    exact hpc first last hj
  · rw [set_pc_of_ne hji, hpcs] at hj
    exact hwalks ⟨j, first, last, hj⟩

omit [DecidableEq α] in
/-- Thread `i` goes to `pc`. -/
theorem goes_weight [Fintype ι] (pays cost : Nat) (hs : s₁.set i pc = s') (hwalks : ¬ s.Walks) (hpcs : s₁.pc = s.pc)
    (hpc : ∀ first last, pc ≠ .find_last first last) (hle : pc.weight + pays ≤ (s.pc i).weight + cost) :
    s'.weight + pays ≤ s.weight + cost ∧ ¬ s'.Walks := by
  subst hs
  have hweight : (s₁.set i pc).weight + (s.pc i).weight = s.weight + pc.weight := weight_of_set hpcs
  exact ⟨by omega, not_walks_set hwalks hpcs hpc⟩

omit [DecidableEq α] in
theorem lock_eq (hstep : s.lock i pc = some s') : s.mtx = none ∧ { s with mtx := some i }.set i pc = s' := by
  unfold State.lock at hstep
  split at hstep
  case h_1 hmtx => exact ⟨hmtx, Option.some.inj hstep⟩
  case h_2 => cases hstep

theorem run_weight [Fintype ι] (hwalks : ¬ s.Walks) (hallowed : Allowed s (.run i woken)) (hstep : run s i woken = some s') :
    s'.weight + 1 ≤ s.weight ∧ ¬ s'.Walks := by
  unfold run at hstep
  cases hi : s.pc i with
  | outside => simp [hi] at hstep
  | asleep => simp [hi] at hstep
  | find_last first last => exact absurd ⟨i, first, last, hi⟩ hwalks
  | push_list first last =>
    simp only [hi] at hstep
    obtain ⟨-, hs⟩ := lock_eq hstep
    exact goes_weight 1 0 hs hwalks rfl (by simp) (by simp [hi, Pc.weight])
  | push_list_locked first last =>
    simp only [hi] at hstep
    split at hstep
    all_goals exact goes_weight 1 0 (Option.some.inj hstep) hwalks rfl (by simp) (by simp [hi, Pc.weight])
  | notify_one =>
    simp only [hi] at hstep
    have hwoken := hallowed hi
    cases woken with
    | none => exact goes_weight 1 0 (Option.some.inj hstep) hwalks rfl (by simp) (by simp [hi, Pc.weight])
    | some j =>
      have hji : i ≠ j := by
        rintro rfl
        cases hi.symm.trans hwoken
      have hle : (Pc.pop_all_not_empty : Pc α).weight + 0 ≤ (s.pc j).weight + 3 := by simp [Pc.weight]
      have hwakes : (s.set j .pop_all_not_empty).weight + 0 ≤ s.weight + 3 ∧ ¬ (s.set j .pop_all_not_empty).Walks :=
        goes_weight 0 3 rfl hwalks rfl (by simp) hle
      obtain ⟨hweight, hwalks'⟩ := hwakes
      obtain ⟨hweight', hwalks''⟩ := goes_weight 4 0 (Option.some.inj hstep) hwalks' rfl (by simp)
        (by simp [set_pc_of_ne hji, hi, Pc.weight])
      exact ⟨by omega, hwalks''⟩
  | pop_all =>
    simp only [hi] at hstep
    obtain ⟨-, hs⟩ := lock_eq hstep
    exact goes_weight 1 0 hs hwalks rfl (by simp) (by simp [hi, Pc.weight])
  | pop_all_locked =>
    simp only [hi] at hstep
    exact goes_weight 1 0 (Option.some.inj hstep) hwalks rfl (by simp) (by simp [hi, Pc.weight])
  | pop_all_not_empty =>
    simp only [hi] at hstep
    obtain ⟨-, hs⟩ := lock_eq hstep
    exact goes_weight 1 0 hs hwalks rfl (by simp) (by simp [hi, Pc.weight])
  | while_not_first =>
    simp only [hi] at hstep
    split at hstep
    all_goals exact goes_weight 1 0 (Option.some.inj hstep) hwalks rfl (by simp) (by simp [hi, Pc.weight])
  | unlock result =>
    simp only [hi] at hstep
    exact goes_weight 1 0 (Option.some.inj hstep) hwalks rfl (by simp) (by simp [hi, Pc.weight])

theorem step_weight [Fintype ι] (hwalks : ¬ s.Walks) (hstep : Step s a s') (ha : ¬ a.Walks) :
    s'.weight + a.own.toNat ≤ s.weight + a.costs ∧ ¬ s'.Walks := by
  obtain ⟨hallowed, hstep⟩ := hstep
  cases a with
  | call i c =>
    have hi : s.pc i = .outside := hallowed
    have hs : call s i c = s' := Option.some.inj hstep
    cases c with
    | push node => exact goes_weight 0 7 hs hwalks rfl (by simp) (by simp [Pc.weight])
    | push_list first last => exact goes_weight 0 7 hs hwalks rfl (by simp) (by simp [Pc.weight])
    | push_list_first first =>
      cases first with
      | none =>
        subst hs
        exact ⟨le_rfl, hwalks⟩
      | some first => exact absurd trivial ha
    | pop_all => exact goes_weight 0 3 hs hwalks rfl (by simp) (by simp [Pc.weight])
    | pop_all_not_empty => exact goes_weight 0 3 hs hwalks rfl (by simp) (by simp [Pc.weight])
  | run i woken => exact run_weight hwalks hallowed hstep
  | wake_up i => exact goes_weight 0 3 (Option.some.inj hstep) hwalks rfl (by simp) (by simp [Pc.weight])

omit [DecidableEq α] in
theorem lock_enabled (hmtx : s.mtx = none) (pc : Pc α) : ∃ s', s.lock i pc = some s' :=
  ⟨{ s with mtx := some i }.set i pc, by simp [State.lock, hmtx]⟩

/-- The thread that has the mutex can go on, and so can every one that waits for it
when it is free. -/
theorem run_enabled (hpc : (s.pc i).locked = true ∨ s.mtx = none ∧ s.pc i ≠ .outside ∧ s.pc i ≠ .asleep) :
    ∃ woken s', Step s (.run i woken) s' := by
  have hnot : ∀ {s'}, s.pc i ≠ .notify_one → run s i none = some s' → ∃ woken s', Step s (.run i woken) s' :=
    fun hne hrun => ⟨none, _, fun hi => absurd hi hne, hrun⟩
  cases hi : s.pc i with
  | outside => simp [hi, Pc.locked] at hpc
  | asleep => simp [hi, Pc.locked] at hpc
  | find_last first last =>
    cases hnext : s.next last <;> exact hnot (by simp [hi]) (by simp only [run, hi, hnext]; rfl)
  | push_list first last =>
    obtain ⟨s', hs'⟩ := lock_enabled (i := i) (by simpa [hi, Pc.locked] using hpc) (.push_list_locked first last)
    exact hnot (by simp [hi]) (by simp only [run, hi]; exact hs')
  | push_list_locked first last =>
    cases hfirst : s.queue.first <;> exact hnot (by simp [hi]) (by simp only [run, hi, hfirst]; rfl)
  | notify_one =>
    by_cases hasleep : ∃ j, s.pc j = .asleep
    · obtain ⟨j, hj⟩ := hasleep
      exact ⟨some j, _, fun _ => hj, by simp only [step, run, hi]; rfl⟩
    · exact ⟨none, _, fun _ j hj => hasleep ⟨j, hj⟩, by simp only [step, run, hi]; rfl⟩
  | pop_all =>
    obtain ⟨s', hs'⟩ := lock_enabled (i := i) (by simpa [hi, Pc.locked] using hpc) .pop_all_locked
    exact hnot (by simp [hi]) (by simp only [run, hi]; exact hs')
  | pop_all_locked => exact hnot (by simp [hi]) (by simp only [run, hi]; rfl)
  | pop_all_not_empty =>
    obtain ⟨s', hs'⟩ := lock_enabled (i := i) (by simpa [hi, Pc.locked] using hpc) .while_not_first
    exact hnot (by simp [hi]) (by simp only [run, hi]; exact hs')
  | while_not_first =>
    cases hfirst : s.queue.first <;> exact hnot (by simp [hi]) (by simp only [run, hi, hfirst]; rfl)
  | unlock result => exact hnot (by simp [hi]) (by simp only [run, hi]; rfl)

/-- The queue hands its nodes over: its functions take a bounded number of steps, and
when no thread can take one any more, every call has returned, except those of threads
that sleep in `pop_all_not_empty` while the queue is empty. -/
theorem calls_return [Fintype ι] {next : α → Option α} {as : List (Action ι α)} (hrun : Run Step (construct next) as s) :
    ((∀ a ∈ as, ¬ a.Walks) → as.countP Action.own ≤ (as.map Action.costs).sum) ∧
      ((∀ i woken s', ¬ Step s (.run i woken) s') → ∀ i, s.pc i = .outside ∨ s.pc i = .asleep ∧ s.queue.first = none) := by
  refine ⟨fun has => ?_, fun hstuck i => ?_⟩
  · obtain ⟨m, hle, hweight, -⟩ := (hrun.restrict has).paid (m := 0)
      (fun m s => (s.weight : Int) = m ∧ ¬ s.Walks) Action.own Action.costs (by
        rintro m s a s' ⟨rfl, hwalks⟩ ⟨hstep, ha⟩
        obtain ⟨hle, hwalks'⟩ := step_weight hwalks hstep ha
        exact ⟨_, by exact_mod_cast hle, rfl, hwalks'⟩)
      ⟨by simp [State.weight, construct, Pc.weight], by simp [State.Walks, construct]⟩
    omega
  · have h : Inv s := hrun.invariant Inv (fun _ _ _ h hstep => h.step hstep) (Inv.init next)
    have hfree : s.mtx = none := by
      cases hmtx : s.mtx with
      | none => rfl
      | some j =>
        obtain ⟨woken, s', hstep⟩ := run_enabled (Or.inl ((h.mutex j).mpr hmtx))
        exact absurd hstep (hstuck j woken s')
    have hidle : ∀ j, s.pc j = .outside ∨ s.pc j = .asleep := by
      intro j
      by_contra hbusy
      rw [not_or] at hbusy
      obtain ⟨woken, s', hstep⟩ := run_enabled (Or.inr ⟨hfree, hbusy⟩)
      exact hstuck j woken s' hstep
    refine (hidle i).imp_right fun hasleep => ⟨hasleep, ?_⟩
    by_contra hfirst
    obtain ⟨j, hj⟩ := h.noticed hfirst i hasleep
    obtain hout | hasleep' := hidle j <;> simp_all [Pc.looks]

/-- The consumer that sleeps is woken and takes the node. -/
def sleep_push_and_take : List (Action Bool Nat) :=
  sleep_and_push ++ [.run false none, .run false none, .run false none]

theorem calls_return_of_push : ∃ s : State Bool Nat, Run Step (construct fun _ => none) sleep_push_and_take s ∧
    sleep_push_and_take.countP Action.own ≤ 10 ∧ ∀ i, s.pc i = .outside ∨ s.pc i = .asleep ∧ s.queue.first = none := by
  have hrun : ∃ s : State Bool Nat, Run Step (construct fun _ => none) sleep_push_and_take s ∧
      ∀ i, s.pc i = .outside := by
    have hnot : ∀ {s : State Bool Nat} {i}, s.pc i ≠ .notify_one → Allowed s (.run i none) :=
      fun hne hi => absurd hi hne
    exact ⟨_, .cons ⟨rfl, rfl⟩ (.cons ⟨hnot (by decide), rfl⟩ (.cons ⟨hnot (by decide), rfl⟩ (.cons ⟨rfl, rfl⟩
      (.cons ⟨hnot (by decide), rfl⟩ (.cons ⟨hnot (by decide), rfl⟩ (.cons ⟨fun _ => rfl, rfl⟩
      (.cons ⟨hnot (by decide), rfl⟩ (.cons ⟨hnot (by decide), rfl⟩ (.cons ⟨hnot (by decide), rfl⟩
      (.cons ⟨hnot (by decide), rfl⟩ (.nil _))))))))))), by decide⟩
  obtain ⟨s, hrun, houtside⟩ := hrun
  have hstuck : ∀ i woken s', ¬ Step s (.run i woken) s' := by
    rintro i woken s' ⟨-, hstep⟩
    simp [step, run, houtside i] at hstep
  have hreturn := calls_return hrun
  exact ⟨s, hrun, hreturn.1 (by simp [sleep_push_and_take, sleep_and_push, Action.Walks]), hreturn.2 hstuck⟩

end kelcoro.thread_pool.not_empty
