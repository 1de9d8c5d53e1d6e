import Kelcoro.Lib.Run
import Kelcoro.ThreadPool.TaskQueue
import Mathlib

namespace kelcoro.thread_pool.not_empty

open kelcoro.lib

/-- What a thread calls. `attach` is `push`. -/
inductive Call (α : Type) where
  | push (node : α)
  | push_list (first last : α)
  | push_list_first (first : Option α)
  | pop_all
  | pop_all_not_empty

/-- What a call returns. -/
inductive Returned (α : Type) where
  | push_list
  | pop_all (tasks : Option α)
  | pop_all_not_empty (nodes : Option α)
  deriving DecidableEq

/-- Where a thread is. -/
inductive Pc (α : Type) where
  | outside
  | find_last (first last : α)
  | push_list (first last : α)
  | push_list_locked (first last : α)
  | notify_one
  | pop_all
  | pop_all_locked
  /-- It is awake and waits for the mutex, having been called or woken. -/
  | pop_all_not_empty
  | while_not_first
  | asleep
  | unlock (result : Returned α)
  deriving DecidableEq

/-- The thread has the mutex. -/
def Pc.locked : Pc α → Bool
  | .push_list_locked _ _ | .notify_one | .pop_all_locked | .while_not_first | .unlock _ => true
  | _ => false

/-- One `task_queue`, the nodes, the threads that use it, and what their calls
have returned. -/
structure State (ι α : Type) where
  queue : Queue α
  next : α → Option α
  mtx : Option ι
  pc : ι → Pc α
  returned : List (Returned α)

variable {ι α : Type} [DecidableEq ι] [DecidableEq α]

def construct (next : α → Option α) : State ι α :=
  { queue := { first := none, last := none }, next, mtx := none, pc := fun _ => .outside, returned := [] }

def State.set (s : State ι α) (i : ι) (pc : Pc α) : State ι α :=
  { s with pc := Function.update s.pc i pc }

/-- The thread takes the mutex, if it is free. -/
def State.lock (s : State ι α) (i : ι) (pc : Pc α) : Option (State ι α) :=
  match s.mtx with
  | none => some ({ s with mtx := some i }.set i pc)
  | some _ => none

/-- A thread calls a function, or goes on in it; a sleeping one wakes up without
a notification. `woken` is whom `notify_one` wakes. -/
inductive Action (ι α : Type) where
  | call (i : ι) (call : Call α)
  | run (i : ι) (woken : Option ι)
  | wake_up (i : ι)

def call (s : State ι α) (i : ι) : Call α → State ι α
  | .push node => { s with next := Function.update s.next node none }.set i (.push_list node node)
  | .push_list first last => s.set i (.push_list first last)
  | .push_list_first none => { s with returned := s.returned ++ [.push_list] }
  | .push_list_first (some first) => s.set i (.find_last first first)
  | .pop_all => s.set i .pop_all
  | .pop_all_not_empty => s.set i .pop_all_not_empty

def run (s : State ι α) (i : ι) (woken : Option ι) : Option (State ι α) :=
  match s.pc i with
  | .outside => none
  | .find_last first last =>
    match s.next last with
    | some last => some (s.set i (.find_last first last))
    | none => some (s.set i (.push_list first last))
  | .push_list first last => s.lock i (.push_list_locked first last)
  | .push_list_locked first last =>
    let (next, queue) := s.queue.push_list s.next first last
    -- notified is under the lock, and only when the queue was empty
    match s.queue.first with
    | some _ => some ({ s with next, queue }.set i (.unlock .push_list))
    | none => some ({ s with next, queue }.set i .notify_one)
  | .notify_one =>
    match woken with
    | some j => some ((s.set j .pop_all_not_empty).set i (.unlock .push_list))
    | none => some (s.set i (.unlock .push_list))
  | .pop_all => s.lock i .pop_all_locked
  | .pop_all_locked => some ({ s with queue.first := none }.set i (.unlock (.pop_all s.queue.first)))
  | .pop_all_not_empty => s.lock i .while_not_first
  | .while_not_first =>
    match s.queue.first with
    | some _ => some ({ s with queue.first := none }.set i (.unlock (.pop_all_not_empty s.queue.first)))
    | none => some ({ s with mtx := none }.set i .asleep)
  | .asleep => none
  | .unlock result => some ({ s with mtx := none, returned := s.returned ++ [result] }.set i .outside)

def step (s : State ι α) : Action ι α → Option (State ι α)
  | .call i c => some (call s i c)
  | .run i woken => run s i woken
  | .wake_up i => some (s.set i .pop_all_not_empty)

/-- A thread calls one function at a time; `notify_one` wakes one of the sleeping
threads, if there is any. -/
def Allowed (s : State ι α) : Action ι α → Prop
  | .call i _ => s.pc i = .outside
  | .run i woken => s.pc i = .notify_one →
    match woken with
    | some j => s.pc j = .asleep
    | none => ∀ j, s.pc j ≠ .asleep
  | .wake_up i => s.pc i = .asleep

def Step (s : State ι α) (a : Action ι α) (s' : State ι α) : Prop := Allowed s a ∧ step s a = some s'

/-- The thread will look at the queue, or wake one that does. -/
def Pc.looks : Pc α → Bool
  | .pop_all_not_empty | .while_not_first | .notify_one => true
  | _ => false

/-- Nobody sleeps through a non-empty queue. -/
def Noticed (s : State ι α) : Prop :=
  s.queue.first ≠ none → ∀ i, s.pc i = .asleep → ∃ j, (s.pc j).looks = true

structure Inv (s : State ι α) : Prop where
  mutex : ∀ i, (s.pc i).locked = true ↔ s.mtx = some i
  noticed : Noticed s
  popped : ∀ i nodes, s.pc i = .unlock (.pop_all_not_empty nodes) → nodes ≠ none
  returned : .pop_all_not_empty none ∉ s.returned

variable {s s' s₁ : State ι α} {i j : ι} {pc : Pc α} {a : Action ι α} {woken : Option ι}

omit [DecidableEq α] in
@[simp] theorem set_pc_self : (s.set i pc).pc i = pc := by
  simp [State.set]

omit [DecidableEq α] in
theorem set_pc_of_ne (h : j ≠ i) : (s.set i pc).pc j = s.pc j := by
  simp [State.set, h]

omit [DecidableEq α] in
/-- A thread that looks at the queue is enough. -/
theorem noticed_of_looks (h : pc.looks = true) : Noticed (s.set i pc) :=
  fun _ _ _ => ⟨i, by rw [set_pc_self, h]⟩

omit [DecidableEq ι] [DecidableEq α] in
theorem noticed_of_empty (h : s.queue.first = none) : Noticed s :=
  fun hfirst => absurd h hfirst

omit [DecidableEq α] in
/-- A thread goes on that nobody relied on, and does not fall asleep. -/
theorem Noticed.set (h : Noticed s) (hpcs : s₁.pc = s.pc) (hfirst : s₁.queue.first ≠ none → s.queue.first ≠ none)
    (hlooks : (s.pc i).looks = false) (hpc : pc ≠ .asleep) : Noticed (s₁.set i pc) := by
  intro hne j hj
  have hji : j ≠ i := by
    rintro rfl
    exact hpc (set_pc_self.symm.trans hj)
  rw [set_pc_of_ne hji, hpcs] at hj
  obtain ⟨k, hk⟩ := h (hfirst hne) j hj
  have hki : k ≠ i := by
    rintro rfl
    simp [hlooks] at hk
  exact ⟨k, by rwa [set_pc_of_ne hki, hpcs]⟩

namespace Inv

omit [DecidableEq α] in
/-- Thread `i` goes to `pc`; the mutex is given to it or taken from it, or stays
with whom it is. -/
theorem set (h : Inv s) (hpcs : s₁.pc = s.pc) (hmutex : pc.locked = true ↔ s₁.mtx = some i)
    (hothers : ∀ j, j ≠ i → (s₁.mtx = some j ↔ s.mtx = some j)) (hnoticed : Noticed (s₁.set i pc))
    (hpopped : ∀ nodes, pc = .unlock (.pop_all_not_empty nodes) → nodes ≠ none)
    (hreturned : .pop_all_not_empty none ∉ s₁.returned) : Inv (s₁.set i pc) := by
  refine ⟨fun j => ?_, hnoticed, fun j nodes hj => ?_, hreturned⟩
  · by_cases hj : j = i
    · subst hj
      rw [set_pc_self]
      exact hmutex
    · rw [set_pc_of_ne hj, hpcs, h.mutex j]
      exact (hothers j hj).symm
  · by_cases hji : j = i
    · subst hji
      rw [set_pc_self] at hj
      exact hpopped nodes hj
    · rw [set_pc_of_ne hji, hpcs] at hj
      exact h.popped j nodes hj

omit [DecidableEq α] in
/-- A thread without the mutex goes on without it. -/
theorem set_unlocked (h : Inv s) (hpcs : s₁.pc = s.pc) (hmtx : s₁.mtx = s.mtx) (hqueue : s₁.queue = s.queue)
    (hret : s₁.returned = s.returned) (hold : (s.pc i).locked = false) (hnew : pc.locked = false)
    (hlooks : pc.looks = true ∨ (s.pc i).looks = false ∧ pc ≠ .asleep) : Inv (s₁.set i pc) := by
  have hnot : s.mtx ≠ some i := fun hi => by simp [(h.mutex i).mpr hi] at hold
  refine h.set hpcs ⟨fun hp => by simp [hp] at hnew, fun hi => absurd (hmtx ▸ hi) hnot⟩ (fun j _ => by rw [hmtx])
    ?_ (fun nodes hp => by simp [hp, Pc.locked] at hnew) (by rw [hret]; exact h.returned)
  rcases hlooks with hlooks | ⟨hlooks, hasleep⟩
  · exact noticed_of_looks hlooks
  · exact h.noticed.set hpcs (by rw [hqueue]; exact id) hlooks hasleep

omit [DecidableEq α] in
theorem lock (h : Inv s) (hnew : pc.locked = true) (hlooks : pc.looks = true ∨ (s.pc i).looks = false)
    (hpc : pc ≠ .asleep) (hunlock : ∀ result, pc ≠ .unlock result) (hstep : s.lock i pc = some s') : Inv s' := by
  unfold State.lock at hstep
  split at hstep
  case h_1 hmtx =>
    cases hstep
    refine h.set rfl (by simp [hnew]) (fun j hj => ?_) ?_ (fun nodes hp => absurd hp (hunlock _)) h.returned
    · simp [hmtx, Ne.symm hj]
    · rcases hlooks with hlooks | hlooks
      · exact noticed_of_looks hlooks
      · exact h.noticed.set rfl id hlooks hpc
  case h_2 => cases hstep

omit [DecidableEq α] in
/-- The thread in the critical section goes on in it. -/
theorem set_locked (h : Inv s) (hpcs : s₁.pc = s.pc) (hmtx : s₁.mtx = s.mtx) (hret : s₁.returned = s.returned)
    (hold : (s.pc i).locked = true) (hnew : pc.locked = true) (hnoticed : Noticed (s₁.set i pc))
    (hpopped : ∀ nodes, pc = .unlock (.pop_all_not_empty nodes) → nodes ≠ none) : Inv (s₁.set i pc) := by
  have hi : s.mtx = some i := (h.mutex i).mp hold
  exact h.set hpcs (by simp [hnew, hmtx, hi]) (fun j _ => by rw [hmtx]) hnoticed hpopped
    (by rw [hret]; exact h.returned)

omit [DecidableEq α] in
/-- The thread in the critical section leaves it. -/
theorem unlock (h : Inv s) (hpcs : s₁.pc = s.pc) (hmtx : s₁.mtx = none) (hold : (s.pc i).locked = true)
    (hnew : pc.locked = false) (hnoticed : Noticed (s₁.set i pc))
    (hreturned : .pop_all_not_empty none ∉ s₁.returned) : Inv (s₁.set i pc) := by
  have hi : s.mtx = some i := (h.mutex i).mp hold
  refine h.set hpcs (by simp [hnew, hmtx]) (fun j hj => ?_) hnoticed
    (fun nodes hp => by simp [hp, Pc.locked] at hnew) hreturned
  simp [hmtx, hi, Ne.symm hj]

theorem call (h : Inv s) (hi : s.pc i = .outside) (c : Call α) : Inv (not_empty.call s i c) := by
  have hold : (s.pc i).locked = false := by simp [hi, Pc.locked]
  have hlooks : (s.pc i).looks = false := by simp [hi, Pc.looks]
  cases c with
  | push node => exact h.set_unlocked rfl rfl rfl rfl hold rfl (.inr ⟨hlooks, by simp⟩)
  | push_list first last => exact h.set_unlocked rfl rfl rfl rfl hold rfl (.inr ⟨hlooks, by simp⟩)
  | push_list_first first =>
    cases first with
    | none => exact ⟨h.mutex, h.noticed, h.popped, by simpa [not_empty.call] using h.returned⟩
    | some first => exact h.set_unlocked rfl rfl rfl rfl hold rfl (.inr ⟨hlooks, by simp⟩)
  | pop_all => exact h.set_unlocked rfl rfl rfl rfl hold rfl (.inr ⟨hlooks, by simp⟩)
  | pop_all_not_empty => exact h.set_unlocked rfl rfl rfl rfl hold rfl (.inl rfl)

omit [DecidableEq α] in
/-- A sleeping thread wakes up. -/
theorem wake_up (h : Inv s) (hj : s.pc j = .asleep) : Inv (s.set j .pop_all_not_empty) :=
  h.set_unlocked rfl rfl rfl rfl (by simp [hj, Pc.locked]) rfl (.inl rfl)

omit [DecidableEq α] in
/-- `notify_one` has woken a thread, or there was none. -/
theorem notified (h : Inv s) (hi : s.pc i = .notify_one)
    (hnoticed : (∃ j, j ≠ i ∧ (s.pc j).looks = true) ∨ ∀ j, s.pc j ≠ .asleep) :
    Inv (s.set i (.unlock .push_list)) := by
  refine h.set_locked rfl rfl rfl (by simp [hi, Pc.locked]) rfl (fun _ k hk => ?_) (by simp)
  rcases hnoticed with ⟨j, hji, hj⟩ | hnone
  · exact ⟨j, by rwa [set_pc_of_ne hji]⟩
  · by_cases hki : k = i
    · subst hki
      simp at hk
    · rw [set_pc_of_ne hki] at hk
      exact absurd hk (hnone k)

theorem run (h : Inv s) (hallowed : Allowed s (.run i woken)) (hstep : run s i woken = some s') : Inv s' := by
  unfold not_empty.run at hstep
  cases hi : s.pc i with
  | outside => simp [hi] at hstep
  | asleep => simp [hi] at hstep
  | find_last first last =>
    simp only [hi] at hstep
    split at hstep
    all_goals
      cases hstep
      exact h.set_unlocked rfl rfl rfl rfl (by simp [hi, Pc.locked]) rfl (.inr ⟨by simp [hi, Pc.looks], by simp⟩)
  | push_list first last =>
    simp only [hi] at hstep
    exact h.lock rfl (.inr (by simp [hi, Pc.looks])) (by simp) (by simp) hstep
  | push_list_locked first last =>
    simp only [hi] at hstep
    have hold : (s.pc i).locked = true := by simp [hi, Pc.locked]
    split at hstep
    case h_1 f hfirst =>
      cases hstep
      refine h.set_locked rfl rfl rfl hold rfl ?_ (by simp)
      exact h.noticed.set rfl (fun _ => by simp [hfirst]) (by simp [hi, Pc.looks]) (by simp)
    case h_2 hfirst =>
      cases hstep
      exact h.set_locked rfl rfl rfl hold rfl (noticed_of_looks rfl) (by simp)
  | notify_one =>
    simp only [hi] at hstep
    have hwoken := hallowed hi
    cases woken with
    | none =>
      cases hstep
      exact h.notified hi (.inr hwoken)
    | some j =>
      have hji : i ≠ j := by
        rintro rfl
        cases hi.symm.trans hwoken
      cases hstep
      refine (h.wake_up hwoken).notified (by rw [set_pc_of_ne hji, hi]) (.inl ⟨j, hji.symm, ?_⟩)
      rw [set_pc_self]
      rfl
  | pop_all =>
    simp only [hi] at hstep
    exact h.lock rfl (.inr (by simp [hi, Pc.looks])) (by simp) (by simp) hstep
  | pop_all_locked =>
    simp only [hi] at hstep
    cases hstep
    exact h.set_locked rfl rfl rfl (by simp [hi, Pc.locked]) rfl (noticed_of_empty rfl) (by simp)
  | pop_all_not_empty =>
    simp only [hi] at hstep
    exact h.lock rfl (.inl rfl) (by simp) (by simp) hstep
  | while_not_first =>
    simp only [hi] at hstep
    have hold : (s.pc i).locked = true := by simp [hi, Pc.locked]
    split at hstep
    case h_1 f hfirst =>
      cases hstep
      refine h.set_locked rfl rfl rfl hold rfl (noticed_of_empty rfl) (fun nodes hnodes => ?_)
      cases hnodes
      simp [hfirst]
    case h_2 hfirst =>
      cases hstep
      exact h.unlock rfl rfl hold rfl (noticed_of_empty hfirst) h.returned
  | unlock result =>
    simp only [hi] at hstep
    cases hstep
    refine h.unlock rfl rfl (by simp [hi, Pc.locked]) rfl ?_ ?_
    · exact h.noticed.set rfl id (by simp [hi, Pc.looks]) (by simp)
    · intro hmem
      rcases List.mem_append.mp hmem with hmem | hmem
      · exact h.returned hmem
      · exact h.popped i none (hi.trans (by rw [List.mem_singleton.mp hmem])) rfl

theorem step (h : Inv s) (hstep : Step s a s') : Inv s' := by
  obtain ⟨hallowed, hstep⟩ := hstep
  cases a with
  | call i c =>
    cases hstep
    exact h.call hallowed c
  | run i woken => exact h.run hallowed hstep
  | wake_up i =>
    cases hstep
    exact h.wake_up hallowed

omit [DecidableEq ι] [DecidableEq α] in
theorem init (next : α → Option α) : Inv (construct next : State ι α) where
  mutex i := by simp [construct, Pc.locked]
  noticed := noticed_of_empty rfl
  popped i nodes hi := by simp [construct] at hi
  returned := by simp [construct]

end Inv

/-- No lost wake-up: while nobody has the mutex, a thread sleeps with nodes in
the queue only if another one is awake in `pop_all_not_empty`, which never
returns null. -/
theorem no_lost_wakeup {next : α → Option α} {as : List (Action ι α)} (hrun : Run Step (construct next) as s) :
    ¬ (s.queue.first ≠ none ∧ (∃ i, s.pc i = .asleep) ∧ s.mtx = none ∧ ∀ j, s.pc j ≠ .pop_all_not_empty) ∧
      ∀ nodes, .pop_all_not_empty nodes ∈ s.returned → nodes ≠ none := by
  have h : Inv s := hrun.invariant Inv (fun _ _ _ h hstep => h.step hstep) (Inv.init next)
  refine ⟨?_, ?_⟩
  · rintro ⟨hfirst, ⟨i, hi⟩, hmtx, hawake⟩
    obtain ⟨j, hj⟩ := h.noticed hfirst i hi
    have hunlocked : (s.pc j).locked = false := by
      rw [Bool.eq_false_iff, Ne, h.mutex j, hmtx]
      simp
    cases hpc : s.pc j <;> simp_all [Pc.looks, Pc.locked]
  · rintro nodes hmem rfl
    exact h.returned hmem

/-- One thread sleeps, another one pushes a node and notifies it. -/
def sleep_and_push : List (Action Bool Nat) :=
  [.call false .pop_all_not_empty, .run false none, .run false none, .call true (.push 7), .run true none,
    .run true none, .run true (some false), .run true none]

theorem no_lost_wakeup_of_push : ∃ s : State Bool Nat, Run Step (construct fun _ => none) sleep_and_push s ∧
    ¬ (s.queue.first ≠ none ∧ (∃ i, s.pc i = .asleep) ∧ s.mtx = none ∧ ∀ j, s.pc j ≠ .pop_all_not_empty) ∧
      ∀ nodes, .pop_all_not_empty nodes ∈ s.returned → nodes ≠ none := by
  have hrun : ∃ s : State Bool Nat, Run Step (construct fun _ => none) sleep_and_push s := by
    have hnot : ∀ {s : State Bool Nat} {i}, s.pc i ≠ .notify_one → Allowed s (.run i none) :=
      fun hne hi => absurd hi hne
    exact ⟨_, .cons ⟨rfl, rfl⟩ (.cons ⟨hnot (by decide), rfl⟩ (.cons ⟨hnot (by decide), rfl⟩ (.cons ⟨rfl, rfl⟩
      (.cons ⟨hnot (by decide), rfl⟩ (.cons ⟨hnot (by decide), rfl⟩ (.cons ⟨fun _ => rfl, rfl⟩
      (.cons ⟨hnot (by decide), rfl⟩ (.nil _))))))))⟩
  obtain ⟨s, hrun⟩ := hrun
  exact ⟨s, hrun, no_lost_wakeup hrun⟩

end kelcoro.thread_pool.not_empty
