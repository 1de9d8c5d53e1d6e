import Kelcoro.ThreadPool.Stop
import Mathlib

namespace kelcoro.thread_pool

open kelcoro.lib

variable {α : Type} [DecidableEq α] {n : Nat}

/-- The links of the holder lead to the node: it is in a queue, in the batch of a
worker, or in a list that is being cancelled. -/
def State.InList (s : State α) (h : Holder) (v : α) : Prop :=
  ∃ nodes, Linked s.next (s.walk h).top nodes ∧ v ∈ nodes

namespace Inv

variable {s : State α} {place : α → Place} {blocks : Holder → List (Block α)} {h : Holder} {v p : α} {i : Nat}

theorem in_list_iff (hinv : Inv n s place blocks) : s.InList h v ↔ place v = .listed h := by
  rw [← hinv.core.owned.listed h v]
  refine ⟨?_, fun hv => ⟨_, hinv.core.lists.linked h, hv⟩⟩
  rintro ⟨vs, hlinked, hv⟩
  rwa [Segment.unique hlinked (hinv.core.lists.linked h)] at hv

/-- No list contains the pill when the thread does not wait for it to be read. -/
theorem not_in_list (hinv : Inv n s place blocks) (hpill : s.stop.pill = some p) (hhas : ∀ j, ¬ s.stop.Has j)
    (h : Holder) : ¬ s.InList h p := by
  rw [hinv.in_list_iff, hinv.pill_nowhere hpill hhas]
  simp

end Inv

namespace creating

/-- Where the constructor is: it creates thread `i`, or that has failed for a
thread and `scope_exit` pushes its pill to queue `i` and joins thread `i`. -/
inductive Pc (α : Type) where
  | create (i : Nat)
  | push (i : Nat) (pill : α)
  | join (i : Nat) (pill : α)
  | threw
  | constructed
  deriving DecidableEq, Repr

def Pc.pill : Pc α → Option α
  | .push _ p | .join _ p => some p
  | _ => none

/-- A pool that is being constructed: the first `threads` threads were started. -/
structure Construction (α : Type) where
  pool : State α
  threads : Nat
  pc : Pc α

omit [DecidableEq α] in
def construct : Construction α := { pool := thread_pool.construct, threads := 0, pc := .create 0 }

/-- A thread is created, or that throws; `scope_exit` goes on, or a worker that was
started; memory that is no node is used for something else. -/
inductive Action (α : Type) where
  | create_thread
  | throw (pill : α)
  | scope_exit
  | run (w : Nat)
  | overwrite (v : α) (next : Option α) (task : Task α) (status : schedule_errc)

/-- The next step of `scope_exit`. A thread that was not started is not joinable. -/
def scope_exit (n : Nat) (c : Construction α) : Option (Construction α) :=
  match c.pc with
  | .push i p =>
    if i < n ∧ i < c.threads then
      some { c with pool := { c.pool with next := Function.update c.pool.next p none }.push_list i p p, pc := .join i p }
    else some { c with pool := c.pool.record (.destroyed p), pc := .threw }
  | .join i p => if c.pool.workers i = .exited then some { c with pc := .push (i + 1) p } else none
  | _ => none

def step (n : Nat) (c : Construction α) : Action α → Option (Construction α)
  | .create_thread =>
    match c.pc with
    | .create i =>
      if i < n then some { c with threads := i + 1, pc := .create (i + 1) } else some { c with pc := .constructed }
    | _ => none
  | .throw p =>
    match c.pc with
    | .create i =>
      if i < n ∧ life p c.pool.log = .gone then
        some { c with
          pool := { c.pool with
            task := Function.update c.pool.task p .null
            status := Function.update c.pool.status p .ok }.record (.pill p)
          pc := .push 0 p }
      else none
    | _ => none
  | .scope_exit => scope_exit n c
  | .run w => if w < c.threads then (thread_pool.run c.pool w).map fun pool => { c with pool } else none
  | .overwrite v next task status =>
    if life v c.pool.log = .gone then
      some { c with pool := { c.pool with
        next := Function.update c.pool.next v next
        task := Function.update c.pool.task v task
        status := Function.update c.pool.status v status } }
    else none

def Step (n : Nat) (c : Construction α) (a : Action α) (c' : Construction α) : Prop := step n c a = some c'

/-- What `scope_exit` has in its frame. -/
structure HasPill (s : State α) (p : α) : Prop where
  life : life p s.log = .pill
  task : s.task p = .null

/-- Worker `w` has not read the pill, or it was the last node it read. -/
def Reads (s : State α) (w : Nat) (p : α) : Prop :=
  (s.queues w).first = some p ∧ s.next p = none ∧ s.workers w = .pop ∨
  (s.queues w).first = none ∧ (s.workers w = .run p ∧ s.next p = none ∨
    s.workers w = .cancel (.loop none) ∨ s.workers w = .exited)

/-- The queues other than `except` are empty, the workers before `joined` have
exited, and the others wait. -/
structure Waits (s : State α) (joined : Nat) (except : Option Nat) : Prop where
  stop : s.stop = .running
  queues : ∀ q, except ≠ some q → (s.queues q).first = none
  exited : ∀ w, w < joined → s.workers w = .exited
  waiting : ∀ w, joined ≤ w → except ≠ some w → s.workers w = .pop

/-- What holds of a pool that is being constructed. -/
structure Inv (n : Nat) (c : Construction α) : Prop where
  threads_le : c.threads ≤ n
  at_pc : match c.pc with
    | .create i => c.threads = i ∧ Waits c.pool 0 none
    | .push i p => i ≤ c.threads ∧ HasPill c.pool p ∧ Waits c.pool i none
    | .join i p => i < c.threads ∧ HasPill c.pool p ∧ Waits c.pool i (some i) ∧ Reads c.pool i p
    | .threw => Waits c.pool c.threads none
    | .constructed => Waits c.pool 0 none

variable {s s' : State α} {c c' : Construction α} {i w : Nat} {v p : α} {joined : Nat} {except : Option Nat}

namespace Waits

/-- Nobody but the worker that is joined can do anything. -/
theorem run_eq_none (h : Waits s joined except) (hw : except ≠ some w) : thread_pool.run s w = none := by
  unfold thread_pool.run
  rcases Nat.lt_or_ge w joined with hlt | hge
  · simp [h.exited w hlt]
  · simp [h.waiting w hge hw, h.queues w hw]

omit [DecidableEq α] in
theorem congr (h : Waits s joined except) (hstop : s'.stop = s.stop) (hqueues : s'.queues = s.queues)
    (hworkers : s'.workers = s.workers) : Waits s' joined except where
  stop := hstop.trans h.stop
  queues := by
    rw [hqueues]
    exact h.queues
  exited := by
    rw [hworkers]
    exact h.exited
  waiting := by
    rw [hworkers]
    exact h.waiting

omit [DecidableEq α] in
/-- A worker that has exited has been joined. -/
theorem join (h : Waits s i (some i)) (hfirst : (s.queues i).first = none) (hexited : s.workers i = .exited) :
    Waits s (i + 1) none where
  stop := h.stop
  queues q _ := by
    by_cases hq : q = i
    · rw [hq, hfirst]
    · exact h.queues q (by simpa using Ne.symm hq)
  exited w hw := by
    rcases Nat.lt_succ_iff_lt_or_eq.mp hw with hlt | rfl
    · exact h.exited w hlt
    · exact hexited
  waiting w hw _ := h.waiting w (by omega) (by simp only [ne_eq, Option.some.injEq]; omega)

end Waits

omit [DecidableEq α] in
/-- The worker that is joined goes on. -/
theorem Waits.goes (h : Waits s i (some i)) {pc : Worker α} (hstop : s'.stop = s.stop)
    (hqueues : ∀ q, q ≠ i → s'.queues q = s.queues q) (hworkers : s'.workers = Function.update s.workers i pc) :
    Waits s' i (some i) where
  stop := hstop.trans h.stop
  queues q hq := by
    have hne : q ≠ i := fun heq => hq (by rw [heq])
    rw [hqueues q hne]
    exact h.queues q hq
  exited w hw := by
    rw [hworkers, Function.update_of_ne (by omega)]
    exact h.exited w hw
  waiting w hw hne := by
    have hwi : w ≠ i := fun heq => hne (by rw [heq])
    rw [hworkers, Function.update_of_ne hwi]
    exact h.waiting w hw hne

/-- It takes the pill out of its queue, reads it and exits. -/
theorem Reads.run (h : Reads s i p) (hwaits : Waits s i (some i)) (hpill : HasPill s p)
    (hstep : thread_pool.run s i = some s') : Reads s' i p ∧ Waits s' i (some i) ∧ HasPill s' p := by
  unfold thread_pool.run at hstep
  rcases h with ⟨hfirst, hnext, hpc⟩ | ⟨hfirst, ⟨hpc, hnext⟩ | hpc | hpc⟩
  · simp only [hpc, hfirst, Option.some.injEq] at hstep
    subst hstep
    refine ⟨.inr ⟨by simp [State.goto, State.pop_all], .inl ⟨by simp [State.goto], hnext⟩⟩,
      hwaits.goes rfl (fun q hq => ?_) rfl, hpill.life, hpill.task⟩
    simp [State.goto, State.pop_all, hq]
  · simp only [hpc, hpill.task, hnext, Option.some.injEq] at hstep
    subst hstep
    exact ⟨.inr ⟨hfirst, .inr (.inl (by simp [State.goto]))⟩, hwaits.goes rfl (fun _ _ => rfl) rfl, hpill.life,
      hpill.task⟩
  · simp only [hpc, Option.some.injEq] at hstep
    subst hstep
    exact ⟨.inr ⟨hfirst, .inr (.inr (by simp [State.goto]))⟩, hwaits.goes rfl (fun _ _ => rfl) rfl, hpill.life,
      hpill.task⟩
  · simp [hpc] at hstep

namespace Inv

theorem init (n : Nat) : Inv n (construct : Construction α) :=
  ⟨Nat.zero_le n, rfl, rfl, fun _ _ => rfl, fun _ hw => absurd hw (Nat.not_lt_zero _), fun _ _ _ => rfl⟩

theorem create_thread (h : Inv n c) (hstep : step n c .create_thread = some c') : Inv n c' := by
  have hpc := h.at_pc
  simp only [step] at hstep
  split at hstep
  case h_1 i hi =>
    rw [hi] at hpc
    split at hstep
    all_goals cases hstep
    · rename_i hlt
      exact ⟨hlt, rfl, hpc.2⟩
    · exact ⟨h.threads_le, hpc.2⟩
  case h_2 => cases hstep

theorem throw (h : Inv n c) (hstep : step n c (.throw p) = some c') : Inv n c' := by
  have hpc := h.at_pc
  simp only [step] at hstep
  split at hstep
  case h_1 i hi =>
    rw [hi] at hpc
    obtain ⟨-, hstep⟩ := Option.ite_none_right_eq_some.mp hstep
    cases hstep
    refine ⟨h.threads_le, Nat.zero_le _, ⟨?_, ?_⟩, hpc.2.congr rfl rfl rfl⟩
    · simp [State.record, life]
    · simp [State.record]
  case h_2 => cases hstep

theorem scope_exit (h : Inv n c) (hstep : step n c .scope_exit = some c') : Inv n c' := by
  have hpc := h.at_pc
  simp only [step, creating.scope_exit] at hstep
  split at hstep
  case h_1 i p hi =>
    rw [hi] at hpc
    obtain ⟨hle, hpill, hwaits⟩ := hpc
    split at hstep
    case isTrue hlt =>
      cases hstep
      have hfirst : (c.pool.queues i).first = none := hwaits.queues i (by simp)
      refine ⟨h.threads_le, hlt.2, ⟨?_, hpill.task⟩, ⟨hwaits.stop, fun q hq => ?_, hwaits.exited,
        fun w hw _ => hwaits.waiting w hw (by simp)⟩, .inl ⟨?_, ?_, hwaits.waiting i le_rfl (by simp)⟩⟩
      · simpa [State.push_list, Queue.tail, hfirst] using hpill.life
      · have hqi : q ≠ i := fun heq => hq (by rw [heq])
        simpa [State.push_list, hqi] using hwaits.queues q (by simp)
      · simp [State.push_list, Queue.push_list, hfirst]
      · simp [State.push_list, Queue.push_list, hfirst]
    case isFalse hnot =>
      cases hstep
      have hthreads : c.threads = i := by
        have hle' := h.threads_le
        omega
      exact ⟨h.threads_le, by rw [hthreads]; exact hwaits.congr rfl rfl rfl⟩
  case h_2 i p hi =>
    rw [hi] at hpc
    obtain ⟨hlt, hpill, hwaits, hreads⟩ := hpc
    obtain ⟨hexited, hstep⟩ := Option.ite_none_right_eq_some.mp hstep
    cases hstep
    have hfirst : (c.pool.queues i).first = none := by
      rcases hreads with ⟨-, -, hpop⟩ | ⟨hfirst, -⟩
      · cases hpop.symm.trans hexited
      · exact hfirst
    exact ⟨h.threads_le, hlt, hpill, hwaits.join hfirst hexited⟩
  case h_3 => cases hstep

theorem run (h : Inv n c) (hstep : step n c (.run w) = some c') : Inv n c' := by
  have hpc := h.at_pc
  simp only [step, Option.ite_none_right_eq_some] at hstep
  obtain ⟨pool, hrun, rfl⟩ := Option.map_eq_some_iff.mp hstep.2
  have hstuck : ∀ joined, Waits c.pool joined none → False := fun joined hwaits => by
    cases (hwaits.run_eq_none (by simp)).symm.trans hrun
  cases hat : c.pc with
  | create i =>
    rw [hat] at hpc
    exact (hstuck 0 hpc.2).elim
  | push i p =>
    rw [hat] at hpc
    exact (hstuck i hpc.2.2).elim
  | join i p =>
    rw [hat] at hpc
    obtain ⟨hlt, hpill, hwaits, hreads⟩ := hpc
    by_cases hw : w = i
    · subst hw
      obtain ⟨hreads', hwaits', hpill'⟩ := hreads.run hwaits hpill hrun
      exact ⟨h.threads_le, hlt, hpill', hwaits', hreads'⟩
    · cases (hwaits.run_eq_none (by simpa using Ne.symm hw)).symm.trans hrun
  | threw =>
    rw [hat] at hpc
    exact (hstuck _ hpc).elim
  | constructed =>
    rw [hat] at hpc
    exact (hstuck 0 hpc).elim

theorem overwrite (h : Inv n c) {next : Option α} {task : Task α} {status : schedule_errc}
    (hstep : step n c (.overwrite v next task status) = some c') : Inv n c' := by
  have hpc := h.at_pc
  simp only [step, Option.ite_none_right_eq_some, Option.some.injEq] at hstep
  obtain ⟨hgone, rfl⟩ := hstep
  have hne : ∀ {p}, HasPill c.pool p → p ≠ v := by
    rintro p hpill rfl
    cases hpill.life.symm.trans hgone
  refine ⟨h.threads_le, ?_⟩
  dsimp only
  cases hat : c.pc with
  | create i =>
    rw [hat] at hpc
    exact ⟨hpc.1, hpc.2.congr rfl rfl rfl⟩
  | push i p =>
    rw [hat] at hpc
    obtain ⟨hle, hpill, hwaits⟩ := hpc
    exact ⟨hle, ⟨hpill.life, by simpa [hne hpill] using hpill.task⟩, hwaits.congr rfl rfl rfl⟩
  | join i p =>
    rw [hat] at hpc
    obtain ⟨hlt, hpill, hwaits, hreads⟩ := hpc
    refine ⟨hlt, ⟨hpill.life, by simpa [hne hpill] using hpill.task⟩, hwaits.congr rfl rfl rfl, ?_⟩
    simpa only [Reads, Function.update_of_ne (hne hpill)] using hreads
  | threw =>
    rw [hat] at hpc
    exact hpc.congr rfl rfl rfl
  | constructed =>
    rw [hat] at hpc
    exact hpc.congr rfl rfl rfl

theorem step (h : Inv n c) {a : Action α} (hstep : Step n c a c') : Inv n c' := by
  cases a with
  | create_thread => exact h.create_thread hstep
  | throw p => exact h.throw hstep
  | scope_exit => exact h.scope_exit hstep
  | run w => exact h.run hstep
  | overwrite v next task status => exact h.overwrite hstep

end Inv

omit [DecidableEq α] in
theorem not_in_list_of_top {h : Holder} (htop : (s.walk h).top = none) : ¬ s.InList h v := by
  rintro ⟨vs, hlinked, hv⟩
  rw [htop] at hlinked
  simp [Segment.null_iff.mp hlinked] at hv

omit [DecidableEq α] in
theorem Waits.top (h : Waits s joined except) {k : Holder} (hqueue : ∀ i, except = some i → k ≠ .queue i)
    (hworker : ∀ i, except = some i → k ≠ .worker i) : (s.walk k).top = none := by
  cases k with
  | queue q => exact h.queues q fun heq => hqueue q heq rfl
  | worker w =>
    rcases Nat.lt_or_ge w joined with hlt | hge
    · simp [State.walk, h.exited w hlt, Worker.walk]
    · simp [State.walk, h.waiting w hge fun heq => hworker w heq rfl, Worker.walk]
  | stopper => simp [State.walk, h.stop, Stop.walk, Stop.cancel_tasks]

omit [DecidableEq α] in
/-- Nobody has a list. -/
theorem Waits.not_in_list (h : Waits s joined none) (k : Holder) (v : α) : ¬ s.InList k v :=
  not_in_list_of_top (h.top (by simp) (by simp))

omit [DecidableEq α] in
/-- The queue or its worker has the pill, not both. -/
theorem Reads.holder (h : Reads s i p) (hwaits : Waits s i (some i)) :
    ∃ k, ∀ k', s.InList k' v → k' = k := by
  have hother : ∀ k, k ≠ .queue i → k ≠ .worker i → ¬ s.InList k v := fun k hqueue hworker =>
    not_in_list_of_top (hwaits.top (by simpa using hqueue) (by simpa using hworker))
  rcases h with ⟨-, -, hpc⟩ | ⟨hfirst, -⟩
  · refine ⟨.queue i, fun k hk => ?_⟩
    by_contra hne
    by_cases hworker : k = .worker i
    · subst hworker
      exact not_in_list_of_top (by simp [State.walk, hpc, Worker.walk]) hk
    · exact hother k hne hworker hk
  · refine ⟨.worker i, fun k hk => ?_⟩
    by_contra hne
    by_cases hqueue : k = .queue i
    · subst hqueue
      exact not_in_list_of_top (by simp [State.walk, hfirst]) hk
    · exact hother k hqueue hne hk

end creating

/-- The pill of the destructor, and that of the constructor when a thread cannot
be created, is in the list of at most one queue or thread, and in none when it is
pushed and when the function returns; then all threads that were started have
been joined. -/
theorem pill_is_linked_once (α : Type) [DecidableEq α] (n : Nat) :
    (∀ (as : List (Action α)) s, Run (Step n) construct as s →
      (∀ p, s.stop.pill = some p → ∀ h h', s.InList h p → s.InList h' p → h = h') ∧
      (∀ i p, s.stop = .push i p → ∀ h, ¬ s.InList h p) ∧
      (∀ i p c, s.stop = .drain i p c → ∀ h, ¬ s.InList h p) ∧
      ((∃ i p c, s.stop = .drain i p c) ∨ s.stop = .returned → ∀ w, w < n → s.workers w = .exited)) ∧
    ∀ (as : List (creating.Action α)) c, Run (creating.Step n) creating.construct as c →
      (∀ p, c.pc.pill = some p → ∀ h h', c.pool.InList h p → c.pool.InList h' p → h = h') ∧
      (∀ i p, c.pc = .push i p → ∀ h, ¬ c.pool.InList h p) ∧
      (c.pc = .threw → (∀ h v, ¬ c.pool.InList h v) ∧ ∀ w, w < c.threads → c.pool.workers w = .exited) := by
  refine ⟨fun as s hrun => ?_, fun as c hrun => ?_⟩
  · obtain ⟨place, blocks, h⟩ := inv_of_run (hrun.mono fun _ _ _ hstep => hstep.2)
    have hjoined := h.phase.joined
    refine ⟨fun p _ k k' hk hk' => ?_, fun i p hstop k => ?_, fun i p c hstop k => ?_, fun hstop w hw => ?_⟩
    · have heq := (h.in_list_iff.mp hk).symm.trans (h.in_list_iff.mp hk')
      exact Place.listed.inj heq
    · exact h.not_in_list (by rw [hstop]; rfl) (by simp [hstop, Stop.Has]) k
    · exact h.not_in_list (by rw [hstop]; rfl) (by simp [hstop, Stop.Has]) k
    · rcases hstop with ⟨i, p, c, hstop⟩ | hstop
      · exact hjoined w (by simpa [hstop, Stop.joined] using hw)
      · exact hjoined w (by simpa [hstop, Stop.joined] using hw)
  · have h : creating.Inv n c :=
      hrun.invariant (creating.Inv n) (fun _ _ _ h hstep => h.step hstep) (creating.Inv.init n)
    have hpc := h.at_pc
    cases hat : c.pc with
    | create i => simp [creating.Pc.pill]
    | constructed => simp [creating.Pc.pill]
    | push i p =>
      rw [hat] at hpc
      have hnone := fun k => hpc.2.2.not_in_list k p
      refine ⟨fun p' hp' k k' hk => ?_, fun i' p' hp' => ?_, by simp⟩
      · cases hp'
        exact absurd hk (hnone k)
      · cases hp'
        exact hnone
    | join i p =>
      rw [hat] at hpc
      obtain ⟨-, -, hwaits, hreads⟩ := hpc
      refine ⟨fun p' hp' k k' hk hk' => ?_, by simp, by simp⟩
      obtain ⟨j, hj⟩ := hreads.holder hwaits
      rw [hj k hk, hj k' hk']
    | threw =>
      rw [hat] at hpc
      exact ⟨by simp [creating.Pc.pill], by simp, fun _ => ⟨hpc.not_in_list, hpc.exited⟩⟩

/-- Worker 0 is asked to stop, and the destructor is called: its pill was in queue 0
and is in queue 1 now. -/
def destroy_stopped : List (Action Nat) :=
  [.push_deadpill .outside 10 11 0, .run 0, .run 0, .run 0, .run 0, .run 0, .destroy 20, .stop, .stop, .stop, .stop,
    .stop, .stop]

/-- The destructor goes on until it returns. -/
def return_stopped : List (Action Nat) :=
  [.run 1, .run 1, .run 1, .stop, .stop, .stop, .stop, .stop, .stop, .stop, .stop, .stop]

/-- The second of two threads cannot be created. -/
def second_throws : List (creating.Action Nat) :=
  [.create_thread, .throw 7, .scope_exit, .run 0, .run 0, .run 0, .scope_exit, .scope_exit]

theorem pill_is_linked_once_of_two :
    (∃ s s' : State Nat, Run (Step 2) construct destroy_stopped s ∧ s.stop = .join 1 20 ∧ s.workers 0 = .exited ∧
      (s.queues 1).first = some 20 ∧ (∀ h h', s.InList h 20 → s.InList h' 20 → h = h') ∧
      Run (Step 2) construct (destroy_stopped ++ return_stopped) s' ∧ s'.stop = .returned ∧
      ∀ w, w < 2 → s'.workers w = .exited) ∧
    ∃ c : creating.Construction Nat,
      Run (creating.Step 2) creating.construct second_throws c ∧ c.pc = .threw ∧ c.threads = 1 ∧
      (∀ h v, ¬ c.pool.InList h v) ∧ ∀ w, w < c.threads → c.pool.workers w = .exited := by
  constructor
  · let take := fun (s : State Nat) a => if Allowed s a then step 2 s a else none
    have hstep : ∀ s a s', take s a = some s' → Step 2 s a s' := fun s a s' htake =>
      Option.ite_none_right_eq_some.mp htake
    have htaken : (destroy_stopped.foldlM take construct).any (fun s => s.stop = .join 1 20 ∧ s.workers 0 = .exited ∧
        (s.queues 1).first = some 20) = true := by
      decide +kernel
    have hreturns : ((destroy_stopped ++ return_stopped).foldlM take construct).any (fun s => s.stop = .returned) = true := by
      decide +kernel
    obtain ⟨s, hs, hend⟩ := (Option.any_eq_true ..).mp htaken
    obtain ⟨hstop, hexited, hfirst⟩ := of_decide_eq_true hend
    obtain ⟨s', hs', hend'⟩ := (Option.any_eq_true ..).mp hreturns
    have hreturned := of_decide_eq_true hend'
    have hrun := Run.of_foldlM hstep hs
    have hrun' := Run.of_foldlM hstep hs'
    exact ⟨s, s', hrun, hstop, hexited, hfirst, ((pill_is_linked_once Nat 2).1 _ s hrun).1 20 (by rw [hstop]; rfl), hrun',
      hreturned, ((pill_is_linked_once Nat 2).1 _ s' hrun').2.2.2 (Or.inr hreturned)⟩
  · have hrun : ∃ c : creating.Construction Nat, Run (creating.Step 2) creating.construct second_throws c ∧
        c.pc = .threw ∧ c.threads = 1 :=
      ⟨_, .cons rfl <| .cons rfl <| .cons rfl <| .cons rfl <| .cons rfl <| .cons rfl <| .cons rfl <| .cons rfl <|
        .nil _, rfl, rfl⟩
    obtain ⟨c, hrun, hthrew, hthreads⟩ := hrun
    exact ⟨c, hrun, hthrew, hthreads, ((pill_is_linked_once Nat 2).2 _ c hrun).2.2 hthrew⟩

end kelcoro.thread_pool
