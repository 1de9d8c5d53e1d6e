import Kelcoro.Lib.Held
import Kelcoro.Task.Calls.Evaluated
import Kelcoro.Task.Calls.Going
import Kelcoro.ThreadPool.Nodes
import Mathlib

namespace kelcoro.task.calls.on_thread_pool

open kelcoro.lib kelcoro.return_block kelcoro.thread_pool

variable {C V E : Type}

/-- The memory of a node: the awaiter of coroutine `f`, which is in its frame, or
something else. -/
inductive Node where
  | awaiter (f : Nat)
  | other (p : Nat)
  deriving DecidableEq, Repr

/-- A thread outside of the pool, a worker, the thread that stops the pool. -/
inductive Thread where
  | outside (i : Nat)
  | worker (w : Nat)
  | stopper
  deriving DecidableEq, Repr

/-- As what a thread uses the pool. -/
def Thread.user : Thread → User
  | .outside _ | .stopper => .outside
  | .worker w => .worker w

/-- Coroutines that await `jump_on(pool)` only. `control` is the coroutine on behalf of
which a thread goes on, when it does. -/
structure State (C V E : Type) where
  coroutines : System C V E Unit schedule_errc
  pool : thread_pool.State Node
  control : Thread → Option Nat

def construct : State C V E where
  coroutines := calls.construct
  pool := thread_pool.construct
  control := fun _ => none

/-- A coroutine is called; a thread does something with it; a thread goes on with
coroutine `f`, which is attached to queue `q` if it jumps on the pool; something happens
in the pool. -/
inductive Action (C V E : Type) where
  | spawn (c : C)
  | caller (t : Thread) (r : Nat) (op : Op V E)
  | go (t : Thread) (f q : Nat)
  | pool (a : thread_pool.Action Node)

/-- The thread of the pool that does it. -/
def thread : thread_pool.Action Node → Option Thread
  | .run w => some (.worker w)
  | .stop => some .stopper
  | _ => none

/-- It is not about the awaiters of coroutines. -/
def Foreign : thread_pool.Action Node → Prop
  | .attach _ v _ => ∃ p, v = .other p
  | .push_deadpill _ p u _ => (∃ p', p = .other p') ∧ ∃ u', u = .other u'
  | .destroy p => ∃ p', p = .other p'
  | _ => True

section Step

variable (P : Program C V E Unit schedule_errc) (left : E → Option E) (moved : V → V) (n : Nat) (s : State C V E)

/-- A coroutine that goes on to a `co_await jump_on(pool)` is attached. -/
def attach_next (t : Thread) (f q : Nat) : Option (thread_pool.State Node) :=
  if awaits_next P s.coroutines f then thread_pool.step n s.pool (.attach t.user (.awaiter f) q) else some s.pool

/-- The coroutine that is resumed gets the status that is in its node. -/
def step : Action C V E → Option (State C V E)
  | .spawn c =>
    (calls.step P left moved s.coroutines (.spawn c)).map fun coroutines => { s with coroutines := coroutines }
  | .caller t r op =>
    (calls.step P left moved s.coroutines (.caller r op)).map fun coroutines =>
      { s with
        coroutines := coroutines
        control :=
          if ¬ s.coroutines.Going r ∧ coroutines.Going r then Function.update s.control t (some r) else s.control }
  | .go t f q =>
    (calls.step P left moved s.coroutines (.go f)).bind fun coroutines =>
      (attach_next P n s t f q).map fun pool =>
        { coroutines := coroutines
          pool := pool
          control := Function.update s.control t
            (if coroutines.Going (s.coroutines.root f) then some (s.coroutines.root f) else none) }
  | .pool a =>
    (thread_pool.step n s.pool a).bind fun pool =>
      match thread a, resumes s.pool a with
      | some t, some (.awaiter f, status) =>
        (calls.step P left moved s.coroutines (.resume f status)).map fun coroutines =>
          { coroutines := coroutines
            pool := pool
            control := Function.update s.control t (some (s.coroutines.root f)) }
      | _, _ => some { s with pool := pool }

/-- A thread of the pool is in a task that it has resumed, or in one that it has resumed
with `cancelled`. -/
def Inside (pool : thread_pool.State Node) : Thread → Prop
  | .outside _ => True
  | .worker w => (∃ top, pool.workers w = .busy top) ∨ ∃ top, pool.workers w = .cancel (.loop top)
  | .stopper => ∃ top, pool.stop.cancel_tasks = some (.loop top)

/-- A thread goes on with one coroutine at a time, and with the pool when it has returned
from that; and coroutines use the pool when they may. -/
def Allowed : Action C V E → Prop
  | .spawn _ => True
  | .caller t r op =>
    s.control t = none ∧ Inside s.pool t ∧ calls.Allowed s.coroutines (.caller r op : calls.Action C V E schedule_errc)
  | .go t f _ =>
    s.control t = some (s.coroutines.root f) ∧ calls.Allowed s.coroutines (.go f : calls.Action C V E schedule_errc) ∧
    (awaits_next P s.coroutines f → s.pool.MayUse t.user)
  | .pool a => Foreign a ∧ thread_pool.Allowed s.pool a ∧ ∀ t, thread a = some t → s.control t = none

def Step (s : State C V E) (a : Action C V E) (s' : State C V E) : Prop :=
  Allowed P s a ∧ step P left moved n s a = some s'

end Step

/-- What is known between two steps. -/
structure Inv (P : Program C V E Unit schedule_errc) (left : E → Option E) (moved : V → V) (n : Nat) (s : State C V E) :
    Prop where
  coroutines : ∃ as, Run (calls.Step P left moved) calls.construct as s.coroutines
  pool : ∃ as, Run (thread_pool.Step n) thread_pool.construct as s.pool
  asks : ∀ f, s.pool.Has (.awaiter f) ↔ s.coroutines.Asks f
  no_pill : ∀ f, life (.awaiter f) s.pool.log ≠ .pill
  held : Held s.control s.coroutines.Going
  inside : ∀ t r, s.control t = some r → Inside s.pool t

variable {P : Program C V E Unit schedule_errc} {left : E → Option E} {moved : V → V} {n : Nat} {s s' : State C V E}
  {pool : thread_pool.State Node} {a : thread_pool.Action Node} {t : Thread} {f : Nat} {status : schedule_errc}

theorem pool_inv {as : List (thread_pool.Action Node)} (hrun : Run (thread_pool.Step n) thread_pool.construct as pool) :
    ∃ place blocks, thread_pool.Inv n pool place blocks :=
  thread_pool.inv_of_run (hrun.mono fun _ _ _ hstep => hstep.2)

/-- What other threads do in the pool does not concern one that is in a task. -/
theorem inside_stays (hstep : thread_pool.step n s.pool a = some pool) (hthread : thread a ≠ some t) (h : Inside s.pool t) :
    Inside pool t := by
  obtain ⟨hworkers, hstop⟩ := step_stays hstep
  cases t with
  | outside i => trivial
  | worker w =>
    have hne : a ≠ .run w := by
      rintro rfl
      exact hthread rfl
    simpa only [Inside, hworkers w hne] using h
  | stopper =>
    obtain ⟨top, htop⟩ := h
    have hne : a ≠ .stop := by
      rintro rfl
      exact hthread rfl
    exact ⟨top, hstop _ hne htop⟩

/-- A thread that resumes a task is in it. -/
theorem inside_of_resumes {place : Node → thread_pool.Place} {blocks : thread_pool.Holder → List (Block Node)}
    (h : thread_pool.Inv n s.pool place blocks) (hstep : thread_pool.step n s.pool a = some pool) {v : Node}
    (hresumes : resumes s.pool a = some (v, status)) : ∃ t, thread a = some t ∧ Inside pool t := by
  obtain ⟨place', blocks', h'⟩ := h.step hstep
  cases a with
  | run w =>
    obtain ⟨-, hrun⟩ := Option.ite_none_right_eq_some.mp hstep
    exact ⟨_, rfl, ((has_run hrun h'.core.lawful v).2 status hresumes).2⟩
  | stop => exact ⟨_, rfl, ((has_stop h.phase.emptied_le hstep h'.core.lawful v).2 status hresumes).2⟩
  | attach user v q | push_deadpill user p u q | overwrite v next task status | wait_stop | destroy p => cases hresumes

/-- Only a thread of the pool resumes. -/
theorem thread_of_resumes {v : Node} (hresumes : resumes s.pool a = some (v, status)) : ∃ t, thread a = some t := by
  cases a with
  | run w | stop => exact ⟨_, rfl⟩
  | attach user v q | push_deadpill user p u q | overwrite v next task status | wait_stop | destroy p => cases hresumes

theorem Foreign.not_attaches (h : Foreign a) (g : Nat) : ¬ a.Attaches (.awaiter g) := by
  cases a with
  | attach user v q =>
    obtain ⟨p, rfl⟩ := h
    simp [thread_pool.Action.Attaches]
  | push_deadpill user p u q =>
    obtain ⟨-, u', rfl⟩ := h
    simp [thread_pool.Action.Attaches]
  | run w | stop | overwrite v next task status | wait_stop | destroy p => exact id

theorem Foreign.not_makes (h : Foreign a) (g : Nat) : ¬ a.Makes (.awaiter g) := by
  cases a with
  | push_deadpill user p u q =>
    obtain ⟨⟨p', rfl⟩, -⟩ := h
    simp [thread_pool.Action.Makes]
  | destroy p =>
    obtain ⟨p', rfl⟩ := h
    simp [thread_pool.Action.Makes]
  | attach user v q | run w | stop | overwrite v next task status | wait_stop => exact id

namespace Inv

theorem calls_inv (h : Inv P left moved n s) : calls.Inv P left s.coroutines := by
  obtain ⟨as, hrun⟩ := h.coroutines
  exact (calls.inv_of_run hrun).1

theorem coroutines_step (h : Inv P left moved n s) {b : calls.Action C V E schedule_errc}
    {coroutines : System C V E Unit schedule_errc} (hstep : calls.Step P left moved s.coroutines b coroutines) :
    ∃ as, Run (calls.Step P left moved) calls.construct as coroutines := by
  obtain ⟨as, hrun⟩ := h.coroutines
  exact ⟨as ++ [b], hrun.append (.cons hstep (.nil _))⟩

theorem pool_step (h : Inv P left moved n s) (hstep : thread_pool.Step n s.pool a pool) :
    ∃ as, Run (thread_pool.Step n) thread_pool.construct as pool := by
  obtain ⟨as, hrun⟩ := h.pool
  exact ⟨as ++ [a], hrun.append (.cons hstep (.nil _))⟩

/-- Where node `v` is after a step of the pool. -/
theorem has_iff (h : Inv P left moved n s) (hstep : thread_pool.step n s.pool a = some pool) (v : Node) :
    (pool.Has v ↔ a.Attaches v ∨ s.pool.Has v ∧ ∀ status, resumes s.pool a ≠ some (v, status)) ∧
      ∀ status, resumes s.pool a = some (v, status) → s.pool.Has v := by
  obtain ⟨as, hrun⟩ := h.pool
  obtain ⟨place, blocks, hinv⟩ := pool_inv hrun
  exact has_step hinv hstep v

theorem no_pill_step (h : Inv P left moved n s) (hstep : thread_pool.step n s.pool a = some pool)
    (hmakes : ∀ g, ¬ a.Makes (.awaiter g)) (f : Nat) : life (.awaiter f) pool.log ≠ .pill :=
  fun hpill => (pill_step hstep hpill).elim (hmakes f) (h.no_pill f)

/-- The awaiter of a coroutine that does not wait is not in the pool. -/
theorem gone (h : Inv P left moved n s) (hf : ¬ s.coroutines.Asks f) : life (.awaiter f) s.pool.log = .gone := by
  cases hlife : life (.awaiter f) s.pool.log with
  | gone => rfl
  | node q => exact absurd ((h.asks f).mp ⟨q, hlife⟩) hf
  | pill => exact absurd hlife (h.no_pill f)

theorem spawn (h : Inv P left moved n s) {c : C} (hstep : Step P left moved n s (.spawn c) s') :
    Inv P left moved n s' := by
  obtain ⟨-, hstep⟩ := hstep
  rw [step, Option.map_eq_some_iff] at hstep
  obtain ⟨coroutines, hcoroutines, rfl⟩ := hstep
  have hcalls : calls.Step P left moved s.coroutines (.spawn c) coroutines := ⟨trivial, hcoroutines⟩
  obtain ⟨hgoing, hasks⟩ := spawn_going h.calls_inv hcalls
  exact ⟨h.coroutines_step hcalls, h.pool, fun f => (h.asks f).trans (hasks f).symm, h.no_pill, h.held.congr hgoing, h.inside⟩

theorem caller (h : Inv P left moved n s) {r : Nat} {op : Op V E} (hstep : Step P left moved n s (.caller t r op) s') :
    Inv P left moved n s' := by
  obtain ⟨⟨hfree, hinside, hallowed⟩, hstep⟩ := hstep
  obtain ⟨coroutines, hcoroutines, rfl⟩ := Option.map_eq_some_iff.mp hstep
  have hcalls : calls.Step P left moved s.coroutines (.caller r op) coroutines := ⟨hallowed, hcoroutines⟩
  obtain ⟨hothers, hkept, hasks⟩ := caller_going h.calls_inv hcalls
  have hcoroutines' := h.coroutines_step hcalls
  have hasks' : ∀ f, s.pool.Has (.awaiter f) ↔ coroutines.Asks f := fun f => (h.asks f).trans (hasks f).symm
  by_cases hstarts : ¬ s.coroutines.Going r ∧ coroutines.Going r
  · simp only [if_pos hstarts]
    refine ⟨hcoroutines', h.pool, hasks', h.no_pill, h.held.enters hfree hstarts.1 fun r' => ?_, fun t' r' ht' => ?_⟩
    · by_cases hr : r' = r
      · simp [hr, hstarts.2]
      · simp [hr, hothers r' hr]
    · by_cases htt : t' = t
      · rwa [htt]
      · simp only [Function.update_of_ne htt] at ht'
        exact h.inside t' r' ht'
  · simp only [if_neg hstarts]
    refine ⟨hcoroutines', h.pool, hasks', h.no_pill, h.held.congr fun r' => ?_, h.inside⟩
    by_cases hr : r' = r
    · subst hr
      exact ⟨fun hgoing => by_contra fun hnot => hstarts ⟨hnot, hgoing⟩, hkept⟩
    · exact hothers r' hr

theorem go (h : Inv P left moved n s) {q : Nat} (hstep : Step P left moved n s (.go t f q) s') :
    Inv P left moved n s' := by
  obtain ⟨⟨hcontrol, hallowed, hmay⟩, hstep⟩ := hstep
  obtain ⟨coroutines, hcoroutines, hstep⟩ := Option.bind_eq_some_iff.mp hstep
  obtain ⟨pool, hpool, rfl⟩ := Option.map_eq_some_iff.mp hstep
  have hcalls : calls.Step P left moved s.coroutines (.go f) coroutines := ⟨hallowed, hcoroutines⟩
  have hcoroutines' := h.coroutines_step hcalls
  have hheld := h.held.goes hcontrol fun r hr => go_going h.calls_inv hcalls hr
  have hawaits := go_awaits h.calls_inv hcalls
  -- Who goes on was in its task before.
  have hwas : ∀ t' r, Function.update s.control t (if coroutines.Going (s.coroutines.root f) then
      some (s.coroutines.root f) else none) t' = some r → Inside s.pool t' := by
    intro t' r ht'
    by_cases htt : t' = t
    · exact h.inside t' _ (htt ▸ hcontrol)
    · rw [Function.update_of_ne htt] at ht'
      exact h.inside t' r ht'
  by_cases hnext : awaits_next P s.coroutines f = true
  · rw [attach_next, if_pos hnext] at hpool
    have hattach : thread_pool.Step n s.pool (.attach t.user (.awaiter f) q) pool := ⟨hmay hnext, hpool⟩
    refine ⟨hcoroutines', h.pool_step hattach, fun g => ?_, h.no_pill_step hpool (fun _ => id), hheld, fun t' r ht' => ?_⟩
    · show pool.Has (.awaiter g) ↔ coroutines.Asks g
      rw [(h.has_iff hpool _).1, hawaits g, h.asks g]
      simp [thread_pool.Action.Attaches, resumes, hnext, or_comm, eq_comm]
    · exact inside_stays hpool (by simp [thread]) (hwas t' r ht')
  · rw [attach_next, if_neg hnext] at hpool
    cases hpool
    refine ⟨hcoroutines', h.pool, fun g => ?_, h.no_pill, hheld, hwas⟩
    show s.pool.Has (.awaiter g) ↔ coroutines.Asks g
    rw [hawaits g, h.asks g]
    simp [hnext]

/-- What a thread of the pool does that is not in a coroutine. -/
theorem pool_stays (h : Inv P left moved n s) (hstep : thread_pool.step n s.pool a = some pool)
    (hfree : ∀ t, thread a = some t → s.control t = none) (r : Nat) (ht : s.control t = some r) : Inside pool t := by
  refine inside_stays hstep (fun heq => ?_) (h.inside t r ht)
  rw [hfree t heq] at ht
  cases ht

theorem pool_acts (h : Inv P left moved n s) (hstep : Step P left moved n s (.pool a) s') : Inv P left moved n s' := by
  obtain ⟨⟨hforeign, hallowed, hfree⟩, hstep⟩ := hstep
  obtain ⟨pool, hpool, hstep⟩ := Option.bind_eq_some_iff.mp hstep
  have hpool' := h.pool_step ⟨hallowed, hpool⟩
  have hnew : ∀ g, ¬ a.Attaches (.awaiter g) := hforeign.not_attaches
  have hno_pill := h.no_pill_step hpool hforeign.not_makes
  have hhas := fun g => h.has_iff hpool (.awaiter g)
  have hstays := fun t r ht => h.pool_stays (t := t) hpool hfree r ht
  split at hstep
  case h_1 t f status ht hresumes =>
    obtain ⟨coroutines, hcoroutines, rfl⟩ := Option.map_eq_some_iff.mp hstep
    obtain ⟨hf, x, k, hpoint⟩ := (h.asks f).mp ((hhas f).2 status hresumes)
    have hcalls : calls.Step P left moved s.coroutines (.resume f status) coroutines := ⟨hf, hcoroutines⟩
    obtain ⟨hgoing, hasks⟩ := resume_going h.calls_inv hcalls
    have hquiet : ¬ s.coroutines.Going (s.coroutines.root f) := by
      obtain ⟨hlive, hnobody⟩ := h.calls_inv.calls_nobody hf (.inr ⟨x, k, hpoint⟩)
      obtain ⟨hsuspended, -⟩ := (h.calls_inv.sound f hf).of_asks hpoint
      exact h.calls_inv.not_going hf hlive hnobody (by simp [hsuspended])
    refine ⟨h.coroutines_step hcalls, hpool', fun g => ?_, hno_pill, h.held.enters (hfree t ht) hquiet hgoing,
      fun t' r ht' => ?_⟩
    · show pool.Has (.awaiter g) ↔ coroutines.Asks g
      rw [(hhas g).1, hasks g, h.asks g]
      simp [hnew g, hresumes, eq_comm]
    · by_cases htt : t' = t
      · obtain ⟨as, hrun⟩ := h.pool
        obtain ⟨place, blocks, hinv⟩ := pool_inv hrun
        obtain ⟨t₁, ht₁, hinside⟩ := inside_of_resumes hinv hpool hresumes
        cases ht.symm.trans ht₁
        rwa [htt]
      · simp only [Function.update_of_ne htt] at ht'
        exact hstays t' r ht'
  case h_2 hother =>
    cases hstep
    refine ⟨h.coroutines, hpool', fun g => ?_, hno_pill, h.held, hstays⟩
    show pool.Has (.awaiter g) ↔ s.coroutines.Asks g
    rw [(hhas g).1, ← h.asks g]
    have hnone : ∀ status, resumes s.pool a ≠ some (.awaiter g, status) := fun status hresumes => by
      obtain ⟨t, ht⟩ := thread_of_resumes hresumes
      exact hother t g status ht hresumes
    simp [hnew g, hnone]

end Inv

theorem construct_inv : Inv P left moved n (construct : State C V E) where
  coroutines := ⟨[], .nil _⟩
  pool := ⟨[], .nil _⟩
  asks f := by
    constructor
    · rintro ⟨q, hq⟩
      cases hq
    · rintro ⟨hf, -⟩
      exact absurd hf (Nat.not_lt_zero f)
  no_pill f := by simp [construct, thread_pool.construct]
  held := {
    iff := fun r => by
      constructor
      · rintro ⟨g, hg, -⟩
        exact absurd hg (Nat.not_lt_zero g)
      · rintro ⟨t, ht⟩
        cases ht
    one := fun t t' r ht => by cases ht }
  inside := fun t r ht => by cases ht

theorem Inv.step (h : Inv P left moved n s) {b : Action C V E} (hstep : Step P left moved n s b s') :
    Inv P left moved n s' := by
  cases b with
  | spawn c => exact h.spawn hstep
  | caller t r op => exact h.caller hstep
  | go t f q => exact h.go hstep
  | pool a => exact h.pool_acts hstep

theorem inv_of_run {bs : List (Action C V E)} (hrun : Run (Step P left moved n) construct bs s) :
    Inv P left moved n s :=
  hrun.invariant (Inv P left moved n) (fun _ _ _ h hstep => h.step hstep) construct_inv

/-- What the pool can do alone it can do with the coroutines: who is resumed waits. -/
theorem Inv.pool_enabled (h : Inv P left moved n s) (hforeign : Foreign a) (hstep : thread_pool.Step n s.pool a pool)
    (hfree : ∀ t, thread a = some t → s.control t = none) : ∃ s', Step P left moved n s (.pool a) s' ∧ s'.pool = pool := by
  obtain ⟨hallowed, hpool⟩ := hstep
  by_cases hresumes : ∃ t f status, thread a = some t ∧ resumes s.pool a = some (.awaiter f, status)
  · obtain ⟨t, f, status, ht, hresumes⟩ := hresumes
    obtain ⟨hf, x, k, hpoint⟩ := (h.asks f).mp ((h.has_iff hpool _).2 status hresumes)
    obtain ⟨coroutines, hcoroutines, -⟩ := resume_spec moved h.calls_inv hf hpoint status
    let s' : State C V E := {
      coroutines := coroutines
      pool := pool
      control := Function.update s.control t (some (s.coroutines.root f)) }
    refine ⟨s', ⟨⟨hforeign, hallowed, hfree⟩, Option.bind_eq_some_iff.mpr ⟨pool, hpool, ?_⟩⟩, rfl⟩
    simp only [ht, hresumes, hcoroutines, Option.map_some, s']
  · let s' : State C V E := { s with pool := pool }
    refine ⟨s', ⟨⟨hforeign, hallowed, hfree⟩, Option.bind_eq_some_iff.mpr ⟨pool, hpool, ?_⟩⟩, rfl⟩
    split
    case h_1 t f status ht hresumed => exact absurd ⟨t, f, status, ht, hresumed⟩ hresumes
    case h_2 => rfl

/-- What a coroutine can do with any pool it can do with this one. -/
theorem Inv.go_enabled (h : Inv P left moved n s) {q : Nat} (hq : q < n) (hallowed : Allowed P s (.go t f q : Action C V E))
    {coroutines : System C V E Unit schedule_errc}
    (hcoroutines : calls.step P left moved s.coroutines (.go f) = some coroutines) :
    ∃ s', Step P left moved n s (.go t f q) s' ∧ s'.coroutines = coroutines := by
  obtain ⟨pool, hpool⟩ : ∃ pool, attach_next P n s t f q = some pool := by
    rw [attach_next]
    by_cases hnext : awaits_next P s.coroutines f = true
    · have hasks : ¬ s.coroutines.Asks f := by
        rintro ⟨-, x, k, hpoint⟩
        simp [awaits_next, hpoint] at hnext
      rw [if_pos hnext]
      exact ⟨_, if_pos ⟨hq, h.gone hasks⟩⟩
    · exact ⟨s.pool, if_neg hnext⟩
  let s' : State C V E := {
    coroutines := coroutines
    pool := pool
    control := Function.update s.control t
      (if coroutines.Going (s.coroutines.root f) then some (s.coroutines.root f) else none) }
  refine ⟨s', ⟨hallowed, Option.bind_eq_some_iff.mpr ⟨coroutines, hcoroutines, ?_⟩⟩, rfl⟩
  exact Option.map_eq_some_iff.mpr ⟨pool, hpool, rfl⟩

/-- No thread of the pool is in a task when the destructor has returned. -/
theorem outside_of_returned {place : Node → thread_pool.Place} {blocks : thread_pool.Holder → List (Block Node)}
    (h : thread_pool.Inv n s.pool place blocks) (hreturned : s.pool.stop = .returned) (hinside : Inside s.pool t) :
    ∃ i, t = .outside i := by
  cases t with
  | outside i => exact ⟨i, rfl⟩
  | worker w =>
    have hworker : s.pool.workers w = .exited ∨ s.pool.workers w = .pop := by
      by_cases hw : w < n
      · exact .inl (h.phase.joined w (by rw [hreturned]; exact hw))
      · exact .inr (h.phase.workers_lt w (by omega))
    obtain ⟨top, htop⟩ | ⟨top, htop⟩ := hinside <;> obtain hworker | hworker := hworker <;> cases htop.symm.trans hworker
  | stopper =>
    obtain ⟨top, htop⟩ := hinside
    rw [hreturned] at htop
    cases htop

/-- Coroutines that jump on a thread pool ask, and the pool answers: they do what they do
with some answers, and the pool does what it does with some nodes. The awaiters in the pool
are those of the coroutines that wait for it. Everything that goes on on behalf of one
coroutine is done by one thread at a time, which is in a task if it is one of the pool.
What the pool can do alone it can do with the coroutines, and a coroutine that can go on
can go on to the pool. And when the destructor has returned nobody waits for the pool:
who has started and has not ended is in the hands of a thread outside. -/
theorem jumping_is_asking {bs : List (Action C V E)} (hrun : Run (Step P left moved n) construct bs s) :
    (∃ as, Run (calls.Step P left moved) calls.construct as s.coroutines) ∧
      (∃ as, Run (thread_pool.Step n) thread_pool.construct as s.pool) ∧
      (∀ f, s.pool.Has (.awaiter f) ↔ s.coroutines.Asks f) ∧
      (∀ r, s.coroutines.Going r ↔ ∃ t, s.control t = some r) ∧
      (∀ t r, s.control t = some r → Inside s.pool t ∧ ∀ t', s.control t' = some r → t' = t) ∧
      (∀ a pool, Foreign a → thread_pool.Step n s.pool a pool → (∀ t, thread a = some t → s.control t = none) →
        ∃ s', Step P left moved n s (.pool a) s' ∧ s'.pool = pool) ∧
      (∀ t f q coroutines, q < n → Allowed P s (.go t f q : Action C V E) →
        calls.step P left moved s.coroutines (.go f) = some coroutines →
        ∃ s', Step P left moved n s (.go t f q) s' ∧ s'.coroutines = coroutines) ∧
      (s.pool.stop = .returned → ∀ f, f < s.coroutines.tasks.created →
        (s.coroutines.tasks.frames f).pc = .running ∨ (s.coroutines.tasks.frames f).pc = .suspended ∨
          (s.coroutines.tasks.frames f).pc = .ending →
        ∃ i, s.control (.outside i) = some (s.coroutines.root f)) := by
  have h : Inv P left moved n s := inv_of_run hrun
  refine ⟨h.coroutines, h.pool, h.asks, h.held.iff, fun t r ht => ⟨h.inside t r ht, fun t' ht' => h.held.one t' t r ht' ht⟩,
    fun a pool hforeign hstep hfree => h.pool_enabled hforeign hstep hfree,
    fun t f q coroutines hq hallowed hgo => h.go_enabled hq hallowed hgo, fun hreturned f hf hpc => ?_⟩
  obtain ⟨as, hpool⟩ := h.pool
  obtain ⟨place, blocks, hinv⟩ := pool_inv hpool
  obtain ⟨g, hg, hroot, hgoes | hasks⟩ := h.calls_inv.leaf hf hpc
  · obtain ⟨t, ht⟩ := (h.held.iff _).mp ⟨g, hg, hroot, hgoes⟩
    obtain ⟨i, rfl⟩ := outside_of_returned hinv hreturned (h.inside t _ ht)
    exact ⟨i, ht⟩
  · obtain ⟨q, hq⟩ := (h.asks g).mpr ⟨hg, hasks⟩
    exact absurd hq (hinv.none_left (emptied_of_run hpool) hreturned)

/-- A body jumps on the pool, and says if it was cancelled. -/
def jumps : Program (Option schedule_errc) Nat Nat Unit schedule_errc where
  spec _ := .object
  command
    | none => .await () some
    | some .ok => .co_return (.value 1)
    | some .cancelled => .co_return (.value 0)
  fits c how hc := by
    cases c with
    | none => cases hc
    | some status => cases status <;> cases hc <;> trivial
  after_co_await _ _ _ _ _ _ := rfl
  after_await _ _ _ _ _ := rfl

/-- It is started outside, and worker 0 goes on with it. -/
theorem jumping_is_asking_of_one : ∃ s : State (Option schedule_errc) Nat Nat,
    s.control (.worker 0) = some 0 ∧ (∀ t, s.control t = some 0 → t = .worker 0) ∧
      s.coroutines.points 0 = .goes_on (some .ok) := by
  obtain ⟨s, hrun, hcontrol, hpoint⟩ : ∃ s, Run (Step jumps (fun _ => none) id 1) construct
      [.spawn none, .caller (.outside 0) 0 (.start_and_detach true), .go (.outside 0) 0 0, .pool (.run 0), .pool (.run 0),
        .pool (.run 0)] s ∧ s.control (.worker 0) = some 0 ∧ s.coroutines.points 0 = .goes_on (some .ok) :=
    ⟨_, .cons ⟨trivial, rfl⟩ <| .cons ⟨⟨rfl, trivial, by decide⟩, rfl⟩ <|
      .cons ⟨⟨rfl, by decide, fun _ => rfl⟩, rfl⟩ <| .cons ⟨⟨trivial, trivial, fun t ht => by cases ht; rfl⟩, rfl⟩ <|
      .cons ⟨⟨trivial, trivial, fun t ht => by cases ht; rfl⟩, rfl⟩ <|
      .cons ⟨⟨trivial, trivial, fun t ht => by cases ht; rfl⟩, rfl⟩ <| .nil _, rfl, rfl⟩
  obtain ⟨-, -, -, -, hone, -⟩ := jumping_is_asking hrun
  exact ⟨s, hcontrol, (hone _ _ hcontrol).2, hpoint⟩

end kelcoro.task.calls.on_thread_pool
