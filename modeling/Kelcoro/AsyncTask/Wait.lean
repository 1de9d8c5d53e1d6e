import Kelcoro.Lib.Wait
import Kelcoro.AsyncTask.Invariant
import Mathlib

namespace kelcoro.async_task

open kelcoro.lib

variable {s s' : State} {a f : Nat}

/-- The frame for which the owner is in `wait`, or in the `wait` of `get`. -/
def OwnerPc.waits : OwnerPc → Option Nat
  | .wait _ f | .get_wait _ f _ => some f
  | _ => none

def ready : Flag Frame OwnerPc where
  waits := OwnerPc.waits
  is_set frame := frame.ready
  notifying frame := frame.pc = .notify_one

/-- `ready.wait(false)` of the owner, and `ready.notify_one()` of `final_suspend`. -/
def polling : Polling State Action where
  step := step
  Allowed := Allowed
  waiter a := a = .own
  blocks := ready.blocks
  notifies s
    | .final_suspend f => ready.notifies s f
    | _ => false

def CoroutinePc.weight : CoroutinePc → Nat
  | .exchange => 5
  | .notify_one => 4
  | .fetch_sub => 2
  | .destroy => 1
  | .body | .returned => 0

def OwnerPc.weight : OwnerPc → Nat
  | .idle => 0
  | .ready .. | .wait .. | .take_exception .. | .move_result .. | .destroy .. => 1
  | .result .. | .fetch_sub .. => 2
  | .has_exception .. => 3
  | .get_wait .. => 4

def weight (s : State) : Nat := Owned.weight (fun frame => frame.pc.weight) OwnerPc.weight s

namespace Action

/-- The accesses of the functions to the frame. -/
def own_step : Action → Bool
  | .own | .final_suspend _ => true
  | _ => false

/-- The accesses that what happens may bring about. -/
def costs : Action → Nat
  | .call (.wait _) | .call (.ready _) => 1
  | .call (.detach _) | .call (.destruct _) => 2
  | .call (.get _ _) => 4
  | .finish _ _ => 5
  | _ => 0

end Action

theorem goto_weight (hidle : s.owner = .idle) (p : OwnerPc) : weight (s.goto p) = weight s + p.weight := by
  have hgoto : weight (s.goto p) + s.owner.weight = _ := Owned.weight_goto
  rwa [hidle] at hgoto

theorem weight_put_of_pc {frame : Frame} (hpc : frame.pc = (s.frames f).pc) : weight (s.put f frame) = weight s :=
  Owned.weight_put_of_eq (congrArg CoroutinePc.weight hpc)

theorem own_finish_weight {frame : Frame} {destructs : Bool} (hpc : frame.pc = (s.frames f).pc)
    (hlt : 0 < s.owner.weight) : weight (finish (s.put f frame) a destructs) + 1 ≤ weight s := by
  have hgoto : weight ((s.put f frame).goto .idle) + 1 ≤ weight s :=
    Owned.weight_own (congrArg CoroutinePc.weight hpc) hlt
  exact hgoto

theorem own_weight (hown : own s = some s') (hblocks : ready.blocks s = false) : weight s' + 1 ≤ weight s := by
  have hready : ∀ f, s.owner.waits = some f → (s.frames f).ready = true := by
    intro f hf
    simpa [Flag.blocks, ready, hf] using hblocks
  cases howner : s.owner with
  | idle => simp [own, howner] at hown
  | ready a f | take_exception a f | move_result a f =>
    simp only [own, howner, Option.some.injEq] at hown
    subst hown
    exact Owned.weight_own rfl (by simp [howner, OwnerPc.weight])
  | wait a f | get_wait a f moves =>
    simp only [own, howner, hready f (by rw [howner]; rfl), if_true, Option.some.injEq] at hown
    subst hown
    exact Owned.weight_own rfl (by simp [howner, OwnerPc.weight])
  | has_exception a f moves =>
    simp only [own, howner] at hown
    split at hown <;> cases hown <;> exact Owned.weight_own rfl (by simp [howner, OwnerPc.weight])
  | result a f moves =>
    cases moves <;> simp only [own, howner, Bool.false_eq_true, if_true, if_false, Option.some.injEq] at hown <;>
      subst hown <;> exact Owned.weight_own rfl (by simp [howner, OwnerPc.weight])
  | fetch_sub a f destructs =>
    simp only [own, howner] at hown
    by_cases hlast : ((s.frames f).fetch_sub .released).1 = 1
    · rw [if_pos hlast] at hown
      cases hown
      exact Owned.weight_own rfl (by simp [howner, OwnerPc.weight])
    · rw [if_neg hlast] at hown
      cases hown
      exact own_finish_weight (by rfl) (by simp [howner, OwnerPc.weight])
  | destroy a f destructs =>
    simp only [own, howner, Option.some.injEq] at hown
    subst hown
    exact own_finish_weight (by rfl) (by simp [howner, OwnerPc.weight])

/-- A load that finds `false`. -/
theorem own_of_blocks (hown : own s = some s') (hblocks : ready.blocks s = true) : ∃ f,
    s.owner.waits = some f ∧ (s.frames f).ready = false ∧
      s' = (s.put f ((s.frames f).access (.touched .owner))).goto s.owner := by
  obtain ⟨f, hwaits, hunset⟩ := Flag.blocks_iff.mp hblocks
  refine ⟨f, hwaits, hunset, ?_⟩
  have hready : (s.frames f).ready = false := hunset
  cases howner : s.owner with
  | wait a g | get_wait a g moves =>
    rw [howner] at hwaits
    cases hwaits
    simpa [own, howner, hready] using hown.symm
  | _ => simp [ready, OwnerPc.waits, howner] at hwaits

/-- The accesses of the coroutine after its body. -/
theorem final_suspend_cases (hstep : final_suspend s f = some s') : ∃ frame, s' = s.put f frame ∧
    ((s.frames f).pc = .exchange ∧ frame.ready = true ∧ frame.pc = .notify_one ∨
      frame.ready = (s.frames f).ready ∧ ((s.frames f).pc = .notify_one ∧ frame.pc = .fetch_sub ∨
        (s.frames f).pc = .fetch_sub ∧ (frame.pc = .destroy ∨ frame.pc = .returned) ∨
          (s.frames f).pc = .destroy ∧ frame.pc = .returned)) := by
  cases hpc : (s.frames f).pc with
  | body | returned => simp [final_suspend, hpc] at hstep
  | exchange =>
    simp only [final_suspend, hpc, Option.some.injEq] at hstep
    exact ⟨_, hstep.symm, .inl ⟨rfl, rfl, rfl⟩⟩
  | notify_one | destroy =>
    simp only [final_suspend, hpc, Option.some.injEq] at hstep
    exact ⟨_, hstep.symm, .inr ⟨rfl, by simp [Frame.goto]⟩⟩
  | fetch_sub =>
    simp only [final_suspend, hpc, Frame.fetch_sub, Option.some.injEq] at hstep
    refine ⟨_, hstep.symm, .inr ⟨rfl, .inr (.inl ⟨rfl, ?_⟩)⟩⟩
    by_cases hlast : (s.frames f).ref_count = 1 <;> simp [Frame.goto, hlast]

theorem final_suspend_weight (hf : f < s.created) (hstep : final_suspend s f = some s') :
    weight s' + 1 + (ready.notifies s f).toNat ≤ weight s := by
  obtain ⟨frame, rfl, hcases⟩ := final_suspend_cases hstep
  have hput : weight (s.put f frame) + (s.frames f).pc.weight = weight s + frame.pc.weight := Owned.weight_put hf
  have hnotifies : _ ≤ (decide ((s.frames f).pc = .notify_one)).toNat := ready.notifies_toNat_le
  obtain ⟨hpc, -, hpc'⟩ | ⟨-, ⟨hpc, hpc'⟩ | ⟨hpc, hpc' | hpc'⟩ | ⟨hpc, hpc'⟩⟩ := hcases <;>
    rw [hpc] at hput hnotifies <;> rw [hpc'] at hput
  all_goals
    simp only [CoroutinePc.weight] at hput
    first
    | change _ ≤ 0 at hnotifies
      omega
    | change _ ≤ 1 at hnotifies
      omega

theorem call_weight {op : Op} (hidle : s.owner = .idle) : weight (call s op) ≤ weight s + (Action.call op).costs := by
  cases op with
  | construct a => exact le_refl (weight s)
  | start a => exact (Owned.weight_start (a := a)).le
  | move_construct a other => exact le_refl (weight s)
  | move_assign a other => exact le_refl (weight s)
  | swap a other => exact le_refl (weight s)
  | wait a | ready a | get a moves =>
    simp only [call]
    split
    · exact (goto_weight hidle _).le
    · omega
  | detach a | destruct a =>
    simp only [call, detach]
    split
    · exact (goto_weight hidle _).le
    · have hfinish : ∀ destructs, weight (finish s a destructs) = weight s := fun _ => goto_weight hidle .idle
      rw [hfinish]
      omega

theorem step_weight {act : Action} (hstep : polling.PollingStep s act s')
    (hnot : ¬ (polling.waiter act = true ∧ polling.blocks s = true)) :
    weight s' + act.own_step.toNat + (polling.notifies s act).toNat ≤ weight s + act.costs := by
  obtain ⟨-, hstep⟩ := hstep
  cases act with
  | call op =>
    obtain ⟨hidle, hstep⟩ := Option.ite_none_right_eq_some.mp hstep
    rw [← Option.some.inj hstep]
    exact call_weight hidle
  | own => exact own_weight hstep (by simpa [polling] using hnot)
  | body f =>
    obtain ⟨-, hstep⟩ := Option.ite_none_right_eq_some.mp hstep
    rw [← Option.some.inj hstep]
    have hput : weight (s.put f ((s.frames f).access (.touched .coroutine))) = _ := weight_put_of_pc rfl
    exact hput.le
  | return_place f =>
    obtain ⟨-, hstep⟩ := Option.ite_none_right_eq_some.mp hstep
    obtain ⟨frame, hframe, rfl⟩ := Option.map_eq_some_iff.mp hstep
    have hput : weight (s.put f frame) = weight s := by
      apply weight_put_of_pc
      obtain ⟨-, hframe⟩ := Option.ite_none_right_eq_some.mp hframe
      cases hframe
      rfl
    exact hput.le
  | finish f how =>
    obtain ⟨⟨hf, hpc⟩, hstep⟩ := Option.ite_none_right_eq_some.mp hstep
    obtain ⟨frame, -, rfl⟩ := Option.map_eq_some_iff.mp hstep
    have hput : weight (s.put f ((frame.access .finished).goto .exchange)) + (s.frames f).pc.weight = _ :=
      Owned.weight_put hf
    rw [hpc] at hput
    exact hput.le
  | final_suspend f =>
    obtain ⟨hf, hstep⟩ := Option.ite_none_right_eq_some.mp hstep
    exact final_suspend_weight hf hstep

/-- A load that finds `false` brings nothing about. -/
theorem poll_weight {act : Action} (hstep : polling.PollingStep s act s') (hwaiter : polling.waiter act = true)
    (hblocks : polling.blocks s = true) : weight s' ≤ weight s := by
  obtain ⟨-, hstep⟩ := hstep
  obtain rfl : act = .own := of_decide_eq_true hwaiter
  obtain ⟨f, -, -, rfl⟩ := own_of_blocks hstep hblocks
  have hput : weight (s.put f ((s.frames f).access (.touched .owner))) = weight s := weight_put_of_pc rfl
  exact hput.le

/-- A coroutine whose body is over and that has not set `ready` is about to. -/
def Informs (s : State) : Prop :=
  ∀ f, (s.frames f).ready = false → (s.frames f).pc = .body ∨ (s.frames f).pc = .exchange

namespace Informs

theorem put (h : Informs s) {frame : Frame}
    (hready : frame.ready = false → frame.pc = .body ∨ frame.pc = .exchange) : Informs (s.put f frame) := by
  intro g hg
  by_cases hgf : g = f
  · subst hgf
    simp only [Owned.put, Function.update_self] at hg ⊢
    exact hready hg
  · simp only [Owned.put, Function.update_of_ne hgf] at hg ⊢
    exact h g hg

/-- An access that leaves `ready` and the coroutine alone. -/
theorem access (h : Informs s) {frame : Frame} (hready : frame.ready = (s.frames f).ready)
    (hpc : frame.pc = (s.frames f).pc) : Informs (s.put f frame) := by
  apply h.put
  rw [hready, hpc]
  exact h f

theorem own (h : Informs s) (hown : own s = some s') : Informs s' := by
  cases howner : s.owner with
  | idle => simp [async_task.own, howner] at hown
  | ready a f | take_exception a f | move_result a f | destroy a f destructs =>
    simp only [async_task.own, howner, Option.some.injEq] at hown
    subst hown
    exact h.access (by rfl) (by rfl)
  | wait a f | get_wait a f moves | has_exception a f moves =>
    simp only [async_task.own, howner] at hown
    split at hown <;> cases hown <;> exact h.access (by rfl) (by rfl)
  | result a f moves =>
    cases moves <;> simp only [async_task.own, howner, Bool.false_eq_true, if_true, if_false,
      Option.some.injEq] at hown <;> subst hown <;> exact h.access (by rfl) (by rfl)
  | fetch_sub a f destructs =>
    simp only [async_task.own, howner] at hown
    by_cases hlast : ((s.frames f).fetch_sub .released).1 = 1
    · rw [if_pos hlast] at hown
      cases hown
      exact h.access (by rfl) (by rfl)
    · rw [if_neg hlast] at hown
      cases hown
      exact h.access (by rfl) (by rfl)

theorem start (h : Informs s) : Informs (s.start a Frame.construct) :=
  put h fun _ => .inl rfl

theorem call (h : Informs s) {op : Op} : Informs (call s op) := by
  cases op with
  | start a => exact h.start
  | construct a | move_construct a other | move_assign a other | swap a other => exact h
  | wait a | ready a | get a moves | detach a | destruct a =>
    simp only [async_task.call, async_task.detach]
    split <;> exact h

theorem step (h : Informs s) {act : Action} (hstep : polling.PollingStep s act s') : Informs s' := by
  obtain ⟨-, hstep⟩ := hstep
  cases act with
  | call op =>
    obtain ⟨-, hstep⟩ := Option.ite_none_right_eq_some.mp hstep
    rw [← Option.some.inj hstep]
    exact h.call
  | own => exact h.own hstep
  | body f =>
    obtain ⟨⟨-, hpc⟩, hstep⟩ := Option.ite_none_right_eq_some.mp hstep
    rw [← Option.some.inj hstep]
    exact h.put fun _ => .inl hpc
  | return_place f =>
    obtain ⟨⟨-, hpc⟩, hstep⟩ := Option.ite_none_right_eq_some.mp hstep
    obtain ⟨frame, hframe, rfl⟩ := Option.map_eq_some_iff.mp hstep
    obtain ⟨-, hframe⟩ := Option.ite_none_right_eq_some.mp hframe
    cases hframe
    exact h.put fun _ => .inl hpc
  | finish f how =>
    obtain ⟨-, hstep⟩ := Option.ite_none_right_eq_some.mp hstep
    obtain ⟨frame, -, rfl⟩ := Option.map_eq_some_iff.mp hstep
    exact h.put fun _ => .inr rfl
  | final_suspend f =>
    obtain ⟨-, hstep⟩ := Option.ite_none_right_eq_some.mp hstep
    obtain ⟨frame, rfl, hcases⟩ := final_suspend_cases hstep
    apply h.put
    intro hready
    obtain ⟨-, hset, -⟩ | ⟨hsame, hpc⟩ := hcases
    · cases hready.symm.trans hset
    · have hrunning := h f (hsame.symm.trans hready)
      obtain ⟨hpc, -⟩ | ⟨hpc, -⟩ | ⟨hpc, -⟩ := hpc <;> simp [hpc] at hrunning

end Informs

/-- The owner falls asleep only before the coroutine sets `ready`. -/
theorem hope_of_wait {act : Action} (hwaiter : polling.waiter act = true) (hblocks : polling.blocks s = true)
    (hstep : polling.PollingStep s act s') : ready.Hope s' := by
  obtain ⟨-, hstep⟩ := hstep
  obtain rfl : act = .own := of_decide_eq_true hwaiter
  obtain ⟨f, hwaits, hready, rfl⟩ := own_of_blocks hstep hblocks
  exact Flag.hope_of_unset hwaits hready

/-- Once `ready` is set, the coroutine goes on to notify. -/
theorem hope_of_step (h : ready.Hope s) {act : Action} (hwaiter : polling.waiter act = false)
    (hnotifies : polling.notifies s act = false) (hstep : polling.PollingStep s act s') : ready.Hope s' := by
  obtain ⟨-, hstep⟩ := hstep
  cases act with
  | call op =>
    obtain ⟨hidle, -⟩ := Option.ite_none_right_eq_some.mp hstep
    obtain ⟨f, hwaits, -⟩ := h
    rw [hidle] at hwaits
    cases hwaits
  | own => cases hwaiter
  | body g =>
    obtain ⟨-, hstep⟩ := Option.ite_none_right_eq_some.mp hstep
    rw [← Option.some.inj hstep]
    exact h.put fun _ hhope => hhope
  | return_place g =>
    obtain ⟨-, hstep⟩ := Option.ite_none_right_eq_some.mp hstep
    obtain ⟨frame, hframe, rfl⟩ := Option.map_eq_some_iff.mp hstep
    obtain ⟨-, hframe⟩ := Option.ite_none_right_eq_some.mp hframe
    cases hframe
    exact h.put fun _ hhope => hhope
  | finish g how =>
    obtain ⟨⟨-, hpc⟩, hstep⟩ := Option.ite_none_right_eq_some.mp hstep
    obtain ⟨frame, hframe, rfl⟩ := Option.map_eq_some_iff.mp hstep
    refine h.put fun _ hhope hset => ?_
    have hsame : frame.ready = (s.frames g).ready := by
      cases how <;> obtain ⟨-, hframe⟩ := Option.ite_none_right_eq_some.mp hframe <;> cases hframe <;> rfl
    cases hpc.symm.trans (of_decide_eq_true (hhope (hsame.symm.trans hset)))
  | final_suspend g =>
    obtain ⟨-, hstep⟩ := Option.ite_none_right_eq_some.mp hstep
    obtain ⟨frame, rfl, hcases⟩ := final_suspend_cases hstep
    refine h.put fun hwaits hhope hset => ?_
    obtain ⟨-, -, hpc'⟩ | ⟨hsame, -⟩ := hcases
    · exact decide_eq_true hpc'
    · have hnotify := hhope (hsame.symm.trans hset)
      simp [polling, Flag.notifies, hwaits, hnotify] at hnotifies

theorem final_suspend_enabled (hbody : (s.frames f).pc ≠ .body) (hreturned : (s.frames f).pc ≠ .returned) :
    ∃ s', final_suspend s f = some s' := by
  cases hpc : (s.frames f).pc with
  | body => exact absurd hpc hbody
  | returned => exact absurd hpc hreturned
  | exchange | notify_one | fetch_sub | destroy => exact ⟨_, by simp only [final_suspend, hpc]; rfl⟩

theorem own_enabled (hbusy : s.owner ≠ .idle) : ∃ s', own s = some s' := by
  cases howner : s.owner with
  | idle => exact absurd howner hbusy
  | ready | take_exception | move_result | destroy => exact ⟨_, by simp only [own, howner]; rfl⟩
  | wait a f | get_wait a f moves =>
    cases hready : (s.frames f).ready <;> exact ⟨_, by simp only [own, howner, hready]; rfl⟩
  | has_exception a f moves =>
    by_cases hkind : (s.frames f).kind = .EX
    · exact ⟨_, by simp only [own, howner, if_pos hkind]; rfl⟩
    · exact ⟨_, by simp only [own, howner, if_neg hkind]; rfl⟩
  | result a f moves => cases moves <;> exact ⟨_, by simp only [own, howner]; rfl⟩
  | fetch_sub a f destructs =>
    by_cases hlast : ((s.frames f).fetch_sub .released).1 = 1
    · exact ⟨_, by simp only [own, howner]; rw [if_pos hlast]⟩
    · exact ⟨_, by simp only [own, howner]; rw [if_neg hlast]⟩

/-- `wait` and `get` return when the coroutine has: the accesses are bounded, and when
there are none left to do, either the owner's operation is over, or it sleeps until the
body of a coroutine ends. -/
theorem get_returns {w : Sleeping State} {as : List (Option Action)}
    (hrun : Run polling.SleepingStep { state := construct, asleep := false } as w) :
    Run Step construct (as.filterMap id) w.state ∧
      as.countP (Option.any Action.own_step) ≤ 1 + (as.map fun a => a.elim 1 Action.costs).sum ∧
      ((∀ act w', act.own_step = true → ¬ polling.SleepingStep w (some act) w') →
        w.state.owner = .idle ∨ ∃ f, w.state.owner.waits = some f ∧ w.asleep = true ∧
          f < w.state.created ∧ (w.state.frames f).pc = .body) := by
  have hpolling : Run Step construct (as.filterMap id) w.state := Polling.run_of_sleeping hrun
  refine ⟨hpolling, ?_, fun hstuck => ?_⟩
  · have hle := Polling.own_steps_le hrun weight Action.own_step Action.costs
      (fun _ _ _ hstep hnot => step_weight hstep hnot) fun _ _ _ hstep hwaiter hblocks => poll_weight hstep hwaiter hblocks
    have hzero : weight construct = 0 := by simp [weight, Owned.weight, construct, OwnerPc.weight]
    simp only [hzero, Bool.not_false, Bool.toNat_true] at hle
    omega
  · have hwaiter : Informs w.state ∧ (w.asleep = true → ready.Hope w.state) := Polling.hope_of_run
      (fun _ _ _ h hstep => Informs.step h hstep)
      (fun _ _ _ _ hwaiter hblocks hstep => hope_of_wait hwaiter hblocks hstep)
      (fun _ _ _ _ hhope hwaiter hnotifies hstep => hope_of_step hhope hwaiter hnotifies hstep) hrun
      (fun _ _ => .inl rfl) (by simp)
    obtain ⟨hinforms, hhope⟩ := hwaiter
    by_cases hidle : w.state.owner = .idle
    · exact .inl hidle
    have hasleep : w.asleep = true := by
      by_contra hawake
      obtain ⟨s', hs'⟩ := own_enabled hidle
      obtain ⟨w', hw'⟩ := Polling.waiter_enabled (P := polling) (w := w) (a := .own) ⟨trivial, hs'⟩ rfl
        (by simpa using hawake)
      exact hstuck .own w' rfl hw'
    obtain ⟨f, hwaits, hready⟩ := hhope hasleep
    have hf : f < w.state.created := by
      have htarget : ∃ a, w.state.owner.target = some (a, f) := by
        cases howner : w.state.owner <;> simp_all [ready, OwnerPc.waits, OwnerPc.target]
      obtain ⟨a, htarget⟩ := htarget
      exact (inv_of_run hpolling).created f ⟨a, (inv_of_run hpolling).target a f htarget⟩
    refine .inr ⟨f, hwaits, hasleep, hf, ?_⟩
    by_contra hbody
    have hreturned : (w.state.frames f).pc ≠ .returned := by
      intro hreturned
      cases hset : (w.state.frames f).ready with
      | true => cases hreturned.symm.trans (of_decide_eq_true (hready hset))
      | false =>
        obtain hpc | hpc := hinforms f hset <;> cases hreturned.symm.trans hpc
    obtain ⟨s', hs'⟩ := final_suspend_enabled hbody hreturned
    have hstep : polling.PollingStep w.state (.final_suspend f) s' := ⟨trivial, by simp [polling, step, hf, hs']⟩
    obtain ⟨w', hw'⟩ := Polling.other_enabled hstep rfl
    exact hstuck _ w' rfl hw'

/-- The owner sleeps in `get`, the coroutine ends and wakes it. -/
def get_sleeps : List (Option Action) :=
  [some (.call (.start 0)), some (.call (.get 0 false)), some .own, some (.finish 0 .value), some (.final_suspend 0),
    some (.final_suspend 0), some .own, some (.final_suspend 0), some .own, some .own]

theorem get_returns_of_value : ∃ w, Run polling.SleepingStep { state := construct, asleep := false } get_sleeps w ∧
    Run Step construct (get_sleeps.filterMap id) w.state ∧ get_sleeps.countP (Option.any Action.own_step) ≤ 10 ∧
      (w.state.owner = .idle ∨ ∃ f, w.state.owner.waits = some f ∧ w.asleep = true ∧
        f < w.state.created ∧ (w.state.frames f).pc = .body) := by
  have hsome : ∀ {s : State} {act : Action}, Allowed s act → ∀ b, some act = some b → polling.Allowed s b := by
    rintro s act h b ⟨⟩
    exact h
  obtain ⟨w, hrun, howner, hcreated, hpc⟩ : ∃ w,
      Run polling.SleepingStep { state := construct, asleep := false } get_sleeps w ∧ w.state.owner = .idle ∧
        w.state.created = 1 ∧ (w.state.frames 0).pc = .returned :=
    ⟨_, .cons ⟨hsome rfl, rfl⟩ <| .cons ⟨hsome ⟨0, rfl⟩, rfl⟩ <| .cons ⟨hsome trivial, rfl⟩ <|
      .cons ⟨hsome trivial, rfl⟩ <| .cons ⟨hsome trivial, rfl⟩ <| .cons ⟨hsome trivial, rfl⟩ <|
      .cons ⟨hsome trivial, rfl⟩ <| .cons ⟨hsome trivial, rfl⟩ <| .cons ⟨hsome trivial, rfl⟩ <|
      .cons ⟨hsome trivial, rfl⟩ <| .nil _, rfl, rfl, rfl⟩
  have hreturn := get_returns hrun
  refine ⟨w, hrun, hreturn.1, hreturn.2.1, hreturn.2.2 ?_⟩
  intro act w' hown hstep
  have hpoll : ∀ s', step w.state act ≠ some s' := by
    intro s' hs'
    cases act with
    | own => simp [step, own, howner] at hs'
    | final_suspend f =>
      obtain ⟨hf, hs'⟩ := Option.ite_none_right_eq_some.mp hs'
      obtain rfl : f = 0 := by omega
      simp [final_suspend, hpc] at hs'
    | call | body | return_place | finish => cases hown
  cases Polling.sleeping_cases hstep with
  | waiter _ _ _ _ hpolls => exact hpoll _ hpolls.2
  | other _ _ _ hpolls => exact hpoll _ hpolls.2

end kelcoro.async_task
