import Kelcoro.Lib.Wait
import Kelcoro.LogicalThread.Invariant
import Mathlib

namespace kelcoro.logical_thread

open kelcoro.lib

variable {s s' : State} {a f : Nat}

/-- The frame for which the owner is in `wait`. -/
def OwnerPc.waits : OwnerPc → Option Nat
  | .wait _ f _ => some f
  | _ => none

def flag : Flag Frame OwnerPc where
  waits := OwnerPc.waits
  is_set frame := frame.flag
  notifying frame := frame.pc = .notify_one

/-- `flag.wait(false)` of the owner, and `flag.notify_one()` of `final_suspend`. -/
def polling : Polling State Action where
  step := step
  Allowed := Allowed
  waiter a := a = .own
  blocks := flag.blocks
  notifies s
    | .final_suspend f => flag.notifies s f
    | _ => false

def CoroutinePc.weight : CoroutinePc → Nat
  | .exchange => 3
  | .notify_one => 2
  | .destroy => 1
  | .body | .returned => 0

def OwnerPc.weight : OwnerPc → Nat
  | .idle => 0
  | .request_stop .. | .destroy .. | .notify_one .. | .destroy_detached .. => 1
  | .assert_done .. | .exchange .. => 2
  | .wait .. => 3
  | .cancel .. => 4

def weight (s : State) : Nat := Owned.weight (fun frame => frame.pc.weight) OwnerPc.weight s

namespace Action

/-- The accesses of the functions to the frame. -/
def own_step : Action → Bool
  | .own | .final_suspend _ => true
  | _ => false

/-- The accesses that what happens may bring about. -/
def costs : Action → Nat
  | .call (.request_stop _) => 1
  | .call (.detach _) => 2
  | .call (.join _) => 3
  | .call (.destruct _) | .call (.move_assign _ _) => 4
  | .finish _ => 3
  | _ => 0

end Action

theorem goto_weight (hidle : s.owner = .idle) (p : OwnerPc) : weight (s.goto p) = weight s + p.weight := by
  have hgoto : weight (s.goto p) + s.owner.weight = _ := Owned.weight_goto
  rwa [hidle] at hgoto

theorem weight_put_of_pc {frame : Frame} (hpc : frame.pc = (s.frames f).pc) : weight (s.put f frame) = weight s :=
  Owned.weight_put_of_eq (congrArg CoroutinePc.weight hpc)

theorem own_finish_weight {frame : Frame} {after : After} (hpc : frame.pc = (s.frames f).pc)
    (hlt : 0 < s.owner.weight) : weight (finish (s.put f frame) a after) + 1 ≤ weight s := by
  have hgoto : weight ((s.put f frame).goto .idle) + 1 ≤ weight s :=
    Owned.weight_own (congrArg CoroutinePc.weight hpc) hlt
  exact hgoto

theorem own_weight (hown : own s = some s') (hblocks : flag.blocks s = false) : weight s' + 1 ≤ weight s := by
  cases howner : s.owner with
  | idle => simp [own, howner] at hown
  | request_stop a f | cancel a f after | assert_done a f after =>
    simp only [own, howner, Option.some.injEq] at hown
    subst hown
    exact Owned.weight_own rfl (by simp [howner, OwnerPc.weight])
  | wait a f after =>
    have hflag : (s.frames f).flag = true := by simpa [Flag.blocks, flag, OwnerPc.waits, howner] using hblocks
    simp only [own, howner, hflag, if_true, Option.some.injEq] at hown
    subst hown
    exact Owned.weight_own rfl (by simp [howner, OwnerPc.weight])
  | destroy a f after | notify_one a f | destroy_detached a f =>
    simp only [own, howner, Option.some.injEq] at hown
    subst hown
    exact own_finish_weight (by rfl) (by simp [howner, OwnerPc.weight])
  | exchange a f =>
    cases hflag : (s.frames f).flag <;> simp only [own, howner, Frame.exchange, hflag, Option.some.injEq] at hown <;>
      subst hown <;> exact Owned.weight_own rfl (by simp [howner, OwnerPc.weight])

/-- A load that finds `false`. -/
theorem own_of_blocks (hown : own s = some s') (hblocks : flag.blocks s = true) : ∃ a f after,
    s.owner = .wait a f after ∧ (s.frames f).flag = false ∧
      s' = (s.put f ((s.frames f).access (.touched .owner))).goto (.wait a f after) := by
  obtain ⟨f, hwaits, hunset⟩ := Flag.blocks_iff.mp hblocks
  cases howner : s.owner with
  | wait a g after =>
    rw [howner] at hwaits
    cases hwaits
    refine ⟨a, f, after, rfl, hunset, ?_⟩
    have hflag : (s.frames f).flag = false := hunset
    simpa [own, howner, hflag] using hown.symm
  | _ => simp [flag, OwnerPc.waits, howner] at hwaits

/-- The accesses of the coroutine after its body. -/
theorem final_suspend_cases (hstep : final_suspend s f = some s') : ∃ frame, s' = s.put f frame ∧
    ((s.frames f).pc = .exchange ∧ frame.flag = true ∧ frame.pc = (if (s.frames f).flag then .destroy else .notify_one) ∨
      ((s.frames f).pc = .notify_one ∨ (s.frames f).pc = .destroy) ∧ frame.flag = (s.frames f).flag ∧
        frame.pc = .returned) := by
  cases hpc : (s.frames f).pc with
  | body | returned => simp [final_suspend, hpc] at hstep
  | exchange =>
    cases hflag : (s.frames f).flag <;>
      simp only [final_suspend, hpc, Frame.exchange, hflag, Option.some.injEq] at hstep <;>
      exact ⟨_, hstep.symm, .inl ⟨rfl, rfl, rfl⟩⟩
  | notify_one | destroy =>
    simp only [final_suspend, hpc, Option.some.injEq] at hstep
    exact ⟨_, hstep.symm, .inr ⟨by simp, rfl, rfl⟩⟩

theorem final_suspend_weight (hf : f < s.created) (hstep : final_suspend s f = some s') :
    weight s' + 1 + (flag.notifies s f).toNat ≤ weight s := by
  obtain ⟨frame, rfl, hcases⟩ := final_suspend_cases hstep
  have hput : weight (s.put f frame) + (s.frames f).pc.weight = weight s + frame.pc.weight := Owned.weight_put hf
  have hnotifies : _ ≤ (decide ((s.frames f).pc = .notify_one)).toNat := flag.notifies_toNat_le
  obtain ⟨hpc, -, hpc'⟩ | ⟨hpc | hpc, -, hpc'⟩ := hcases <;> rw [hpc] at hput hnotifies <;> rw [hpc'] at hput
  · change _ ≤ 0 at hnotifies
    cases hflag : (s.frames f).flag <;> simp [hflag, CoroutinePc.weight] at hput <;> omega
  · change _ ≤ 1 at hnotifies
    simp only [CoroutinePc.weight] at hput
    omega
  · change _ ≤ 0 at hnotifies
    simp only [CoroutinePc.weight] at hput
    omega

theorem try_cancel_and_join_weight {after : After} (hidle : s.owner = .idle) :
    weight (try_cancel_and_join s a after) ≤ weight s + 4 := by
  unfold try_cancel_and_join
  split
  · exact (goto_weight hidle _).le
  · have hfinish : weight (finish s a after) = weight s := goto_weight hidle .idle
    omega

theorem call_weight {op : Op} (hidle : s.owner = .idle) : weight (call s op) ≤ weight s + (Action.call op).costs := by
  cases op with
  | construct a => exact le_refl (weight s)
  | start a => exact (Owned.weight_start (a := a)).le
  | move_construct a other => exact le_refl (weight s)
  | swap a other => exact le_refl (weight s)
  | move_assign a other => exact try_cancel_and_join_weight hidle
  | destruct a => exact try_cancel_and_join_weight hidle
  | request_stop a | join a | detach a =>
    simp only [call]
    split
    · exact (goto_weight hidle _).le
    · omega

theorem step_weight {act : Action} (hstep : polling.PollingStep s act s')
    (hnot : ¬ (polling.waiter act = true ∧ polling.blocks s = true)) :
    weight s' + act.own_step.toNat + (polling.notifies s act).toNat ≤ weight s + act.costs := by
  obtain ⟨-, hstep⟩ := hstep
  cases act with
  | call op =>
    obtain ⟨hidle, hstep⟩ := Option.ite_none_right_eq_some.mp hstep
    rw [← Option.some.inj hstep]
    exact call_weight hidle
  | own => exact own_weight hstep (by simpa [polling] using hnot)
  | body f =>
    obtain ⟨-, hstep⟩ := Option.ite_none_right_eq_some.mp hstep
    rw [← Option.some.inj hstep]
    have hput : weight (s.put f ((s.frames f).access (.touched .coroutine))) = _ := weight_put_of_pc rfl
    exact hput.le
  | finish f =>
    obtain ⟨⟨hf, hpc⟩, hstep⟩ := Option.ite_none_right_eq_some.mp hstep
    rw [← Option.some.inj hstep]
    have hput : weight (s.put f (((s.frames f).access .finished).goto .exchange)) + (s.frames f).pc.weight = _ :=
      Owned.weight_put hf
    rw [hpc] at hput
    exact hput.le
  | final_suspend f =>
    obtain ⟨hf, hstep⟩ := Option.ite_none_right_eq_some.mp hstep
    exact final_suspend_weight hf hstep

/-- A load that finds `false` brings nothing about. -/
theorem poll_weight {act : Action} (hstep : polling.PollingStep s act s') (hwaiter : polling.waiter act = true)
    (hblocks : polling.blocks s = true) : weight s' ≤ weight s := by
  obtain ⟨-, hstep⟩ := hstep
  obtain rfl : act = .own := of_decide_eq_true hwaiter
  obtain ⟨a, f, after, howner, -, rfl⟩ := own_of_blocks hstep hblocks
  have hput : weight (s.put f ((s.frames f).access (.touched .owner))) = weight s := weight_put_of_pc rfl
  rw [← hput, ← howner]
  exact le_refl _

/-- Objects hold frames that exist, and a flag that is not set will be. -/
structure Informs (s : State) : Prop where
  holds : ∀ a f, s.objects.Holds a f → f < s.created
  target : ∀ a f, s.owner.target = some (a, f) → f < s.created
  flag : ∀ f, (s.frames f).flag = false → (s.frames f).pc = .body ∨ (s.frames f).pc = .exchange

namespace Informs

theorem put (h : Informs s) {frame : Frame}
    (hflag : frame.flag = false → frame.pc = .body ∨ frame.pc = .exchange) : Informs (s.put f frame) where
  holds := h.holds
  target := h.target
  flag g hg := by
    by_cases hgf : g = f
    · subst hgf
      simp only [Owned.put, Function.update_self] at hg ⊢
      exact hflag hg
    · simp only [Owned.put, Function.update_of_ne hgf] at hg ⊢
      exact h.flag g hg

/-- An access that leaves the flag and the coroutine alone. -/
theorem access (h : Informs s) {frame : Frame} (hflag : frame.flag = (s.frames f).flag)
    (hpc : frame.pc = (s.frames f).pc) : Informs (s.put f frame) := by
  apply h.put
  rw [hflag, hpc]
  exact h.flag f

theorem goto (h : Informs s) {p : OwnerPc} (htarget : ∀ a f, p.target = some (a, f) → f < s.created) :
    Informs (s.goto p) where
  holds := h.holds
  target := htarget
  flag := h.flag

/-- Handles change hands. -/
theorem move (h : Informs s) {o : Objects} (hholds : ∀ a f, o.Holds a f → ∃ b, s.objects.Holds b f) :
    Informs { s with objects := o } where
  holds a f ha := by
    obtain ⟨b, hb⟩ := hholds a f ha
    exact h.holds b f hb
  target := h.target
  flag := h.flag

theorem holds_exchange {o : Objects} {a b c f : Nat} (hc : (o.exchange a b).Holds c f) : ∃ d, o.Holds d f := by
  rw [Objects.holds_exchange] at hc
  split at hc
  · exact ⟨b, hc⟩
  · exact ⟨c, hc.2⟩

theorem finish (h : Informs s) {after : After} : Informs (finish s a after) := by
  refine goto (s := { s with objects := after.finish s.objects a }) (h.move ?_) (by rintro _ _ ⟨⟩)
  cases after with
  | nothing | destruct => exact fun b f hb => ⟨b, (Objects.holds_drop.mp hb).2⟩
  | assign other =>
    intro b f hb
    obtain ⟨c, hc⟩ := holds_exchange hb
    exact ⟨c, (Objects.holds_drop.mp hc).2⟩

/-- An operation begins on the frame that an object holds. -/
theorem begin (h : Informs s) (ha : s.objects a = some (some f)) {p : OwnerPc} (hp : p.target = some (a, f)) :
    Informs (s.goto p) := by
  apply h.goto
  intro b g hg
  cases hp.symm.trans hg
  exact h.holds a f ha

theorem try_cancel_and_join (h : Informs s) {after : After} : Informs (try_cancel_and_join s a after) := by
  unfold logical_thread.try_cancel_and_join
  split
  · rename_i f hf
    exact h.begin hf rfl
  · exact h.finish

theorem start (h : Informs s) : Informs (s.start a Frame.construct) where
  holds b f hb := by
    have hb' : (s.objects.give a s.created).Holds b f := hb
    rw [Objects.holds_give] at hb'
    change f < s.created + 1
    split at hb'
    · omega
    · exact Nat.lt_succ_of_lt (h.holds b f hb')
  target b f hf := Nat.lt_succ_of_lt (h.target b f hf)
  flag f hf := by
    by_cases hnew : f = s.created
    · subst hnew
      simp [Owned.start, Owned.put, Frame.construct]
    · simp only [Owned.start, Owned.put, Function.update_of_ne hnew] at hf ⊢
      exact h.flag f hf

theorem call (h : Informs s) {op : Op} : Informs (call s op) := by
  cases op with
  | construct a => exact h.move fun b f hb => ⟨b, (Objects.holds_drop.mp hb).2⟩
  | start a => exact h.start
  | move_construct a other => exact h.move fun _ _ => holds_exchange
  | swap a other => exact h.move fun b f hb => ⟨_, Objects.holds_swap.mp hb⟩
  | move_assign a other | destruct a => exact h.try_cancel_and_join
  | request_stop a | join a | detach a =>
    simp only [logical_thread.call]
    split
    · rename_i f hf
      exact h.begin hf rfl
    · exact h

theorem own (h : Informs s) (hown : own s = some s') : Informs s' := by
  cases howner : s.owner with
  | idle => simp [logical_thread.own, howner] at hown
  | request_stop a f =>
    simp only [logical_thread.own, howner, Option.some.injEq] at hown
    subst hown
    exact (h.access (by rfl) (by rfl)).goto (by rintro _ _ ⟨⟩)
  | cancel a f after | assert_done a f after =>
    simp only [logical_thread.own, howner, Option.some.injEq] at hown
    subst hown
    have hf := h.target a f (by rw [howner]; rfl)
    refine (h.access (by rfl) (by rfl)).goto ?_
    rintro b g ⟨⟩
    exact hf
  | wait a f after =>
    have hf := h.target a f (by rw [howner]; rfl)
    cases hflag : (s.frames f).flag <;> simp only [logical_thread.own, howner, hflag, if_true, if_false,
      Bool.false_eq_true, Option.some.injEq] at hown <;> subst hown
    all_goals
      refine (h.access (by rfl) (by rfl)).goto ?_
      rintro b g ⟨⟩
      exact hf
  | destroy a f after | notify_one a f | destroy_detached a f =>
    simp only [logical_thread.own, howner, Option.some.injEq] at hown
    subst hown
    exact (h.access (by rfl) (by rfl)).finish
  | exchange a f =>
    have hf := h.target a f (by rw [howner]; rfl)
    cases hflag : (s.frames f).flag <;> simp only [logical_thread.own, howner, Frame.exchange, hflag,
      Option.some.injEq] at hown <;> subst hown
    all_goals
      refine (h.put (by simp [Frame.access])).goto ?_
      rintro b g ⟨⟩
      exact hf

theorem step (h : Informs s) {act : Action} (hstep : polling.PollingStep s act s') : Informs s' := by
  obtain ⟨-, hstep⟩ := hstep
  cases act with
  | call op =>
    obtain ⟨-, hstep⟩ := Option.ite_none_right_eq_some.mp hstep
    rw [← Option.some.inj hstep]
    exact h.call
  | own => exact h.own hstep
  | body f =>
    obtain ⟨⟨-, hpc⟩, hstep⟩ := Option.ite_none_right_eq_some.mp hstep
    rw [← Option.some.inj hstep]
    exact h.put fun _ => .inl hpc
  | finish f =>
    obtain ⟨-, hstep⟩ := Option.ite_none_right_eq_some.mp hstep
    rw [← Option.some.inj hstep]
    exact h.put fun _ => .inr rfl
  | final_suspend f =>
    obtain ⟨-, hstep⟩ := Option.ite_none_right_eq_some.mp hstep
    obtain ⟨frame, rfl, hcases⟩ := final_suspend_cases hstep
    apply h.put
    intro hflag
    obtain ⟨-, hset, -⟩ | ⟨hpc, hsame, -⟩ := hcases
    · cases hflag.symm.trans hset
    · exfalso
      have hrunning := h.flag f (hsame ▸ hflag)
      obtain hpc | hpc := hpc <;> simp [hpc] at hrunning

end Informs

/-- The owner falls asleep only before the coroutine informs it. -/
theorem hope_of_wait {act : Action} (hwaiter : polling.waiter act = true) (hblocks : polling.blocks s = true)
    (hstep : polling.PollingStep s act s') : flag.Hope s' := by
  obtain ⟨-, hstep⟩ := hstep
  obtain rfl : act = .own := of_decide_eq_true hwaiter
  obtain ⟨a, f, after, -, hflag, rfl⟩ := own_of_blocks hstep hblocks
  exact Flag.hope_of_unset rfl hflag

/-- Once the flag is set, the coroutine goes on to notify. -/
theorem hope_of_step (h : flag.Hope s) {act : Action} (hwaiter : polling.waiter act = false)
    (hnotifies : polling.notifies s act = false) (hstep : polling.PollingStep s act s') : flag.Hope s' := by
  obtain ⟨-, hstep⟩ := hstep
  cases act with
  | call op =>
    obtain ⟨hidle, -⟩ := Option.ite_none_right_eq_some.mp hstep
    obtain ⟨f, hwaits, -⟩ := h
    rw [hidle] at hwaits
    cases hwaits
  | own => cases hwaiter
  | body g =>
    obtain ⟨-, hstep⟩ := Option.ite_none_right_eq_some.mp hstep
    rw [← Option.some.inj hstep]
    exact h.put fun _ hhope => hhope
  | finish g =>
    obtain ⟨⟨-, hpc⟩, hstep⟩ := Option.ite_none_right_eq_some.mp hstep
    rw [← Option.some.inj hstep]
    refine h.put fun _ hhope hset => ?_
    cases hpc.symm.trans (of_decide_eq_true (hhope hset))
  | final_suspend g =>
    obtain ⟨-, hstep⟩ := Option.ite_none_right_eq_some.mp hstep
    obtain ⟨frame, rfl, hcases⟩ := final_suspend_cases hstep
    refine h.put fun hwaits hhope hset => ?_
    obtain ⟨hpc, -, hpc'⟩ | ⟨-, hsame, -⟩ := hcases
    · cases hflag : (s.frames g).flag with
      | true => cases hpc.symm.trans (of_decide_eq_true (hhope hflag))
      | false => simp [flag, hpc', hflag]
    · have hnotify := hhope (hsame.symm.trans hset)
      simp [polling, Flag.notifies, hwaits, hnotify] at hnotifies

theorem final_suspend_enabled (hbody : (s.frames f).pc ≠ .body) (hreturned : (s.frames f).pc ≠ .returned) :
    ∃ s', final_suspend s f = some s' := by
  cases hpc : (s.frames f).pc with
  | body => exact absurd hpc hbody
  | returned => exact absurd hpc hreturned
  | exchange =>
    cases hflag : (s.frames f).flag <;> exact ⟨_, by simp only [final_suspend, hpc, Frame.exchange, hflag]; rfl⟩
  | notify_one | destroy => exact ⟨_, by simp only [final_suspend, hpc]; rfl⟩

theorem own_enabled (hbusy : s.owner ≠ .idle) : ∃ s', own s = some s' := by
  cases howner : s.owner with
  | idle => exact absurd howner hbusy
  | wait a f after =>
    cases hflag : (s.frames f).flag <;> exact ⟨_, by simp only [own, howner, hflag]; rfl⟩
  | exchange a f =>
    cases hflag : (s.frames f).flag <;> exact ⟨_, by simp only [own, howner, Frame.exchange, hflag]; rfl⟩
  | _ => exact ⟨_, by simp only [own, howner]; rfl⟩

/-- `join`, and with it the destructor and the move assignment, returns when the
coroutine has: the accesses are bounded, and when there are none left to do, either the
owner's operation is over, or it sleeps until the body of a coroutine ends. -/
theorem join_returns {w : Sleeping State} {as : List (Option Action)}
    (hrun : Run polling.SleepingStep { state := construct, asleep := false } as w) :
    Run Step construct (as.filterMap id) w.state ∧
      as.countP (Option.any Action.own_step) ≤ 1 + (as.map fun a => a.elim 1 Action.costs).sum ∧
      ((∀ act w', act.own_step = true → ¬ polling.SleepingStep w (some act) w') →
        w.state.owner = .idle ∨ ∃ a f after, w.state.owner = .wait a f after ∧ w.asleep = true ∧
          f < w.state.created ∧ (w.state.frames f).pc = .body) := by
  have hconstruct : Informs construct := ⟨by rintro _ _ ⟨⟩, by rintro _ _ ⟨⟩, fun _ _ => .inl rfl⟩
  refine ⟨Polling.run_of_sleeping hrun, ?_, fun hstuck => ?_⟩
  · have hle := Polling.own_steps_le hrun weight Action.own_step Action.costs
      (fun _ _ _ hstep hnot => step_weight hstep hnot) fun _ _ _ hstep hwaiter hblocks => poll_weight hstep hwaiter hblocks
    have hzero : weight construct = 0 := by simp [weight, Owned.weight, construct, OwnerPc.weight]
    simp only [hzero, Bool.not_false, Bool.toNat_true] at hle
    omega
  · obtain ⟨hinforms, hhope⟩ := Polling.hope_of_run (fun _ _ _ h hstep => Informs.step h hstep)
      (fun _ _ _ _ hwaiter hblocks hstep => hope_of_wait hwaiter hblocks hstep)
      (fun _ _ _ _ hhope hwaiter hnotifies hstep => hope_of_step hhope hwaiter hnotifies hstep) hrun hconstruct (by simp)
    by_cases hidle : w.state.owner = .idle
    · exact .inl hidle
    have hasleep : w.asleep = true := by
      by_contra hawake
      obtain ⟨s', hs'⟩ := own_enabled hidle
      obtain ⟨w', hw'⟩ := Polling.waiter_enabled (P := polling) (w := w) (a := .own) ⟨trivial, hs'⟩ rfl
        (by simpa using hawake)
      exact hstuck .own w' rfl hw'
    obtain ⟨f, hwaits, hflag⟩ := hhope hasleep
    obtain ⟨a, after, howner⟩ : ∃ a after, w.state.owner = .wait a f after := by
      cases howner : w.state.owner <;> simp [flag, OwnerPc.waits, howner] at hwaits
      exact ⟨_, _, by rw [hwaits]⟩
    have hf := hinforms.target a f (by rw [howner]; rfl)
    refine .inr ⟨a, f, after, howner, hasleep, hf, ?_⟩
    by_contra hbody
    have hreturned : (w.state.frames f).pc ≠ .returned := by
      intro hreturned
      cases hset : (w.state.frames f).flag with
      | true => cases hreturned.symm.trans (of_decide_eq_true (hflag hset))
      | false =>
        obtain hpc | hpc := hinforms.flag f hset <;> cases hreturned.symm.trans hpc
    obtain ⟨s', hs'⟩ := final_suspend_enabled hbody hreturned
    have hstep : polling.PollingStep w.state (.final_suspend f) s' := ⟨trivial, by simp [polling, step, hf, hs']⟩
    obtain ⟨w', hw'⟩ := Polling.other_enabled hstep rfl
    exact hstuck _ w' rfl hw'

/-- The destructor sleeps, the coroutine ends and wakes it. -/
def destruct_sleeps : List (Option Action) :=
  [some (.call (.start 0)), some (.call (.destruct 0)), some .own, some .own, some (.finish 0),
    some (.final_suspend 0), some (.final_suspend 0), some .own, some .own, some .own]

theorem join_returns_of_destruct : ∃ w, Run polling.SleepingStep { state := construct, asleep := false } destruct_sleeps w ∧
    Run Step construct (destruct_sleeps.filterMap id) w.state ∧ destruct_sleeps.countP (Option.any Action.own_step) ≤ 8 ∧
      (w.state.owner = .idle ∨ ∃ a f after, w.state.owner = .wait a f after ∧ w.asleep = true ∧
        f < w.state.created ∧ (w.state.frames f).pc = .body) := by
  have hsome : ∀ {s : State} {act : Action}, Allowed s act → ∀ b, some act = some b → polling.Allowed s b := by
    rintro s act h b ⟨⟩
    exact h
  obtain ⟨w, hrun, howner, hcreated, hpc⟩ : ∃ w,
      Run polling.SleepingStep { state := construct, asleep := false } destruct_sleeps w ∧ w.state.owner = .idle ∧
        w.state.created = 1 ∧ (w.state.frames 0).pc = .returned :=
    ⟨_, .cons ⟨hsome rfl, rfl⟩ <| .cons ⟨hsome (by simp : some (some 0) ≠ none), rfl⟩ <| .cons ⟨hsome trivial, rfl⟩ <|
      .cons ⟨hsome trivial, rfl⟩ <| .cons ⟨hsome trivial, rfl⟩ <| .cons ⟨hsome trivial, rfl⟩ <|
      .cons ⟨hsome trivial, rfl⟩ <| .cons ⟨hsome trivial, rfl⟩ <| .cons ⟨hsome trivial, rfl⟩ <|
      .cons ⟨hsome trivial, rfl⟩ <| .nil _, rfl, rfl, rfl⟩
  have hreturn := join_returns hrun
  refine ⟨w, hrun, hreturn.1, hreturn.2.1, hreturn.2.2 ?_⟩
  intro act w' hown hstep
  have hpoll : ∀ s', step w.state act ≠ some s' := by
    intro s' hs'
    cases act with
    | own => simp [step, own, howner] at hs'
    | final_suspend f =>
      obtain ⟨hf, hs'⟩ := Option.ite_none_right_eq_some.mp hs'
      obtain rfl : f = 0 := by omega
      simp [final_suspend, hpc] at hs'
    | call | body | finish => cases hown
  cases Polling.sleeping_cases hstep with
  | waiter _ _ _ _ hpolls => exact hpoll _ hpolls.2
  | other _ _ _ hpolls => exact hpoll _ hpolls.2

end kelcoro.logical_thread
