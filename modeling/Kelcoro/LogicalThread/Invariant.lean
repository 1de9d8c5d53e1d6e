import Kelcoro.Lib.Log
import Kelcoro.LogicalThread.Model
import Mathlib

namespace kelcoro.logical_thread

open kelcoro.lib

def Access.Destroys (e : Access) : Prop := ∃ side, e = .destroyed side

/-- What may happen to a frame: nothing after its destruction, and no
destruction before the end of the body. -/
def Follows (log : List Access) (e : Access) : Prop :=
  (∀ e' ∈ log, ¬ e'.Destroys) ∧ (e.Destroys → .finished ∈ log)

/-- Where the owner is in an operation on a frame: `before` it may know that the
coroutine is over, about to notify it, or about to destroy it. -/
inductive Stage where
  | away
  | before
  | notifying
  | destroying
  deriving DecidableEq, Repr

def OwnerPc.stage (g : Nat) : OwnerPc → Stage
  | .idle => .away
  | .request_stop _ f | .cancel _ f _ | .wait _ f _ | .exchange _ f => if f = g then .before else .away
  | .notify_one _ f => if f = g then .notifying else .away
  | .assert_done _ f _ | .destroy _ f _ | .destroy_detached _ f => if f = g then .destroying else .away

/-- The object and the frame of the operation. -/
def OwnerPc.target : OwnerPc → Option (Nat × Nat)
  | .idle => none
  | .request_stop a f | .cancel a f _ | .wait a f _ | .exchange a f | .notify_one a f
  | .assert_done a f _ | .destroy a f _ | .destroy_detached a f => some (a, f)

/-- Who destroys the frame: nobody has informed the other side yet, the coroutine
was first and the owner destroys, or the owner was first and the coroutine does. -/
inductive Phase (frame : Frame) (stage : Stage) (held : Prop) : Prop
  | running (hflag : frame.flag = false) (hpc : frame.pc = .body ∨ frame.pc = .exchange)
      (hstage : stage = .away ∨ stage = .before) (hheld : held)
      (hlog : ∀ e ∈ frame.log, ¬ e.Destroys)
  | informed (hflag : frame.flag = true) (hpc : frame.pc = .notify_one ∨ frame.pc = .returned)
      (hstage : stage ≠ .notifying) (hheld : held) (hlog : ∀ e ∈ frame.log, ¬ e.Destroys)
  | detached (hflag : frame.flag = true)
      (hpc : frame.pc = .body ∨ frame.pc = .exchange ∨ frame.pc = .destroy)
      (hstage : stage = .notifying ∧ held ∨ stage = .away ∧ ¬ held)
      (hlog : ∀ e ∈ frame.log, ¬ e.Destroys)
  | destroyed (hpc : frame.pc = .returned) (hstage : stage = .away) (hheld : ¬ held)
      (hlast : ∃ e earlier, frame.log = e :: earlier ∧ e.Destroys)

structure Sound (frame : Frame) (stage : Stage) (held : Prop) : Prop where
  lawful : Lawful Follows frame.log
  finished : frame.pc ≠ .body → .finished ∈ frame.log
  phase : Phase frame stage held

theorem OwnerPc.stage_eq_away (owner : OwnerPc) (g : Nat) (h : ∀ a, owner.target ≠ some (a, g)) :
    owner.stage g = .away := by
  cases owner <;> simp_all [OwnerPc.stage, OwnerPc.target]

def protocol : Protocol Frame OwnerPc Stage where
  idle := .idle
  target := OwnerPc.target
  stage := OwnerPc.stage
  away := .away
  Sound := Sound
  target_idle := rfl
  stage_eq_away := OwnerPc.stage_eq_away

abbrev Inv (s : State) : Prop := protocol.Inv s

variable {s s' : State} {a f : Nat}

theorem construct_inv : Inv construct := by
  constructor
  · simp [construct, Objects.Unique, Objects.Holds]
  · simp [construct, Objects.Held, Objects.Holds]
  · simp [construct, protocol, OwnerPc.target]
  · simp [construct]

/-- An access that does not destroy the frame. -/
theorem Sound.access {frame frame' : Frame} {stage stage' : Stage} {held : Prop} {e : Access}
    (h : Sound frame stage held) (hlog : frame'.log = e :: frame.log) (he : ¬ e.Destroys)
    (halive : ∀ e ∈ frame.log, ¬ e.Destroys)
    (hfinished : frame'.pc ≠ .body → frame.pc ≠ .body ∨ e = .finished)
    (hphase : (∀ e ∈ frame'.log, ¬ e.Destroys) → Phase frame' stage' held) :
    Sound frame' stage' held := by
  refine ⟨?_, ?_, hphase ?_⟩
  · rw [hlog]
    exact ⟨⟨halive, fun hdestroys => absurd hdestroys he⟩, h.lawful⟩
  · intro hpc
    rw [hlog]
    rcases hfinished hpc with hbody | rfl
    · exact List.mem_cons_of_mem _ (h.finished hbody)
    · exact List.mem_cons_self ..
  · rw [hlog]
    simpa [he] using halive

/-- The destruction of a frame whose body is over. -/
theorem Sound.destroy {frame frame' : Frame} {stage : Stage} {held held' : Prop} {e : Access}
    (h : Sound frame stage held) (hlog : frame'.log = e :: frame.log) (he : e.Destroys)
    (halive : ∀ e ∈ frame.log, ¬ e.Destroys) (hbody : frame.pc ≠ .body)
    (hpc : frame'.pc = .returned) (hheld : ¬ held') : Sound frame' .away held' := by
  refine ⟨?_, ?_, .destroyed hpc rfl hheld ⟨e, frame.log, hlog, he⟩⟩
  · rw [hlog]
    exact ⟨⟨halive, fun _ => h.finished hbody⟩, h.lawful⟩
  · intro _
    rw [hlog]
    exact List.mem_cons_of_mem _ (h.finished hbody)

theorem Phase.alive_of_pc {frame : Frame} {stage : Stage} {held : Prop} (h : Phase frame stage held)
    (hpc : frame.pc ≠ .returned) : ∀ e ∈ frame.log, ¬ e.Destroys := by
  cases h with
  | running _ _ _ _ hlog => exact hlog
  | informed _ _ _ _ hlog => exact hlog
  | detached _ _ _ hlog => exact hlog
  | destroyed hreturned => exact absurd hreturned hpc

theorem Phase.alive_of_held {frame : Frame} {stage : Stage} {held : Prop} (h : Phase frame stage held)
    (hheld : held) : ∀ e ∈ frame.log, ¬ e.Destroys := by
  cases h with
  | running _ _ _ _ hlog => exact hlog
  | informed _ _ _ _ hlog => exact hlog
  | detached _ _ _ hlog => exact hlog
  | destroyed _ _ hnot => exact absurd hheld hnot

/-- The owner may begin an operation on a frame it holds. -/
theorem Phase.begin {frame : Frame} {held : Prop} (h : Phase frame .away held) (hheld : held) :
    Phase frame .before held := by
  cases h with
  | running hflag hpc _ _ hlog => exact .running hflag hpc (Or.inr rfl) hheld hlog
  | informed hflag hpc _ _ hlog => exact .informed hflag hpc nofun hheld hlog
  | detached _ _ hstage _ =>
    rcases hstage with ⟨hstage, -⟩ | ⟨-, hnot⟩
    · cases hstage
    · exact absurd hheld hnot
  | destroyed _ _ hnot => exact absurd hheld hnot

@[simp] theorem access_log (frame : Frame) (e : Access) : (frame.access e).log = e :: frame.log := rfl

@[simp] theorem access_pc (frame : Frame) (e : Access) : (frame.access e).pc = frame.pc := rfl

@[simp] theorem access_flag (frame : Frame) (e : Access) : (frame.access e).flag = frame.flag := rfl

@[simp] theorem goto_log (frame : Frame) (pc : CoroutinePc) : (frame.goto pc).log = frame.log := rfl

@[simp] theorem goto_pc (frame : Frame) (pc : CoroutinePc) : (frame.goto pc).pc = pc := rfl

@[simp] theorem goto_flag (frame : Frame) (pc : CoroutinePc) : (frame.goto pc).flag = frame.flag := rfl

@[simp] theorem not_destroys_touched (side : Side) : ¬ (Access.touched side).Destroys := nofun

@[simp] theorem not_destroys_finished : ¬ Access.finished.Destroys := nofun

theorem destroys_destroyed (side : Side) : (Access.destroyed side).Destroys := ⟨side, rfl⟩

theorem finish_unique {o : Objects} (h : o.Unique) (after : After) : (after.finish o a).Unique := by
  cases after with
  | nothing => exact h.drop
  | destruct => exact h.drop
  | assign other => exact h.drop.exchange

/-- The handle is empty afterwards; no other coroutine loses its owner. -/
theorem finish_held {o : Objects} (h : o.Unique) (ha : o.Holds a f) (after : After) (g : Nat) :
    (after.finish o a).Held g ↔ o.Held g ∧ g ≠ f := by
  cases after with
  | nothing => exact Objects.held_drop h ha
  | destruct => exact Objects.held_drop h ha
  | assign other => exact (Objects.held_exchange Objects.not_holds_drop).trans (Objects.held_drop h ha)

theorem finish_held_empty {o : Objects} (ha : ¬ ∃ f, o.Holds a f) (after : After) (g : Nat) :
    (after.finish o a).Held g ↔ o.Held g := by
  cases after with
  | nothing => exact Objects.held_drop_empty ha
  | destruct => exact Objects.held_drop_empty ha
  | assign other => exact (Objects.held_exchange Objects.not_holds_drop).trans (Objects.held_drop_empty ha)

/-- Nobody destroys a frame while the other side is between its exchange of the
flag and the `notify_one` that follows it. -/
def Timely (s : State) : Action → Prop
  | .own => ∀ a f after, s.owner = .destroy a f after ∨ s.owner = .destroy_detached a f →
      (s.frames f).pc ≠ .notify_one
  | .final_suspend f => (s.frames f).pc = .destroy → ∀ a, s.owner ≠ .notify_one a f
  | _ => True

def TimelyStep (s : State) (a : Action) (s' : State) : Prop := Timely s a ∧ Step s a s'

theorem not_notifying (h : ∀ a, s.owner ≠ .notify_one a f) : s.owner.stage f ≠ .notifying := by
  intro hstage
  cases howner : s.owner with
  | notify_one a g =>
    rw [howner] at hstage
    by_cases hg : g = f
    · exact h a (hg ▸ howner)
    · simp [OwnerPc.stage, hg] at hstage
  | idle => simp [howner, OwnerPc.stage] at hstage
  | _ =>
    rw [howner] at hstage
    simp only [OwnerPc.stage] at hstage
    split at hstage <;> cases hstage

namespace Inv

theorem coroutine_put (h : Inv s) {frame : Frame}
    (hsound : f < s.created → Sound frame (s.owner.stage f) (s.objects.Held f)) : Inv (s.put f frame) :=
  Protocol.Inv.put h hsound

theorem body (h : Inv s) (hf : f < s.created) (hpc : (s.frames f).pc = .body) :
    Inv (s.put f ((s.frames f).access (.touched .coroutine))) := by
  have hsound : Sound (s.frames f) (s.owner.stage f) (s.objects.Held f) := h.sound f hf
  have halive := hsound.phase.alive_of_pc (by simp [hpc])
  refine coroutine_put h fun _ => hsound.access rfl (by simp) halive (fun hbody => absurd hpc hbody) fun hlog => ?_
  cases hsound.phase with
  | running hflag hpc hstage hheld _ => exact .running hflag hpc hstage hheld hlog
  | informed _ hinformed => simp [hpc] at hinformed
  | detached hflag hpc hstage _ => exact .detached hflag hpc hstage hlog
  | destroyed hreturned => simp [hpc] at hreturned

theorem finish (h : Inv s) (hf : f < s.created) (hpc : (s.frames f).pc = .body) :
    Inv (s.put f (((s.frames f).access .finished).goto .exchange)) := by
  have hsound : Sound (s.frames f) (s.owner.stage f) (s.objects.Held f) := h.sound f hf
  have halive := hsound.phase.alive_of_pc (by simp [hpc])
  refine coroutine_put h fun _ => hsound.access rfl (by simp) halive (fun _ => Or.inr rfl) fun hlog => ?_
  cases hsound.phase with
  | running hflag _ hstage hheld _ => exact .running hflag (Or.inr rfl) hstage hheld hlog
  | informed _ hinformed => simp [hpc] at hinformed
  | detached hflag _ hstage _ => exact .detached hflag (Or.inr (Or.inl rfl)) hstage hlog
  | destroyed hreturned => simp [hpc] at hreturned

/-- The exchange tells whether the owner was first. -/
theorem coroutine_exchange (h : Inv s) (hf : f < s.created) (hpc : (s.frames f).pc = .exchange) {pc : CoroutinePc}
    (hnext : pc = if (s.frames f).flag then .destroy else .notify_one) :
    Inv (s.put f (((s.frames f).exchange .coroutine).2.goto pc)) := by
  have hsound : Sound (s.frames f) (s.owner.stage f) (s.objects.Held f) := h.sound f hf
  have halive := hsound.phase.alive_of_pc (by simp [hpc])
  refine coroutine_put h fun _ =>
    hsound.access rfl (by simp) halive (fun _ => Or.inl (by simp [hpc])) fun hlog => ?_
  cases hsound.phase with
  | running hflag _ hstage hheld _ =>
    simp only [hflag, Bool.false_eq_true, if_false] at hnext
    subst hnext
    refine .informed rfl (Or.inl rfl) ?_ hheld hlog
    rcases hstage with hstage | hstage <;> simp [hstage]
  | informed _ hinformed => simp [hpc] at hinformed
  | detached hflag _ hstage _ =>
    simp only [hflag, if_true] at hnext
    subst hnext
    exact .detached rfl (Or.inr (Or.inr rfl)) hstage hlog
  | destroyed hreturned => simp [hpc] at hreturned

theorem final_suspend (h : Inv s) (hf : f < s.created) (htimely : Timely s (.final_suspend f))
    (hrun : logical_thread.final_suspend s f = some s') : Inv s' := by
  have hsound : Sound (s.frames f) (s.owner.stage f) (s.objects.Held f) := h.sound f hf
  cases hpc : (s.frames f).pc with
  | body => simp [logical_thread.final_suspend, hpc] at hrun
  | exchange =>
    cases hflag : (s.frames f).flag with
    | false =>
      simp only [logical_thread.final_suspend, hpc, Frame.exchange, hflag, Option.some.injEq] at hrun
      subst hrun
      exact coroutine_exchange h hf hpc (by simp [hflag])
    | true =>
      simp only [logical_thread.final_suspend, hpc, Frame.exchange, hflag, Option.some.injEq] at hrun
      subst hrun
      exact coroutine_exchange h hf hpc (by simp [hflag])
  | notify_one =>
    simp only [logical_thread.final_suspend, hpc, Option.some.injEq] at hrun
    subst hrun
    have halive := hsound.phase.alive_of_pc (by simp [hpc])
    refine coroutine_put h fun _ =>
      hsound.access rfl (by simp) halive (fun _ => Or.inl (by simp [hpc])) fun hlog => ?_
    cases hsound.phase with
    | running _ hrunning => simp [hpc] at hrunning
    | informed hflag _ hstage hheld _ => exact .informed hflag (Or.inr rfl) hstage hheld hlog
    | detached _ hdetached => simp [hpc] at hdetached
    | destroyed hreturned => simp [hpc] at hreturned
  | destroy =>
    simp only [logical_thread.final_suspend, hpc, Option.some.injEq] at hrun
    subst hrun
    have halive := hsound.phase.alive_of_pc (by simp [hpc])
    refine coroutine_put h fun _ => ?_
    cases hsound.phase with
    | running _ hrunning => simp [hpc] at hrunning
    | informed _ hinformed => simp [hpc] at hinformed
    | detached _ _ hstage _ =>
      rcases hstage with ⟨hnotifying, -⟩ | ⟨haway, hheld⟩
      · exact absurd hnotifying (not_notifying (htimely hpc))
      · rw [haway]
        exact hsound.destroy rfl (destroys_destroyed _) halive (by simp [hpc]) rfl hheld
    | destroyed hreturned => simp [hpc] at hreturned
  | returned => simp [logical_thread.final_suspend, hpc] at hrun

end Inv

namespace Inv

/-- The owner accesses a frame it holds. -/
theorem own_access (h : Inv s) {frame : Frame} {owner : OwnerPc} (htarget : s.owner.target = some (a, f))
    (hnext : owner = .idle ∨ owner.target = some (a, f))
    (hlog : frame.log = .touched .owner :: (s.frames f).log) (hpc : frame.pc = (s.frames f).pc)
    (hphase : (∀ e ∈ frame.log, ¬ e.Destroys) →
      Phase (s.frames f) (s.owner.stage f) (s.objects.Held f) →
      Phase frame (owner.stage f) (s.objects.Held f)) :
    Inv ((s.put f frame).goto owner) := by
  have hsound : Sound (s.frames f) (s.owner.stage f) (s.objects.Held f) := h.sound_of_target htarget
  apply Protocol.Inv.own_put h htarget hnext
  exact hsound.access hlog (by simp) (hsound.phase.alive_of_held (h.held htarget))
    (fun hbody => Or.inl (hpc ▸ hbody)) fun halive => hphase halive hsound.phase

/-- The owner waits, or sets the flag that nobody reads at the end. -/
theorem own_before (h : Inv s) {frame : Frame} {owner : OwnerPc} (htarget : s.owner.target = some (a, f))
    (hstage : s.owner.stage f = .before)
    (hnext : owner = .idle ∨ owner.target = some (a, f) ∧ owner.stage f = .before)
    (hlog : frame.log = .touched .owner :: (s.frames f).log) (hpc : frame.pc = (s.frames f).pc)
    (hflag : frame.flag = (s.frames f).flag) : Inv ((s.put f frame).goto owner) := by
  have hstage' : owner.stage f = .away ∨ owner.stage f = .before := by
    rcases hnext with rfl | hnext
    · exact Or.inl rfl
    · exact Or.inr hnext.2
  refine own_access h htarget (hnext.imp_right And.left) hlog hpc fun halive hphase => ?_
  rw [hstage] at hphase
  cases hphase with
  | running hold hrunning _ hheld _ =>
    exact .running (hflag.trans hold) (by rwa [hpc]) hstage' hheld halive
  | informed hold hinformed _ hheld _ =>
    refine .informed (hflag.trans hold) (by rwa [hpc]) ?_ hheld halive
    rcases hstage' with hstage' | hstage' <;> simp [hstage']
  | detached _ _ hdetached _ => rcases hdetached with ⟨hdetached, -⟩ | ⟨hdetached, -⟩ <;> cases hdetached
  | destroyed _ haway => cases haway

/-- The coroutine informed the owner first, which from now on destroys it. -/
theorem own_informed (h : Inv s) {frame : Frame} {owner : OwnerPc}
    (htarget : s.owner.target = some (a, f)) (hnext : owner.target = some (a, f))
    (hstage : s.owner.stage f = .before ∧ (s.frames f).flag = true ∨ s.owner.stage f = .destroying)
    (hstage' : owner.stage f = .destroying)
    (hlog : frame.log = .touched .owner :: (s.frames f).log) (hpc : frame.pc = (s.frames f).pc)
    (hflag : (s.frames f).flag = true → frame.flag = true) :
    Inv ((s.put f frame).goto owner) := by
  refine own_access h htarget (Or.inr hnext) hlog hpc fun halive hphase => ?_
  cases hphase with
  | running hold _ hrunning _ _ =>
    rcases hstage with ⟨-, htrue⟩ | hdestroying
    · simp [hold] at htrue
    · simp [hdestroying] at hrunning
  | informed hold hinformed _ hheld _ =>
    exact .informed (hflag hold) (by rwa [hpc]) (by simp [hstage']) hheld halive
  | detached _ _ hdetached _ =>
    rcases hstage with ⟨hbefore, -⟩ | hdestroying
    · simp [hbefore] at hdetached
    · simp [hdestroying] at hdetached
  | destroyed _ haway =>
    rcases hstage with ⟨hbefore, -⟩ | hdestroying
    · simp [hbefore] at haway
    · simp [hdestroying] at haway

theorem own_finish (h : Inv s) {frame : Frame} (htarget : s.owner.target = some (a, f)) (after : After)
    (hsound : ∀ held, ¬ held → Sound frame .away held) :
    Inv (logical_thread.finish (s.put f frame) a after) :=
  Protocol.Inv.own_release h htarget (finish_unique h.unique after)
    (finish_held h.unique (h.target a f htarget) after) hsound

/-- The owner destroys a coroutine that has informed it. -/
theorem own_destroy (h : Inv s) (htarget : s.owner.target = some (a, f))
    (hstage : s.owner.stage f = .destroying) (htimely : (s.frames f).pc ≠ .notify_one) (after : After) :
    Inv (logical_thread.finish (s.put f ((s.frames f).access (.destroyed .owner))) a after) := by
  have hsound : Sound (s.frames f) (s.owner.stage f) (s.objects.Held f) := h.sound_of_target htarget
  have hreturned : (s.frames f).pc = .returned := by
    cases hsound.phase with
    | running _ _ hrunning => simp [hstage] at hrunning
    | informed _ hpc => exact hpc.resolve_left htimely
    | detached _ _ hdetached => simp [hstage] at hdetached
    | destroyed _ haway => simp [hstage] at haway
  apply own_finish h htarget
  intro held hnot
  exact hsound.destroy rfl (destroys_destroyed _) (hsound.phase.alive_of_held (h.held htarget))
    (by simp [hreturned]) hreturned hnot

/-- The owner was first: from now on the coroutine destroys its frame. -/
theorem own_notify_one (h : Inv s) (howner : s.owner = .notify_one a f) :
    Inv (logical_thread.finish (s.put f ((s.frames f).access (.touched .owner))) a .nothing) := by
  have htarget : s.owner.target = some (a, f) := by rw [howner]; rfl
  have hstage : s.owner.stage f = .notifying := by simp [howner, OwnerPc.stage]
  have hsound : Sound (s.frames f) (s.owner.stage f) (s.objects.Held f) := h.sound_of_target htarget
  have halive := hsound.phase.alive_of_held (h.held htarget)
  apply own_finish h htarget
  intro held hnot
  refine ⟨⟨⟨halive, fun hdestroys => absurd hdestroys (by simp)⟩, hsound.lawful⟩, ?_, ?_⟩
  · intro hbody
    exact List.mem_cons_of_mem _ (hsound.finished hbody)
  · cases hsound.phase with
    | running _ _ hrunning => simp [hstage] at hrunning
    | informed _ _ hinformed => simp [hstage] at hinformed
    | detached hflag hpc _ _ =>
      refine .detached hflag hpc (Or.inr ⟨rfl, hnot⟩) ?_
      simpa using halive
    | destroyed _ haway => simp [hstage] at haway

theorem own_exchange (h : Inv s) (howner : s.owner = .exchange a f) (hrun : own s = some s') : Inv s' := by
  have htarget : s.owner.target = some (a, f) := by rw [howner]; rfl
  have hstage : s.owner.stage f = .before := by simp [howner, OwnerPc.stage]
  cases hflag : (s.frames f).flag with
  | false =>
    simp only [own, howner, Frame.exchange, hflag, Option.some.injEq] at hrun
    subst hrun
    refine own_access h htarget (Or.inr rfl) rfl rfl fun halive hphase => ?_
    cases hphase with
    | running _ hpc _ hheld _ =>
      exact .detached rfl (hpc.imp_right Or.inl) (Or.inl ⟨by simp [OwnerPc.stage], hheld⟩) halive
    | informed htrue => simp [hflag] at htrue
    | detached htrue => simp [hflag] at htrue
    | destroyed _ haway => simp [hstage] at haway
  | true =>
    simp only [own, howner, Frame.exchange, hflag, Option.some.injEq] at hrun
    subst hrun
    exact own_informed h htarget rfl (Or.inl ⟨hstage, hflag⟩) (by simp [OwnerPc.stage]) rfl rfl
      fun _ => rfl

theorem own (h : Inv s) (htimely : Timely s .own) (hrun : logical_thread.own s = some s') : Inv s' := by
  cases howner : s.owner with
  | idle => simp [logical_thread.own, howner] at hrun
  | request_stop a f =>
    simp only [logical_thread.own, howner, Option.some.injEq] at hrun
    subst hrun
    exact own_before h (by rw [howner]; rfl) (by simp [howner, OwnerPc.stage]) (Or.inl rfl) rfl rfl rfl
  | cancel a f after =>
    simp only [logical_thread.own, howner, Option.some.injEq] at hrun
    subst hrun
    exact own_before h (by rw [howner]; rfl) (by simp [howner, OwnerPc.stage])
      (Or.inr ⟨rfl, by simp [OwnerPc.stage]⟩) rfl rfl rfl
  | wait a f after =>
    have htarget : s.owner.target = some (a, f) := by rw [howner]; rfl
    have hstage : s.owner.stage f = .before := by simp [howner, OwnerPc.stage]
    cases hflag : (s.frames f).flag with
    | true =>
      simp only [logical_thread.own, howner, hflag, if_true, Option.some.injEq] at hrun
      subst hrun
      exact own_informed h htarget rfl (Or.inl ⟨hstage, hflag⟩) (by simp [OwnerPc.stage]) rfl rfl id
    | false =>
      simp only [logical_thread.own, howner, hflag, Bool.false_eq_true, if_false,
        Option.some.injEq] at hrun
      subst hrun
      exact own_before h htarget hstage (Or.inr ⟨rfl, by simp [OwnerPc.stage]⟩) rfl rfl rfl
  | assert_done a f after =>
    simp only [logical_thread.own, howner, Option.some.injEq] at hrun
    subst hrun
    exact own_informed h (by rw [howner]; rfl) rfl (Or.inr (by simp [howner, OwnerPc.stage]))
      (by simp [OwnerPc.stage]) rfl rfl id
  | destroy a f after =>
    simp only [logical_thread.own, howner, Option.some.injEq] at hrun
    subst hrun
    exact own_destroy h (by rw [howner]; rfl) (by simp [howner, OwnerPc.stage])
      (htimely a f after (Or.inl howner)) after
  | exchange a f => exact own_exchange h howner hrun
  | notify_one a f =>
    simp only [logical_thread.own, howner, Option.some.injEq] at hrun
    subst hrun
    exact own_notify_one h howner
  | destroy_detached a f =>
    simp only [logical_thread.own, howner, Option.some.injEq] at hrun
    subst hrun
    exact own_destroy h (by rw [howner]; rfl) (by simp [howner, OwnerPc.stage])
      (htimely a f .nothing (Or.inr howner)) .nothing

/-- The owner begins an operation on a frame it holds. -/
theorem begins (h : Inv s) (hidle : s.owner = .idle) (ha : s.objects.Holds a f) {owner : OwnerPc}
    (htarget : owner.target = some (a, f)) (hstage : owner.stage f = .before) :
    Inv (s.goto owner) := by
  apply Protocol.Inv.begin h hidle ha htarget
  intro hsound
  refine ⟨hsound.lawful, hsound.finished, ?_⟩
  have hphase : Phase (s.frames f) .before (s.objects.Held f) := hsound.phase.begin ⟨a, ha⟩
  rwa [← hstage] at hphase

theorem try_cancel_and_join (h : Inv s) (hidle : s.owner = .idle) (a : Nat) (after : After) :
    Inv (logical_thread.try_cancel_and_join s a after) := by
  unfold logical_thread.try_cancel_and_join
  split
  · rename_i f hf
    exact begins h hidle hf rfl (by simp [OwnerPc.stage])
  · rename_i hnot
    have hempty : ¬ ∃ f, s.objects.Holds a f := fun ⟨f, hf⟩ => hnot f hf
    have hmove := Protocol.Inv.move h hidle (finish_unique h.unique after) (finish_held_empty hempty after)
    simpa [logical_thread.finish, hidle] using hmove

theorem call (h : Inv s) (hidle : s.owner = .idle) {op : Op} (hallowed : Allowed s (.call op)) :
    Inv (logical_thread.call s op) := by
  cases op with
  | construct a =>
    have hempty := Objects.not_holds_of_none (show s.objects a = none from hallowed)
    exact Protocol.Inv.move h hidle h.unique.drop fun g => Objects.held_drop_empty hempty
  | start a =>
    apply Protocol.Inv.start h hidle hallowed
    intro held hheld
    exact ⟨trivial, fun hbody => absurd rfl hbody,
      .running rfl (Or.inl rfl) (Or.inl rfl) hheld (by simp [Frame.construct])⟩
  | request_stop a =>
    simp only [logical_thread.call]
    split
    · rename_i f hf
      exact begins h hidle hf rfl (by simp [OwnerPc.stage])
    · exact h
  | move_construct a other =>
    have hempty := Objects.not_holds_of_none (show s.objects a = none from hallowed.1)
    exact Protocol.Inv.move h hidle h.unique.exchange fun g => Objects.held_exchange hempty
  | move_assign a other => exact try_cancel_and_join h hidle a _
  | swap a other => exact Protocol.Inv.move h hidle h.unique.swap fun g => Objects.held_swap
  | join a =>
    obtain ⟨f, hf⟩ := hallowed
    unfold Objects.Holds at hf
    simp only [logical_thread.call, hf]
    exact begins h hidle hf rfl (by simp [OwnerPc.stage])
  | detach a =>
    obtain ⟨f, hf⟩ := hallowed
    unfold Objects.Holds at hf
    simp only [logical_thread.call, hf]
    exact begins h hidle hf rfl (by simp [OwnerPc.stage])
  | destruct a => exact try_cancel_and_join h hidle a _

theorem step (h : Inv s) {act : Action} (hstep : TimelyStep s act s') : Inv s' := by
  obtain ⟨htimely, hallowed, hstep⟩ := hstep
  cases act with
  | call op =>
    simp only [logical_thread.step, Option.ite_none_right_eq_some, Option.some.injEq] at hstep
    obtain ⟨hidle, rfl⟩ := hstep
    exact call h hidle hallowed
  | own => exact own h htimely hstep
  | body f =>
    simp only [logical_thread.step, Option.ite_none_right_eq_some, Option.some.injEq] at hstep
    obtain ⟨⟨hf, hpc⟩, rfl⟩ := hstep
    exact body h hf hpc
  | finish f =>
    simp only [logical_thread.step, Option.ite_none_right_eq_some, Option.some.injEq] at hstep
    obtain ⟨⟨hf, hpc⟩, rfl⟩ := hstep
    exact finish h hf hpc
  | final_suspend f =>
    simp only [logical_thread.step, Option.ite_none_right_eq_some] at hstep
    exact final_suspend h hstep.1 htimely hstep.2

end Inv

theorem inv_of_run {as : List Action} (hrun : Run TimelyStep construct as s) : Inv s :=
  hrun.invariant Inv (fun _ _ _ h hstep => Inv.step h hstep) construct_inv

end kelcoro.logical_thread
