import Kelcoro.Lib.Log
import Kelcoro.AsyncTask.Model
import Mathlib

namespace kelcoro.async_task

open kelcoro.lib

def Access.Destroys (e : Access) : Prop := ∃ side, e = .destroyed side

/-- What may happen to a frame: nothing after its destruction, no destruction
before the end of the body and the release by the owner, and no `get` without
something stored. -/
def Follows (log : List Access) (e : Access) : Prop :=
  (∀ e' ∈ log, ¬ e'.Destroys) ∧ (e.Destroys → .finished ∈ log ∧ .released ∈ log) ∧
    (e = .got → .stored ∈ log)

/-- Where the owner is in an operation on a frame. In `getting` it has seen
`ready`, in `destroying` it was the last to give up its reference. -/
inductive Stage where
  | away
  | before
  | getting
  | destroying
  deriving DecidableEq, Repr

def OwnerPc.stage (g : Nat) : OwnerPc → Stage
  | .idle => .away
  | .ready _ f | .wait _ f | .get_wait _ f _ | .fetch_sub _ f _ => if f = g then .before else .away
  | .has_exception _ f _ | .take_exception _ f | .result _ f _ | .move_result _ f =>
    if f = g then .getting else .away
  | .destroy _ f _ => if f = g then .destroying else .away

/-- The object and the frame of the operation. -/
def OwnerPc.target : OwnerPc → Option (Nat × Nat)
  | .idle => none
  | .ready a f | .wait a f | .get_wait a f _ | .fetch_sub a f _ | .has_exception a f _
  | .take_exception a f | .result a f _ | .move_result a f | .destroy a f _ => some (a, f)

def Alive (log : List Access) : Prop := ∀ e ∈ log, ¬ e.Destroys

/-- Which references to a frame are left: the coroutine's one until its
`fetch_sub`, the owner's one as long as an object holds the frame. -/
inductive Phase (frame : Frame) (stage : Stage) (held : Prop) : Prop
  | shared (hpc : frame.pc ≠ .destroy ∧ frame.pc ≠ .returned) (hcount : frame.ref_count = 2)
      (hstage : stage ≠ .destroying) (hheld : held) (halive : Alive frame.log)
  | owner_left (hpc : frame.pc = .returned) (hcount : frame.ref_count = 1)
      (hstage : stage ≠ .destroying) (hheld : held) (halive : Alive frame.log)
  | owner_last (hpc : frame.pc = .returned) (hstage : stage = .destroying) (hheld : held)
      (halive : Alive frame.log) (hreleased : .released ∈ frame.log)
  | coroutine_left (hpc : frame.pc ≠ .destroy ∧ frame.pc ≠ .returned) (hcount : frame.ref_count = 1)
      (hstage : stage = .away) (hheld : ¬ held) (halive : Alive frame.log)
      (hreleased : .released ∈ frame.log)
  | coroutine_last (hpc : frame.pc = .destroy) (hstage : stage = .away) (hheld : ¬ held)
      (halive : Alive frame.log) (hreleased : .released ∈ frame.log)
  | destroyed (hpc : frame.pc = .returned) (hstage : stage = .away) (hheld : ¬ held)
      (hlast : ∃ e earlier, frame.log = e :: earlier ∧ e.Destroys)

structure Sound (frame : Frame) (stage : Stage) (held : Prop) : Prop where
  lawful : Lawful Follows frame.log
  finished : frame.pc ≠ .body → .finished ∈ frame.log
  stored : frame.pc ≠ .body ∨ frame.kind ≠ .EMPTY → .stored ∈ frame.log
  ready : frame.ready = true ∨ stage = .getting → frame.pc ≠ .body
  phase : Phase frame stage held

theorem OwnerPc.stage_eq_away (owner : OwnerPc) (g : Nat) (h : ∀ a, owner.target ≠ some (a, g)) :
    owner.stage g = .away := by
  cases owner <;> simp_all [OwnerPc.stage, OwnerPc.target]

def protocol : Protocol Frame OwnerPc Stage where
  idle := .idle
  target := OwnerPc.target
  stage := OwnerPc.stage
  away := .away
  Sound := Sound
  target_idle := rfl
  stage_eq_away := OwnerPc.stage_eq_away

abbrev Inv (s : State) : Prop := protocol.Inv s

variable {s s' : State} {a f : Nat}

theorem construct_inv : Inv construct := by
  constructor
  · simp [construct, Objects.Unique, Objects.Holds]
  · simp [construct, Objects.Held, Objects.Holds]
  · simp [construct, protocol, OwnerPc.target]
  · simp [construct]

@[simp] theorem access_log (frame : Frame) (e : Access) : (frame.access e).log = e :: frame.log := rfl

@[simp] theorem access_pc (frame : Frame) (e : Access) : (frame.access e).pc = frame.pc := rfl

@[simp] theorem not_destroys_touched (side : Side) : ¬ (Access.touched side).Destroys := nofun

@[simp] theorem not_destroys_stored : ¬ Access.stored.Destroys := nofun

@[simp] theorem not_destroys_finished : ¬ Access.finished.Destroys := nofun

@[simp] theorem not_destroys_released : ¬ Access.released.Destroys := nofun

@[simp] theorem not_destroys_got : ¬ Access.got.Destroys := nofun

theorem destroys_destroyed (side : Side) : (Access.destroyed side).Destroys := ⟨side, rfl⟩

theorem alive_cons {log : List Access} {e : Access} (h : Alive log) (he : ¬ e.Destroys) :
    Alive (e :: log) := by
  simpa [Alive, he] using h

theorem Phase.alive_of_pc {frame : Frame} {stage : Stage} {held : Prop} (h : Phase frame stage held)
    (hpc : frame.pc ≠ .returned) : Alive frame.log := by
  cases h with
  | shared _ _ _ _ halive => exact halive
  | owner_left _ _ _ _ halive => exact halive
  | owner_last _ _ _ halive _ => exact halive
  | coroutine_left _ _ _ _ halive _ => exact halive
  | coroutine_last _ _ _ halive _ => exact halive
  | destroyed hreturned => exact absurd hreturned hpc

theorem Phase.alive_of_held {frame : Frame} {stage : Stage} {held : Prop} (h : Phase frame stage held)
    (hheld : held) : Alive frame.log := by
  cases h with
  | shared _ _ _ _ halive => exact halive
  | owner_left _ _ _ _ halive => exact halive
  | owner_last _ _ _ halive _ => exact halive
  | coroutine_left _ _ _ _ halive _ => exact halive
  | coroutine_last _ _ _ halive _ => exact halive
  | destroyed _ _ hnot => exact absurd hheld hnot

/-- An access that changes neither the references nor who holds them. -/
theorem Phase.access {frame frame' : Frame} {stage stage' : Stage} {held : Prop} {e : Access}
    (h : Phase frame stage held) (hlog : frame'.log = e :: frame.log) (he : ¬ e.Destroys)
    (halive : Alive frame.log) (hcount : frame'.ref_count = frame.ref_count)
    (hpc : frame'.pc = frame.pc ∨ (frame.pc ≠ .destroy ∧ frame.pc ≠ .returned) ∧
      frame'.pc ≠ .destroy ∧ frame'.pc ≠ .returned)
    (hstage : stage' = stage ∨ held ∧ stage ≠ .destroying ∧ stage' ≠ .destroying) :
    Phase frame' stage' held := by
  have halive' : Alive frame'.log := hlog ▸ alive_cons halive he
  have hreleased : .released ∈ frame.log → .released ∈ frame'.log := by
    rw [hlog]
    exact List.mem_cons_of_mem _
  cases h with
  | shared hold hcount' hstage' hheld _ =>
    refine .shared ?_ (hcount.trans hcount') ?_ hheld halive'
    · rcases hpc with hpc | hpc
      · rwa [hpc]
      · exact hpc.2
    · rcases hstage with rfl | hstage
      · exact hstage'
      · exact hstage.2.2
  | owner_left hold hcount' hstage' hheld _ =>
    refine .owner_left ?_ (hcount.trans hcount') ?_ hheld halive'
    · rcases hpc with hpc | hpc
      · rwa [hpc]
      · exact absurd hold hpc.1.2
    · rcases hstage with rfl | hstage
      · exact hstage'
      · exact hstage.2.2
  | owner_last hold hstage' hheld _ hreleased' =>
    refine .owner_last ?_ ?_ hheld halive' (hreleased hreleased')
    · rcases hpc with hpc | hpc
      · rwa [hpc]
      · exact absurd hold hpc.1.2
    · rcases hstage with rfl | hstage
      · exact hstage'
      · exact absurd hstage' hstage.2.1
  | coroutine_left hold hcount' hstage' hheld _ hreleased' =>
    refine .coroutine_left ?_ (hcount.trans hcount') ?_ hheld halive' (hreleased hreleased')
    · rcases hpc with hpc | hpc
      · rwa [hpc]
      · exact hpc.2
    · rcases hstage with rfl | hstage
      · exact hstage'
      · exact absurd hstage.1 hheld
  | coroutine_last hold hstage' hheld _ hreleased' =>
    refine .coroutine_last ?_ ?_ hheld halive' (hreleased hreleased')
    · rcases hpc with hpc | hpc
      · rwa [hpc]
      · exact absurd hold hpc.1.1
    · rcases hstage with rfl | hstage
      · exact hstage'
      · exact absurd hstage.1 hheld
  | destroyed _ _ _ hlast =>
    obtain ⟨e', earlier, hsplit, hdestroys⟩ := hlast
    exact absurd hdestroys (halive e' (by simp [hsplit]))

/-- An access after which the coroutine has at most come further. -/
theorem Sound.access {frame frame' : Frame} {stage stage' : Stage} {held : Prop} {e : Access}
    (h : Sound frame stage held) (hlog : frame'.log = e :: frame.log) (he : ¬ e.Destroys)
    (halive : Alive frame.log) (hgot : e = .got → frame.pc ≠ .body)
    (hfinished : frame'.pc ≠ .body → frame.pc ≠ .body ∨ e = .finished ∧ .stored ∈ frame.log)
    (hstored : frame'.kind ≠ .EMPTY → frame.kind ≠ .EMPTY ∨ e = .stored)
    (hready : frame'.ready = true ∨ stage' = .getting → frame'.pc ≠ .body)
    (hphase : Phase frame' stage' held) : Sound frame' stage' held := by
  refine ⟨?_, ?_, ?_, hready, hphase⟩
  · rw [hlog]
    exact ⟨⟨halive, fun hdestroys => absurd hdestroys he, fun heq => h.stored (Or.inl (hgot heq))⟩,
      h.lawful⟩
  · intro hpc
    rw [hlog]
    rcases hfinished hpc with hbody | ⟨rfl, -⟩
    · exact List.mem_cons_of_mem _ (h.finished hbody)
    · exact List.mem_cons_self ..
  · intro hany
    rw [hlog]
    rcases hany with hpc | hkind
    · rcases hfinished hpc with hbody | ⟨-, hmem⟩
      · exact List.mem_cons_of_mem _ (h.stored (Or.inl hbody))
      · exact List.mem_cons_of_mem _ hmem
    · rcases hstored hkind with hold | rfl
      · exact List.mem_cons_of_mem _ (h.stored (Or.inr hold))
      · exact List.mem_cons_self ..

/-- The destruction of a frame whose body is over and whose owner has released
it. -/
theorem Sound.destroy {frame frame' : Frame} {stage : Stage} {held held' : Prop} {e : Access}
    (h : Sound frame stage held) (hlog : frame'.log = e :: frame.log) (he : e.Destroys)
    (halive : Alive frame.log) (hbody : frame.pc ≠ .body) (hreleased : .released ∈ frame.log)
    (hpc : frame'.pc = .returned) (hheld : ¬ held') : Sound frame' .away held' := by
  refine ⟨?_, ?_, ?_, ?_, .destroyed hpc rfl hheld ⟨e, frame.log, hlog, he⟩⟩
  · rw [hlog]
    refine ⟨⟨halive, fun _ => ⟨h.finished hbody, hreleased⟩, ?_⟩, h.lawful⟩
    rintro rfl
    exact absurd he not_destroys_got
  · intro _
    rw [hlog]
    exact List.mem_cons_of_mem _ (h.finished hbody)
  · intro _
    rw [hlog]
    exact List.mem_cons_of_mem _ (h.stored (Or.inl hbody))
  · intro _
    simp [hpc]

/-- What is returned is stored in the frame. -/
theorem Sound.return_block {frame frame' : Frame} {stage : Stage} {held : Prop} {how : Return}
    (h : Sound frame stage held) (hpc : frame.pc = .body) (hreturn : frame.return_block how = some frame') :
    Sound frame' stage held ∧ frame'.pc = .body ∧ .stored ∈ frame'.log := by
  have halive := h.phase.alive_of_pc (by simp [hpc])
  have hready : frame.ready = true ∨ stage = .getting → False := fun hready => h.ready hready hpc
  cases how with
  | value =>
    simp only [Frame.return_block, Option.ite_none_right_eq_some, Option.some.injEq] at hreturn
    obtain ⟨-, rfl⟩ := hreturn
    refine ⟨?_, hpc, List.mem_cons_self ..⟩
    exact h.access rfl (by simp) halive nofun Or.inl (fun _ => Or.inr rfl) (fun hready' => (hready hready').elim)
      (h.phase.access rfl (by simp) halive rfl (Or.inl rfl) (Or.inl rfl))
  | rvo =>
    simp only [Frame.return_block, Option.ite_none_right_eq_some, Option.some.injEq] at hreturn
    obtain ⟨hkind, rfl⟩ := hreturn
    exact ⟨h, hpc, h.stored (Or.inr hkind)⟩
  | exception =>
    simp only [Frame.return_block, Option.ite_none_right_eq_some, Option.some.injEq] at hreturn
    obtain ⟨-, rfl⟩ := hreturn
    refine ⟨?_, hpc, List.mem_cons_self ..⟩
    exact h.access rfl (by simp) halive nofun Or.inl (fun _ => Or.inr rfl) (fun hready' => (hready hready').elim)
      (h.phase.access rfl (by simp) halive rfl (Or.inl rfl) (Or.inl rfl))

namespace Inv

theorem sound_of_created (h : Inv s) (hf : f < s.created) :
    Sound (s.frames f) (s.owner.stage f) (s.objects.Held f) := h.sound f hf

theorem coroutine_put (h : Inv s) {frame : Frame}
    (hsound : f < s.created → Sound frame (s.owner.stage f) (s.objects.Held f)) : Inv (s.put f frame) :=
  Protocol.Inv.put h hsound

theorem body (h : Inv s) (hf : f < s.created) (hpc : (s.frames f).pc = .body) :
    Inv (s.put f ((s.frames f).access (.touched .coroutine))) := by
  have hsound := sound_of_created h hf
  have halive := hsound.phase.alive_of_pc (by simp [hpc])
  refine coroutine_put h fun _ => ?_
  exact hsound.access rfl (by simp) halive nofun Or.inl Or.inl hsound.ready
    (hsound.phase.access rfl (by simp) halive rfl (Or.inl rfl) (Or.inl rfl))

theorem return_place (h : Inv s) (hf : f < s.created) (hpc : (s.frames f).pc = .body) {frame : Frame}
    (hplace : (s.frames f).return_place = some frame) : Inv (s.put f frame) := by
  simp only [Frame.return_place, Option.ite_none_right_eq_some, Option.some.injEq] at hplace
  obtain ⟨-, rfl⟩ := hplace
  have hsound := sound_of_created h hf
  have halive := hsound.phase.alive_of_pc (by simp [hpc])
  refine coroutine_put h fun _ => ?_
  exact hsound.access rfl (by simp) halive nofun Or.inl (fun _ => Or.inr rfl) hsound.ready
    (hsound.phase.access rfl (by simp) halive rfl (Or.inl rfl) (Or.inl rfl))

theorem finish (h : Inv s) (hf : f < s.created) (hpc : (s.frames f).pc = .body) {how : Return}
    {frame : Frame} (hreturn : (s.frames f).return_block how = some frame) :
    Inv (s.put f ((frame.access .finished).goto .exchange)) := by
  obtain ⟨hsound, hbody, hstored⟩ := (sound_of_created h hf).return_block hpc hreturn
  have halive := hsound.phase.alive_of_pc (by simp [hbody])
  refine coroutine_put h fun _ => ?_
  exact hsound.access rfl (by simp) halive nofun (fun _ => Or.inr ⟨rfl, hstored⟩) Or.inl
    (fun _ => nofun)
    (hsound.phase.access rfl (by simp) halive rfl (Or.inr ⟨by simp [hbody], nofun, nofun⟩) (Or.inl rfl))

/-- The coroutine gives up its reference: the owner's one may be left. -/
theorem coroutine_fetch_sub (h : Inv s) (hf : f < s.created) (hpc : (s.frames f).pc = .fetch_sub)
    {pc : CoroutinePc} (hnext : pc = if (s.frames f).ref_count = 1 then .destroy else .returned) :
    Inv (s.put f (((s.frames f).fetch_sub (.touched .coroutine)).2.goto pc)) := by
  have hsound := sound_of_created h hf
  have halive := hsound.phase.alive_of_pc (by simp [hpc])
  have halive' : Alive (.touched .coroutine :: (s.frames f).log) := alive_cons halive (by simp)
  have hbody : pc ≠ .body := by
    rw [hnext]
    split <;> simp
  refine coroutine_put h fun _ => ?_
  refine hsound.access rfl (by simp) halive nofun (fun _ => Or.inl (by simp [hpc])) Or.inl
    (fun _ => hbody) ?_
  cases hsound.phase with
  | shared _ hcount hstage hheld _ =>
    obtain rfl : pc = .returned := by simpa [hcount] using hnext
    refine .owner_left rfl ?_ hstage hheld halive'
    simp [Frame.fetch_sub, Frame.access, Frame.goto, hcount]
  | coroutine_left _ hcount hstage hheld _ hreleased =>
    obtain rfl : pc = .destroy := by simpa [hcount] using hnext
    exact .coroutine_last rfl hstage hheld halive' (List.mem_cons_of_mem _ hreleased)
  | owner_left hreturned => simp [hpc] at hreturned
  | owner_last hreturned => simp [hpc] at hreturned
  | coroutine_last hdestroy => simp [hpc] at hdestroy
  | destroyed hreturned => simp [hpc] at hreturned

/-- The coroutine was the last to give up its reference. -/
theorem coroutine_destroy (h : Inv s) (hf : f < s.created) (hpc : (s.frames f).pc = .destroy) :
    Inv (s.put f (((s.frames f).access (.destroyed .coroutine)).goto .returned)) := by
  have hsound := sound_of_created h hf
  refine coroutine_put h fun _ => ?_
  cases hsound.phase with
  | shared hnot => simp [hpc] at hnot
  | coroutine_left hnot => simp [hpc] at hnot
  | owner_left hreturned => simp [hpc] at hreturned
  | owner_last hreturned => simp [hpc] at hreturned
  | coroutine_last _ hstage hheld halive hreleased =>
    rw [hstage]
    exact hsound.destroy rfl (destroys_destroyed _) halive (by simp [hpc]) hreleased rfl hheld
  | destroyed hreturned => simp [hpc] at hreturned

theorem final_suspend (h : Inv s) (hf : f < s.created)
    (hrun : async_task.final_suspend s f = some s') : Inv s' := by
  have hsound := sound_of_created h hf
  cases hpc : (s.frames f).pc with
  | body => simp [async_task.final_suspend, hpc] at hrun
  | exchange =>
    simp only [async_task.final_suspend, hpc, Option.some.injEq] at hrun
    subst hrun
    have halive := hsound.phase.alive_of_pc (by simp [hpc])
    refine coroutine_put h fun _ => ?_
    exact hsound.access rfl (by simp) halive nofun (fun _ => Or.inl (by simp [hpc])) Or.inl (fun _ => nofun)
      (hsound.phase.access rfl (by simp) halive rfl (Or.inr ⟨by simp [hpc], nofun, nofun⟩) (Or.inl rfl))
  | notify_one =>
    simp only [async_task.final_suspend, hpc, Option.some.injEq] at hrun
    subst hrun
    have halive := hsound.phase.alive_of_pc (by simp [hpc])
    refine coroutine_put h fun _ => ?_
    exact hsound.access rfl (by simp) halive nofun (fun _ => Or.inl (by simp [hpc])) Or.inl (fun _ => nofun)
      (hsound.phase.access rfl (by simp) halive rfl (Or.inr ⟨by simp [hpc], nofun, nofun⟩) (Or.inl rfl))
  | fetch_sub =>
    simp only [async_task.final_suspend, hpc, Frame.fetch_sub, Option.some.injEq] at hrun
    subst hrun
    exact coroutine_fetch_sub h hf hpc rfl
  | destroy =>
    simp only [async_task.final_suspend, hpc, Option.some.injEq] at hrun
    subst hrun
    exact coroutine_destroy h hf hpc
  | returned => simp [async_task.final_suspend, hpc] at hrun

/-- The owner uses a frame it holds. -/
theorem own_access (h : Inv s) {frame : Frame} {owner : OwnerPc} {e : Access}
    (htarget : s.owner.target = some (a, f)) (hnext : owner = .idle ∨ owner.target = some (a, f))
    (hlog : frame.log = e :: (s.frames f).log) (he : ¬ e.Destroys)
    (hgot : e = .got → s.owner.stage f = .getting)
    (hpc : frame.pc = (s.frames f).pc) (hready : frame.ready = (s.frames f).ready)
    (hcount : frame.ref_count = (s.frames f).ref_count)
    (hkind : frame.kind = (s.frames f).kind ∨ frame.kind = .EMPTY)
    (hstage : s.owner.stage f ≠ .destroying) (hstage' : owner.stage f ≠ .destroying)
    (hgetting : owner.stage f = .getting → s.owner.stage f = .getting ∨ (s.frames f).ready = true) :
    Inv ((s.put f frame).goto owner) := by
  have hsound : Sound (s.frames f) (s.owner.stage f) (s.objects.Held f) := h.sound_of_target htarget
  have hheld := h.held htarget
  have halive := hsound.phase.alive_of_held hheld
  apply Protocol.Inv.own_put h htarget hnext
  apply hsound.access hlog he halive
  · exact fun heq => hsound.ready (Or.inr (hgot heq))
  · exact fun hbody => Or.inl (hpc ▸ hbody)
  · intro hnot
    rcases hkind with hkind | hkind
    · exact Or.inl (hkind ▸ hnot)
    · exact absurd hkind hnot
  · rw [hpc, hready]
    intro hany
    rcases hany with hany | hany
    · exact hsound.ready (Or.inl hany)
    · exact hsound.ready (hgetting hany).symm
  · exact hsound.phase.access hlog he halive hcount (Or.inl hpc) (Or.inr ⟨hheld, hstage, hstage'⟩)

theorem finish_held (h : Inv s) (ha : s.objects.Holds a f) (destructs : Bool) (g : Nat) :
    (s.objects.drop a (if destructs then none else some ())).Held g ↔ s.objects.Held g ∧ g ≠ f :=
  Objects.held_drop h.unique ha

/-- The owner gives up its reference: it is the last one, or the coroutine's
one is left. -/
theorem own_fetch_sub (h : Inv s) {destructs : Bool} (howner : s.owner = .fetch_sub a f destructs)
    (hrun : own s = some s') : Inv s' := by
  have htarget : s.owner.target = some (a, f) := by rw [howner]; rfl
  have hsound : Sound (s.frames f) (s.owner.stage f) (s.objects.Held f) := h.sound_of_target htarget
  have hheld := h.held htarget
  have halive := hsound.phase.alive_of_held hheld
  have halive' : Alive (.released :: (s.frames f).log) := alive_cons halive (by simp)
  have hstage : s.owner.stage f = .before := by simp [howner, OwnerPc.stage]
  simp only [own, howner] at hrun
  by_cases hlast : ((s.frames f).fetch_sub .released).1 = 1
  · rw [if_pos hlast] at hrun
    cases hrun
    have hone : (s.frames f).ref_count = 1 := hlast
    apply Protocol.Inv.own_put h htarget (Or.inr rfl)
    have hreturned : (s.frames f).pc = .returned := by
      cases hsound.phase with
      | shared _ hcount => omega
      | owner_left hreturned => exact hreturned
      | owner_last hreturned => exact hreturned
      | coroutine_left _ _ _ hnot => exact absurd hheld hnot
      | coroutine_last _ _ hnot => exact absurd hheld hnot
      | destroyed hreturned => exact hreturned
    refine hsound.access rfl (by simp) halive nofun Or.inl Or.inl (fun _ => ?_) ?_
    · simpa [Frame.fetch_sub] using fun hbody => by simp [hreturned] at hbody
    · exact .owner_last hreturned (by simp [protocol, OwnerPc.stage]) hheld halive' (List.mem_cons_self ..)
  · rw [if_neg hlast] at hrun
    cases hrun
    apply Protocol.Inv.own_release h htarget h.unique.drop (finish_held h (h.target a f htarget) destructs)
    intro held hnot
    refine ⟨⟨⟨halive, fun hdestroys => absurd hdestroys (by simp), nofun⟩, hsound.lawful⟩, ?_, ?_, ?_, ?_⟩
    · exact fun hbody => List.mem_cons_of_mem _ (hsound.finished hbody)
    · exact fun hany => List.mem_cons_of_mem _ (hsound.stored hany)
    · rintro (hready | hgetting)
      · exact hsound.ready (Or.inl hready)
      · cases hgetting
    · cases hsound.phase with
      | shared hpc hcount _ _ _ =>
        refine .coroutine_left hpc ?_ rfl hnot halive' (List.mem_cons_self ..)
        change (s.frames f).ref_count - 1 = 1
        rw [hcount]
        rfl
      | owner_left _ hcount => exact absurd hcount hlast
      | owner_last _ hdestroying => simp [hstage] at hdestroying
      | coroutine_left _ _ _ hnot' => exact absurd hheld hnot'
      | coroutine_last _ _ hnot' => exact absurd hheld hnot'
      | destroyed _ _ hnot' => exact absurd hheld hnot'

theorem own_destroy (h : Inv s) {destructs : Bool} (howner : s.owner = .destroy a f destructs) :
    Inv (async_task.finish (s.put f ((s.frames f).access (.destroyed .owner))) a destructs) := by
  have htarget : s.owner.target = some (a, f) := by rw [howner]; rfl
  have hsound : Sound (s.frames f) (s.owner.stage f) (s.objects.Held f) := h.sound_of_target htarget
  have hstage : s.owner.stage f = .destroying := by simp [howner, OwnerPc.stage]
  apply Protocol.Inv.own_release h htarget h.unique.drop (finish_held h (h.target a f htarget) destructs)
  intro held hnot
  cases hsound.phase with
  | shared _ _ hnot' => exact absurd hstage hnot'
  | owner_left _ _ hnot' => exact absurd hstage hnot'
  | owner_last hreturned _ _ halive hreleased =>
    exact hsound.destroy rfl (destroys_destroyed _) halive (by simp [hreturned]) hreleased hreturned hnot
  | coroutine_left _ _ haway => simp [hstage] at haway
  | coroutine_last _ haway => simp [hstage] at haway
  | destroyed _ haway => simp [hstage] at haway

theorem own (h : Inv s) (hrun : async_task.own s = some s') : Inv s' := by
  cases howner : s.owner with
  | idle => simp [async_task.own, howner] at hrun
  | ready a f =>
    simp only [async_task.own, howner, Option.some.injEq] at hrun
    subst hrun
    exact own_access h (by rw [howner]; rfl) (Or.inl rfl) rfl (by simp) nofun rfl rfl rfl (Or.inl rfl)
      (by simp [howner, OwnerPc.stage]) nofun nofun
  | wait a f =>
    have htarget : s.owner.target = some (a, f) := by rw [howner]; rfl
    have hstage : s.owner.stage f ≠ .destroying := by simp [howner, OwnerPc.stage]
    simp only [async_task.own, howner] at hrun
    split at hrun
    · cases hrun
      exact own_access h htarget (Or.inl rfl) rfl (by simp) nofun rfl rfl rfl (Or.inl rfl) hstage nofun nofun
    · cases hrun
      exact own_access h htarget (Or.inr rfl) rfl (by simp) nofun rfl rfl rfl (Or.inl rfl) hstage
        (by simp [OwnerPc.stage]) (by simp [OwnerPc.stage])
  | get_wait a f moves =>
    have htarget : s.owner.target = some (a, f) := by rw [howner]; rfl
    have hstage : s.owner.stage f ≠ .destroying := by simp [howner, OwnerPc.stage]
    simp only [async_task.own, howner] at hrun
    split at hrun
    · rename_i hready
      cases hrun
      exact own_access h htarget (Or.inr rfl) rfl (by simp) nofun rfl rfl rfl (Or.inl rfl) hstage
        (by simp [OwnerPc.stage]) fun _ => Or.inr hready
    · cases hrun
      exact own_access h htarget (Or.inr rfl) rfl (by simp) nofun rfl rfl rfl (Or.inl rfl) hstage
        (by simp [OwnerPc.stage]) (by simp [OwnerPc.stage])
  | has_exception a f moves =>
    have htarget : s.owner.target = some (a, f) := by rw [howner]; rfl
    have hgetting : s.owner.stage f = .getting := by simp [howner, OwnerPc.stage]
    simp only [async_task.own, howner] at hrun
    split at hrun
    all_goals
      cases hrun
      exact own_access h htarget (Or.inr rfl) rfl (by simp) nofun rfl rfl rfl (Or.inl rfl) (by simp [hgetting])
        (by simp [OwnerPc.stage]) fun _ => Or.inl hgetting
  | take_exception a f =>
    simp only [async_task.own, howner, Option.some.injEq] at hrun
    subst hrun
    have hgetting : s.owner.stage f = .getting := by simp [howner, OwnerPc.stage]
    exact own_access h (by rw [howner]; rfl) (Or.inl rfl) rfl (by simp) (fun _ => hgetting) rfl rfl rfl
      (Or.inr rfl) (by simp [hgetting]) nofun nofun
  | result a f moves =>
    have htarget : s.owner.target = some (a, f) := by rw [howner]; rfl
    have hgetting : s.owner.stage f = .getting := by simp [howner, OwnerPc.stage]
    simp only [async_task.own, howner] at hrun
    split at hrun
    · cases hrun
      exact own_access h htarget (Or.inr rfl) rfl (by simp) nofun rfl rfl rfl (Or.inl rfl) (by simp [hgetting])
        (by simp [OwnerPc.stage]) fun _ => Or.inl hgetting
    · cases hrun
      exact own_access h htarget (Or.inl rfl) rfl (by simp) (fun _ => hgetting) rfl rfl rfl (Or.inl rfl)
        (by simp [hgetting]) nofun nofun
  | move_result a f =>
    simp only [async_task.own, howner, Option.some.injEq] at hrun
    subst hrun
    have hgetting : s.owner.stage f = .getting := by simp [howner, OwnerPc.stage]
    exact own_access h (by rw [howner]; rfl) (Or.inl rfl) rfl (by simp) (fun _ => hgetting) rfl rfl rfl
      (Or.inl rfl) (by simp [hgetting]) nofun nofun
  | fetch_sub a f destructs => exact own_fetch_sub h howner hrun
  | destroy a f destructs =>
    simp only [async_task.own, howner, Option.some.injEq] at hrun
    subst hrun
    exact own_destroy h howner

/-- The owner begins an operation on a frame it holds. -/
theorem begins (h : Inv s) (hidle : s.owner = .idle) (ha : s.objects.Holds a f) {owner : OwnerPc}
    (htarget : owner.target = some (a, f)) (hstage : owner.stage f = .before) :
    Inv (s.goto owner) := by
  apply Protocol.Inv.begin h hidle ha htarget
  intro hsound
  have hheld : s.objects.Held f := ⟨a, ha⟩
  have hstage' : protocol.stage f owner = .before := hstage
  rw [hstage']
  refine ⟨hsound.lawful, hsound.finished, hsound.stored, ?_, ?_⟩
  · rintro (hready | hgetting)
    · exact hsound.ready (Or.inl hready)
    · cases hgetting
  · cases hsound.phase with
    | shared hpc hcount _ _ halive => exact .shared hpc hcount nofun hheld halive
    | owner_left hpc hcount _ _ halive => exact .owner_left hpc hcount nofun hheld halive
    | owner_last _ hdestroying => cases hdestroying
    | coroutine_left _ _ _ hnot => exact absurd hheld hnot
    | coroutine_last _ _ hnot => exact absurd hheld hnot
    | destroyed _ _ hnot => exact absurd hheld hnot

theorem detach (h : Inv s) (hidle : s.owner = .idle) (a : Nat) (destructs : Bool) :
    Inv (async_task.detach s a destructs) := by
  unfold async_task.detach
  split
  · rename_i f hf
    exact begins h hidle hf rfl (by simp [OwnerPc.stage])
  · rename_i hnot
    have hempty : ¬ ∃ f, s.objects.Holds a f := fun ⟨f, hf⟩ => hnot f hf
    have hunique : (s.objects.drop a (if destructs then none else some ())).Unique := h.unique.drop
    have hmove := Protocol.Inv.move h hidle hunique fun g => Objects.held_drop_empty hempty
    simpa [async_task.finish, hidle] using hmove

theorem call (h : Inv s) (hidle : s.owner = .idle) {op : Op} (hallowed : Allowed s (.call op)) :
    Inv (async_task.call s op) := by
  cases op with
  | construct a =>
    have hempty := Objects.not_holds_of_none (show s.objects a = none from hallowed)
    exact Protocol.Inv.move h hidle h.unique.drop fun g => Objects.held_drop_empty hempty
  | start a =>
    apply Protocol.Inv.start h hidle hallowed
    intro held hheld
    refine ⟨trivial, fun hbody => absurd rfl hbody, ?_, ?_, ?_⟩
    · simp [Frame.construct]
    · rintro (hready | hgetting) <;> cases ‹_›
    · exact .shared ⟨nofun, nofun⟩ rfl nofun hheld (by simp [Frame.construct, Alive])
  | move_construct a other =>
    have hempty := Objects.not_holds_of_none (show s.objects a = none from hallowed.1)
    exact Protocol.Inv.move h hidle h.unique.drop.swap fun g =>
      Objects.held_swap.trans (Objects.held_drop_empty hempty)
  | move_assign a other => exact Protocol.Inv.move h hidle h.unique.swap fun g => Objects.held_swap
  | swap a other => exact Protocol.Inv.move h hidle h.unique.swap fun g => Objects.held_swap
  | wait a =>
    simp only [async_task.call]
    split
    · rename_i f hf
      exact begins h hidle hf rfl (by simp [OwnerPc.stage])
    · exact h
  | ready a =>
    simp only [async_task.call]
    split
    · rename_i f hf
      exact begins h hidle hf rfl (by simp [OwnerPc.stage])
    · exact h
  | detach a => exact detach h hidle a false
  | get a moves =>
    obtain ⟨f, hf⟩ := hallowed
    unfold Objects.Holds at hf
    simp only [async_task.call, hf]
    exact begins h hidle hf rfl (by simp [OwnerPc.stage])
  | destruct a => exact detach h hidle a true

theorem step (h : Inv s) {act : Action} (hstep : Step s act s') : Inv s' := by
  obtain ⟨hallowed, hstep⟩ := hstep
  cases act with
  | call op =>
    simp only [async_task.step, Option.ite_none_right_eq_some, Option.some.injEq] at hstep
    obtain ⟨hidle, rfl⟩ := hstep
    exact call h hidle hallowed
  | own => exact own h hstep
  | body f =>
    simp only [async_task.step, Option.ite_none_right_eq_some, Option.some.injEq] at hstep
    obtain ⟨⟨hf, hpc⟩, rfl⟩ := hstep
    exact body h hf hpc
  | return_place f =>
    simp only [async_task.step, Option.ite_none_right_eq_some, Option.map_eq_some_iff] at hstep
    obtain ⟨⟨hf, hpc⟩, frame, hplace, rfl⟩ := hstep
    exact return_place h hf hpc hplace
  | finish f how =>
    simp only [async_task.step, Option.ite_none_right_eq_some, Option.map_eq_some_iff] at hstep
    obtain ⟨⟨hf, hpc⟩, frame, hreturn, rfl⟩ := hstep
    exact finish h hf hpc hreturn
  | final_suspend f =>
    simp only [async_task.step, Option.ite_none_right_eq_some] at hstep
    exact final_suspend h hstep.1 hstep.2

end Inv

theorem inv_of_run {as : List Action} (hrun : Run Step construct as s) : Inv s :=
  hrun.invariant Inv (fun _ _ _ h hstep => Inv.step h hstep) construct_inv

end kelcoro.async_task
