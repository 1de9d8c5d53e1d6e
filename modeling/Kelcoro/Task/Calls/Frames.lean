import Kelcoro.Task.Calls.Steps
import Mathlib

namespace kelcoro.task.calls

open kelcoro.lib kelcoro.return_block

variable {C V E A R : Type}

variable {P : Program C V E A R} {left : E → Option E} {moved : V → V} {s s' : System C V E A R} {f g p r : Nat} {c : C}
  {a : Action C V E R}

/-- Coroutines wait for the ones that were called later. -/
theorem Inv.le_of_within (h : Inv P left s) (hfg : Within s.points f g) : g ≤ f := by
  induction hfg with
  | self => exact le_rfl
  | calls hg _ ih =>
    obtain ⟨-, -, hawaits⟩ := (h.sound _ (h.calling _ _ _ hg)).of_calls hg
    exact hawaits.lt.le.trans ih

/-- A coroutine that calls nobody is the last one that was called on behalf of its root
and is not destroyed. -/
theorem Inv.last (h : Inv P left s) (hf : f < s.tasks.created) (hlive : (s.tasks.frames f).pc ≠ .destroyed)
    (hcalls : ∀ g k, s.points f ≠ .calls g k) (hg : g < s.tasks.created) (hlive' : (s.tasks.frames g).pc ≠ .destroyed)
    (hroot : s.root g = s.root f) : g ≤ f := by
  obtain ⟨hwithin, -⟩ := h.within_root hf (.inr hlive)
  obtain ⟨hwithin', -⟩ := h.within_root hg (.inr hlive')
  rw [hroot] at hwithin'
  obtain hfg | hgf := hwithin.total hwithin'
  · exact h.le_of_within hfg
  · cases hgf with
    | self => exact le_rfl
    | calls hf' _ => exact absurd hf' (hcalls _ _)

/-- What a step does that creates a frame, for a body that is called on behalf of `root`. -/
structure Created (s s' : System C V E A R) (c : C) (root : Nat) : Prop where
  created : s'.tasks.created = s.tasks.created + 1
  roots : ∀ g, g < s.tasks.created → s'.root g = s.root g
  destroyed : ∀ g, g < s.tasks.created → ((s'.tasks.frames g).pc = .destroyed ↔ (s.tasks.frames g).pc = .destroyed)
  point : s'.points s.tasks.created = .goes_on c
  root : s'.root s.tasks.created = root
  live : (s'.tasks.frames s.tasks.created).pc ≠ .destroyed

/-- What a step does that creates none: at most it destroys the frame of coroutine `f`,
which calls nobody then. -/
inductive Effect (s s' : System C V E A R) (f : Nat) : Prop
  | stays (hcreated : s'.tasks.created = s.tasks.created) (hroot : ∀ g, g < s.tasks.created → s'.root g = s.root g)
      (hf : f < s.tasks.created)
      (hdestroyed : ∀ g, g < s.tasks.created → ((s'.tasks.frames g).pc = .destroyed ↔ (s.tasks.frames g).pc = .destroyed))
  | destroys (hcreated : s'.tasks.created = s.tasks.created) (hroot : ∀ g, g < s.tasks.created → s'.root g = s.root g)
      (hf : f < s.tasks.created) (hlive : (s.tasks.frames f).pc ≠ .destroyed) (hcalls : ∀ g k, s.points f ≠ .calls g k)
      (hdestroyed : ∀ g, g < s.tasks.created →
        ((s'.tasks.frames g).pc = .destroyed ↔ g = f ∨ (s.tasks.frames g).pc = .destroyed))

namespace Effect

theorem of_same (hcreated : s'.tasks.created = s.tasks.created) (hf : f < s.tasks.created)
    (hothers : ∀ g, g ≠ f → g < s.tasks.created → s'.root g = s.root g ∧
      ((s'.tasks.frames g).pc = .destroyed ↔ (s.tasks.frames g).pc = .destroyed)) (hroot : s'.root f = s.root f)
    (hlive : (s.tasks.frames f).pc = .destroyed → (s'.tasks.frames f).pc = .destroyed)
    (hcalls : (s'.tasks.frames f).pc = .destroyed → ∀ g k, s.points f ≠ .calls g k) : Effect s s' f := by
  have hroots : ∀ g, g < s.tasks.created → s'.root g = s.root g := by
    intro g hg
    by_cases hgf : g = f
    · rw [hgf, hroot]
    · exact (hothers g hgf hg).1
  by_cases hpc : (s.tasks.frames f).pc ≠ .destroyed ∧ (s'.tasks.frames f).pc = .destroyed
  · refine .destroys hcreated hroots hf hpc.1 (hcalls hpc.2) fun g hg => ?_
    by_cases hgf : g = f
    · simp [hgf, hpc.2]
    · simp [hgf, (hothers g hgf hg).2]
  · refine .stays hcreated hroots hf fun g hg => ?_
    by_cases hgf : g = f
    · rw [hgf]
      exact ⟨fun hpc' => by_contra fun hpc'' => hpc ⟨hpc'', hpc'⟩, hlive⟩
    · exact (hothers g hgf hg).2

/-- A step that concerns coroutine `f` alone. -/
theorem of_steps (h : Steps P left moved (fun g => g = f) s s') (hf : f < s.tasks.created) (hroot : s'.root f = s.root f)
    (hlive : (s.tasks.frames f).pc ≠ .destroyed)
    (hcalls : (s'.tasks.frames f).pc = .destroyed → ∀ g k, s.points f ≠ .calls g k) : Effect s s' f := by
  have hcreated := h.created_eq fun g hg => hg ▸ hf
  refine of_same hcreated hf (fun g hgf hg => ?_) hroot (fun hpc => absurd hpc hlive) hcalls
  have hsame := h.same g hgf hg
  exact ⟨hsame.root, by rw [hsame.frame]⟩

end Effect

/-- What a caller does with a coroutine destroys at most its frame. -/
theorem caller_effect (h : Inv P left s) {op : Op V E} (hstep : Step P left moved s (.caller r op) s') : Effect s s' r := by
  obtain ⟨hallowed, hstep⟩ := hstep
  obtain ⟨⟨hr, hop⟩, htake⟩ := Option.ite_none_right_eq_some.mp hstep
  obtain ⟨t, ht, rfl⟩ := Option.map_eq_some_iff.mp htake
  have ht' : task.step left moved s.tasks (caller_action r op) = some t := by simpa using ht
  obtain ⟨hcreated, hsame, -, hmoves⟩ := caller_cases hop (h.own r) ⟨hallowed, ht'⟩
  obtain ⟨c, hc⟩ := Option.ne_none_iff_exists'.mp hr
  obtain ⟨hlt, -, -⟩ := h.body r c hc
  have hothers : ∀ g, g ≠ r → g < s.tasks.created → s.root g = s.root g ∧
      ((t.frames g).pc = .destroyed ↔ (s.tasks.frames g).pc = .destroyed) :=
    fun g hg _ => ⟨rfl, by rw [(hsame g hg).1]⟩
  refine .of_same hcreated hlt hothers rfl ?_ ?_
  · intro hpc
    cases hmoves with
    | stays hpc' => exact hpc'.trans hpc
    | begins hinitial => cases hpc.symm.trans hinitial
    | ended hend => simp [hpc] at hend
  · rintro hpc' g k hcalls
    obtain ⟨hsuspended, -⟩ := (h.sound r hlt).of_calls hcalls
    cases hmoves with
    | stays hpc'' => cases (hpc''.symm.trans hpc').symm.trans hsuspended
    | begins hinitial => cases hinitial.symm.trans hsuspended
    | ended hend => simp [hsuspended] at hend

/-- A coroutine that is resumed destroys no frame. -/
theorem resume_effect (h : Inv P left s) {x : R} (hstep : Step P left moved s (.resume f x) s') : Effect s s' f := by
  obtain ⟨hallowed, hstep⟩ := hstep
  cases hpoint : s.points f with
  | asks a k =>
    obtain ⟨s₁, hs₁, -, -, hsame, hown, hcreated, -, hpc, -⟩ := resume_spec moved h hallowed hpoint x
    cases hs₁.symm.trans hstep
    obtain ⟨hsuspended, -⟩ := (h.sound f hallowed).of_asks hpoint
    refine .of_same hcreated hallowed (fun g hgf _ => ⟨(hsame g hgf).root, by rw [(hsame g hgf).frame]⟩) hown.root ?_ ?_
    · simp [hsuspended]
    · simp [hpc]
  | goes_on c | calls g k | done o => simp [step, hpoint] at hstep

theorem spawn_created (h : Inv P left s) (hstep : Step P left moved s (.spawn c) s') : Created s s' c s.tasks.created := by
  obtain ⟨s₁, hs₁, -, -, hsame, hcreated, hpoint, hroot, hpc⟩ := spawn_spec moved h c
  cases hs₁.symm.trans hstep.2
  exact ⟨hcreated, fun g hg => (hsame g hg.ne).root, fun g hg => by rw [(hsame g hg.ne).frame], hpoint, hroot, by simp [hpc]⟩

/-- A coroutine that goes on calls another one, or destroys at most its own frame. -/
theorem go_effect (h : Inv P left s) (hstep : Step P left moved s (.go f) s') :
    Effect s s' f ∨ ∃ c c' kind k, s.points f = .goes_on c ∧ P.command c = .co_await c' kind k ∧
      Created s s' c' (s.root f) ∧ (s.tasks.frames f).pc ≠ .destroyed := by
  obtain ⟨hf, hgo⟩ : f < s.tasks.created ∧ go P left moved s f = some s' := hstep
  cases go_cases h hf hgo with
  | ends hpc hpoint hc hsteps hown hpoint' | asks hpc hpoint hc hsteps hown hpoint'
  | final_suspend hpc hpoint hsteps hown hpoint' =>
    exact .inl (.of_steps hsteps hf hown.root (by simp [hpc]) (by simp [hpoint]))
  | leaves hpc hpoint hsteps hroot hpoint' => exact .inl (.of_steps hsteps hf hroot (by simp [hpc]) (by simp [hpoint]))
  | co_awaits hpc hpoint hc hsteps hown hcreated hpoint' hchild hpc' hawaits =>
    have hsuspended : (s'.tasks.frames f).pc = .suspended :=
      ((hsteps.inv.sound f (hf.trans_le hsteps.le)).of_calls hpoint').1
    refine .inr ⟨_, _, _, _, hpoint, hc, ⟨hcreated, fun g hg => ?_, fun g hg => ?_, hchild, ?_, ?_⟩, ?_⟩
    · by_cases hgf : g = f
      · rw [hgf, hown.root]
      · exact (hsteps.same g (not_or.mpr ⟨hgf, hg.ne⟩) hg).root
    · by_cases hgf : g = f
      · simp [hgf, hpc, hsuspended]
      · rw [(hsteps.same g (not_or.mpr ⟨hgf, hg.ne⟩) hg).frame]
    · rw [hawaits.root, hown.root]
    · simp [hpc']
    · simp [hpc]
  | @transfers p k o hpc hpoint hp hawaits hsteps hpc' hgoes hroot hpoint' =>
    have hlt : p < s.tasks.created := hawaits.lt.trans hf
    obtain ⟨hsuspended, -⟩ := (h.sound p hlt).of_calls hp
    have hcreated : s'.tasks.created = s.tasks.created := by
      apply hsteps.created_eq
      rintro g (rfl | rfl)
      · exact hf
      · exact hlt
    refine .inl (.of_same hcreated hf (fun g hgf hg => ⟨by rw [hroot], ?_⟩) (by rw [hroot]) ?_ (by simp [hpoint]))
    · by_cases hgp : g = p
      · simp [hgp, hsuspended, hpc']
      · rw [(hsteps.same g (not_or.mpr ⟨hgf, hgp⟩) hg).frame]
    · simp [hpc]

end kelcoro.task.calls
