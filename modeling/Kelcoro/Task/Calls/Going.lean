import Kelcoro.Task.Calls.Frames
import Mathlib

namespace kelcoro.task.calls

open kelcoro.lib kelcoro.return_block

variable {C V E A R : Type}

/-- A coroutine on behalf of `r` goes on. -/
def System.Going (s : System C V E A R) (r : Nat) : Prop :=
  ∃ g, g < s.tasks.created ∧ s.root g = r ∧ ((s.tasks.frames g).pc = .running ∨ (s.tasks.frames g).pc = .ending)

instance (s : System C V E A R) (r : Nat) : Decidable (s.Going r) :=
  inferInstanceAs (Decidable (∃ g, g < s.tasks.created ∧
    (s.root g = r ∧ ((s.tasks.frames g).pc = .running ∨ (s.tasks.frames g).pc = .ending))))

/-- Coroutine `f` waits for an answer. -/
def System.Asks (s : System C V E A R) (f : Nat) : Prop := f < s.tasks.created ∧ ∃ a k, s.points f = .asks a k

variable {P : Program C V E A R} {left : E → Option E} {moved : V → V} {s s' : System C V E A R} {f g p r : Nat} {c : C}

/-- A coroutine that goes on or waits for an answer calls nobody, and is not destroyed. -/
theorem Inv.calls_nobody (h : Inv P left s) (hf : f < s.tasks.created)
    (hleaf : ((s.tasks.frames f).pc = .running ∨ (s.tasks.frames f).pc = .ending) ∨ ∃ a k, s.points f = .asks a k) :
    (s.tasks.frames f).pc ≠ .destroyed ∧ ∀ g k, s.points f ≠ .calls g k := by
  obtain hpc | ⟨a, k, hpoint⟩ := hleaf
  · refine ⟨by obtain hpc | hpc := hpc <;> simp [hpc], fun g k hcalls => ?_⟩
    obtain ⟨hsuspended, -⟩ := (h.sound f hf).of_calls hcalls
    simp [hsuspended] at hpc
  · obtain ⟨hpc, -⟩ := (h.sound f hf).of_asks hpoint
    exact ⟨by simp [hpc], by simp [hpoint]⟩

/-- While a coroutine waits for an answer, or is not started, no one goes on on behalf of
its root. -/
theorem Inv.not_going (h : Inv P left s) (hf : f < s.tasks.created) (hlive : (s.tasks.frames f).pc ≠ .destroyed)
    (hcalls : ∀ g k, s.points f ≠ .calls g k) (hpc : (s.tasks.frames f).pc ≠ .running ∧ (s.tasks.frames f).pc ≠ .ending) :
    ¬ s.Going (s.root f) := by
  rintro ⟨g, hg, hroot, hgoes⟩
  obtain ⟨hlive', hcalls'⟩ := h.calls_nobody hg (.inl hgoes)
  have hle := h.last hf hlive hcalls hg hlive' hroot
  have hge := h.last hg hlive' hcalls' hf hlive hroot.symm
  obtain rfl : g = f := by omega
  exact hgoes.elim hpc.1 hpc.2

/-- A step of coroutines on behalf of one root does not concern the other ones. -/
theorem Steps.going {X : Nat → Prop} {root : Nat} (h : Steps P left moved X s s')
    (hx : ∀ g, X g → s'.root g = root ∧ (g < s.tasks.created → s.root g = root)) (hr : r ≠ root) :
    s'.Going r ↔ s.Going r := by
  constructor
  · rintro ⟨g, hg, hroot, hgoes⟩
    have hxg : ¬ X g := fun hxg => hr (hroot.symm.trans (hx g hxg).1)
    have hlt : g < s.tasks.created := by
      obtain heq | ⟨hnew, heq⟩ := h.created
      · rwa [← heq]
      · have hne : g ≠ s.tasks.created := by
          rintro rfl
          exact hxg hnew
        omega
    have hsame := h.same g hxg hlt
    exact ⟨g, hlt, hsame.root.symm.trans hroot, by rwa [← hsame.frame]⟩
  · rintro ⟨g, hg, hroot, hgoes⟩
    have hxg : ¬ X g := fun hxg => hr (hroot.symm.trans ((hx g hxg).2 hg))
    have hsame := h.same g hxg hg
    exact ⟨g, hg.trans_le h.le, hsame.root.trans hroot, by rwa [hsame.frame]⟩

/-- Those that it does not concern wait for an answer as before. -/
theorem Steps.asks {X : Nat → Prop} (h : Steps P left moved X s s')
    (hx : ∀ g, X g → g < s.tasks.created → ∀ a k, s.points g ≠ .asks a k)
    (hx' : ∀ g, X g → ∀ a k, s'.points g ≠ .asks a k) (g : Nat) : s'.Asks g ↔ s.Asks g := by
  by_cases hxg : X g
  · exact ⟨fun ⟨_, a, k, hasks⟩ => absurd hasks (hx' g hxg a k), fun ⟨hg, a, k, hasks⟩ => absurd hasks (hx g hxg hg a k)⟩
  · constructor
    · rintro ⟨hg, a, k, hasks⟩
      have hlt : g < s.tasks.created := by
        obtain heq | ⟨hnew, heq⟩ := h.created
        · rwa [← heq]
        · have hne : g ≠ s.tasks.created := by
            rintro rfl
            exact hxg hnew
          omega
      exact ⟨hlt, a, k, (h.same g hxg hlt).point.symm.trans hasks⟩
    · rintro ⟨hg, a, k, hasks⟩
      exact ⟨hg.trans_le h.le, a, k, (h.same g hxg hg).point.trans hasks⟩

/-- The next thing that coroutine `f` does is to wait for an answer. -/
def awaits_next (P : Program C V E A R) (s : System C V E A R) (f : Nat) : Bool :=
  match s.points f with
  | .goes_on c =>
    match P.command c with
    | .await _ _ => true
    | _ => false
  | _ => false

/-- A coroutine that goes on concerns those on behalf of its root. -/
theorem go_going (h : Inv P left s) (hstep : Step P left moved s (.go f) s') (hr : r ≠ s.root f) : s'.Going r ↔ s.Going r := by
  obtain ⟨hf, hgo⟩ : f < s.tasks.created ∧ go P left moved s f = some s' := hstep
  cases go_cases h hf hgo with
  | ends hpc hpoint hc hsteps hown hpoint' | asks hpc hpoint hc hsteps hown hpoint'
  | final_suspend hpc hpoint hsteps hown hpoint' =>
    refine hsteps.going ?_ hr
    rintro g rfl
    exact ⟨hown.root, fun _ => rfl⟩
  | leaves hpc hpoint hsteps hroot hpoint' =>
    refine hsteps.going ?_ hr
    rintro g rfl
    exact ⟨hroot, fun _ => rfl⟩
  | co_awaits hpc hpoint hc hsteps hown hcreated hpoint' hchild hpc' hawaits =>
    refine hsteps.going ?_ hr
    rintro g (rfl | rfl)
    · exact ⟨hown.root, fun _ => rfl⟩
    · exact ⟨hawaits.root.trans hown.root, fun hlt => absurd hlt (lt_irrefl _)⟩
  | transfers hpc hpoint hp hawaits hsteps hpc' hgoes hroot hpoint' =>
    refine hsteps.going ?_ hr
    rintro g (rfl | rfl)
    · exact ⟨by rw [hroot], fun _ => rfl⟩
    · exact ⟨by rw [hroot, hawaits.root], fun _ => hawaits.root.symm⟩

/-- It waits for an answer when it comes to that. -/
theorem go_awaits (h : Inv P left s) (hstep : Step P left moved s (.go f) s') (g : Nat) :
    s'.Asks g ↔ s.Asks g ∨ awaits_next P s f = true ∧ g = f := by
  obtain ⟨hf, hgo⟩ : f < s.tasks.created ∧ go P left moved s f = some s' := hstep
  cases go_cases h hf hgo with
  | ends hpc hpoint hc hsteps hown hpoint' =>
    rename_i c o
    have hnext : awaits_next P s f = false := by
      unfold Program.function at hc
      simp only [awaits_next, hpoint]
      split at hc <;> simp_all
    rw [hsteps.asks]
    · simp [hnext]
    · rintro g rfl -
      simp [hpoint]
    · rintro g rfl
      simp [hpoint']
  | final_suspend hpc hpoint hsteps hown hpoint' | leaves hpc hpoint hsteps hroot hpoint' =>
    rw [hsteps.asks]
    · simp [awaits_next, hpoint]
    · rintro g rfl -
      simp [hpoint]
    · rintro g rfl
      simp [hpoint']
  | co_awaits hpc hpoint hc hsteps hown hcreated hpoint' hchild hpc' hawaits =>
    rw [hsteps.asks]
    · simp [awaits_next, hpoint, hc]
    · rintro g (rfl | rfl) hlt
      · simp [hpoint]
      · exact absurd hlt (lt_irrefl _)
    · rintro g (rfl | rfl)
      · simp [hpoint']
      · simp [hchild]
  | transfers hpc hpoint hp hawaits hsteps hpc' hgoes hroot hpoint' =>
    rw [hsteps.asks]
    · simp [awaits_next, hpoint]
    · rintro g (rfl | rfl) -
      · simp [hpoint]
      · simp [hp]
    · rintro g (rfl | rfl)
      · simp [hpoint']
      · simp [hgoes]
  | asks hpc hpoint hc hsteps hown hpoint' =>
    have hnext : awaits_next P s f = true := by simp [awaits_next, hpoint, hc]
    have hcreated := hsteps.created_eq fun g hg => hg ▸ hf
    by_cases hgf : g = f
    · subst hgf
      simp [System.Asks, hpoint', hcreated, hf, hnext]
    · constructor
      · rintro ⟨hg, a, k, hasks⟩
        rw [hcreated] at hg
        exact .inl ⟨hg, a, k, (hsteps.same g hgf hg).point.symm.trans hasks⟩
      · rintro (⟨hg, a, k, hasks⟩ | ⟨-, hgf'⟩)
        · exact ⟨hcreated.symm ▸ hg, a, k, (hsteps.same g hgf hg).point.trans hasks⟩
        · exact absurd hgf' hgf

/-- A coroutine that is answered goes on. -/
theorem resume_going (h : Inv P left s) {x : R} (hstep : Step P left moved s (.resume f x) s') :
    (∀ r, s'.Going r ↔ r = s.root f ∨ s.Going r) ∧ ∀ g, s'.Asks g ↔ s.Asks g ∧ g ≠ f := by
  obtain ⟨hf, hstep⟩ : f < s.tasks.created ∧ step P left moved s (.resume f x) = some s' := hstep
  cases hpoint : s.points f with
  | asks a k =>
    obtain ⟨s₁, hs₁, -, -, hsame, hown, hcreated, hpoint', hpc, -⟩ := resume_spec moved h hf hpoint x
    cases hs₁.symm.trans hstep
    obtain ⟨hsuspended, -⟩ := (h.sound f hf).of_asks hpoint
    refine ⟨fun r => ⟨?_, ?_⟩, fun g => ?_⟩
    · rintro ⟨g, hg, hroot, hgoes⟩
      by_cases hgf : g = f
      · exact .inl (by rw [← hroot, hgf, hown.root])
      · exact .inr ⟨g, hcreated ▸ hg, (hsame g hgf).root.symm.trans hroot, by rwa [← (hsame g hgf).frame]⟩
    · rintro (rfl | ⟨g, hg, hroot, hgoes⟩)
      · exact ⟨f, hcreated.symm ▸ hf, hown.root, .inl hpc⟩
      · have hgf : g ≠ f := by
          rintro rfl
          simp [hsuspended] at hgoes
        exact ⟨g, hcreated.symm ▸ hg, (hsame g hgf).root.trans hroot, by rwa [(hsame g hgf).frame]⟩
    · by_cases hgf : g = f
      · subst hgf
        simp [System.Asks, hpoint']
      · simp [System.Asks, hcreated, (hsame g hgf).point, hgf]
  | goes_on c | calls g k | done o => simp [step, hpoint] at hstep

/-- What a caller does may start the coroutine. -/
theorem caller_going (h : Inv P left s) {op : Op V E} (hstep : Step P left moved s (.caller r op) s') :
    (∀ r', r' ≠ r → (s'.Going r' ↔ s.Going r')) ∧ (s.Going r → s'.Going r) ∧ ∀ g, s'.Asks g ↔ s.Asks g := by
  obtain ⟨hallowed, hstep⟩ := hstep
  obtain ⟨⟨hr, hop⟩, htake⟩ := Option.ite_none_right_eq_some.mp hstep
  obtain ⟨t, ht, rfl⟩ := Option.map_eq_some_iff.mp htake
  have ht' : task.step left moved s.tasks (caller_action r op) = some t := by simpa using ht
  obtain ⟨hcreated, hsame, -, hmoves⟩ := caller_cases hop (h.own r) ⟨hallowed, ht'⟩
  obtain ⟨c, hc⟩ := Option.ne_none_iff_exists'.mp hr
  obtain ⟨hlt, hroot, -⟩ := h.body r c hc
  refine ⟨fun r' hr' => ?_, ?_, fun g => by simp [System.Asks, hcreated]⟩
  · have hframes : ∀ g, s.root g = r' → t.frames g = s.tasks.frames g := by
      rintro g rfl
      apply (hsame g ?_).1
      rintro rfl
      exact hr' hroot
    constructor
    · rintro ⟨g, hg, hrootg, hgoes⟩
      exact ⟨g, hcreated ▸ hg, hrootg, by rwa [← hframes g hrootg]⟩
    · rintro ⟨g, hg, hrootg, hgoes⟩
      exact ⟨g, hcreated.symm ▸ hg, hrootg, by
        show (t.frames g).pc = _ ∨ _
        rwa [hframes g hrootg]⟩
  · rintro ⟨g, hg, hrootg, hgoes⟩
    refine ⟨g, hcreated.symm ▸ hg, hrootg, ?_⟩
    show (t.frames g).pc = _ ∨ (t.frames g).pc = _
    by_cases hgr : g = r
    · subst hgr
      cases hmoves with
      | stays hpc => rwa [hpc]
      | begins hpc => simp [hpc] at hgoes
      | ended hpc => simp [hpc] at hgoes
    · rwa [(hsame g hgr).1]

/-- A coroutine that is called is not started. -/
theorem spawn_going (h : Inv P left s) (hstep : Step P left moved s (.spawn c) s') :
    (∀ r, s'.Going r ↔ s.Going r) ∧ ∀ g, s'.Asks g ↔ s.Asks g := by
  obtain ⟨s₁, hs₁, -, -, hsame, hcreated, hpoint, hroot, hpc⟩ := spawn_spec moved h c
  cases hs₁.symm.trans hstep.2
  have hlt : ∀ g, g < s'.tasks.created ↔ g < s.tasks.created ∨ g = s.tasks.created := by
    intro g
    rw [hcreated]
    omega
  refine ⟨fun r => ⟨?_, ?_⟩, fun g => ⟨?_, ?_⟩⟩
  · rintro ⟨g, hg, hrootg, hgoes⟩
    obtain hg | rfl := (hlt g).mp hg
    · exact ⟨g, hg, (hsame g hg.ne).root.symm.trans hrootg, by rwa [← (hsame g hg.ne).frame]⟩
    · simp [hpc] at hgoes
  · rintro ⟨g, hg, hrootg, hgoes⟩
    exact ⟨g, (hlt g).mpr (.inl hg), (hsame g hg.ne).root.trans hrootg, by rwa [(hsame g hg.ne).frame]⟩
  · rintro ⟨hg, a, k, hasks⟩
    obtain hg | rfl := (hlt g).mp hg
    · exact ⟨hg, a, k, (hsame g hg.ne).point.symm.trans hasks⟩
    · cases hpoint.symm.trans hasks
  · rintro ⟨hg, a, k, hasks⟩
    exact ⟨(hlt g).mpr (.inl hg), a, k, (hsame g hg.ne).point.trans hasks⟩

end kelcoro.task.calls
