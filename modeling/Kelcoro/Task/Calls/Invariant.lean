import Kelcoro.Task.Calls.Model
import Mathlib

namespace kelcoro.task.calls

open kelcoro.lib kelcoro.return_block

variable {C V E A R : Type}

/-- Coroutine `p` waits for coroutine `g`. -/
structure Awaits (s : System C V E A R) (p g : Nat) : Prop where
  lt : p < g
  created : g < s.tasks.created
  body : s.bodies g = none
  who : s.who g = some p
  root : s.root g = s.root p
  holds : s.tasks.objects g = some (some g)
  pc : (s.tasks.frames g).pc = .running ∨ (s.tasks.frames g).pc = .suspended ∨ (s.tasks.frames g).pc = .ending
  who_waits : ∃ c, (s.tasks.frames g).who_waits = .owner c

/-- A frame is as the point says where its coroutine is. -/
def Sound (P : Program C V E A R) (left : E → Option E) (s : System C V E A R) (f : Nat) : Prop :=
  match s.points f with
  | .goes_on c =>
    ((s.tasks.frames f).pc = .running ∨
      s.bodies f ≠ none ∧ ((s.tasks.frames f).pc = .initial_suspend ∨ (s.tasks.frames f).pc = .destroyed)) ∧
    (s.tasks.frames f).promise = .construct (P.spec c)
  | .asks _ k => (s.tasks.frames f).pc = .suspended ∧ ∀ x, (s.tasks.frames f).promise = .construct (P.spec (k x))
  | .calls g k =>
    (s.tasks.frames f).pc = .suspended ∧ (∀ o, (s.tasks.frames f).promise = .construct (P.spec (k o))) ∧ Awaits s f g
  | .done o =>
    ((s.tasks.frames f).pc = .running ∨ (s.tasks.frames f).pc = .ending) ∧ (s.tasks.frames f).promise.completed ≠ none ∧
      (result_or_rethrow left (s.tasks.frames f).promise.block).1 = o ∨
    s.bodies f ≠ none ∧ (s.tasks.frames f).pc = .final_suspend ∨ (s.tasks.frames f).pc = .destroyed

/-- A frame that is not destroyed is in the hands of a caller, or of the coroutine that
waits for it. -/
def Alive (s : System C V E A R) (g : Nat) : Prop :=
  s.bodies g ≠ none ∨ (s.tasks.frames g).pc = .destroyed ∨ ∃ p k, p < g ∧ s.points p = .calls g k

structure Inv (P : Program C V E A R) (left : E → Option E) (s : System C V E A R) : Prop where
  fresh : ∀ a, s.tasks.created ≤ a → s.tasks.objects a = none
  own : ∀ a f, s.tasks.objects.Holds a f → f = a
  sound : ∀ f, f < s.tasks.created → Sound P left s f
  alive : ∀ f, f < s.tasks.created → Alive s f
  calling : ∀ f g k, s.points f = .calls g k → f < s.tasks.created
  body : ∀ r c, s.bodies r = some c → r < s.tasks.created ∧ s.root r = r ∧ s.who r = none
  result : ∀ r c, s.bodies r = some c → ∀ t o, Rest P.function s.points r t o → Evaluates P.function c (s.trace r ++ t) o

variable {P : Program C V E A R} {left : E → Option E} {moved : V → V} {s s' : System C V E A R} {f g p r : Nat} {c : C}
  {a : Action C V E R}

/-- What a step leaves of a coroutine. -/
structure Same (s s' : System C V E A R) (g : Nat) : Prop where
  frame : s'.tasks.frames g = s.tasks.frames g
  object : s'.tasks.objects g = s.tasks.objects g
  point : s'.points g = s.points g
  who : s'.who g = s.who g
  root : s'.root g = s.root g
  body : s'.bodies g = s.bodies g

theorem Awaits.congr (h : Awaits s p g) (hg : Same s s' g) (hroot : s'.root p = s.root p)
    (hcreated : s.tasks.created ≤ s'.tasks.created) : Awaits s' p g where
  lt := h.lt
  created := h.created.trans_le hcreated
  body := hg.body.trans h.body
  who := hg.who.trans h.who
  root := by rw [hg.root, hroot, h.root]
  holds := hg.object.trans h.holds
  pc := by rw [hg.frame]; exact h.pc
  who_waits := by rw [hg.frame]; exact h.who_waits

namespace Sound

theorem of_goes_on (h : Sound P left s f) (hf : s.points f = .goes_on c) :
    ((s.tasks.frames f).pc = .running ∨
      s.bodies f ≠ none ∧ ((s.tasks.frames f).pc = .initial_suspend ∨ (s.tasks.frames f).pc = .destroyed)) ∧
    (s.tasks.frames f).promise = .construct (P.spec c) := by
  simpa [Sound, hf] using h

theorem of_asks {a : A} {k : R → C} (h : Sound P left s f) (hf : s.points f = .asks a k) :
    (s.tasks.frames f).pc = .suspended ∧ ∀ x, (s.tasks.frames f).promise = .construct (P.spec (k x)) := by
  simpa [Sound, hf] using h

theorem of_calls {k : Read V E → C} (h : Sound P left s f) (hf : s.points f = .calls g k) :
    (s.tasks.frames f).pc = .suspended ∧ (∀ o, (s.tasks.frames f).promise = .construct (P.spec (k o))) ∧ Awaits s f g := by
  simpa [Sound, hf] using h

theorem of_done {o : Read V E} (h : Sound P left s f) (hf : s.points f = .done o) :
    ((s.tasks.frames f).pc = .running ∨ (s.tasks.frames f).pc = .ending) ∧ (s.tasks.frames f).promise.completed ≠ none ∧
      (result_or_rethrow left (s.tasks.frames f).promise.block).1 = o ∨
    s.bodies f ≠ none ∧ (s.tasks.frames f).pc = .final_suspend ∨ (s.tasks.frames f).pc = .destroyed := by
  simpa [Sound, hf] using h

theorem congr (h : Sound P left s f) (hf : Same s s' f) (hcalls : ∀ g k, s.points f = .calls g k → Awaits s' f g) :
    Sound P left s' f := by
  cases hpoint : s.points f with
  | goes_on c =>
    simp only [Sound, hf.point, hf.frame, hf.body, hpoint]
    exact h.of_goes_on hpoint
  | asks a k =>
    simp only [Sound, hf.point, hf.frame, hpoint]
    exact h.of_asks hpoint
  | calls g k =>
    obtain ⟨hpc, hpromise, -⟩ := h.of_calls hpoint
    simp only [Sound, hf.point, hf.frame, hpoint]
    exact ⟨hpc, hpromise, hcalls g k hpoint⟩
  | done o =>
    simp only [Sound, hf.point, hf.frame, hf.body, hpoint]
    exact h.of_done hpoint

end Sound

namespace Inv

/-- A step that concerns the coroutines in `X`. -/
theorem update (h : Inv P left s) (X : Nat → Prop) (hsame : ∀ g, ¬ X g → Same s s' g)
    (hcreated : s.tasks.created ≤ s'.tasks.created) (hx : ∀ g, X g → g < s'.tasks.created)
    (hnew : ∀ g, g < s'.tasks.created → ¬ X g → g < s.tasks.created)
    (hobjects : ∀ g f, X g → s'.tasks.objects.Holds g f → f = g) (hsound : ∀ g, X g → Sound P left s' g)
    (halive : ∀ g, X g → Alive s' g) (hcalled : ∀ p g, ¬ X p → X g → Awaits s p g → Awaits s' p g)
    (hcalls : ∀ p g k, X p → ¬ X g → s.points p = .calls g k → ∃ k, s'.points p = .calls g k)
    (hbody : ∀ r c, X r → s'.bodies r = some c → s'.root r = r ∧ s'.who r = none)
    (hresult : ∀ r c, s'.bodies r = some c → ∀ t o, Rest P.function s'.points r t o →
      Evaluates P.function c (s'.trace r ++ t) o) : Inv P left s' where
  fresh g hg := by
    have hnot : ¬ X g := fun hxg => absurd (hx g hxg) (not_lt.mpr hg)
    exact (hsame g hnot).object.trans (h.fresh g (hcreated.trans hg))
  own g f hf := by
    by_cases hxg : X g
    · exact hobjects g f hxg hf
    · exact h.own g f ((hsame g hxg).object.symm.trans hf)
  sound g hg := by
    by_cases hxg : X g
    · exact hsound g hxg
    · have hold := hnew g hg hxg
      refine (h.sound g hold).congr (hsame g hxg) fun f k hpoint => ?_
      obtain ⟨-, -, hawaits⟩ := (h.sound g hold).of_calls hpoint
      by_cases hxf : X f
      · exact hcalled g f hxg hxf hawaits
      · exact hawaits.congr (hsame f hxf) (hsame g hxg).root hcreated
  alive g hg := by
    by_cases hxg : X g
    · exact halive g hxg
    · obtain hbody | hpc | ⟨p, k, hlt, hpoint⟩ := h.alive g (hnew g hg hxg)
      · exact .inl (by rwa [(hsame g hxg).body])
      · exact .inr (.inl (by rw [(hsame g hxg).frame, hpc]))
      · refine .inr (.inr ?_)
        by_cases hxp : X p
        · obtain ⟨k, hpoint⟩ := hcalls p g k hxp hxg hpoint
          exact ⟨p, k, hlt, hpoint⟩
        · exact ⟨p, k, hlt, (hsame p hxp).point.trans hpoint⟩
  calling f g k hpoint := by
    by_cases hxf : X f
    · exact hx f hxf
    · exact (h.calling f g k ((hsame f hxf).point.symm.trans hpoint)).trans_le hcreated
  body r c hr := by
    by_cases hxr : X r
    · exact ⟨hx r hxr, hbody r c hxr hr⟩
    · obtain ⟨hlt, hroot, hwho⟩ := h.body r c ((hsame r hxr).body.symm.trans hr)
      exact ⟨hlt.trans_le hcreated, (hsame r hxr).root.trans hroot, (hsame r hxr).who.trans hwho⟩
  result := hresult

/-- A step that concerns coroutine `f` alone. -/
theorem one (h : Inv P left s) (hf : f < s.tasks.created) (hcreated : s'.tasks.created = s.tasks.created)
    (hsame : ∀ g, g ≠ f → Same s s' g) (hobject : ∀ g, s'.tasks.objects.Holds f g → g = f) (hroot : s'.root f = s.root f)
    (hwho : s'.who f = s.who f) (hbody : s'.bodies f = s.bodies f)
    (hlive : s.bodies f = none → (s.tasks.frames f).pc ≠ .destroyed)
    (hawaited : s.bodies f = none → s'.tasks.objects f = s.tasks.objects f ∧
      ((s'.tasks.frames f).pc = .running ∨ (s'.tasks.frames f).pc = .suspended ∨ (s'.tasks.frames f).pc = .ending) ∧
      (s'.tasks.frames f).who_waits = (s.tasks.frames f).who_waits)
    (hcalls : ∀ g k, s.points f = .calls g k → ∃ k, s'.points f = .calls g k)
    (hsound : Sound P left s' f)
    (hresult : ∀ r c, s'.bodies r = some c → ∀ t o, Rest P.function s'.points r t o →
      Evaluates P.function c (s'.trace r ++ t) o) : Inv P left s' := by
  apply h.update (fun g => g = f) hsame hcreated.ge
  · rintro g rfl
    exact hcreated ▸ hf
  · exact fun g hg _ => hcreated ▸ hg
  · rintro g f' rfl hf'
    exact hobject f' hf'
  · rintro g rfl
    exact hsound
  · rintro g rfl
    by_cases hg : s.bodies g = none
    · obtain hnot | hpc | ⟨p, k, hlt, hpoint⟩ := h.alive g hf
      · exact absurd hg hnot
      · exact absurd hpc (hlive hg)
      · exact .inr (.inr ⟨p, k, hlt, (hsame p hlt.ne).point.trans hpoint⟩)
    · exact .inl (by rwa [hbody])
  · rintro p g hp rfl hawaits
    obtain ⟨hobject, hpc, hwaits⟩ := hawaited hawaits.body
    exact {
      lt := hawaits.lt
      created := hcreated ▸ hf
      body := hbody.trans hawaits.body
      who := hwho.trans hawaits.who
      root := by rw [hroot, (hsame p hp).root, hawaits.root]
      holds := hobject.trans hawaits.holds
      pc := hpc
      who_waits := by rw [hwaits]; exact hawaits.who_waits }
  · rintro p g k rfl - hpoint
    exact hcalls g k hpoint
  · rintro r c rfl hr
    obtain ⟨-, hroot', hwho'⟩ := h.body r c (hbody.symm.trans hr)
    exact ⟨hroot.trans hroot', hwho.trans hwho'⟩
  · exact hresult

/-- A frame that is in progress is in the hands of a caller, or of the coroutine that
waits for it. -/
theorem awaits (h : Inv P left s) (hf : f < s.tasks.created) (hbody : s.bodies f = none)
    (hpc : (s.tasks.frames f).pc ≠ .destroyed) : ∃ p k, s.points p = .calls f k ∧ Awaits s p f := by
  obtain hnot | hdestroyed | ⟨p, k, hlt, hpoint⟩ := h.alive f hf
  · exact absurd hbody hnot
  · exact absurd hdestroyed hpc
  · exact ⟨p, k, hpoint, ((h.sound p (hlt.trans hf)).of_calls hpoint).2.2⟩

/-- It waits on behalf of the one whose caller is not one of these. -/
theorem within_root (h : Inv P left s) (hf : f < s.tasks.created)
    (hlive : s.bodies f ≠ none ∨ (s.tasks.frames f).pc ≠ .destroyed) :
    Within s.points f (s.root f) ∧ s.bodies (s.root f) ≠ none := by
  induction f using Nat.strong_induction_on with
  | _ f ih =>
    cases hbody : s.bodies f with
    | some c =>
      obtain ⟨-, hroot, -⟩ := h.body f c hbody
      rw [hroot]
      exact ⟨.self, by simp [hbody]⟩
    | none =>
      obtain ⟨p, k, hpoint, hawaits⟩ := h.awaits hf hbody (hlive.resolve_left (by simp [hbody]))
      have hp := hawaits.lt.trans hf
      obtain ⟨hpc, -⟩ := (h.sound p hp).of_calls hpoint
      obtain ⟨hwithin, hroot⟩ := ih p hawaits.lt hp (.inr (by simp [hpc]))
      rw [hawaits.root]
      exact ⟨(Within.calls hpoint .self).trans hwithin, hroot⟩

end Inv

end kelcoro.task.calls
