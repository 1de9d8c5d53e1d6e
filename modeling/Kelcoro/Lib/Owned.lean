import Kelcoro.Lib.Handles
import Kelcoro.Lib.Progress
import Mathlib

namespace kelcoro.lib

/-- Frames whose handles are held by the objects of one owner, and what the owner
does next. -/
structure Owned (φ π : Type) where
  frames : Nat → φ
  created : Nat
  objects : Objects
  owner : π

/-- What is known about a frame depends on where its owner is in an operation on
it, and on whether an object holds it. -/
structure Protocol (φ π σ : Type) where
  idle : π
  /-- The object and the frame of the owner's operation. -/
  target : π → Option (Nat × Nat)
  stage : Nat → π → σ
  away : σ
  Sound : φ → σ → Prop → Prop
  target_idle : target idle = none
  stage_eq_away : ∀ owner g, (∀ a, target owner ≠ some (a, g)) → stage g owner = away

variable {φ π σ : Type} {P : Protocol φ π σ} {s s' : Owned φ π} {a f g : Nat}

/-- The owner's operation is on a frame that its object holds, and every frame is
as the protocol says. -/
structure Protocol.Inv (P : Protocol φ π σ) (s : Owned φ π) : Prop where
  unique : s.objects.Unique
  created : ∀ f, s.objects.Held f → f < s.created
  target : ∀ a f, P.target s.owner = some (a, f) → s.objects.Holds a f
  sound : ∀ f, f < s.created → P.Sound (s.frames f) (P.stage f s.owner) (s.objects.Held f)

namespace Owned

def put (s : Owned φ π) (f : Nat) (frame : φ) : Owned φ π :=
  { s with frames := Function.update s.frames f frame }

/-- A new frame, held by object `a`. -/
def start (s : Owned φ π) (a : Nat) (frame : φ) : Owned φ π :=
  { s.put s.created frame with
    created := s.created + 1
    objects := s.objects.give a s.created }

def goto (s : Owned φ π) (owner : π) : Owned φ π := { s with owner := owner }

/-- The steps that are left to the frames and to the owner. -/
def weight (frame : φ → Nat) (owner : π → Nat) (s : Owned φ π) : Nat :=
  ∑ f ∈ Finset.range s.created, frame (s.frames f) + owner s.owner

variable {frame : φ → Nat} {owner : π → Nat}

theorem weight_put {x : φ} (hf : f < s.created) :
    (s.put f x).weight frame owner + frame (s.frames f) = s.weight frame owner + frame x := by
  have hsum := sum_of_ne (f := fun g => frame (s.frames g)) (g := fun g => frame ((s.put f x).frames g))
    (Finset.mem_range.mpr hf) fun g hg => by simp [put, hg]
  simp only [put, Function.update_self] at hsum
  simp only [weight, put]
  omega

theorem weight_put_of_eq {x : φ} (hx : frame x = frame (s.frames f)) :
    (s.put f x).weight frame owner = s.weight frame owner := by
  by_cases hf : f < s.created
  · have hput : (s.put f x).weight frame owner + _ = _ + frame x := weight_put hf
    omega
  · have hsum : ∀ g ∈ Finset.range s.created, frame ((s.put f x).frames g) = frame (s.frames g) := by
      intro g hg
      have hgf : g ≠ f := fun hgf => hf (hgf ▸ Finset.mem_range.mp hg)
      simp [put, hgf]
    exact congrArg (· + owner s.owner) (Finset.sum_congr rfl hsum)

@[simp] theorem weight_start {x : φ} :
    (s.start a x).weight frame owner = s.weight frame owner + frame x := by
  have hsum : ∀ g ∈ Finset.range s.created, frame ((s.start a x).frames g) = frame (s.frames g) := by
    intro g hg
    simp [start, put, (Finset.mem_range.mp hg).ne]
  have hlast : frame ((s.start a x).frames s.created) = frame x := by simp [start, put]
  change ∑ g ∈ Finset.range (s.created + 1), frame ((s.start a x).frames g) + owner s.owner = _
  rw [Finset.sum_range_succ, Finset.sum_congr rfl hsum, hlast]
  simp only [weight]
  omega

theorem weight_goto {p : π} :
    (s.goto p).weight frame owner + owner s.owner = s.weight frame owner + owner p := by
  simp only [weight, goto]
  omega

/-- The owner goes on, and leaves the frame as much to do as it had. -/
theorem weight_own {x : φ} {p : π} (hx : frame x = frame (s.frames f)) (hlt : owner p < owner s.owner) :
    ((s.put f x).goto p).weight frame owner + 1 ≤ s.weight frame owner := by
  have hput : (s.put f x).weight frame owner = _ := weight_put_of_eq hx
  have hgoto : ((s.put f x).goto p).weight frame owner + owner s.owner = _ + owner p := weight_goto
  omega

end Owned

theorem Protocol.stage_of_target {owner : π} (htarget : P.target owner = some (a, f)) (hg : g ≠ f) :
    P.stage g owner = P.away := by
  apply P.stage_eq_away
  intro b heq
  cases htarget.symm.trans heq
  exact hg rfl

@[simp] theorem Protocol.stage_idle : P.stage g P.idle = P.away := by
  apply P.stage_eq_away
  intro a heq
  cases P.target_idle.symm.trans heq

namespace Protocol.Inv

theorem held (h : P.Inv s) (htarget : P.target s.owner = some (a, f)) : s.objects.Held f :=
  ⟨a, h.target a f htarget⟩

theorem sound_of_target (h : P.Inv s) (htarget : P.target s.owner = some (a, f)) :
    P.Sound (s.frames f) (P.stage f s.owner) (s.objects.Held f) :=
  h.sound f (h.created f (h.held htarget))

/-- A step on frame `f` that leaves the others alone. -/
theorem update (h : P.Inv s) (hcreated : s'.created = s.created)
    (hframes : ∀ g, g ≠ f → s'.frames g = s.frames g) (hunique : s'.objects.Unique)
    (hheld : ∀ g, g ≠ f → (s'.objects.Held g ↔ s.objects.Held g))
    (hsame : s'.objects.Held f → s.objects.Held f)
    (htarget : ∀ a g, P.target s'.owner = some (a, g) → s'.objects.Holds a g)
    (hstage : ∀ g, g ≠ f → P.stage g s'.owner = P.stage g s.owner)
    (hsound : f < s.created → P.Sound (s'.frames f) (P.stage f s'.owner) (s'.objects.Held f)) :
    P.Inv s' where
  unique := hunique
  created g hg := by
    rw [hcreated]
    by_cases hgf : g = f
    · subst hgf
      exact h.created g (hsame hg)
    · exact h.created g ((hheld g hgf).mp hg)
  target := htarget
  sound g hg := by
    rw [hcreated] at hg
    by_cases hgf : g = f
    · subst hgf
      exact hsound hg
    · rw [hframes g hgf, hstage g hgf, hheld g hgf]
      exact h.sound g hg

/-- Something other than the owner changes a frame. -/
theorem put (h : P.Inv s) {frame : φ}
    (hsound : f < s.created → P.Sound frame (P.stage f s.owner) (s.objects.Held f)) :
    P.Inv (s.put f frame) := by
  apply h.update (f := f)
  · rfl
  · exact fun g hg => Function.update_of_ne hg ..
  · exact h.unique
  · exact fun g _ => Iff.rfl
  · exact id
  · exact h.target
  · exact fun g _ => rfl
  · intro hf
    simpa [Owned.put] using hsound hf

/-- The owner changes the frame of its operation, and goes on with it or is
done. -/
theorem own_put (h : P.Inv s) {frame : φ} {owner : π} (htarget : P.target s.owner = some (a, f))
    (hnext : owner = P.idle ∨ P.target owner = some (a, f))
    (hsound : P.Sound frame (P.stage f owner) (s.objects.Held f)) :
    P.Inv ((s.put f frame).goto owner) := by
  apply h.update (f := f)
  · rfl
  · exact fun g hg => Function.update_of_ne hg ..
  · exact h.unique
  · exact fun g _ => Iff.rfl
  · exact id
  · intro b g hg
    have howner : P.target owner = some (b, g) := hg
    apply h.target
    rcases hnext with rfl | hsome
    · rw [P.target_idle] at howner
      cases howner
    · rw [htarget, ← hsome, howner]
  · intro g hg
    rw [stage_of_target htarget hg]
    rcases hnext with rfl | hsome
    · exact stage_idle
    · exact stage_of_target hsome hg
  · intro _
    simpa [Owned.put, Owned.goto] using hsound

/-- The owner's last access to the frame of its operation: no object holds it
afterwards. -/
theorem own_release (h : P.Inv s) {frame : φ} {objects : Objects}
    (htarget : P.target s.owner = some (a, f)) (hunique : objects.Unique)
    (hheld : ∀ g, objects.Held g ↔ s.objects.Held g ∧ g ≠ f)
    (hsound : ∀ held, ¬ held → P.Sound frame P.away held) :
    P.Inv { s.put f frame with objects := objects, owner := P.idle } := by
  apply h.update (f := f)
  · rfl
  · exact fun g hg => Function.update_of_ne hg ..
  · exact hunique
  · exact fun g hg => (hheld g).trans (and_iff_left hg)
  · exact fun hf => ((hheld f).mp hf).1
  · intro b g hg
    cases P.target_idle.symm.trans hg
  · intro g hg
    rw [stage_of_target htarget hg]
    exact stage_idle
  · intro _
    have hframe := hsound (objects.Held f) fun hf => ((hheld f).mp hf).2 rfl
    simpa [Owned.put] using hframe

/-- The owner begins an operation on the frame of object `a`. -/
theorem begin (h : P.Inv s) (hidle : s.owner = P.idle) (ha : s.objects.Holds a f) {owner : π}
    (htarget : P.target owner = some (a, f))
    (hsound : P.Sound (s.frames f) P.away (s.objects.Held f) →
      P.Sound (s.frames f) (P.stage f owner) (s.objects.Held f)) :
    P.Inv (s.goto owner) := by
  apply h.update (f := f)
  · rfl
  · exact fun g _ => rfl
  · exact h.unique
  · exact fun g _ => Iff.rfl
  · exact id
  · intro b g hg
    cases htarget.symm.trans hg
    exact ha
  · intro g hg
    rw [hidle, stage_idle]
    exact stage_of_target htarget hg
  · intro hf
    have hold := h.sound f hf
    rw [hidle, stage_idle] at hold
    exact hsound hold

/-- Handles change hands. -/
theorem move (h : P.Inv s) (hidle : s.owner = P.idle) {objects : Objects} (hunique : objects.Unique)
    (hheld : ∀ g, objects.Held g ↔ s.objects.Held g) : P.Inv { s with objects := objects } where
  unique := hunique
  created f hf := h.created f ((hheld f).mp hf)
  target a f hf := by
    have howner : P.target s.owner = some (a, f) := hf
    rw [hidle, P.target_idle] at howner
    cases howner
  sound f hf := by
    rw [hheld f]
    exact h.sound f hf

/-- A frame is created; nobody knows it yet. -/
theorem start (h : P.Inv s) (hidle : s.owner = P.idle) (ha : s.objects a = none) {frame : φ}
    (hsound : ∀ held, held → P.Sound frame P.away held) : P.Inv (s.start a frame) := by
  have hfresh : ¬ s.objects.Held s.created := fun hheld => lt_irrefl _ (h.created _ hheld)
  have hheld : ∀ g, (s.objects.give a s.created).Held g ↔ s.objects.Held g ∨ g = s.created :=
    fun g => Objects.held_give (Objects.not_holds_of_none ha)
  have howner : (s.start a frame).owner = P.idle := hidle
  constructor
  · exact h.unique.give hfresh
  · intro f hf
    rcases (hheld f).mp hf with hold | rfl
    · exact Nat.lt_succ_of_lt (h.created f hold)
    · exact Nat.lt_succ_self _
  · intro b f hf
    rw [howner, P.target_idle] at hf
    cases hf
  · intro f hf
    rw [howner, stage_idle]
    by_cases hnew : f = s.created
    · subst hnew
      have hframe : (s.start a frame).frames s.created = frame := Function.update_self ..
      rw [hframe]
      exact hsound _ ((hheld _).mpr (Or.inr rfl))
    · have hlt : f < s.created := by
        have hle : f < s.created + 1 := hf
        omega
      have hold := h.sound f hlt
      rw [hidle, stage_idle] at hold
      have hframe : (s.start a frame).frames f = s.frames f := Function.update_of_ne hnew ..
      have hsame : (s.start a frame).objects.Held f ↔ s.objects.Held f :=
        (hheld f).trans (or_iff_left hnew)
      rw [hframe, hsame]
      exact hold

end Protocol.Inv

end kelcoro.lib
