import Mathlib

namespace kelcoro.lib

/-- What code does next: it is done, it asks its environment something, or it calls
other code and goes on with the outcome of that. -/
inductive Instr (C A R O : Type) where
  | returns (o : O)
  | asks (a : A) (k : R → C)
  | calls (c : C) (k : O → C)

/-- Where an activation of code is: it goes on, waits for an answer, waits for the
outcome of activation `f`, or is done. -/
inductive Point (C A R O : Type) where
  | goes_on (c : C)
  | asks (a : A) (k : R → C)
  | calls (f : Nat) (k : O → C)
  | done (o : O)

variable {C A R O : Type} {code : C → Instr C A R O}

/-- Code evaluates to an outcome, and this is what it asks on the way and the answers
that it gets. -/
inductive Evaluates (code : C → Instr C A R O) : C → List (A × R) → O → Prop
  | returns {c : C} {o : O} (hc : code c = .returns o) : Evaluates code c [] o
  | asks {c : C} {a : A} {k : R → C} {x : R} {t : List (A × R)} {o : O} (hc : code c = .asks a k)
      (hrest : Evaluates code (k x) t o) : Evaluates code c ((a, x) :: t) o
  | calls {c c' : C} {k : O → C} {t t' : List (A × R)} {o o' : O} (hc : code c = .calls c' k)
      (hcall : Evaluates code c' t o') (hrest : Evaluates code (k o') t' o) : Evaluates code c (t ++ t') o

/-- What an activation still has to do, the calls in progress included. -/
inductive Rest (code : C → Instr C A R O) (points : Nat → Point C A R O) : Nat → List (A × R) → O → Prop
  | goes_on {f : Nat} {c : C} {t : List (A × R)} {o : O} (hf : points f = .goes_on c) (hrest : Evaluates code c t o) :
      Rest code points f t o
  | asks {f : Nat} {a : A} {k : R → C} {x : R} {t : List (A × R)} {o : O} (hf : points f = .asks a k)
      (hrest : Evaluates code (k x) t o) : Rest code points f ((a, x) :: t) o
  | calls {f g : Nat} {k : O → C} {t t' : List (A × R)} {o o' : O} (hf : points f = .calls g k)
      (hcall : Rest code points g t o') (hrest : Evaluates code (k o') t' o) : Rest code points f (t ++ t') o
  | done {f : Nat} {o : O} (hf : points f = .done o) : Rest code points f [] o

/-- Activation `g` waits for `f`, through others or not, or is `f`. -/
inductive Within (points : Nat → Point C A R O) (f : Nat) : Nat → Prop
  | self : Within points f f
  | calls {g h : Nat} {k : O → C} (hg : points g = .calls h k) (hrest : Within points f h) : Within points f g

theorem Within.trans {points : Nat → Point C A R O} {f g h : Nat} (hfg : Within points f g) (hgh : Within points g h) :
    Within points f h := by
  induction hgh with
  | self => exact hfg
  | calls hh _ ih => exact .calls hh ih

/-- Of two activations that a third one waits for, one waits for the other one. -/
theorem Within.total {points : Nat → Point C A R O} {f g h : Nat} (hf : Within points f h) (hg : Within points g h) :
    Within points f g ∨ Within points g f := by
  induction hf with
  | self => exact .inr hg
  | calls hh hrest ih =>
    cases hg with
    | self => exact .inl (.calls hh hrest)
    | calls hh' hrest' =>
      cases hh.symm.trans hh'
      exact ih hrest'

namespace Rest

variable {points points' : Nat → Point C A R O} {f g h : Nat} {c : C} {a : A} {x : R} {t : List (A × R)} {o o' : O}

theorem goes_on_iff (hf : points f = .goes_on c) : Rest code points f t o ↔ Evaluates code c t o := by
  refine ⟨fun hrest => ?_, .goes_on hf⟩
  cases hrest with
  | goes_on hf' hrest =>
    cases hf.symm.trans hf'
    exact hrest
  | asks hf' | calls hf' | done hf' => cases hf.symm.trans hf'

theorem calls_iff {k : O → C} (hf : points f = .calls g k) :
    Rest code points f t o ↔ ∃ t₁ o₁ t₂, t = t₁ ++ t₂ ∧ Rest code points g t₁ o₁ ∧ Evaluates code (k o₁) t₂ o := by
  constructor
  · intro hrest
    cases hrest with
    | calls hf' hcall hrest =>
      cases hf.symm.trans hf'
      exact ⟨_, _, _, rfl, hcall, hrest⟩
    | goes_on hf' | asks hf' | done hf' => cases hf.symm.trans hf'
  · rintro ⟨t₁, o₁, t₂, rfl, hcall, hrest⟩
    exact .calls hf hcall hrest

theorem done_iff (hf : points f = .done o) : Rest code points f t o' ↔ t = [] ∧ o' = o := by
  constructor
  · intro hrest
    cases hrest with
    | done hf' =>
      cases hf.symm.trans hf'
      exact ⟨rfl, rfl⟩
    | goes_on hf' | asks hf' | calls hf' => cases hf.symm.trans hf'
  · rintro ⟨rfl, rfl⟩
    exact .done hf

theorem asks_iff {k : R → C} (hf : points f = .asks a k) :
    Rest code points f t o ↔ ∃ x t', t = (a, x) :: t' ∧ Evaluates code (k x) t' o := by
  constructor
  · intro hrest
    cases hrest with
    | asks hf' hrest =>
      cases hf.symm.trans hf'
      exact ⟨_, _, rfl, hrest⟩
    | goes_on hf' | calls hf' | done hf' => cases hf.symm.trans hf'
  · rintro ⟨x, t', rfl, hrest⟩
    exact .asks hf hrest

/-- What is left after a step of activation `f` was left before, for all activations
of a kind that does not call others. -/
theorem of_step {P : Nat → Prop} (hsame : ∀ g, P g → g ≠ f → points' g = points g)
    (hcalls : ∀ g h k, P g → points g = .calls h k → P h)
    (hf : P f → ∀ t o, Rest code points' f t o → Rest code points f t o) (hrest : Rest code points' g t o) (hg : P g) :
    Rest code points g t o := by
  induction hrest with
  | @goes_on g c t o hp hrest =>
    by_cases hgf : g = f
    · subst hgf
      exact hf hg _ _ (.goes_on hp hrest)
    · exact .goes_on ((hsame g hg hgf).symm.trans hp) hrest
  | @asks g a k x t o hp hrest =>
    by_cases hgf : g = f
    · subst hgf
      exact hf hg _ _ (.asks hp hrest)
    · exact .asks ((hsame g hg hgf).symm.trans hp) hrest
  | @calls g h k t t' o o' hp hcall hrest ih =>
    by_cases hgf : g = f
    · subst hgf
      exact hf hg _ _ (.calls hp hcall hrest)
    · have hpoint : points g = .calls h k := (hsame g hg hgf).symm.trans hp
      exact .calls hpoint (ih (hcalls g h k hg hpoint)) hrest
  | @done g o hp =>
    by_cases hgf : g = f
    · subst hgf
      exact hf hg _ _ (.done hp)
    · exact .done ((hsame g hg hgf).symm.trans hp)

/-- A step of activation `f` alone. -/
theorem of_update {p : Point C A R O}
    (hf : ∀ t o, Rest code (Function.update points f p) f t o → Rest code points f t o)
    (hrest : Rest code (Function.update points f p) g t o) : Rest code points g t o :=
  of_step (P := fun _ => True) (fun _ _ hgf => Function.update_of_ne hgf ..) (fun _ _ _ _ _ => trivial) (fun _ => hf)
    hrest trivial

theorem of_returns (hf : points f = .goes_on c) (hc : code c = .returns o')
    (hrest : Rest code (Function.update points f (.done o')) g t o) : Rest code points g t o := by
  refine of_update (fun t o hrest => ?_) hrest
  obtain ⟨rfl, rfl⟩ := (done_iff (Function.update_self ..)).mp hrest
  exact .goes_on hf (.returns hc)

theorem of_asks {k : R → C} (hf : points f = .goes_on c) (hc : code c = .asks a k)
    (hrest : Rest code (Function.update points f (.asks a k)) g t o) : Rest code points g t o := by
  refine of_update (fun t o hrest => ?_) hrest
  obtain ⟨x, t', rfl, heval⟩ := (asks_iff (Function.update_self ..)).mp hrest
  exact .goes_on hf (.asks hc heval)

/-- Activation `f` gets the outcome of the one that it called. -/
theorem of_outcome {k : O → C} (hf : points f = .calls h k) (hh : points h = .done o')
    (hrest : Rest code (Function.update points f (.goes_on (k o'))) g t o) : Rest code points g t o := by
  refine of_update (fun t o hrest => ?_) hrest
  have heval : Evaluates code (k o') t o := (goes_on_iff (Function.update_self ..)).mp hrest
  exact .calls hf (.done hh) heval

/-- Activation `f` calls `c'`, for which `h` is begun. -/
theorem of_calls {c' : C} {k : O → C} (hf : points f = .goes_on c) (hc : code c = .calls c' k) (hfh : f ≠ h)
    (hnew : ∀ g k, points g ≠ .calls h k) (hgh : g ≠ h)
    (hrest : Rest code (Function.update (Function.update points h (.goes_on c')) f (.calls h k)) g t o) :
    Rest code points g t o := by
  refine of_step (P := fun g => g ≠ h) (f := f) ?_ ?_ (fun _ t o hrest => ?_) hrest hgh
  · intro g hgh hgf
    rw [Function.update_of_ne hgf, Function.update_of_ne hgh]
  · rintro g _ k - hg rfl
    exact hnew g k hg
  · obtain ⟨t₁, o₁, t₂, rfl, hcall, hrest⟩ := (calls_iff (Function.update_self ..)).mp hrest
    have hh : Function.update (Function.update points h (.goes_on c')) f (.calls h k) h = .goes_on c' := by
      rw [Function.update_of_ne (Ne.symm hfh), Function.update_self]
    exact .goes_on hf (.calls hc ((goes_on_iff hh).mp hcall) hrest)

/-- Activation `f` is answered, and what waits for it has that before it. -/
theorem of_answer {k : R → C} (hf : points f = .asks a k) (hwithin : Within points f g)
    (hrest : Rest code (Function.update points f (.goes_on (k x))) g t o) : Rest code points g ((a, x) :: t) o := by
  induction hwithin generalizing t o with
  | self => exact .asks hf ((goes_on_iff (Function.update_self ..)).mp hrest)
  | @calls g h k' hg _ ih =>
    have hgf : g ≠ f := by
      rintro rfl
      cases hf.symm.trans hg
    obtain ⟨t₁, o₁, t₂, rfl, hcall, hrest⟩ := (calls_iff ((Function.update_of_ne hgf ..).trans hg)).mp hrest
    exact .calls hg (ih hcall) hrest

/-- Activations of a kind that does not wait for `f` are not concerned. -/
theorem of_elsewhere {p : Point C A R O} {P : Nat → Prop} (hcalls : ∀ g h k, P g → points g = .calls h k → P h)
    (hf : ¬ P f) (hg : P g) (hrest : Rest code (Function.update points f p) g t o) : Rest code points g t o :=
  of_step (fun _ _ hgf => Function.update_of_ne hgf ..) hcalls (fun hpf => absurd hpf hf) hrest hg

end Rest

end kelcoro.lib
