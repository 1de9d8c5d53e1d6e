import Kelcoro.Lib.Run
import Kelcoro.MemorySupport.Aligned
import Mathlib

namespace kelcoro.memory_support.overload_new_delete

open kelcoro.lib kelcoro.stack_resource size_t

/-- size_t and addresses. -/
abbrev Word := BitVec 64

/-- What `operator new` and `operator delete` know of a non-empty resource type
`R`. The concept `memory_resource` limits the alignment by that of `max_align_t`. -/
structure ResourceType where
  sizeof : Word
  alignof : Word
  is_trivially_destructible : Bool
  sizeof_pos : 0 < sizeof.toNat
  has_single_bit_alignof : has_single_bit alignof = true
  alignof_le : alignof.toNat ≤ 16

/-- What is done with the resource: a block is requested of it, an `R` is made
or destroyed, an `R` gets a block back. -/
inductive Event (ρ : Type) where
  | allocate (size ptr : Word)
  | construct (place : Word) (r : ρ)
  | destroy (place : Word)
  | deallocate (r : ρ) (ptr size : Word)
  deriving DecidableEq, Repr

/-- The objects of type `R` in the memory, `ρ` being the values they can have. -/
abbrev Objects (ρ : Type) := Word → Option ρ

variable {ρ : Type} (R : ResourceType)

/-- `n` bytes at `a` are used for something else: no object in them lives on. -/
def reuse (objects : Objects ρ) (a n : Nat) : Objects ρ := fun x =>
  if Apart x.toNat R.sizeof.toNat a n then objects x else none

/-- `do_allocate`; `allocate` is that of `r`, which may throw (`none`). -/
def do_allocate (allocate : ρ → Word → Option (Word × ρ)) (objects : Objects ρ) (frame_sz : Word) (r : ρ) :
    Option (Objects ρ × Word × List (Event ρ)) := do
  let frame_sz := aligned R.alignof frame_sz
  let (p, r) ← allocate r (frame_sz + R.sizeof)
  let objects := reuse R objects (p + frame_sz).toNat R.sizeof.toNat
  some (Function.update objects (p + frame_sz) (some r), p,
    [.allocate (frame_sz + R.sizeof) p, .construct (p + frame_sz) r])

/-- `operator delete`. A trivially destructible `R` lies in the block that it
deallocates, another one is moved out of it first. -/
def operator_delete (objects : Objects ρ) (ptr frame_sz : Word) : Option (Objects ρ × List (Event ρ)) :=
  let frame_sz := aligned R.alignof frame_sz
  let onframe_resource := ptr + frame_sz
  if onframe_resource.toNat % R.alignof.toNat ≠ 0 then none else do
  let r ← objects onframe_resource
  if R.is_trivially_destructible then
    some (reuse R objects ptr.toNat (frame_sz + R.sizeof).toNat, [.deallocate r ptr (frame_sz + R.sizeof)])
  else
    let objects := Function.update objects onframe_resource none
    some (reuse R objects ptr.toNat (frame_sz + R.sizeof).toNat,
      [.destroy onframe_resource, .deallocate r ptr (frame_sz + R.sizeof)])

/-- A coroutine frame: its size, and what its `operator new` did. -/
structure CoroFrame (ρ : Type) where
  frame_sz : Word
  events : List (Event ρ)

/-- How many bytes were requested for it. -/
def CoroFrame.requested (f : CoroFrame ρ) : Nat :=
  match f.events with
  | .allocate size _ :: _ => size.toNat
  | _ => 0

/-- The objects in the memory, and the frames by their addresses. -/
structure State (ρ : Type) where
  objects : Objects ρ
  frames : Word → Option (CoroFrame ρ)

def construct : State ρ := { objects := fun _ => none, frames := fun _ => none }

/-- Coroutines are created and destroyed, and memory is written. -/
inductive Action (ρ : Type) where
  | operator_new (frame_sz : Word) (r : ρ) (allocate : ρ → Word → Option (Word × ρ))
  | operator_delete (ptr : Word)
  | write (a n : Nat)

def step (s : State ρ) : Action ρ → Option (State ρ)
  | .operator_new frame_sz r allocate => do
    let (objects, p, events) ← do_allocate R allocate s.objects frame_sz r
    some { objects, frames := Function.update s.frames p (some { frame_sz, events }) }
  | .operator_delete ptr => do
    let f ← s.frames ptr
    let (objects, _) ← operator_delete R s.objects ptr f.frame_sz
    some { objects, frames := Function.update s.frames ptr none }
  | .write a n => some { s with objects := reuse R s.objects a n }

/-- No sum wraps. -/
structure NoWrap (frame_sz : Word) : Prop where
  aligned : frame_sz.toNat + (R.alignof.toNat - 1) < 2 ^ 64
  bytes : (size_t.aligned R.alignof frame_sz).toNat + R.sizeof.toNat < 2 ^ 64

/-- What a resource promises: an aligned block that overlaps no other one. -/
def AllocateContract (s : State ρ) (allocate : ρ → Word → Option (Word × ρ)) : Prop :=
  ∀ r size p r', allocate r size = some (p, r') → coroframe_align ∣ p.toNat ∧ p.toNat + size.toNat < 2 ^ 64 ∧
    ∀ q f, s.frames q = some f → Apart p.toNat size.toNat q.toNat f.requested

/-- A coroutine writes to its frame, and everybody outside of the blocks. -/
def Allowed (s : State ρ) : Action ρ → Prop
  | .operator_new frame_sz _ allocate => NoWrap R frame_sz ∧ AllocateContract s allocate
  | .operator_delete ptr => s.frames ptr ≠ none
  | .write a n =>
    (∃ p f, s.frames p = some f ∧ p.toNat ≤ a ∧ a + n ≤ p.toNat + f.frame_sz.toNat) ∨
      ∀ p f, s.frames p = some f → Apart a n p.toNat f.requested

def Step (s : State ρ) (a : Action ρ) (s' : State ρ) : Prop := Allowed R s a ∧ step R s a = some s'

/-- The frame at `p` has its resource behind it, in its block. -/
structure Placed (objects : Objects ρ) (p : Word) (f : CoroFrame ρ) (r : ρ) : Prop where
  wraps : NoWrap R f.frame_sz
  ends : p.toNat + (aligned R.alignof f.frame_sz + R.sizeof).toNat < 2 ^ 64
  dvd : coroframe_align ∣ p.toNat
  events : f.events = [.allocate (aligned R.alignof f.frame_sz + R.sizeof) p,
    .construct (p + aligned R.alignof f.frame_sz) r]
  object : objects (p + aligned R.alignof f.frame_sz) = some r

structure Inv (s : State ρ) : Prop where
  placed : ∀ p f, s.frames p = some f → ∃ r, Placed R s.objects p f r
  apart : ∀ p f q g, s.frames p = some f → s.frames q = some g → p ≠ q →
    Apart p.toNat f.requested q.toNat g.requested

variable {R} {s s' : State ρ} {objects : Objects ρ} {p : Word} {f : CoroFrame ρ} {r : ρ} {frame_sz : Word}

theorem alignof_pos (R : ResourceType) : 1 ≤ R.alignof.toNat := by
  obtain ⟨k, hk, heq⟩ := of_decide_eq_true R.has_single_bit_alignof
  rw [heq, toNat_twoPow hk]
  exact Nat.one_le_two_pow

theorem alignof_dvd (R : ResourceType) : R.alignof.toNat ∣ coroframe_align := by
  obtain ⟨k, hk, heq⟩ := of_decide_eq_true R.has_single_bit_alignof
  have hle := R.alignof_le
  rw [heq, toNat_twoPow hk] at hle ⊢
  exact Nat.pow_dvd_pow (m := k) (n := 4) 2 ((Nat.pow_le_pow_iff_right (by decide)).mp hle)

theorem NoWrap.bytes_toNat (h : NoWrap R frame_sz) :
    (size_t.aligned R.alignof frame_sz + R.sizeof).toNat =
      (size_t.aligned R.alignof frame_sz).toNat + R.sizeof.toNat := by
  rw [BitVec.toNat_add, Nat.mod_eq_of_lt h.bytes]

theorem NoWrap.least (h : NoWrap R frame_sz) :
    R.alignof.toNat ∣ (size_t.aligned R.alignof frame_sz).toNat ∧
      frame_sz.toNat ≤ (size_t.aligned R.alignof frame_sz).toNat := by
  have hsum := add_padding_len_toNat (alignof_pos R) h.aligned
  rw [aligned_eq_add_padding_len (alignof_pos R) h.aligned, hsum, padding_len_toNat (alignof_pos R)]
  exact (add_padding_len_least (alignof_pos R) frame_sz.toNat).1

theorem reuse_of_apart {x : Word} {a n : Nat} (h : Apart x.toNat R.sizeof.toNat a n) :
    reuse R objects a n x = objects x := by
  simp only [reuse, if_pos h]

namespace Placed

theorem requested (h : Placed R objects p f r) :
    f.requested = (aligned R.alignof f.frame_sz).toNat + R.sizeof.toNat := by
  simp only [CoroFrame.requested, h.events, h.wraps.bytes_toNat]

theorem place_toNat (h : Placed R objects p f r) :
    (p + aligned R.alignof f.frame_sz).toNat = p.toNat + (aligned R.alignof f.frame_sz).toNat := by
  have hends := h.ends
  rw [h.wraps.bytes_toNat] at hends
  rw [BitVec.toNat_add, Nat.mod_eq_of_lt (by omega)]

/-- A piece that lies apart from the block lies apart from the resource. -/
theorem place_apart (h : Placed R objects p f r) {a n : Nat} (hapart : Apart p.toNat f.requested a n) :
    Apart (p + aligned R.alignof f.frame_sz).toNat R.sizeof.toNat a n := by
  rw [h.requested] at hapart
  rw [h.place_toNat]
  unfold Apart at hapart ⊢
  omega

/-- A piece of the frame lies before the resource. -/
theorem frame_apart (h : Placed R objects p f r) {a n : Nat} (hframe : a + n ≤ p.toNat + f.frame_sz.toNat) :
    Apart (p + aligned R.alignof f.frame_sz).toNat R.sizeof.toNat a n := by
  have hleast := h.wraps.least.2
  rw [h.place_toNat]
  unfold Apart
  omega

theorem dvd_place (h : Placed R objects p f r) :
    R.alignof.toNat ∣ (p + aligned R.alignof f.frame_sz).toNat := by
  rw [h.place_toNat]
  exact Nat.dvd_add ((alignof_dvd R).trans h.dvd) h.wraps.least.1

theorem congr (h : Placed R objects p f r) {objects' : Objects ρ}
    (hobject : objects' (p + aligned R.alignof f.frame_sz) = objects (p + aligned R.alignof f.frame_sz)) :
    Placed R objects' p f r :=
  { h with object := hobject.trans h.object }

theorem reused (h : Placed R objects p f r) {a n : Nat}
    (hapart : Apart (p + aligned R.alignof f.frame_sz).toNat R.sizeof.toNat a n) :
    Placed R (reuse R objects a n) p f r :=
  h.congr (reuse_of_apart hapart)

/-- Another resource is made or destroyed apart from this one. -/
theorem updated (h : Placed R objects p f r) {x : Word} {o : Option ρ}
    (hapart : Apart (p + aligned R.alignof f.frame_sz).toNat R.sizeof.toNat x.toNat R.sizeof.toNat) :
    Placed R (Function.update objects x o) p f r := by
  have hne : p + aligned R.alignof f.frame_sz ≠ x := by
    rintro rfl
    have hpos := R.sizeof_pos
    unfold Apart at hapart
    omega
  exact h.congr (Function.update_of_ne hne _ _)

/-- What `operator delete` does with a frame that has its resource. -/
theorem operator_delete_eq (h : Placed R objects p f r) :
    ∃ objects', operator_delete R objects p f.frame_sz = some (objects',
      if R.is_trivially_destructible then [.deallocate r p (aligned R.alignof f.frame_sz + R.sizeof)]
      else [.destroy (p + aligned R.alignof f.frame_sz),
        .deallocate r p (aligned R.alignof f.frame_sz + R.sizeof)]) := by
  have hdvd : (p + aligned R.alignof f.frame_sz).toNat % R.alignof.toNat = 0 :=
    Nat.mod_eq_zero_of_dvd h.dvd_place
  unfold operator_delete
  simp only [hdvd, h.object, ne_eq, not_true_eq_false, if_false, Option.bind_eq_bind, Option.bind_some]
  split
  · exact ⟨_, rfl⟩
  · exact ⟨_, rfl⟩

/-- `operator delete` on one frame leaves the resource of another one. -/
theorem deleted (h : Placed R objects p f r) {q : Word} {g : CoroFrame ρ} {r' : ρ}
    (hq : Placed R objects q g r') (hapart : Apart p.toNat f.requested q.toNat g.requested)
    {objects' : Objects ρ} {events : List (Event ρ)}
    (hdelete : operator_delete R objects q g.frame_sz = some (objects', events)) :
    Placed R objects' p f r := by
  have hplaces : Apart (p + aligned R.alignof f.frame_sz).toNat R.sizeof.toNat
      (q + aligned R.alignof g.frame_sz).toNat R.sizeof.toNat := by
    have hsplit := h.place_apart hapart
    rw [hq.requested] at hsplit
    rw [hq.place_toNat]
    unfold Apart at hsplit ⊢
    omega
  have hblock := h.place_apart hapart
  rw [hq.requested, ← hq.wraps.bytes_toNat] at hblock
  have hdvd : (q + aligned R.alignof g.frame_sz).toNat % R.alignof.toNat = 0 :=
    Nat.mod_eq_zero_of_dvd hq.dvd_place
  unfold operator_delete at hdelete
  simp only [hdvd, hq.object, ne_eq, not_true_eq_false, if_false, Option.bind_eq_bind,
    Option.bind_some] at hdelete
  split at hdelete
  · cases hdelete
    exact h.reused hblock
  · cases hdelete
    exact (h.updated hplaces).reused hblock

end Placed

theorem update_eq_some {frames : Word → Option (CoroFrame ρ)} {q : Word} {g : CoroFrame ρ}
    (h : Function.update frames p (some g) q = some f) : (q = p ∧ f = g) ∨ (q ≠ p ∧ frames q = some f) := by
  by_cases hq : q = p
  · subst hq
    rw [Function.update_self] at h
    exact .inl ⟨rfl, (Option.some.inj h).symm⟩
  · rw [Function.update_of_ne hq] at h
    exact .inr ⟨hq, h⟩

/-- What `do_allocate` does with the objects that it does not make. -/
theorem do_allocate_spec {allocate : ρ → Word → Option (Word × ρ)} {objects' : Objects ρ} {events : List (Event ρ)}
    (h : do_allocate R allocate objects frame_sz r = some (objects', p, events)) :
    ∃ r', allocate r (aligned R.alignof frame_sz + R.sizeof) = some (p, r') ∧
      objects' = Function.update (reuse R objects (p + aligned R.alignof frame_sz).toNat R.sizeof.toNat)
        (p + aligned R.alignof frame_sz) (some r') ∧
      events = [.allocate (aligned R.alignof frame_sz + R.sizeof) p,
        .construct (p + aligned R.alignof frame_sz) r'] := by
  obtain ⟨⟨q, r'⟩, hallocate, heq⟩ := Option.bind_eq_some_iff.mp h
  cases heq
  exact ⟨r', hallocate, rfl, rfl⟩

namespace Inv

theorem init : Inv R (construct : State ρ) where
  placed _ _ hf := by cases hf
  apart _ _ _ _ hf := by cases hf

theorem operator_new (h : Inv R s) {allocate : ρ → Word → Option (Word × ρ)} (hwraps : NoWrap R frame_sz)
    (hcontract : AllocateContract s allocate) (hstep : step R s (.operator_new frame_sz r allocate) = some s') :
    Inv R s' := by
  obtain ⟨⟨objects, p, events⟩, hallocate, heq⟩ := Option.bind_eq_some_iff.mp hstep
  cases heq
  obtain ⟨r', hr', rfl, rfl⟩ := do_allocate_spec hallocate
  obtain ⟨hdvd, hends, hapart⟩ := hcontract _ _ _ _ hr'
  have hnew : Placed R (Function.update (reuse R s.objects (p + aligned R.alignof frame_sz).toNat R.sizeof.toNat)
      (p + aligned R.alignof frame_sz) (some r')) p
      { frame_sz, events := [.allocate (aligned R.alignof frame_sz + R.sizeof) p,
        .construct (p + aligned R.alignof frame_sz) r'] } r' :=
    ⟨hwraps, hends, hdvd, rfl, Function.update_self _ _ _⟩
  refine ⟨fun q f hf => ?_, fun q f q' g hf hg hne => ?_⟩
  · rcases update_eq_some hf with ⟨rfl, rfl⟩ | ⟨-, hold⟩
    · exact ⟨r', hnew⟩
    · obtain ⟨r₁, hr₁⟩ := h.placed q f hold
      have hplace : (p + aligned R.alignof frame_sz).toNat = p.toNat + (aligned R.alignof frame_sz).toNat :=
        hnew.place_toNat
      have hplaces : Apart (q + aligned R.alignof f.frame_sz).toNat R.sizeof.toNat
          (p + aligned R.alignof frame_sz).toNat R.sizeof.toNat := by
        have hblocks := hapart q f hold
        rw [hr₁.requested, hwraps.bytes_toNat] at hblocks
        rw [hr₁.place_toNat, hplace]
        unfold Apart at hblocks ⊢
        omega
      exact ⟨r₁, (hr₁.reused hplaces).updated hplaces⟩
  · rcases update_eq_some hf with ⟨rfl, rfl⟩ | ⟨-, hf'⟩
    · rcases update_eq_some hg with ⟨rfl, rfl⟩ | ⟨-, hg'⟩
      · exact absurd rfl hne
      · exact hapart q' g hg'
    · rcases update_eq_some hg with ⟨rfl, rfl⟩ | ⟨-, hg'⟩
      · exact (hapart q f hf').symm
      · exact h.apart q f q' g hf' hg' hne

theorem operator_delete (h : Inv R s) (hstep : step R s (.operator_delete p) = some s') : Inv R s' := by
  obtain ⟨f, hf, hstep⟩ := Option.bind_eq_some_iff.mp hstep
  obtain ⟨⟨objects, events⟩, hdelete, heq⟩ := Option.bind_eq_some_iff.mp hstep
  cases heq
  obtain ⟨r, hr⟩ := h.placed p f hf
  have hkept : ∀ q g, Function.update s.frames p none q = some g → q ≠ p ∧ s.frames q = some g := by
    intro q g hg
    by_cases hq : q = p
    · rw [hq, Function.update_self] at hg
      cases hg
    · exact ⟨hq, by rwa [Function.update_of_ne hq] at hg⟩
  refine ⟨fun q g hg => ?_, fun q g q' g' hg hg' hne => ?_⟩
  · obtain ⟨hq, hg⟩ := hkept q g hg
    obtain ⟨r', hr'⟩ := h.placed q g hg
    exact ⟨r', hr'.deleted hr (h.apart q g p f hg hf hq) hdelete⟩
  · exact h.apart q g q' g' (hkept q g hg).2 (hkept q' g' hg').2 hne

theorem write (h : Inv R s) {a n : Nat} (hallowed : Allowed R s (.write a n))
    (hstep : step R s (.write a n) = some s') : Inv R s' := by
  cases hstep
  refine ⟨fun p f hf => ?_, h.apart⟩
  obtain ⟨r, hr⟩ := h.placed p f hf
  refine ⟨r, hr.reused ?_⟩
  rcases hallowed with ⟨q, g, hg, hle, hend⟩ | houtside
  · by_cases hq : p = q
    · subst hq
      rw [hf] at hg
      cases hg
      exact hr.frame_apart hend
    · obtain ⟨r', hr'⟩ := h.placed q g hg
      have hblocks := h.apart p f q g hf hg hq
      have hleast := hr'.wraps.least.2
      refine hr.place_apart ?_
      rw [hr'.requested] at hblocks
      unfold Apart at hblocks ⊢
      omega
  · exact hr.place_apart (houtside p f hf).symm

theorem step (h : Inv R s) {a : Action ρ} (hstep : Step R s a s') : Inv R s' := by
  obtain ⟨hallowed, hstep⟩ := hstep
  cases a with
  | operator_new frame_sz r allocate => exact h.operator_new hallowed.1 hallowed.2 hstep
  | operator_delete ptr => exact h.operator_delete hstep
  | write a n => exact h.write hallowed hstep

theorem run {as : List (Action ρ)} (hrun : Run (Step R) construct as s) : Inv R s :=
  hrun.invariant (Inv R) (fun _ _ _ h hstep => h.step hstep) init

end Inv

/-- Whatever else is created, destroyed and written, the resource of a coroutine
is behind its frame, aligned, in the one block that was requested, and
`operator delete` gives that block back to it. -/
theorem finds_placed_resource {as : List (Action ρ)} (hrun : Run (Step R) construct as s)
    (hf : s.frames p = some f) :
    ∃ (n a : Word) (r : ρ) (objects : Objects ρ), f.events = [.allocate n p, .construct a r] ∧
      p.toNat + f.frame_sz.toNat ≤ a.toNat ∧ a.toNat + R.sizeof.toNat ≤ p.toNat + n.toNat ∧
      R.alignof.toNat ∣ a.toNat ∧
      operator_delete R s.objects p f.frame_sz = some (objects,
        if R.is_trivially_destructible then [.deallocate r p n] else [.destroy a, .deallocate r p n]) := by
  obtain ⟨r, hr⟩ := (Inv.run hrun).placed p f hf
  obtain ⟨objects, hdelete⟩ := hr.operator_delete_eq
  have hleast := hr.wraps.least.2
  refine ⟨_, _, r, objects, hr.events, ?_, ?_, hr.dvd_place, hdelete⟩
  · rw [hr.place_toNat]
    omega
  · rw [hr.place_toNat, hr.wraps.bytes_toNat]
    omega

/-- A resource with a count of its blocks. -/
def counted : ResourceType where
  sizeof := 24
  alignof := 8
  is_trivially_destructible := false
  sizeof_pos := by decide
  has_single_bit_alignof := by decide
  alignof_le := by decide

def allocate_once (r : Nat) (size : Word) : Option (Word × Nat) :=
  if size.toNat ≤ 1000 then some (4096, r + 1) else none

theorem allocate_once_contract : AllocateContract (construct : State Nat) allocate_once := by
  intro r size p r' h
  unfold allocate_once at h
  split at h
  case isTrue hle =>
    cases h
    refine ⟨by decide, ?_, fun q f hf => by cases hf⟩
    have hp : (4096 : Word).toNat = 4096 := by decide
    omega
  case isFalse => cases h

def allocated : CoroFrame Nat :=
  { frame_sz := 100, events := [.allocate 128 4096, .construct 4200 7] }

def after_new : State Nat where
  objects := Function.update (reuse counted (fun _ => none) 4200 24) 4200 (some 7)
  frames := Function.update (fun _ => none) 4096 (some allocated)

theorem step_allocate_once : Step counted construct (.operator_new 100 6 allocate_once) after_new := by
  have haligned : aligned counted.alignof 100 = 104 := by decide
  have hbytes : (104 : Word) + counted.sizeof = 128 := by decide
  have hallocate : allocate_once 6 128 = some (4096, 7) := by decide
  have hplace : (4096 : Word) + 104 = 4200 := by decide
  have htoNat : (4200 : Word).toNat = 4200 ∧ counted.sizeof.toNat = 24 := by decide
  refine ⟨⟨⟨by decide, by decide⟩, allocate_once_contract⟩, ?_⟩
  simp only [overload_new_delete.step, do_allocate, haligned, hbytes, hallocate, hplace, htoNat, construct,
    after_new, allocated, Option.bind_eq_bind, Option.bind_some]

theorem finds_placed_resource_of_counted : ∃ (s : State Nat) (f : CoroFrame Nat),
    s.frames 4096 = some f ∧ f.frame_sz = 100 ∧
    ∃ (n a : Word) (r : Nat) (objects : Objects Nat), f.events = [.allocate n 4096, .construct a r] ∧
      (4096 : Word).toNat + f.frame_sz.toNat ≤ a.toNat ∧
      a.toNat + counted.sizeof.toNat ≤ (4096 : Word).toNat + n.toNat ∧
      counted.alignof.toNat ∣ a.toNat ∧
      operator_delete counted s.objects 4096 f.frame_sz = some (objects,
        if counted.is_trivially_destructible then [.deallocate r 4096 n]
        else [.destroy a, .deallocate r 4096 n]) := by
  have hframe : after_new.frames 4096 = some allocated := by
    simp only [after_new, Function.update_self]
  have hallowed : Allowed counted after_new (.write 4100 50) :=
    .inl ⟨4096, allocated, hframe, by decide, by decide⟩
  exact ⟨{ after_new with objects := reuse counted after_new.objects 4100 50 }, allocated, hframe, rfl,
    finds_placed_resource (.cons step_allocate_once (.cons ⟨hallowed, rfl⟩ (.nil _))) hframe⟩

end kelcoro.memory_support.overload_new_delete
