import Kelcoro.GeneratorsCommon.Clear
import Kelcoro.Lib.Simulates

namespace kelcoro.generators_common

open LeafObject kelcoro.lib

/-- How the links and objects of two programs are compared that run the same
coroutines. -/
structure Likeness (O O' : Type) [LeafObject O] [LeafObject O'] where
  link : Link → Link → Prop
  object : O → O' → Prop
  refl : ∀ l, link l l
  owner_eq : ∀ {l l' o}, link l l' → l = .owner o → l' = .owner o
  default : object LeafObject.default LeafObject.default
  top : ∀ {x x'}, object x x' → LeafObject.top x' = LeafObject.top x
  set_top : ∀ {x x'} t, object x x' → object (LeafObject.set_top x t) (LeafObject.set_top x' t)

variable {V W E O O' : Type} [LeafObject O] [LeafObject O']

/-- Frames of the same coroutine, which is compared by `S`; it is `still` while
it neither awaits nor iterates a leaf. -/
structure FrameAlike (A : Likeness O O') (S : Body V E → Body W E → Prop) (still : Prop) (p : Frame V E O)
    (q : Frame W E O') : Prop where
  root : q.root = p.root
  current_worker : q.current_worker = p.current_worker
  link : A.link p.link q.link
  body : S p.body q.body
  done : q.done = p.done
  leaf : Option.Rel A.object p.leaf q.leaf
  pulling : q.pulling = p.pulling
  still : still → p.leaf = none ∧ p.pulling = none

/-- The two programs run the same coroutines. -/
structure Alike (A : Likeness O O') (S : FrameId → Body V E → Body W E → Prop) (L : FrameId → Prop)
    (h : Heap V E O) (g : Heap W E O') : Prop where
  frames : ∀ x, Option.Rel (FrameAlike A (S x) (L x)) (h.frames x) (g.frames x)
  objects : ∀ i, A.object (h.objects i) (g.objects i)
  next_frame : g.next_frame = h.next_frame
  next_object : g.next_object = h.next_object

/-- The same with whatever else an operation returns. -/
def AlikeWith {α : Type} (A : Likeness O O') (S : FrameId → Body V E → Body W E → Prop) (L : FrameId → Prop)
    (x : Heap V E O × α) (y : Heap W E O' × α) : Prop :=
  Alike A S L x.1 y.1 ∧ y.2 = x.2

namespace FrameAlike

variable {A : Likeness O O'} {S : Body V E → Body W E → Prop} {still : Prop} {p : Frame V E O} {q : Frame W E O'}

theorem leaf_isSome (hpq : FrameAlike A S still p q) : q.leaf.isSome = p.leaf.isSome := by
  have hleaf := hpq.leaf
  generalize p.leaf = x at hleaf ⊢
  generalize q.leaf = y at hleaf ⊢
  cases hleaf <;> rfl

theorem mono {T : Body V E → Body W E → Prop} {still' : Prop} {x : Option (Frame V E O)} {y : Option (Frame W E O')}
    (hrel : Option.Rel (FrameAlike A S still) x y) (hS : ∀ p q, x = some p → FrameAlike A S still p q →
      T p.body q.body ∧ (still' → p.leaf = none ∧ p.pulling = none)) : Option.Rel (FrameAlike A T still') x y := by
  cases hrel with
  | none => exact .none
  | @some p q hpq =>
    obtain ⟨hbody, hstill⟩ := hS p q rfl hpq
    exact .some { hpq with body := hbody, still := hstill }

end FrameAlike

namespace Alike

variable {A : Likeness O O'} {S T : FrameId → Body V E → Body W E → Prop} {L M : FrameId → Prop} {h : Heap V E O}
  {g : Heap W E O'} {f : FrameId} {p : Frame V E O} {q : Frame W E O'}

theorem initial (A : Likeness O O') (S : FrameId → Body V E → Body W E → Prop) (L : FrameId → Prop) :
    Alike A S L Heap.initial Heap.initial :=
  ⟨fun _ => .none, fun _ => A.default, rfl, rfl⟩

theorem frame (ha : Alike A S L h g) (f : FrameId) :
    Simulates (FrameAlike A (S f) (L f)) (h.frames f) (g.frames f) := by
  intro p hp
  have hrel := ha.frames f
  rw [hp] at hrel
  generalize hq : g.frames f = y at hrel
  cases hrel with
  | some hpq => exact ⟨_, rfl, hpq⟩

/-- A coroutine may be compared in another way from now on. -/
theorem put_as (ha : Alike A S L h g) (hS : ∀ x, x ≠ f → ∀ b b', S x b b' → T x b b') (hL : ∀ x, x ≠ f → M x → L x)
    (hpq : FrameAlike A (T f) (M f) p q) : Alike A T M (h.put f p) (g.put f q) := by
  refine ⟨fun x => ?_, ha.objects, ha.next_frame, ha.next_object⟩
  by_cases hx : x = f
  · rw [hx, h.put_frames_self, g.put_frames_self]
    exact .some hpq
  · rw [h.put_frames_of_ne p hx, g.put_frames_of_ne q hx]
    exact FrameAlike.mono (ha.frames x) fun p q _ hpq =>
      ⟨hS x hx _ _ hpq.body, fun hstill => hpq.still (hL x hx hstill)⟩

theorem put (ha : Alike A S L h g) (hpq : FrameAlike A (S f) (L f) p q) : Alike A S L (h.put f p) (g.put f q) :=
  ha.put_as (fun _ _ _ _ hb => hb) (fun _ _ hx => hx) hpq

theorem free (ha : Alike A S L h g) (f : FrameId) : Alike A S L (h.free f) (g.free f) := by
  refine ⟨fun x => ?_, ha.objects, ha.next_frame, ha.next_object⟩
  by_cases hx : x = f
  · simp only [hx, Heap.free, Function.update_self]
    exact .none
  · rw [h.free_frames_of_ne hx, g.free_frames_of_ne hx]
    exact ha.frames x

theorem modify (ha : Alike A S L h g) (f : FrameId) {k : Frame V E O → Frame V E O} {k' : Frame W E O' → Frame W E O'}
    (hk : ∀ p q, FrameAlike A (S f) (L f) p q → FrameAlike A (S f) (L f) (k p) (k' q)) :
    Simulates (Alike A S L) (h.modify f k) (g.modify f k') :=
  (ha.frame f).map fun p q hpq => ha.put (hk p q hpq)

theorem put_object (ha : Alike A S L h g) {o : O} {o' : O'} (ho : A.object o o') (i : Nat) :
    Alike A S L (h.put_object i o) (g.put_object i o') := by
  refine ⟨ha.frames, fun k => ?_, ha.next_frame, ha.next_object⟩
  by_cases hk : k = i
  · rw [hk, h.put_object_objects_self, g.put_object_objects_self]
    exact ho
  · rw [h.put_object_objects_of_ne o hk, g.put_object_objects_of_ne o' hk]
    exact ha.objects k

/-- An object that is there is not the leaf of a frame that is `still`. -/
theorem object (ha : Alike A S L h g) (place : Place) :
    Simulates (fun o o' => A.object o o' ∧ ∀ f, place = .awaiter f → ¬ L f) (h.object place) (g.object place) := by
  cases place with
  | object i => exact .some ⟨ha.objects i, fun f hf => by cases hf⟩
  | awaiter f =>
    refine (ha.frame f).bind fun p q hpq o ho => ?_
    have hleaf := hpq.leaf
    rw [ho] at hleaf
    generalize q.leaf = y at hleaf
    cases hleaf with
    | some hoo =>
      refine ⟨_, rfl, hoo, fun x hx hstill => ?_⟩
      cases hx
      rw [(hpq.still hstill).1] at ho
      cases ho

theorem set_object (ha : Alike A S L h g) (place : Place) {o : O} {o' : O'} (ho : A.object o o')
    (hstill : ∀ f, place = .awaiter f → ¬ L f) : Simulates (Alike A S L) (h.set_object place o) (g.set_object place o') := by
  cases place with
  | object i => exact .some (ha.put_object ho i)
  | awaiter f =>
    refine ha.modify f fun p q hpq => ?_
    exact { hpq with leaf := .some ho, still := fun hf => absurd hf (hstill f rfl) }

theorem new_object (ha : Alike A S L h g) : Alike A S L h.new_object.1 g.new_object.1 := by
  refine ⟨ha.frames, fun k => ?_, ha.next_frame, ?_⟩
  · simp only [Heap.new_object, ha.next_object]
    exact (ha.put_object A.default h.next_object).objects k
  · simp only [Heap.new_object, ha.next_object]

theorem exists_new_object (ha : Alike A S L h g) :
    ∃ h' g' i, h.new_object = (h', i) ∧ g.new_object = (g', i) ∧ Alike A S L h' g' ∧
      h'.next_frame = h.next_frame :=
  ⟨_, _, _, rfl, Prod.ext rfl ha.next_object, ha.new_object, rfl⟩

/-- A new coroutine may be compared in a way of its own. -/
theorem allocate {b : Body V E} {b' : Body W E} (ha : Alike A S L h g)
    (hS : ∀ x, x ≠ h.next_frame → ∀ b b', S x b b' → T x b b') (hL : ∀ x, x ≠ h.next_frame → M x → L x)
    (hnew : T h.next_frame b b') :
    Alike A T M (h.allocate b).1 (g.allocate b').1 ∧ (g.allocate b').2 = (h.allocate b).2 := by
  have hput := ha.put_as (p := .started h.next_frame b) (q := .started h.next_frame b') hS hL
    ⟨rfl, rfl, A.refl _, hnew, rfl, .none, rfl, fun _ => ⟨rfl, rfl⟩⟩
  simp only [Heap.allocate, ha.next_frame, and_true]
  exact ⟨hput.frames, hput.objects, rfl, hput.next_object⟩

/-- The coroutines are compared in another way. -/
theorem mono (ha : Alike A S L h g) (hS : ∀ x p q, h.frames x = some p → FrameAlike A (S x) (L x) p q →
    T x p.body q.body ∧ (M x → p.leaf = none ∧ p.pulling = none)) : Alike A T M h g :=
  ⟨fun x => FrameAlike.mono (ha.frames x) (hS x), ha.objects, ha.next_frame, ha.next_object⟩

theorem empty (ha : Alike A S L h g) (place : Place) :
    Simulates (fun b c => c = b) (empty h place) (generators_common.empty g place) := by
  refine (ha.object place).bind fun o o' ⟨ho, _⟩ => ?_
  rw [A.top ho]
  cases top o with
  | none => exact .some rfl
  | some t => exact (ha.frame t).map fun _ _ hpq => hpq.done

theorem clear_destroy (n : Nat) :
    (∀ {h : Heap V E O} {g : Heap W E O'} (_ : Alike A S L h g) (place : Place),
      Simulates (Alike A S L) (clear n h place) (clear n g place)) ∧
    ∀ {h : Heap V E O} {g : Heap W E O'} (_ : Alike A S L h g) (f : FrameId),
      Simulates (Alike A S L) (destroy n h f) (destroy n g f) := by
  induction n with
  | zero => exact ⟨fun _ _ => .none _, fun _ _ => .none _⟩
  | succ n ih =>
    obtain ⟨ihclear, ihdestroy⟩ := ih
    constructor
    · intro h g ha place
      refine (ha.object place).bind fun o o' ⟨ho, hstill⟩ => ?_
      rw [A.top ho]
      cases top o with
      | none => exact .some ha
      | some t =>
        dsimp only
        refine (ha.set_object place (A.set_top none ho) hstill).bind fun h₁ g₁ ha₁ => ?_
        exact (ihdestroy ha₁ t).bind fun h₂ g₂ ha₂ => ihclear ha₂ place
    · intro h g ha f
      refine (ha.frame f).bind fun p q hpq => ?_
      rw [hpq.leaf_isSome]
      cases p.leaf.isSome with
      | true => exact (ihclear ha (.awaiter f)).bind fun h₁ g₁ ha₁ => .some (ha₁.free f)
      | false => exact .some (ha.free f)

theorem leave_elements_of (ha : Alike A S L h g) (n : Nat) (f : FrameId) :
    Simulates (Alike A S L) (leave_elements_of n h f) (generators_common.leave_elements_of n g f) := by
  refine (ha.frame f).bind fun p q hpq => ?_
  rw [hpq.leaf_isSome]
  cases p.leaf.isSome with
  | true =>
    refine ((clear_destroy n).1 ha (.awaiter f)).bind fun h₁ g₁ ha₁ => ha₁.modify f fun p q hpq => ?_
    exact { hpq with leaf := .none, still := fun hstill => ⟨rfl, (hpq.still hstill).2⟩ }
  | false => exact .some ha

theorem owner (ha : Alike A S L h g) (f : FrameId) :
    Simulates (fun o o' => o' = o) (owner h f) (generators_common.owner g f) := by
  refine (ha.frame f).bind fun p q hpq => ?_
  rw [hpq.root]
  refine .ite (fun _ => .none _) fun _ => ?_
  cases hlink : p.link with
  | owner o =>
    rw [A.owner_eq hpq.link hlink]
    exact .some rfl
  | uninit | consumer _ => exact .none _

theorem skip_this_leaf (ha : Alike A S L h g) (f : FrameId) :
    Simulates (Alike A S L) (skip_this_leaf h f) (generators_common.skip_this_leaf g f) := by
  refine (ha.frame f).bind fun p q hpq => ?_
  rw [hpq.root]
  refine .ite (fun _ => .none _) fun _ => ?_
  cases hlink : p.link with
  | owner o =>
    rw [A.owner_eq hpq.link hlink]
    refine .ite (fun _ => .none _) fun _ => ?_
    refine (ha.modify o fun p' q' hpq' => ?_).bind fun h₁ g₁ ha₁ => ha₁.modify p.root fun p' q' hpq' => ?_
    · exact { hpq' with root := rfl }
    · exact { hpq' with current_worker := rfl }
  | uninit | consumer _ => exact .none _

/-- The leaf of a coroutine and what it awaits are the same in both programs. -/
theorem co_await_leaf (ha : Alike A S L h g) (f : FrameId) :
    Simulates (AlikeWith A S L) (co_await_leaf h f) (generators_common.co_await_leaf g f) := by
  refine (ha.empty (.awaiter f)).bind fun b c hbc => ?_
  subst hbc
  cases c with
  | true => exact .some ⟨ha, rfl⟩
  | false =>
    refine (ha.object (.awaiter f)).bind fun o o' ⟨ho, _⟩ => ?_
    rw [A.top ho]
    cases top o with
    | none => exact .none _
    | some t =>
      refine .ite (fun _ => .none _) fun _ => ?_
      refine (ha.frame f).bind fun p q hpq => ?_
      rw [hpq.root]
      refine (ha.frame t).bind fun pt qt hpqt => ?_
      rw [hpqt.current_worker]
      refine (ha.modify pt.current_worker fun p' q' hpq' => ?_).bind fun h₁ g₁ ha₁ => ?_
      · exact { hpq' with root := rfl }
      refine (ha₁.modify t fun p' q' hpq' => ?_).bind fun h₂ g₂ ha₂ => ?_
      · exact { hpq' with link := A.refl _ }
      refine (ha₂.frame t).bind fun p₂ q₂ hpq₂ => ?_
      rw [hpq₂.current_worker]
      refine (ha₂.modify p.root fun p' q' hpq' => ?_).bind fun h₃ g₃ ha₃ => ?_
      · exact { hpq' with current_worker := rfl }
      exact (ha₃.frame t).bind fun p₃ q₃ hpq₃ => .some ⟨ha₃, hpq₃.current_worker⟩

/-- A coroutine that goes on to `rest`. -/
theorem put_body {b : Body V E} {b' : Body W E} (ha : Alike A S L h g) (f : FrameId) (hb : S f b b') :
    Simulates (Alike A S L) (h.modify f ({ · with body := b })) (g.modify f ({ · with body := b' })) :=
  ha.modify f fun _ _ hpq => { hpq with body := hb }

theorem put_done (ha : Alike A S L h g) (f : FrameId) :
    Simulates (Alike A S L) (h.modify f ({ · with done := true })) (g.modify f ({ · with done := true })) :=
  ha.modify f fun _ _ hpq => { hpq with done := rfl }

end Alike

end kelcoro.generators_common
