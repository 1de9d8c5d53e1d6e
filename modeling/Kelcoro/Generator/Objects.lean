import Kelcoro.Generator.Model
import Kelcoro.GeneratorsCommon.Attach

namespace kelcoro.generator

open kelcoro.generators_common kelcoro.lib

variable {V E : Type} {nothing : Bool}

/-- An unfinished coroutine `t` that delivers to object `i`. For an ordinary
`Yield` the top points back at the object. -/
structure Iterating (nothing : Bool) (h : GeneratorHeap V E) (own : Set FrameId) (i : Nat)
    (t w : FrameId) (fs : List FrameId) (bs : List (Body V E)) : Prop where
  tree : ∃ link, Tree h own t link w fs bs ∧ (nothing = false → link = .consumer (.object i))
  left : Resumable h own w
  bounded : i < h.next_object

/-- A coroutine at its final suspension point, which object `i` knows of. -/
structure Finished (nothing : Bool) (h : GeneratorHeap V E) (own : Set FrameId) (i : Nat)
    (t : FrameId) : Prop where
  frame : ∃ p, h.frames t = some p ∧ p.done = true ∧ p.leaf = none
  owned : t ∈ own
  owned_bounded : ∀ x ∈ own, x < h.next_frame
  current : nothing = false → (h.objects i).current_result = none
  bounded : i < h.next_object

/-- Object `i` gets what is left of the stream of `t`. -/
def Delivers (nothing : Bool) (h : GeneratorHeap V E) (own : Set FrameId) (i : Nat) (t : FrameId) :
    Remaining V E → Prop
  | none => Finished nothing h own i t
  | some bs => ∃ w fs, Iterating nothing h own i t w fs bs

/-- The object stands for what is left of its stream. -/
structure Represents (nothing : Bool) (h : GeneratorHeap V E) (own : Set FrameId) (i : Nat) (t : FrameId)
    (st : Remaining V E) : Prop where
  delivers : Delivers nothing h own i t st
  top : (h.objects i).top = some t

/-- Objects other than `i` keep what they hold. -/
def OthersKept (h h' : GeneratorHeap V E) (i : Nat) : Prop :=
  ∀ j, j ≠ i → j < h.next_object → h'.objects j = h.objects j

/-- All objects keep what they hold. -/
def Kept (h h' : GeneratorHeap V E) : Prop :=
  ∀ j, j < h.next_object → h'.objects j = h.objects j

theorem Delivers.bounded {h : GeneratorHeap V E} {own : Set FrameId} {i : Nat} {t : FrameId}
    {st : Remaining V E} (hd : Delivers nothing h own i t st) : i < h.next_object := by
  cases st with
  | none => exact Finished.bounded hd
  | some bs =>
    obtain ⟨w, fs, hit⟩ := hd
    exact hit.bounded

/-- What the object holds, as the leaf of somebody else. -/
theorem Delivers.leaf_tree {h : GeneratorHeap V E} {own : Set FrameId} {i : Nat} {t : FrameId}
    {st : Remaining V E} (hd : Delivers nothing h own i t st) : LeafTree h own t st := by
  cases st with
  | none => exact ⟨Finished.owned hd, Finished.owned_bounded hd, Finished.frame hd⟩
  | some bs =>
    obtain ⟨w, fs, ⟨link, ht, -⟩, hleft, -⟩ := hd
    exact ⟨link, w, fs, ht, hleft⟩

theorem Kept.others {h h' : GeneratorHeap V E} (hk : Kept h h') (i : Nat) : OthersKept h h' i :=
  fun j _ hj => hk j hj

theorem OthersKept.trans {h h₁ h' : GeneratorHeap V E} {own : Set FrameId} {i : Nat}
    (ho : OthersKept h h₁ i) (hf : Framed h h₁ own) (ho' : OthersKept h₁ h' i) : OthersKept h h' i :=
  fun j hj hlt => (ho' j hj (hlt.trans_le hf.next_object)).trans (ho j hj hlt)

/-- Steps inside the awaiter and the frame of one coroutine. -/
theorem set_result_spec {h : GeneratorHeap V E} {f t i : Nat} {p pt : Frame V E (Generator V)}
    (hp : h.frames f = some p) (hroot : p.root = t) (hpt : h.frames t = some pt)
    (hlink : nothing = false → pt.link = .consumer (.object i)) (r : Option V) :
    ∃ h', set_result nothing h f r = some h' ∧ h'.frames = h.frames ∧
      h'.next_frame = h.next_frame ∧ h'.next_object = h.next_object ∧ OthersKept h h' i ∧
      (h'.objects i).top = (h.objects i).top ∧ (nothing = false → (h'.objects i).current_result = r) := by
  cases hn : nothing with
  | true =>
    refine ⟨h, by simp [set_result], rfl, rfl, rfl, fun _ _ _ => rfl, rfl, ?_⟩
    intro hfalse
    cases hfalse
  | false =>
    refine ⟨h.put_object i { h.objects i with current_result := r }, ?_, rfl, rfl, rfl, ?_, ?_, ?_⟩
    · simp only [set_result, Bool.false_eq_true, ↓reduceIte, hp, Option.bind_eq_bind, Option.bind_some, hroot,
        hpt, hlink hn, Heap.object, Heap.set_object]
    · intro j hj _
      exact h.put_object_objects_of_ne _ hj
    · rw [h.put_object_objects_self]
    · intro _
      rw [h.put_object_objects_self]

/-- The frame a generator function starts with, once its object is made. -/
def started (nothing : Bool) (f : FrameId) (body : Body V E) (place : Place) : Frame V E (Generator V) :=
  { Frame.started f body with link := if nothing then .uninit else .consumer place }

theorem create_object_spec (nothing : Bool) (h : GeneratorHeap V E) (body : Body V E) (i : Nat) :
    ∃ h', create nothing h body (.object i) = some h' ∧
      h'.frames h.next_frame = some (started nothing h.next_frame body (.object i)) ∧
      (∀ x, x ≠ h.next_frame → h'.frames x = h.frames x) ∧
      h'.objects = Function.update h.objects i { current_result := none, top := some h.next_frame } ∧
      h'.next_frame = h.next_frame + 1 ∧ h'.next_object = h.next_object := by
  let frame := started (V := V) (E := E) nothing h.next_frame body (.object i)
  refine ⟨{ frames := Function.update h.frames h.next_frame (some frame)
            objects := Function.update h.objects i { current_result := none, top := some h.next_frame }
            next_frame := h.next_frame + 1
            next_object := h.next_object }, ?_, Function.update_self .., ?_, rfl, rfl, rfl⟩
  · cases nothing <;>
      simp [create, Heap.allocate, Heap.set_object, prepare_to_start, Heap.object, Heap.modify, Heap.put_object,
        Heap.put, frame, started, Frame.started]
  · exact fun x hx => Function.update_of_ne hx ..

theorem create_awaiter_spec (nothing : Bool) {h : GeneratorHeap V E} {f : FrameId} {p : Frame V E (Generator V)}
    (hp : h.frames f = some p) (hf : f ≠ h.next_frame) (body : Body V E) :
    ∃ h', create nothing h body (.awaiter f) = some h' ∧
      h'.frames h.next_frame = some (started nothing h.next_frame body (.awaiter f)) ∧
      h'.frames f = some { p with leaf := some { current_result := none, top := some h.next_frame } } ∧
      (∀ x, x ≠ h.next_frame → x ≠ f → h'.frames x = h.frames x) ∧ h'.objects = h.objects ∧
      h'.next_frame = h.next_frame + 1 ∧ h'.next_object = h.next_object := by
  let frame := started (V := V) (E := E) nothing h.next_frame body (.awaiter f)
  let owner : Frame V E (Generator V) := { p with leaf := some { current_result := none, top := some h.next_frame } }
  refine ⟨{ frames := Function.update (Function.update h.frames h.next_frame (some frame)) f (some owner)
            objects := h.objects
            next_frame := h.next_frame + 1
            next_object := h.next_object }, ?_, ?_, Function.update_self .., ?_, rfl, rfl, rfl⟩
  · cases nothing <;>
      simp [create, Heap.allocate, Heap.set_object, prepare_to_start, Heap.object, Heap.modify, Heap.put, frame,
        started, Frame.started, owner, hp, hf, hf.symm, Function.update_comm hf]
  · exact (Function.update_of_ne hf.symm ..).trans (Function.update_self ..)
  · exact fun x hx hxf => (Function.update_of_ne hxf ..).trans (Function.update_of_ne hx ..)

theorem move_construct_awaiter_eq {h : GeneratorHeap V E} {f : FrameId} {p : Frame V E (Generator V)}
    {i : Nat} {g : Generator V} (hp : h.frames f = some p) (hg : h.objects i = g) :
    move_construct nothing h (.awaiter f) (.object i) =
      let h₁ := (h.put f { p with leaf := some g }).put_object i LeafObject.default
      match g.top with
      | none => some h₁
      | some t => if nothing then some h₁ else h₁.modify t ({ · with link := .consumer (.awaiter f) }) := by
  cases hgt : g.top <;> cases nothing <;>
    simp [move_construct, swap, prepare_to_start, Heap.set_object, Heap.modify, Heap.put, Heap.put_object,
      Heap.object, LeafObject.default, hp, hg, hgt, Function.update_idem]

/-- Moving a generator object into the awaiter of `f`. For an ordinary `Yield`
the link of its top is re-pointed, and nothing else of its tree changes. -/
theorem move_construct_awaiter_spec (nothing : Bool) {h : GeneratorHeap V E} {f t i : Nat} {p q : Frame V E (Generator V)}
    {g : Generator V} (hp : h.frames f = some p) (hg : h.objects i = g) (htop : g.top = some t)
    (htf : t ≠ f) (hq : h.frames t = some q) :
    ∃ h' link, move_construct nothing h (.awaiter f) (.object i) = some h' ∧
      h'.frames f = some { p with leaf := some g } ∧ h'.frames t = some { q with link } ∧
      (∀ x, x ≠ f → x ≠ t → h'.frames x = h.frames x) ∧
      h'.objects = Function.update h.objects i LeafObject.default ∧
      h'.next_frame = h.next_frame ∧ h'.next_object = h.next_object := by
  rw [move_construct_awaiter_eq hp hg]
  simp only [htop]
  let h₁ := (h.put f { p with leaf := some g }).put_object i LeafObject.default
  have hf₁ : h₁.frames f = some { p with leaf := some g } := h.put_frames_self f _
  have hq₁ : h₁.frames t = some q := (h.put_frames_of_ne _ htf).trans hq
  cases nothing with
  | true =>
    refine ⟨h₁, q.link, rfl, hf₁, hq₁, fun x hx _ => h.put_frames_of_ne _ hx, rfl, rfl, rfl⟩
  | false =>
    refine ⟨h₁.put t { q with link := .consumer (.awaiter f) }, .consumer (.awaiter f), ?_, ?_,
      h₁.put_frames_self t _, ?_, rfl, rfl, rfl⟩
    · exact Heap.modify_eq hq₁ _
    · rw [h₁.put_frames_of_ne _ htf.symm, hf₁]
    · intro x hx hxt
      rw [h₁.put_frames_of_ne _ hxt]
      exact h.put_frames_of_ne _ hx

end kelcoro.generator
