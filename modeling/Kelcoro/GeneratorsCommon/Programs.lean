import Kelcoro.GeneratorsCommon.Streams
import Kelcoro.Lib.Run

namespace kelcoro.generators_common

open LeafObject Remaining kelcoro.lib

/-- The coroutines that the objects of a program hold, or handles it released. -/
def held (top : Nat → Option FrameId) (objects : Finset Nat) (handles : Finset FrameId) : Set FrameId :=
  {t | (∃ i ∈ objects, top i = some t) ∨ t ∈ handles}

/-- Every coroutine has one holder. -/
structure Holders (top : Nat → Option FrameId) (objects : Finset Nat) (handles : Finset FrameId) : Prop where
  unique : ∀ i ∈ objects, ∀ j ∈ objects, ∀ t, top i = some t → top j = some t → i = j
  apart : ∀ i ∈ objects, ∀ t, top i = some t → t ∉ handles

namespace Holders

variable {top : Nat → Option FrameId} {objects : Finset Nat} {handles : Finset FrameId} {i j : Nat} {t : FrameId}

theorem empty (top : Nat → Option FrameId) : Holders top ∅ ∅ := by
  constructor <;> simp

/-- An object, old or new, gets a coroutine that nobody holds, or none. -/
theorem set (hh : Holders top objects handles) (i : Nat) {x : Option FrameId}
    (hx : ∀ t, x = some t → t ∉ held top objects handles) :
    Holders (Function.update top i x) (insert i objects) handles := by
  have hfree : ∀ k ∈ objects, ∀ t, x = some t → top k ≠ some t := fun k hk t ht htop =>
    hx t ht (.inl ⟨k, hk, htop⟩)
  constructor
  · intro k hk l hl t hkt hlt
    by_cases hki : k = i
    · by_cases hli : l = i
      · exact hki.trans hli.symm
      · rw [hki, Function.update_self] at hkt
        rw [Function.update_of_ne hli] at hlt
        exact absurd hlt (hfree l (Finset.mem_of_mem_insert_of_ne hl hli) t hkt)
    · rw [Function.update_of_ne hki] at hkt
      have hk' := Finset.mem_of_mem_insert_of_ne hk hki
      by_cases hli : l = i
      · rw [hli, Function.update_self] at hlt
        exact absurd hkt (hfree k hk' t hlt)
      · rw [Function.update_of_ne hli] at hlt
        exact hh.unique k hk' l (Finset.mem_of_mem_insert_of_ne hl hli) t hkt hlt
  · intro k hk t hkt
    by_cases hki : k = i
    · rw [hki, Function.update_self] at hkt
      exact fun hin => hx t hkt (.inr hin)
    · rw [Function.update_of_ne hki] at hkt
      exact hh.apart k (Finset.mem_of_mem_insert_of_ne hk hki) t hkt

theorem held_set {x : Option FrameId} (ht : t ∈ held (Function.update top i x) (insert i objects) handles) :
    x = some t ∨ t ∈ held top objects handles := by
  rcases ht with ⟨k, hk, hkt⟩ | hin
  · by_cases hki : k = i
    · rw [hki, Function.update_self] at hkt
      exact .inl hkt
    · rw [Function.update_of_ne hki] at hkt
      exact .inr (.inl ⟨k, Finset.mem_of_mem_insert_of_ne hk hki, hkt⟩)
  · exact .inr (.inr hin)

/-- What an object gives up is held by nobody. -/
theorem notMem_held (hh : Holders top objects handles) (hi : i ∈ objects) (ht : top i = some t) :
    t ∉ held (Function.update top i none) objects handles := by
  rintro (⟨k, hk, hkt⟩ | hin)
  · by_cases hki : k = i
    · rw [hki, Function.update_self] at hkt
      cases hkt
    · rw [Function.update_of_ne hki] at hkt
      exact hki (hh.unique k hk i hi t hkt ht)
  · exact hh.apart i hi t ht hin

theorem insert_handle (hh : Holders top objects handles) (ht : t ∉ held top objects handles) :
    Holders top objects (insert t handles) := by
  refine ⟨hh.unique, fun i hi t' ht' hin => ?_⟩
  rcases Finset.mem_insert.mp hin with rfl | hin
  · exact ht (.inl ⟨i, hi, ht'⟩)
  · exact hh.apart i hi t' ht' hin

theorem erase_handle (hh : Holders top objects handles) (ht : t ∈ handles) :
    Holders top objects (handles.erase t) ∧ t ∉ held top objects (handles.erase t) := by
  refine ⟨⟨hh.unique, fun i hi t' ht' hin => hh.apart i hi t' ht' (Finset.mem_of_mem_erase hin)⟩, ?_⟩
  rintro (⟨i, hi, hit⟩ | hin)
  · exact hh.apart i hi t hit ht
  · exact Finset.notMem_erase t handles hin

theorem swap_mem (hi : i ∈ objects) (hj : j ∈ objects) {k : Nat} (hk : k ∈ objects) :
    Equiv.swap i j k ∈ objects := by
  by_cases hki : k = i
  · subst hki
    rwa [Equiv.swap_apply_left]
  · by_cases hkj : k = j
    · subst hkj
      rwa [Equiv.swap_apply_right]
    · rwa [Equiv.swap_apply_of_ne_of_ne hki hkj]

theorem swap (hh : Holders top objects handles) (hi : i ∈ objects) (hj : j ∈ objects) :
    Holders (top ∘ Equiv.swap i j) objects handles :=
  ⟨fun _ hk _ hl t hkt hlt => (Equiv.swap i j).injective
      (hh.unique _ (swap_mem hi hj hk) _ (swap_mem hi hj hl) t hkt hlt),
    fun _ hk t hkt => hh.apart _ (swap_mem hi hj hk) t hkt⟩

theorem held_swap (hi : i ∈ objects) (hj : j ∈ objects) :
    held (top ∘ Equiv.swap i j) objects handles = held top objects handles := by
  ext t
  refine or_congr_left ⟨fun ⟨k, hk, hkt⟩ => ⟨_, swap_mem hi hj hk, hkt⟩, fun ⟨k, hk, hkt⟩ => ?_⟩
  exact ⟨_, swap_mem hi hj hk, by rw [Function.comp_apply, Equiv.swap_apply_self, hkt]⟩

end Holders

/-- What calling a generator or channel function does, for the object `i` it
makes. `relink i` is what object `i` makes of the link of a coroutine it gets. -/
structure Created {V E O : Type} [LeafObject O] (relink : Nat → Link → Link) (h h' : Heap V E O) (i : Nat)
    (body : Body V E) : Prop where
  frame : h'.frames h.next_frame = some { Frame.started h.next_frame body with link := relink i .uninit }
  frames : ∀ x, x ≠ h.next_frame → h'.frames x = h.frames x
  objects : h'.objects = Function.update h.objects i (set_top LeafObject.default (some h.next_frame))
  next_frame : h'.next_frame = h.next_frame + 1
  next_object : h'.next_object = h.next_object

/-- What `swap` of the objects `i` and `j` does. -/
structure Swapped {V E O : Type} [LeafObject O] (relink : Nat → Link → Link) (h h' : Heap V E O) (i j : Nat) :
    Prop where
  this : ∀ t p, top (h.objects j) = some t → h.frames t = some p →
    h'.frames t = some { p with link := relink i p.link }
  other : ∀ t p, top (h.objects i) = some t → h.frames t = some p →
    h'.frames t = some { p with link := relink j p.link }
  frames : ∀ x, top (h.objects i) ≠ some x → top (h.objects j) ≠ some x → h'.frames x = h.frames x
  objects : h'.objects = h.objects ∘ Equiv.swap i j
  next_frame : h'.next_frame = h.next_frame
  next_object : h'.next_object = h.next_object

theorem swap_objects {V E O : Type} (h : Heap V E O) (i j : Nat) :
    ((h.put_object i (h.objects j)).put_object j (h.objects i)).objects = h.objects ∘ Equiv.swap i j := by
  funext k
  simp only [Heap.put_object, Function.comp_apply, Equiv.swap_apply_def, Function.update_apply]
  split_ifs <;> simp_all

theorem Swapped.symm {V E O : Type} [LeafObject O] {relink : Nat → Link → Link} {h h' : Heap V E O} {i j : Nat}
    (hs : Swapped relink h h' i j) : Swapped relink h h' j i :=
  ⟨hs.other, hs.this, fun x hj hi => hs.frames x hi hj, by rw [hs.objects, Equiv.swap_comm], hs.next_frame,
    hs.next_object⟩

/-- What `clear()` of object `i` does. -/
structure Emptied {V E O : Type} [LeafObject O] (h h' : Heap V E O) (i : Nat) (ts : Set FrameId) : Prop where
  frames : ∀ t ∈ ts, top (h.objects i) ≠ some t → h'.frames t = h.frames t
  object : h'.objects i = h.objects i ∨ h'.objects i = set_top (h.objects i) none
  top : top (h'.objects i) = none
  objects : ∀ k, k ≠ i → h'.objects k = h.objects k
  next_frame : h'.next_frame = h.next_frame
  next_object : h'.next_object = h.next_object

/-- The operations that generators and channels do not share. -/
structure Operations (V E O : Type) [LeafObject O] where
  create : Heap V E O → Body V E → Place → Option (Heap V E O)
  move_construct : Heap V E O → Place → Place → Option (Heap V E O)
  swap : Heap V E O → Place → Place → Option (Heap V E O)
  relink : Nat → Link → Link
  create_spec : ∀ h body i, ∃ h', create h body (.object i) = some h' ∧ Created relink h h' i body
  swap_spec : ∀ h i j, (∀ t, top (h.objects i) = some t ∨ top (h.objects j) = some t → ∃ p, h.frames t = some p) →
    (∀ t, top (h.objects i) = some t → top (h.objects j) = some t → i = j) →
    ∃ h', swap h (.object i) (.object j) = some h' ∧ Swapped relink h h' i j
  move_construct_eq : ∀ (h : Heap V E O) (i : Nat) (place : Place), h.objects i = LeafObject.default →
    move_construct h (.object i) place = swap h (.object i) place

/-- A program with generators or channels: its objects, the handles it released
and has not given to an object again, and what each coroutine has to deliver. -/
structure Program (V E O : Type) where
  heap : Heap V E O
  objects : Finset Nat
  handles : Finset FrameId
  streams : FrameId → Stream V E

/-- What a program does with its objects, short of iterating them. -/
inductive Action (V E : Type) where
  | construct
  | call (body : Body V E)
  | move_construct (source : Nat)
  | move_assign (this other : Nat)
  | swap (this other : Nat)
  | clear (this : Nat)
  | release (this : Nat)
  | reset (this : Nat) (handle : Option FrameId)
  deriving DecidableEq, Repr

namespace Program

variable {V E O : Type} [LeafObject O]

def initial : Program V E O :=
  { heap := Heap.initial, objects := ∅, handles := ∅,
    streams := fun _ => { events := [], top_throws := false, ended := true } }

def top (p : Program V E O) (i : Nat) : Option FrameId :=
  LeafObject.top (p.heap.objects i)

def held (p : Program V E O) : Set FrameId :=
  generators_common.held p.top p.objects p.handles

/-- After object `i` was asked: its coroutine has one event less to deliver. -/
def asked (p : Program V E O) (i : Nat) (h : Heap V E O) : Program V E O :=
  { p with heap := h,
           streams := match p.top i with
             | none => p.streams
             | some t => Function.update p.streams t (p.streams t).rest }

end Program

namespace Action

variable {V E O : Type}

/-- An object is used by its owner, and a handle is given to one object. -/
def Allowed (p : Program V E O) : Action V E → Prop
  | .construct | .call _ => True
  | .move_construct source => source ∈ p.objects
  | .move_assign this other | .swap this other => this ∈ p.objects ∧ other ∈ p.objects
  | .clear this | .release this => this ∈ p.objects
  | .reset this handle => this ∈ p.objects ∧ ∀ t ∈ handle, t ∈ p.handles

instance (p : Program V E O) (a : Action V E) : Decidable (a.Allowed p) :=
  match a with
  | .construct | .call _ => inferInstanceAs (Decidable True)
  | .move_construct source => inferInstanceAs (Decidable (source ∈ p.objects))
  | .move_assign this other | .swap this other =>
    inferInstanceAs (Decidable (this ∈ p.objects ∧ other ∈ p.objects))
  | .clear this | .release this => inferInstanceAs (Decidable (this ∈ p.objects))
  | .reset this handle => inferInstanceAs (Decidable (this ∈ p.objects ∧ ∀ t ∈ handle, t ∈ p.handles))

end Action

section perform

variable {V E O : Type} [LeafObject O] (ops : Operations V E O)

/-- `operator=(&&)` is `swap`. -/
def move_assign (h : Heap V E O) (this other : Place) : Option (Heap V E O) :=
  ops.swap h this other

def perform (n : Nat) (p : Program V E O) : Action V E → Option (Program V E O)
  | .construct =>
    let (h, i) := p.heap.new_object
    some { p with heap := h, objects := insert i p.objects }
  | .call body => do
    let (h, i) := p.heap.new_object
    let h ← ops.create h body (.object i)
    some { p with heap := h, objects := insert i p.objects,
                  streams := Function.update p.streams p.heap.next_frame (.of_body body) }
  | .move_construct source => do
    let (h, i) := p.heap.new_object
    let h ← ops.move_construct h (.object i) (.object source)
    some { p with heap := h, objects := insert i p.objects }
  | .move_assign this other => do
    let h ← move_assign ops p.heap (.object this) (.object other)
    some { p with heap := h }
  | .swap this other => do
    let h ← ops.swap p.heap (.object this) (.object other)
    some { p with heap := h }
  | .clear this => do
    let h ← clear n p.heap (.object this)
    some { p with heap := h }
  | .release this => do
    let (h, handle) ← release p.heap (.object this)
    some { p with heap := h, handles := p.handles ∪ handle.toFinset }
  | .reset this handle => do
    let h ← reset n p.heap (.object this) handle
    some { p with heap := h, handles := p.handles \ handle.toFinset }

/-- What an action does, case by case. -/
inductive Performed (p : Program V E O) : Action V E → Program V E O → Prop
  | construct :
      Performed p .construct
        { p with heap := p.heap.new_object.1, objects := insert p.heap.next_object p.objects }
  | call {body : Body V E} {h' : Heap V E O}
      (created : Created ops.relink p.heap.new_object.1 h' p.heap.next_object body) :
      Performed p (.call body)
        { p with heap := h', objects := insert p.heap.next_object p.objects,
                 streams := Function.update p.streams p.heap.next_frame (.of_body body) }
  | move_construct {source : Nat} {h' : Heap V E O}
      (swapped : Swapped ops.relink p.heap.new_object.1 h' p.heap.next_object source) :
      Performed p (.move_construct source) { p with heap := h', objects := insert p.heap.next_object p.objects }
  | move_assign {this other : Nat} {h' : Heap V E O} (swapped : Swapped ops.relink p.heap h' this other) :
      Performed p (.move_assign this other) { p with heap := h' }
  | swap {this other : Nat} {h' : Heap V E O} (swapped : Swapped ops.relink p.heap h' this other) :
      Performed p (.swap this other) { p with heap := h' }
  | clear {this : Nat} {h' : Heap V E O} (emptied : Emptied p.heap h' this p.held) :
      Performed p (.clear this) { p with heap := h' }
  | release {this : Nat} :
      Performed p (.release this)
        { p with heap := p.heap.put_object this (set_top (p.heap.objects this) none),
                 handles := p.handles ∪ (p.top this).toFinset }
  | reset {this : Nat} {handle : Option FrameId} {h' : Heap V E O} (emptied : Emptied p.heap h' this p.held) :
      Performed p (.reset this handle)
        { p with heap := h'.put_object this (set_top (h'.objects this) handle),
                 handles := p.handles \ handle.toFinset }

end perform

/-- The invariant of a program: each coroutine that is not part of another one
has one holder, and can be resumed or destroyed by it. -/
structure Owned {V E O : Type} [LeafObject O] (p : Program V E O) (own : FrameId → Set FrameId)
    (st : FrameId → Remaining V E) : Prop where
  holders : Holders p.top p.objects p.handles
  forest : Forest p.heap p.held own st
  bounded : ∀ i ∈ p.objects, i < p.heap.next_object
  streams : ∀ t ∈ p.held, p.streams t = stream (st t)

/-- What an operation does to the coroutines: they keep what they have left, a
new one is not over, and a link changes only where an object gets a coroutine. -/
structure Traced {V E O : Type} [LeafObject O] (ops : Operations V E O) (p p' : Program V E O)
    (st st' : FrameId → Remaining V E) : Prop where
  objects : p.objects ⊆ p'.objects
  same : ∀ t ∈ p.held, st' t = st t
  held : ∀ t ∈ p'.held, t ∈ p.held ∨ st' t ≠ none
  frames : ∀ t ∈ p'.held, ∀ q, p'.heap.frames t = some q →
    t ∈ p.held ∧ p.heap.frames t = some q ∨
    ∃ i ∈ p'.objects, p'.top i = some t ∧ ∃ link, q.link = ops.relink i link ∧
      (link = .uninit ∨ t ∈ p.held ∧ ∃ r, p.heap.frames t = some r ∧ r.link = link)

section owned

variable {V E O : Type} [LeafObject O] {ops : Operations V E O} {p : Program V E O} {h' : Heap V E O}
  {own : FrameId → Set FrameId} {st : FrameId → Remaining V E} {i j : Nat} {t : FrameId}

theorem Traced.of_held {p' : Program V E O} (hobjects : p.objects ⊆ p'.objects) (hheld : p'.held ⊆ p.held)
    (hframes : ∀ t ∈ p'.held, p'.heap.frames t = p.heap.frames t) : Traced ops p p' st st :=
  ⟨hobjects, fun _ _ => rfl, fun _ ht => .inl (hheld ht),
    fun _ ht _ hq => .inl ⟨hheld ht, (hframes _ ht).symm.trans hq⟩⟩

theorem Program.mem_held (hi : i ∈ p.objects) (ht : p.top i = some t) : t ∈ p.held :=
  .inl ⟨i, hi, ht⟩

theorem top_update {h : Heap V E O} {o : O} (hobjects : h'.objects = Function.update h.objects i o) :
    (fun k => LeafObject.top (h'.objects k)) =
      Function.update (fun k => LeafObject.top (h.objects k)) i (LeafObject.top o) := by
  rw [hobjects]
  exact Function.comp_update LeafObject.top h.objects i o

namespace Owned

theorem initial (own : FrameId → Set FrameId) (st : FrameId → Remaining V E) :
    Owned (Program.initial : Program V E O) own st := by
  have hheld : (Program.initial : Program V E O).held = ∅ := by
    ext t
    simp [Program.held, held, Program.initial]
  refine ⟨.empty _, ?_, by simp [Program.initial], ?_⟩
  · rw [hheld]
    exact .empty _ own st
  · rw [hheld]
    exact fun t ht => ht.elim

/-- Frames that were freed belong to nobody. -/
theorem live_only (ho : Owned p own st) : Owned p (fun t => own t ∩ {x | p.heap.frames x ≠ none}) st :=
  ⟨ho.holders, ho.forest.live_only, ho.bounded, ho.streams⟩

theorem frame (ho : Owned p own st) (hi : i ∈ p.objects) (ht : p.top i = some t) :
    ∃ q, p.heap.frames t = some q ∧ q.done = (st t).isNone :=
  ho.forest.frame (Program.mem_held hi ht)

theorem live (ho : Owned p own st) (hi : i ∈ p.objects) (ht : p.top i = some t) :
    ∃ q, p.heap.frames t = some q := by
  obtain ⟨q, hq, -⟩ := ho.frame hi ht
  exact ⟨q, hq⟩

theorem empty_of_top (ho : Owned p own st) (hi : i ∈ p.objects) (ht : p.top i = some t) :
    empty p.heap (.object i) = some (st t).isNone :=
  (ho.forest.tree t (p.mem_held hi ht)).empty_eq ht

theorem empty_of_over (ho : Owned p own st) (hi : i ∈ p.objects) (hover : ∀ t, p.top i = some t → st t = none) :
    empty p.heap (.object i) = some true := by
  cases ht : p.top i with
  | none =>
    have htop : LeafObject.top (p.heap.objects i) = none := ht
    simp only [empty, Heap.object, Option.bind_eq_bind, Option.bind_some, htop]
  | some t => rw [ho.empty_of_top hi ht, hover t ht, Option.isNone_none]

theorem construct (ho : Owned p own st) {p' : Program V E O}
    (hp : p' = { p with heap := p.heap.new_object.1, objects := insert p.heap.next_object p.objects }) :
    Owned p' own st ∧ p'.held ⊆ p.held := by
  subst hp
  have htop := top_update (show p.heap.new_object.1.objects =
    Function.update p.heap.objects p.heap.next_object LeafObject.default from rfl)
  rw [top_default] at htop
  have hnone : ∀ t, (none : Option FrameId) = some t → t ∉ p.held := fun t ht => by cases ht
  have hsub : ∀ t, t ∈ generators_common.held (fun k => LeafObject.top (p.heap.new_object.1.objects k))
      (insert p.heap.next_object p.objects) p.handles → t ∈ p.held := by
    intro t ht
    rw [htop] at ht
    exact (Holders.held_set ht).resolve_left (by simp)
  have hrelinked : Relinked p.heap p.heap.new_object.1 p.held :=
    .of_frames (show p.heap.new_object.1.frames = p.heap.frames from rfl) rfl _
  refine ⟨⟨?_, (ho.forest.relinked hrelinked).mono hsub, fun k hk => ?_, fun t ht => ho.streams t (hsub t ht)⟩, hsub⟩
  · have hholders := ho.holders.set p.heap.next_object hnone
    unfold Program.top
    rw [htop]
    exact hholders
  · rcases Finset.mem_insert.mp hk with rfl | hk
    · exact Nat.lt_succ_self _
    · exact (ho.bounded k hk).trans (Nat.lt_succ_self _)

variable (ops) in
theorem swapped (ho : Owned p own st) (hi : i ∈ p.objects) (hj : j ∈ p.objects)
    (hs : Swapped ops.relink p.heap h' i j) {p' : Program V E O} (hp : p' = { p with heap := h' }) :
    Owned p' own st ∧ p'.held ⊆ p.held ∧ Traced ops p p' st st := by
  subst hp
  have htop : (fun k => LeafObject.top (h'.objects k)) = p.top ∘ Equiv.swap i j := by
    rw [hs.objects]
    rfl
  have hheld : generators_common.held (fun k => LeafObject.top (h'.objects k)) p.objects p.handles = p.held := by
    rw [htop]
    exact Holders.held_swap hi hj
  have hrelinked : Relinked p.heap h' p.held := by
    refine ⟨fun x hx => hs.frames x (fun hxi => hx (p.mem_held hi hxi)) fun hxj => hx (p.mem_held hj hxj), ?_,
      hs.next_frame⟩
    intro t q hq
    by_cases hti : p.top i = some t
    · exact ⟨_, hs.other t q hti hq⟩
    · by_cases htj : p.top j = some t
      · exact ⟨_, hs.this t q htj hq⟩
      · exact ⟨q.link, (hs.frames t hti htj).trans hq⟩
  have hsub : ∀ t, t ∈ ({ p with heap := h' } : Program V E O).held → t ∈ p.held := by
    intro t ht
    unfold Program.held Program.top at ht
    rw [hheld] at ht
    exact ht
  refine ⟨⟨?_, (ho.forest.relinked hrelinked).mono hsub, fun k hk => (ho.bounded k hk).trans_eq hs.next_object.symm,
      fun t ht => ho.streams t (hsub t ht)⟩,
    hsub, subset_rfl, fun _ _ => rfl, fun t ht => .inl (hsub t ht), fun t ht q hq => ?_⟩
  · unfold Program.top
    rw [htop]
    exact ho.holders.swap hi hj
  · obtain ⟨r, hr, -⟩ := ho.forest.frame (hsub t ht)
    by_cases hti : p.top i = some t
    · refine .inr ⟨j, hj, ?_, r.link, ?_, .inr ⟨hsub t ht, r, hr, rfl⟩⟩
      · exact (congrFun htop j).trans (by rw [Function.comp_apply, Equiv.swap_apply_right, hti])
      · obtain rfl := Option.some.inj ((hs.other t r hti hr).symm.trans hq)
        rfl
    · by_cases htj : p.top j = some t
      · refine .inr ⟨i, hi, ?_, r.link, ?_, .inr ⟨hsub t ht, r, hr, rfl⟩⟩
        · exact (congrFun htop i).trans (by rw [Function.comp_apply, Equiv.swap_apply_left, htj])
        · obtain rfl := Option.some.inj ((hs.this t r htj hr).symm.trans hq)
          rfl
      · exact .inl ⟨hsub t ht, (hs.frames t hti htj).symm.trans hq⟩

theorem call {body : Body V E} (ho : Owned p own st)
    (hc : Created ops.relink p.heap.new_object.1 h' p.heap.next_object body) {p' : Program V E O}
    (hp : p' = { p with heap := h', objects := insert p.heap.next_object p.objects,
                        streams := Function.update p.streams p.heap.next_frame (.of_body body) }) :
    ∃ own' st', Owned p' own' st' ∧ Traced ops p p' st st' := by
  subst hp
  let f := p.heap.next_frame
  let p₁ : Program V E O :=
    { p with heap := p.heap.new_object.1, objects := insert p.heap.next_object p.objects }
  obtain ⟨ho₁, hheld₁⟩ : Owned p₁ own st ∧ p₁.held ⊆ p.held := ho.construct rfl
  have hfresh : ∀ t ∈ p.held, t ≠ f := fun t ht => ne_of_lt (ho.forest.lt_next_frame ht)
  have htop := top_update hc.objects
  rw [top_set_top] at htop
  have hholders := ho₁.holders.set p.heap.next_object (x := some f) fun t ht hin =>
    hfresh t (hheld₁ hin) (Option.some.inj ht).symm
  rw [Finset.insert_idem] at hholders
  have hsub : ∀ t, t ∈ generators_common.held (fun k => LeafObject.top (h'.objects k))
      (insert p.heap.next_object p.objects) p.handles → t = f ∨ t ∈ p₁.held := by
    intro t ht
    rw [htop, ← Finset.insert_idem] at ht
    exact (Holders.held_set ht).imp_left fun heq => (Option.some.inj heq).symm
  have hstreams : ∀ t, t = f ∨ t ∈ p₁.held → Function.update p.streams f (.of_body body) t =
      stream (Function.update st f (some [body]) t) := by
    rintro t (rfl | hin)
    · rw [Function.update_self, Function.update_self, stream_singleton]
    · rw [Function.update_of_ne (hfresh t (hheld₁ hin)), Function.update_of_ne (hfresh t (hheld₁ hin))]
      exact ho₁.streams t hin
  refine ⟨Function.update own f {f}, Function.update st f (some [body]),
    ⟨?_, (ho₁.forest.insert hc.frame rfl hc.frames hc.next_frame).mono hsub,
      fun k hk => (ho₁.bounded k hk).trans_eq hc.next_object.symm, fun t ht => hstreams t (hsub t ht)⟩,
    Finset.subset_insert .., fun t ht => Function.update_of_ne (hfresh t ht) .., fun t ht => ?_, fun t ht q hq => ?_⟩
  · unfold Program.top
    rw [htop]
    exact hholders
  · rcases hsub t ht with rfl | hin
    · rw [Function.update_self]
      exact .inr (Option.some_ne_none _)
    · exact .inl (hheld₁ hin)
  · rcases hsub t ht with rfl | hin
    · refine .inr ⟨p.heap.next_object, Finset.mem_insert_self .., ?_, .uninit, ?_, .inl rfl⟩
      · exact (congrFun htop _).trans (Function.update_self ..)
      · obtain rfl := Option.some.inj (hc.frame.symm.trans hq)
        rfl
    · exact .inl ⟨hheld₁ hin, (hc.frames t (hfresh t (hheld₁ hin))).symm.trans hq⟩

theorem clear (ho : Owned p own st) (hi : i ∈ p.objects) :
    ∃ h', Returns (fun n => generators_common.clear n p.heap (.object i)) h' ∧ Emptied p.heap h' i p.held ∧
      Owned { p with heap := h' } own st ∧
      ∀ t ∈ ({ p with heap := h' } : Program V E O).held, t ∈ p.held ∧ h'.frames t = p.heap.frames t := by
  cases htop : p.top i with
  | none =>
    exact ⟨p.heap, clear_none htop, ⟨fun _ _ _ => rfl, .inl rfl, htop, fun _ _ => rfl, rfl, rfl⟩, ho,
      fun t ht => ⟨ht, rfl⟩⟩
  | some t =>
    have ht := p.mem_held hi htop
    obtain ⟨h', hclear, hcleared⟩ := (ho.forest.tree t ht).clear htop
    have htops := top_update hcleared.objects
    rw [top_set_top] at htops
    have hheld : ∀ t', t' ∈ generators_common.held (fun k => LeafObject.top (h'.objects k)) p.objects p.handles →
        t' ∈ p.held \ {t} := by
      intro t' ht'
      rw [htops] at ht'
      refine ⟨?_, fun heq => ho.holders.notMem_held hi htop (heq ▸ ht')⟩
      rw [← Finset.insert_eq_of_mem hi] at ht'
      exact (Holders.held_set ht').resolve_left (by simp)
    refine ⟨h', hclear, ⟨fun t' ht' hne => ?_, .inr ?_, ?_, fun k hk => ?_, hcleared.next_frame, hcleared.next_object⟩,
      ⟨?_, ?_, fun k hk => (ho.bounded k hk).trans_eq hcleared.next_object.symm,
        fun t' ht' => ho.streams t' (hheld t' ht').1⟩, fun t' ht' => ⟨(hheld t' ht').1, ?_⟩⟩
    · refine hcleared.frames t' (ho.forest.notMem_own ht ht' fun heq => hne ?_)
      exact heq ▸ htop
    · rw [hcleared.objects, Function.update_self]
    · rw [hcleared.objects, Function.update_self, top_set_top]
    · rw [hcleared.objects, Function.update_of_ne hk]
    · have hholders := ho.holders.set i (x := none) fun t ht => by cases ht
      rw [Finset.insert_eq_of_mem hi] at hholders
      unfold Program.top
      rw [htops]
      exact hholders
    · exact (ho.forest.remove ht hcleared.frames hcleared.next_frame).mono hheld
    · obtain ⟨hin, hne⟩ := hheld t' ht'
      exact hcleared.frames t' (ho.forest.notMem_own ht hin hne)

theorem release (ho : Owned p own st) (hi : i ∈ p.objects) {p' : Program V E O}
    (hp : p' = { p with heap := p.heap.put_object i (set_top (p.heap.objects i) none),
                        handles := p.handles ∪ (p.top i).toFinset }) :
    Owned p' own st ∧ p'.held ⊆ p.held := by
  subst hp
  have htops := top_update (h := p.heap)
    (show (p.heap.put_object i (set_top (p.heap.objects i) none)).objects = Function.update _ _ _ from rfl)
  rw [top_set_top] at htops
  have hholders := ho.holders.set i (x := none) fun t ht => by cases ht
  rw [Finset.insert_eq_of_mem hi] at hholders
  have hrelinked : Relinked p.heap (p.heap.put_object i (set_top (p.heap.objects i) none)) p.held :=
    .of_frames (p.heap.put_object_frames ..) rfl _
  have hheld : ∀ t, t ∈ generators_common.held
      (fun k => LeafObject.top ((p.heap.put_object i (set_top (p.heap.objects i) none)).objects k)) p.objects
      (p.handles ∪ (p.top i).toFinset) → t ∈ p.held := by
    rintro t (hin | hin)
    · rw [htops] at hin
      have ht : t ∈ generators_common.held (Function.update p.top i none) (insert i p.objects) p.handles := by
        rw [Finset.insert_eq_of_mem hi]
        exact .inl hin
      exact (Holders.held_set ht).resolve_left (by simp)
    · rcases Finset.mem_union.mp hin with hin | hin
      · exact .inr hin
      · exact p.mem_held hi (Option.mem_toFinset.mp hin)
  refine ⟨⟨?_, (ho.forest.relinked hrelinked).mono hheld, ho.bounded, fun t ht => ho.streams t (hheld t ht)⟩, hheld⟩
  unfold Program.top
  rw [htops]
  cases htop : p.top i with
  | none =>
    unfold Program.top at htop
    simp only [htop, Option.toFinset_none, Finset.union_empty]
    exact hholders
  | some t =>
    have hout := ho.holders.notMem_held hi htop
    unfold Program.top at htop
    simp only [htop, Option.toFinset_some, Finset.union_singleton]
    exact hholders.insert_handle hout

/-- An object without a coroutine takes a handle. -/
theorem take {handle : Option FrameId} (ho : Owned p own st) (hi : i ∈ p.objects)
    (hhandle : ∀ t, handle = some t → t ∈ p.handles) {p' : Program V E O}
    (hp : p' = { p with heap := p.heap.put_object i (set_top (p.heap.objects i) handle),
                        handles := p.handles \ handle.toFinset }) :
    Owned p' own st ∧ p'.held ⊆ p.held := by
  subst hp
  have htops := top_update (h := p.heap)
    (show (p.heap.put_object i (set_top (p.heap.objects i) handle)).objects = Function.update _ _ _ from rfl)
  rw [top_set_top] at htops
  have hrelinked : Relinked p.heap (p.heap.put_object i (set_top (p.heap.objects i) handle)) p.held :=
    .of_frames (p.heap.put_object_frames ..) rfl _
  have hholders : Holders p.top p.objects (p.handles \ handle.toFinset) ∧
      ∀ t, handle = some t → t ∉ generators_common.held p.top p.objects (p.handles \ handle.toFinset) := by
    cases handle with
    | none =>
      rw [Option.toFinset_none, Finset.sdiff_empty]
      exact ⟨ho.holders, fun t ht => by cases ht⟩
    | some t =>
      rw [Option.toFinset_some, Finset.sdiff_singleton_eq_erase]
      obtain ⟨hholders, hout⟩ := ho.holders.erase_handle (hhandle t rfl)
      exact ⟨hholders, fun t' ht' => Option.some.inj ht' ▸ hout⟩
  have hset := hholders.1.set i hholders.2
  rw [Finset.insert_eq_of_mem hi] at hset
  have hheld : ∀ t, t ∈ generators_common.held
      (fun k => LeafObject.top ((p.heap.put_object i (set_top (p.heap.objects i) handle)).objects k)) p.objects
      (p.handles \ handle.toFinset) → t ∈ p.held := by
    intro t ht
    rw [htops, ← Finset.insert_eq_of_mem hi] at ht
    rcases Holders.held_set ht with heq | ⟨k, hk, hkt⟩ | hin
    · exact .inr (hhandle t heq)
    · exact .inl ⟨k, hk, hkt⟩
    · exact .inr (Finset.mem_sdiff.mp hin).1
  refine ⟨⟨?_, (ho.forest.relinked hrelinked).mono hheld, ho.bounded, fun t ht => ho.streams t (hheld t ht)⟩, hheld⟩
  unfold Program.top
  rw [htops]
  exact hset

/-- A coroutine is asked, and everything it did stays inside of it. -/
theorem request {st' : Remaining V E} (ho : Owned p own st) (ht : t ∈ p.held)
    (hframed : Framed p.heap h' (own t)) (hl : LeafTree h' (grown (own t) p.heap h') t st')
    (htops : ∀ k ∈ p.objects, LeafObject.top (h'.objects k) = p.top k) (htook : Took (st t) st') :
    Owned { p with heap := h', streams := Function.update p.streams t (p.streams t).rest }
      (Function.update own t (grown (own t) p.heap h')) (Function.update st t st') := by
  have hheld : ∀ t', t' ∈ generators_common.held (fun k => LeafObject.top (h'.objects k)) p.objects p.handles →
      t' ∈ p.held := by
    rintro t' (⟨k, hk, hkt⟩ | hin)
    · exact .inl ⟨k, hk, (htops k hk).symm.trans hkt⟩
    · exact .inr hin
  refine ⟨⟨fun k hk l hl t' hkt hlt => ?_, fun k hk t' hkt => ?_⟩, (ho.forest.request hframed hl ht).mono hheld,
    fun k hk => (ho.bounded k hk).trans_le hframed.next_object, fun t' ht' => ?_⟩
  · exact ho.holders.unique k hk l hl t' ((htops k hk).symm.trans hkt) ((htops l hl).symm.trans hlt)
  · exact ho.holders.apart k hk t' ((htops k hk).symm.trans hkt)
  · by_cases heq : t' = t
    · subst heq
      simp only [Function.update_self, ho.streams t' ht, htook.stream_eq]
    · simp only [Function.update_of_ne heq]
      exact ho.streams t' (hheld t' ht')

end Owned

theorem Program.asked_of_top {h : Heap V E O} (ht : p.top i = some t) :
    p.asked i h = { p with heap := h, streams := Function.update p.streams t (p.streams t).rest } := by
  simp only [Program.asked, ht]

/-- Asking an object that is over changes nothing. -/
theorem Owned.asked_of_over (ho : Owned p own st) (hi : i ∈ p.objects) (hover : ∀ t, p.top i = some t → st t = none) :
    p.asked i p.heap = p := by
  cases ht : p.top i with
  | none => simp only [Program.asked, ht]
  | some t =>
    have hstream : (p.streams t).rest = p.streams t := by
      rw [ho.streams t (p.mem_held hi ht), hover t ht]
      rfl
    rw [Program.asked_of_top ht, hstream, Function.update_eq_self]

variable (ops) in
/-- The operations are defined whenever they are allowed. -/
theorem perform_spec {a : Action V E} (ho : Owned p own st) (ha : a.Allowed p) :
    ∃ p' own' st', Returns (fun n => perform ops n p a) p' ∧ Performed ops p a p' ∧ Owned p' own' st' ∧
      Traced ops p p' st st' := by
  cases a with
  | construct =>
    obtain ⟨ho', hheld⟩ := ho.construct rfl
    exact ⟨_, own, st, .const rfl, .construct, ho', .of_held (Finset.subset_insert ..) hheld fun _ _ => rfl⟩
  | call body =>
    obtain ⟨h', hcreate, hc⟩ := ops.create_spec p.heap.new_object.1 body p.heap.next_object
    obtain ⟨own', st', ho', htraced⟩ := ho.call hc rfl
    refine ⟨_, own', st', .const ?_, .call hc, ho', htraced⟩
    change (ops.create p.heap.new_object.1 body (.object p.heap.next_object)).bind _ = _
    rw [hcreate, Option.bind_some]
  | move_construct source =>
    let p₁ : Program V E O :=
      { p with heap := p.heap.new_object.1, objects := insert p.heap.next_object p.objects }
    obtain ⟨ho₁, hheld⟩ : Owned p₁ own st ∧ p₁.held ⊆ p.held := ho.construct rfl
    have hnew : p.heap.next_object ∈ p₁.objects := Finset.mem_insert_self ..
    have hsource : source ∈ p₁.objects := Finset.mem_insert_of_mem ha
    obtain ⟨h', hswap, hs⟩ := ops.swap_spec p₁.heap p.heap.next_object source
      (fun t ht => ht.elim (fun ht => ho₁.live hnew ht) fun ht => ho₁.live hsource ht)
      fun t => ho₁.holders.unique _ hnew _ hsource t
    obtain ⟨ho', hheld', htraced⟩ := ho₁.swapped ops hnew hsource hs rfl
    have htraced' : Traced ops p { p₁ with heap := h' } st st := by
      refine ⟨Finset.subset_insert .., fun _ _ => rfl, fun t ht => .inl (hheld (hheld' ht)), fun t ht q hq => ?_⟩
      refine (htraced.frames t ht q hq).imp (fun ⟨hin, hframe⟩ => ⟨hheld hin, hframe⟩) ?_
      rintro ⟨k, hk, htop, link, hlink, hold⟩
      exact ⟨k, hk, htop, link, hlink, hold.imp_right fun ⟨hin, hframe⟩ => ⟨hheld hin, hframe⟩⟩
    refine ⟨_, own, st, .const ?_, .move_construct hs, ho', htraced'⟩
    change (ops.move_construct p.heap.new_object.1 (.object p.heap.next_object) (.object source)).bind _ = _
    have hdefault : p.heap.new_object.1.objects p.heap.next_object = LeafObject.default :=
      p.heap.put_object_objects_self _ _
    rw [ops.move_construct_eq _ _ _ hdefault]
    exact congrArg (Option.bind · _) hswap
  | move_assign this other | swap this other =>
    obtain ⟨hthis, hother⟩ := ha
    obtain ⟨h', hswap, hs⟩ := ops.swap_spec p.heap this other
      (fun t ht => ht.elim (fun ht => ho.live hthis ht) fun ht => ho.live hother ht)
      fun t => ho.holders.unique _ hthis _ hother t
    obtain ⟨ho', -, htraced⟩ := ho.swapped ops hthis hother hs rfl
    refine ⟨{ p with heap := h' }, own, st, ⟨0, fun n _ => ?_⟩, by constructor; exact hs, ho', htraced⟩
    simp only [perform, move_assign, hswap, Option.bind_eq_bind, Option.bind_some]
  | clear this =>
    obtain ⟨h', hclear, hemptied, ho', hheld⟩ := ho.clear ha
    refine ⟨{ p with heap := h' }, own, st, ?_, .clear hemptied, ho',
      .of_held subset_rfl (fun t ht => (hheld t ht).1) fun t ht => (hheld t ht).2⟩
    exact (hclear.bind (g := fun _ h => some { p with heap := h }) (.const rfl)).congr fun _ => rfl
  | release this =>
    obtain ⟨ho', hheld⟩ := ho.release ha rfl
    exact ⟨_, own, st, .const rfl, .release, ho', .of_held subset_rfl hheld fun _ _ => rfl⟩
  | reset this handle =>
    obtain ⟨hthis, hhandle⟩ := ha
    obtain ⟨h', hclear, hemptied, ho₁, hheld₁⟩ := ho.clear hthis
    let h₂ := h'.put_object this (set_top (h'.objects this) handle)
    let p' : Program V E O := { p with heap := h₂, handles := p.handles \ handle.toFinset }
    obtain ⟨ho', hheld⟩ : Owned p' own st ∧ p'.held ⊆ _ := ho₁.take hthis hhandle rfl
    have hreset : Returns (fun n => generators_common.reset n p.heap (.object this) handle) h₂ :=
      (hclear.bind (g := fun _ h => some (h.put_object this (set_top (h.objects this) handle)))
        (.const rfl)).congr fun _ => rfl
    refine ⟨p', own, st, ?_, .reset hemptied, ho',
      .of_held subset_rfl (fun t ht => (hheld₁ t (hheld ht)).1) fun t ht => (hheld₁ t (hheld ht)).2⟩
    exact (hreset.bind (g := fun _ h => some { p with heap := h, handles := p.handles \ handle.toFinset })
      (.const rfl)).congr fun _ => rfl

theorem Swapped.frames_none (hs : Swapped ops.relink p.heap h' i j) (ho : Owned p own st) (hi : i ∈ p.objects)
    (hj : j ∈ p.objects) {f : FrameId} (hf : p.heap.frames f = none) : h'.frames f = none := by
  have hdead : ∀ k ∈ p.objects, p.top k ≠ some f := by
    intro k hk htop
    obtain ⟨q, hq⟩ := ho.live hk htop
    rw [hf] at hq
    cases hq
  rw [hs.frames f (hdead i hi) (hdead j hj), hf]

/-- Operations make no frames but new ones. -/
theorem perform_frames_none {n : Nat} {p' : Program V E O} {a : Action V E} (ho : Owned p own st) (ha : a.Allowed p)
    (hp : Performed ops p a p') (hret : perform ops n p a = some p') {f : FrameId} (hf : p.heap.frames f = none)
    (hlt : f < p.heap.next_frame) : p'.heap.frames f = none := by
  cases hp with
  | construct | release => exact hf
  | call hc => exact (hc.frames f (ne_of_lt hlt)).trans hf
  | @move_construct source h' hs =>
    obtain ⟨ho₁, -⟩ := ho.construct rfl
    exact hs.frames_none ho₁ (Finset.mem_insert_self ..) (Finset.mem_insert_of_mem ha) hf
  | move_assign hs | swap hs => exact hs.frames_none ho ha.1 ha.2 hf
  | clear =>
    obtain ⟨h₁, hclear, hp⟩ := Option.bind_eq_some_iff.mp hret
    cases hp
    exact clear_frames_none hclear hf
  | reset =>
    obtain ⟨h₂, hreset, hp⟩ := Option.bind_eq_some_iff.mp hret
    obtain ⟨h₁, hclear, hset⟩ := Option.bind_eq_some_iff.mp hreset
    obtain ⟨self, -, hset⟩ := Option.bind_eq_some_iff.mp hset
    have heap_eq := congrArg Program.heap (Option.some.inj hp)
    rw [← heap_eq]
    exact Heap.set_object_frames_none hset (clear_frames_none hclear hf)

end owned

end kelcoro.generators_common
