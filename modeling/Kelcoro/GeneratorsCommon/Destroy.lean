import Kelcoro.GeneratorsCommon.Attach

namespace kelcoro.generators_common

open LeafObject kelcoro.lib

section operations

variable {V E O : Type} [LeafObject O]

/-- `release()`: the caller owns the coroutine from now on. -/
def release (h : Heap V E O) (this : Place) : Option (Heap V E O × Option FrameId) := do
  let self ← h.object this
  let h ← h.set_object this (set_top self none)
  some (h, top self)

/-- `reset(handle)`. -/
def reset (n : Nat) (h : Heap V E O) (this : Place) (handle : Option FrameId) : Option (Heap V E O) := do
  let h ← clear n h this
  let self ← h.object this
  h.set_object this (set_top self handle)

end operations

variable {V E O : Type} [LeafObject O] {h h' : Heap V E O}

/-- What the destruction of coroutines in `own` leaves behind. -/
structure Destroyed (h h' : Heap V E O) (own : Set FrameId) : Prop where
  frames : ∀ x, x ∉ own → h'.frames x = h.frames x
  objects : h'.objects = h.objects
  next_frame : h'.next_frame = h.next_frame
  next_object : h'.next_object = h.next_object

namespace Destroyed

variable {h₁ : Heap V E O} {own own' : Set FrameId}

omit [LeafObject O] in
theorem mono (hd : Destroyed h h' own) (hsub : own ⊆ own') : Destroyed h h' own' :=
  ⟨fun x hx => hd.frames x fun hin => hx (hsub hin), hd.objects, hd.next_frame, hd.next_object⟩

omit [LeafObject O] in
theorem framed (hd : Destroyed h h' own) : Framed h h' own :=
  ⟨hd.next_frame.ge, hd.next_object.ge, fun x _ hx => hd.frames x hx⟩

omit [LeafObject O] in
theorem put {f : FrameId} (p : Frame V E O) (hd : Destroyed (h.put f p) h' own) (hf : f ∈ own) :
    Destroyed h h' own := by
  refine ⟨fun x hx => ?_, hd.objects, hd.next_frame, hd.next_object⟩
  have hne : x ≠ f := fun heq => hx (heq ▸ hf)
  rw [hd.frames x hx, h.put_frames_of_ne p hne]

omit [LeafObject O] in
theorem free {f : FrameId} (hd : Destroyed h h' own) (hf : f ∈ own) : Destroyed h (h'.free f) own := by
  refine ⟨fun x hx => ?_, hd.objects, hd.next_frame, hd.next_object⟩
  have hne : x ≠ f := fun heq => hx (heq ▸ hf)
  rw [h'.free_frames_of_ne hne, hd.frames x hx]

end Destroyed

/-- Destroying `f` frees frames of `own` only, as long as these are as in `h`:
the frames outside may have changed, since an owner is destroyed before its leaf
is. -/
def Destroys (h : Heap V E O) (own : Set FrameId) (f : FrameId) : Prop :=
  ∀ h₁ : Heap V E O, (∀ x ∈ own, h₁.frames x = h.frames x) →
    ∃ h', Returns (fun n => destroy n h₁ f) h' ∧ Destroyed h₁ h' own

namespace Destroys

variable {own : Set FrameId} {f g : FrameId} {p : Frame V E O} {leaf : O}

theorem of_no_leaf (hp : h.frames f = some p) (hleaf : p.leaf = none) : Destroys h {f} f := by
  intro h₁ hsame
  have hp₁ : h₁.frames f = some p := (hsame f rfl).trans hp
  refine ⟨h₁.free f, Returns.of_last fun n => ?_, ?_⟩
  · simp only [destroy, hp₁, Option.bind_eq_bind, Option.bind_some, hleaf, Option.isSome_none,
      Bool.false_eq_true, ↓reduceIte]
  · have hrefl : Destroyed h₁ h₁ {f} := ⟨fun _ _ => rfl, rfl, rfl, rfl⟩
    exact hrefl.free rfl

/-- The awaiter holds an object without a coroutine. -/
theorem of_empty_leaf (hp : h.frames f = some p) (hleaf : p.leaf = some leaf) (htop : top leaf = none) :
    Destroys h {f} f := by
  intro h₁ hsame
  have hp₁ : h₁.frames f = some p := (hsame f rfl).trans hp
  have hobject : h₁.object (.awaiter f) = some leaf := by
    simp only [Heap.object, hp₁, Option.bind_some, hleaf]
  refine ⟨h₁.free f, Returns.of_succ (Returns.of_last fun n => ?_), ?_⟩
  · simp only [destroy, clear, hp₁, hobject, Option.bind_eq_bind, Option.bind_some, hleaf, htop,
      Option.isSome_some, ↓reduceIte]
  · have hrefl : Destroyed h₁ h₁ {f} := ⟨fun _ _ => rfl, rfl, rfl, rfl⟩
    exact hrefl.free rfl

/-- The awaiter holds a leaf, which goes with its owner. -/
theorem of_leaf (hd : Destroys h own g) (hp : h.frames f = some p) (hleaf : p.leaf = some leaf)
    (htop : top leaf = some g) (hf : f ∉ own) : Destroys h (insert f own) f := by
  intro h₁ hsame
  have hp₁ : h₁.frames f = some p := (hsame f (Set.mem_insert f own)).trans hp
  have hobject : h₁.object (.awaiter f) = some leaf := by
    simp only [Heap.object, hp₁, Option.bind_some, hleaf]
  let q : Frame V E O := { p with leaf := some (set_top leaf none) }
  have hset : h₁.set_object (.awaiter f) (set_top leaf none) = some (h₁.put f q) := Heap.modify_eq hp₁ _
  obtain ⟨h₂, hdestroy, hdestroyed⟩ := hd (h₁.put f q) fun x hx => by
    have hne : x ≠ f := fun heq => hf (heq ▸ hx)
    rw [h₁.put_frames_of_ne q hne, hsame x (Set.mem_insert_of_mem f hx)]
  have hq₂ : h₂.frames f = some q := (hdestroyed.frames f hf).trans (h₁.put_frames_self f q)
  have hobject₂ : h₂.object (.awaiter f) = some (set_top leaf none) := by
    simp only [Heap.object, hq₂, Option.bind_some, q]
  have hclear : Returns (fun n => clear n h₁ (.awaiter f)) h₂ := by
    have hagain : Returns (fun n => clear n h₂ (.awaiter f)) h₂ := Returns.of_last fun n => by
      simp only [clear, hobject₂, Option.bind_eq_bind, Option.bind_some, top_set_top]
    refine Returns.of_succ ((hdestroy.bind (g := fun n h => clear n h (.awaiter f)) hagain).congr fun n => ?_)
    simp only [clear, hobject, Option.bind_eq_bind, Option.bind_some, htop, hset]
  refine ⟨h₂.free f, Returns.of_succ (hclear.imp fun n hn => ?_), ?_⟩
  · simp only [destroy, hp₁, Option.bind_eq_bind, Option.bind_some, hleaf, Option.isSome_some, ↓reduceIte, hn]
  · exact ((hdestroyed.mono (Set.subset_insert f own)).put q (Set.mem_insert f own)).free (Set.mem_insert f own)

end Destroys

/-- Destroying the top of a chain destroys the coroutines below it one after the
other, down to the innermost worker. -/
theorem Chain.destroys {t w : FrameId} {fs : List FrameId} {bs : List (Body V E)} {own : Set FrameId}
    (hc : Chain h t (w :: fs) bs) (hnodup : (w :: fs).Nodup) (hout : ∀ x ∈ fs, x ∉ own)
    (hw : Destroys h (insert w own) w) :
    ∃ own', Destroys h own' t ∧ own' ⊆ insert w own ∪ {x | x ∈ fs} := by
  generalize hlist : w :: fs = list at hc
  induction hc generalizing w fs own with
  | top =>
    obtain ⟨rfl, rfl⟩ := List.cons.inj hlist
    exact ⟨_, hw, Set.subset_union_left⟩
  | @leaf f o p po leaf fs' bs hp hdone hlink hpo hpull hleaf htop hrest ih =>
    obtain ⟨rfl, rfl⟩ := List.cons.inj hlist
    obtain ⟨hwout, hnodup'⟩ := List.nodup_cons.mp hnodup
    have ho : o ∉ insert w own := by
      rintro (rfl | hin)
      · exact hwout (List.mem_cons_self ..)
      · exact hout o (List.mem_cons_self ..) hin
    obtain ⟨own', hdestroys, hsub⟩ := ih hnodup' (fun x hx => by
      rintro (rfl | hin)
      · exact hwout (List.mem_cons_of_mem o hx)
      · exact hout x (List.mem_cons_of_mem o hx) hin) (hw.of_leaf hpo hleaf htop ho) rfl
    refine ⟨own', hdestroys, hsub.trans ?_⟩
    rintro x ((rfl | hx) | hx)
    · exact Or.inr (List.mem_cons_self ..)
    · exact Or.inl hx
    · exact Or.inr (List.mem_cons_of_mem o hx)

/-- A suspended coroutine that is not attached to an owner can be destroyed,
wherever it is suspended. -/
theorem LeafTree.destroys {own : Set FrameId} {t : FrameId} {st : Remaining V E} (hl : LeafTree h own t st) :
    ∃ own', own' ⊆ own ∧ Destroys h own' t := by
  cases st with
  | none =>
    obtain ⟨hmem, -, q, hq, -, hleaf⟩ := hl
    exact ⟨{t}, Set.singleton_subset_iff.mpr hmem, .of_no_leaf hq hleaf⟩
  | some bs =>
    obtain ⟨link, w, fs, ht, hres⟩ := hl
    obtain ⟨p, hp, -⟩ := ht.root
    have hwown := ht.owned w (List.mem_cons_self ..)
    -- the worker may hold a leaf that is over
    have hworker : ∃ own₀, own₀ ⊆ own ∧ (∀ x ∈ fs, x ∉ own₀) ∧ Destroys h (insert w own₀) w := by
      cases hleaf : p.leaf with
      | none =>
        refine ⟨∅, Set.empty_subset own, fun x _ => Set.notMem_empty x, ?_⟩
        rw [insert_empty_eq]
        exact .of_no_leaf hp hleaf
      | some leaf =>
        cases htop : top leaf with
        | none =>
          refine ⟨∅, Set.empty_subset own, fun x _ => Set.notMem_empty x, ?_⟩
          rw [insert_empty_eq]
          exact .of_empty_leaf hp hleaf htop
        | some d =>
          obtain ⟨hd, q, hq, hqdone, hqleaf⟩ := hres.leaf p leaf d hp hleaf htop
          have hlive : d ∉ w :: fs := by
            intro hin
            obtain ⟨r, hr, hrdone⟩ := ht.chain.live hin
            obtain rfl := Option.some.inj (hr.symm.trans hq)
            rw [hqdone] at hrdone
            cases hrdone
          have hwd : w ≠ d := fun heq => hlive (heq ▸ List.mem_cons_self ..)
          refine ⟨{d}, Set.singleton_subset_iff.mpr hd, fun x hx hxd => ?_, ?_⟩
          · exact hlive (Set.mem_singleton_iff.mp hxd ▸ List.mem_cons_of_mem w hx)
          · exact (Destroys.of_no_leaf hq hqleaf).of_leaf hp hleaf htop hwd
    obtain ⟨own₀, hsub, hout, hdestroys⟩ := hworker
    obtain ⟨own', hdestroys', hsub'⟩ := ht.chain.destroys ht.nodup hout hdestroys
    refine ⟨own', fun x hx => ?_, hdestroys'⟩
    rcases hsub' hx with (rfl | hx) | hx
    · exact hwown
    · exact hsub hx
    · exact ht.owned x (List.mem_cons_of_mem w hx)

/-- What `clear()` of object `i` leaves behind. -/
structure Cleared (h h' : Heap V E O) (own : Set FrameId) (i : Nat) : Prop where
  frames : ∀ x, x ∉ own → h'.frames x = h.frames x
  objects : h'.objects = Function.update h.objects i (set_top (h.objects i) none)
  next_frame : h'.next_frame = h.next_frame
  next_object : h'.next_object = h.next_object

theorem clear_none {i : Nat} (htop : top (h.objects i) = none) :
    Returns (fun n => clear n h (.object i)) h := by
  refine Returns.of_last fun n => ?_
  simp only [clear, Heap.object, Option.bind_eq_bind, Option.bind_some, htop]

theorem LeafTree.clear {own : Set FrameId} {i : Nat} {t : FrameId} {st : Remaining V E} (hl : LeafTree h own t st)
    (htop : top (h.objects i) = some t) :
    ∃ h', Returns (fun n => generators_common.clear n h (.object i)) h' ∧ Cleared h h' own i := by
  obtain ⟨own', hsub, hdestroys⟩ := hl.destroys
  let h₁ := h.put_object i (set_top (h.objects i) none)
  obtain ⟨h', hdestroy, hdestroyed⟩ := hdestroys h₁ fun _ _ => rfl
  have htop' : top (h'.objects i) = none := by
    rw [hdestroyed.objects, h.put_object_objects_self, top_set_top]
  refine ⟨h', Returns.of_succ ?_, fun x hx => hdestroyed.frames x fun hin => hx (hsub hin), hdestroyed.objects,
    hdestroyed.next_frame, hdestroyed.next_object⟩
  refine (hdestroy.bind (g := fun n h => generators_common.clear n h (.object i)) (clear_none htop')).congr fun n => ?_
  simp only [generators_common.clear, Heap.object, Option.bind_eq_bind, Option.bind_some, htop, Heap.set_object, h₁]

/-- Destroying coroutines makes no frames. -/
theorem clear_destroy_none (n : Nat) {f : FrameId} :
    (∀ (h h' : Heap V E O) (place : Place), generators_common.clear n h place = some h' → h.frames f = none →
      h'.frames f = none) ∧
    ∀ (h h' : Heap V E O) (t : FrameId), destroy n h t = some h' → h.frames f = none → h'.frames f = none := by
  induction n with
  | zero => exact ⟨fun _ _ _ hclear => (nomatch hclear), fun _ _ _ hdestroy => (nomatch hdestroy)⟩
  | succ n ih =>
    obtain ⟨ihclear, ihdestroy⟩ := ih
    constructor
    · intro h h' place hclear hf
      simp only [generators_common.clear, Option.bind_eq_bind] at hclear
      obtain ⟨self, -, hclear⟩ := Option.bind_eq_some_iff.mp hclear
      cases htop : top self with
      | none =>
        rw [htop] at hclear
        cases hclear
        exact hf
      | some t =>
        rw [htop] at hclear
        obtain ⟨h₁, hset, hclear⟩ := Option.bind_eq_some_iff.mp hclear
        obtain ⟨h₂, hdestroy, hclear⟩ := Option.bind_eq_some_iff.mp hclear
        exact ihclear h₂ h' place hclear (ihdestroy h₁ h₂ t hdestroy (Heap.set_object_frames_none hset hf))
    · intro h h' t hdestroy hf
      simp only [destroy, Option.bind_eq_bind] at hdestroy
      obtain ⟨p, -, hdestroy⟩ := Option.bind_eq_some_iff.mp hdestroy
      have hfree : ∀ h₁ : Heap V E O, h₁.frames f = none → (h₁.free t).frames f = none := by
        intro h₁ hf₁
        by_cases heq : f = t
        · rw [heq]
          exact Function.update_self ..
        · rw [h₁.free_frames_of_ne heq, hf₁]
      split at hdestroy
      · obtain ⟨h₁, hclear, heq⟩ := Option.bind_eq_some_iff.mp hdestroy
        cases heq
        exact hfree h₁ (ihclear h h₁ _ hclear hf)
      · cases hdestroy
        exact hfree h hf

theorem clear_frames_none {n : Nat} {place : Place} {f : FrameId}
    (hclear : generators_common.clear n h place = some h') (hf : h.frames f = none) : h'.frames f = none :=
  (clear_destroy_none n).1 h h' place hclear hf

end kelcoro.generators_common
