import Kelcoro.GeneratorsCommon.Chain
import Kelcoro.Lib.Returns

namespace kelcoro.generators_common

open LeafObject kelcoro.lib

variable {V E O : Type} [LeafObject O]

/-- The worker may be resumed: it does not iterate a channel of its own, and a
leaf that its awaiter holds is over. -/
structure Resumable (h : Heap V E O) (own : Set FrameId) (w : FrameId) : Prop where
  pulling : ∀ p, h.frames w = some p → p.pulling = none
  leaf : ∀ p leaf d, h.frames w = some p → p.leaf = some leaf → top leaf = some d →
    d ∈ own ∧ ∃ q, h.frames d = some q ∧ q.done = true ∧ q.leaf = none

theorem Resumable.of_same {h h' : Heap V E O} {own : Set FrameId} {w : FrameId} (hl : Resumable h own w)
    (hw : w ∈ own) (hsame : ∀ x ∈ own, h'.frames x = h.frames x) : Resumable h' own w where
  pulling p hp := hl.pulling p ((hsame w hw).symm.trans hp)
  leaf p leaf d hp hleaf hd := by
    obtain ⟨hd, q, hq, hover⟩ := hl.leaf p leaf d ((hsame w hw).symm.trans hp) hleaf hd
    exact ⟨hd, q, (hsame d hd).trans hq, hover⟩

theorem Resumable.of_frames {h h' : Heap V E O} {own : Set FrameId} {w : FrameId}
    (hl : Resumable h own w) (hframes : h'.frames = h.frames) : Resumable h' own w where
  pulling := by rw [hframes]; exact hl.pulling
  leaf := by rw [hframes]; exact hl.leaf

theorem Resumable.of_none {h : Heap V E O} {own : Set FrameId} {w : FrameId} {p : Frame V E O}
    (hp : h.frames w = some p) (hleaf : p.leaf = none) (hpull : p.pulling = none) : Resumable h own w where
  pulling q hq := by
    obtain rfl := Option.some.inj (hq.symm.trans hp)
    exact hpull
  leaf q leaf d hq hqleaf _ := by
    obtain rfl := Option.some.inj (hq.symm.trans hp)
    rw [hleaf] at hqleaf
    cases hqleaf

/-- The leaf that its awaiter holds is nothing. -/
theorem Resumable.of_empty_leaf {h : Heap V E O} {own : Set FrameId} {w : FrameId} {p : Frame V E O} {leaf : O}
    (hp : h.frames w = some p) (hleaf : p.leaf = some leaf) (htop : top leaf = none) (hpull : p.pulling = none) :
    Resumable h own w where
  pulling q hq := by
    obtain rfl := Option.some.inj (hq.symm.trans hp)
    exact hpull
  leaf q leaf d hq hqleaf hd := by
    obtain rfl := Option.some.inj (hq.symm.trans hp)
    obtain rfl := Option.some.inj (hleaf.symm.trans hqleaf)
    rw [htop] at hd
    cases hd

theorem Resumable.relink {h h' : Heap V E O} {own : Set FrameId} {t w : FrameId} {q : Frame V E O} {link : Link}
    (hr : Resumable h own w) (hw : w ∈ own) (hq : h.frames t = some q) (hq' : h'.frames t = some { q with link })
    (hsame : ∀ x ∈ own, x ≠ t → h'.frames x = h.frames x) : Resumable h' own w := by
  have hread : ∀ x ∈ own, ∀ r', h'.frames x = some r' →
      ∃ r, h.frames x = some r ∧ r'.pulling = r.pulling ∧ r'.leaf = r.leaf := by
    intro x hx r' hr'
    by_cases heq : x = t
    · subst heq
      obtain rfl := Option.some.inj (hr'.symm.trans hq')
      exact ⟨q, hq, rfl, rfl⟩
    · exact ⟨r', (hsame x hx heq).symm.trans hr', rfl, rfl⟩
  refine ⟨fun r' hr' => ?_, fun r' leaf d hr' hleaf hd => ?_⟩
  · obtain ⟨r, hr₁, hrpull, -⟩ := hread w hw r' hr'
    exact hrpull.trans (hr.pulling r hr₁)
  obtain ⟨r, hr₁, -, hrleaf⟩ := hread w hw r' hr'
  obtain ⟨hdown, qd, hqd, hdone, hdleaf⟩ := hr.leaf r leaf d hr₁ (hrleaf.symm.trans hleaf) hd
  refine ⟨hdown, ?_⟩
  by_cases heq : d = t
  · subst heq
    obtain rfl := Option.some.inj (hqd.symm.trans hq)
    exact ⟨_, hq', hdone, hdleaf⟩
  · exact ⟨qd, (hsame d hdown heq).trans hqd, hdone, hdleaf⟩

/-- Frames that are over may change in any way that leaves them so. -/
theorem Resumable.put_done {h : Heap V E O} {own : Set FrameId} {w d : FrameId} {q : Frame V E O}
    (hr : Resumable h own w) (hd : w ≠ d) (hdone : q.done = true) (hleaf : q.leaf = none) :
    Resumable (h.put d q) own w := by
  refine ⟨fun p hp => ?_, fun p leaf e hp hpleaf he => ?_⟩
  · rw [h.put_frames_of_ne q hd] at hp
    exact hr.pulling p hp
  · rw [h.put_frames_of_ne q hd] at hp
    obtain ⟨hown, r, hr, hrest⟩ := hr.leaf p leaf e hp hpleaf he
    refine ⟨hown, ?_⟩
    by_cases heq : e = d
    · exact ⟨q, by rw [heq, h.put_frames_self], hdone, hleaf⟩
    · exact ⟨r, by rw [h.put_frames_of_ne q heq, hr], hrest⟩

/-- A tree between two steps of its innermost worker `w`. This is the promise
invariant: the top knows its worker and its consumer, the worker knows the top,
and the promises between them hold whatever they held when they were left. -/
structure Tree (h : Heap V E O) (own : Set FrameId) (t : FrameId) (link : Link) (w : FrameId)
    (fs : List FrameId) (bs : List (Body V E)) : Prop where
  chain : Chain h t (w :: fs) bs
  nodup : (w :: fs).Nodup
  worker : ∃ p, h.frames t = some p ∧ p.current_worker = w ∧ p.link = link
  root : ∃ p, h.frames w = some p ∧ p.root = t
  owned : ∀ x ∈ w :: fs, x ∈ own
  bounded : ∀ x ∈ own, x < h.next_frame

/-- Only frames of `own` and new frames differ. -/
structure Framed (h h' : Heap V E O) (own : Set FrameId) : Prop where
  next_frame : h.next_frame ≤ h'.next_frame
  next_object : h.next_object ≤ h'.next_object
  frames : ∀ x, x < h.next_frame → x ∉ own → h'.frames x = h.frames x

/-- What a tree owns after it has allocated frames. -/
def grown (own : Set FrameId) (h h' : Heap V E O) : Set FrameId :=
  own ∪ Set.Ico h.next_frame h'.next_frame

omit [LeafObject O] in
theorem grown_trans (own : Set FrameId) {h₁ h₂ h₃ : Heap V E O}
    (h₁₂ : h₁.next_frame ≤ h₂.next_frame) (h₂₃ : h₂.next_frame ≤ h₃.next_frame) :
    grown (grown own h₁ h₂) h₂ h₃ = grown own h₁ h₃ := by
  rw [grown, grown, Set.union_assoc, Set.Ico_union_Ico_eq_Ico h₁₂ h₂₃, grown]

omit [LeafObject O] in
theorem grown_of_eq (own : Set FrameId) {h h' : Heap V E O} (heq : h'.next_frame = h.next_frame) :
    grown own h h' = own := by
  simp [grown, heq]

namespace Framed

variable {h h₁ h₂ h₃ : Heap V E O} {own own' : Set FrameId}

omit [LeafObject O] in
theorem refl (h : Heap V E O) (own : Set FrameId) : Framed h h own :=
  ⟨le_rfl, le_rfl, fun _ _ _ => rfl⟩

omit [LeafObject O] in
theorem mono (hf : Framed h₁ h₂ own) (hsub : own ⊆ own') : Framed h₁ h₂ own' :=
  ⟨hf.next_frame, hf.next_object, fun x hx hout => hf.frames x hx (fun hin => hout (hsub hin))⟩

omit [LeafObject O] in
theorem trans (h₁₂ : Framed h₁ h₂ own) (h₂₃ : Framed h₂ h₃ (grown own h₁ h₂)) :
    Framed h₁ h₃ own := by
  refine ⟨h₁₂.next_frame.trans h₂₃.next_frame, h₁₂.next_object.trans h₂₃.next_object, ?_⟩
  intro x hx hout
  have hout' : x ∉ grown own h₁ h₂ := by
    rintro (hin | ⟨hle, -⟩)
    · exact hout hin
    · exact absurd hle (not_le_of_gt hx)
  exact (h₂₃.frames x (hx.trans_le h₁₂.next_frame) hout').trans (h₁₂.frames x hx hout)

omit [LeafObject O] in
theorem put (hf : Framed h h₁ own) {f : FrameId} (p : Frame V E O) (hmem : f ∈ own) :
    Framed h (h₁.put f p) own := by
  refine ⟨hf.next_frame, hf.next_object, fun x hx hout => ?_⟩
  have hne : x ≠ f := fun heq => hout (heq ▸ hmem)
  rw [h₁.put_frames_of_ne p hne, hf.frames x hx hout]

omit [LeafObject O] in
theorem free (hf : Framed h h₁ own) {f : FrameId} (hmem : f ∈ own) : Framed h (h₁.free f) own := by
  refine ⟨hf.next_frame, hf.next_object, fun x hx hout => ?_⟩
  have hne : x ≠ f := fun heq => hout (heq ▸ hmem)
  rw [h₁.free_frames_of_ne hne, hf.frames x hx hout]

omit [LeafObject O] in
theorem of_frames (hf : Framed h h₁ own) (hframes : h₂.frames = h₁.frames)
    (hnf : h₂.next_frame = h₁.next_frame) (hno : h₂.next_object = h₁.next_object) : Framed h h₂ own := by
  refine ⟨hf.next_frame.trans_eq hnf.symm, hf.next_object.trans_eq hno.symm, fun x hx hout => ?_⟩
  rw [hframes, hf.frames x hx hout]

end Framed

/-- Frames agree up to the two pointers that are repaired lazily. -/
structure Repointed (h h' : Heap V E O) : Prop where
  core : ∀ x, (h'.frames x).map Frame.core = (h.frames x).map Frame.core
  objects : h'.objects = h.objects
  next_frame : h'.next_frame = h.next_frame
  next_object : h'.next_object = h.next_object

namespace Repointed

variable {h h₁ h₂ : Heap V E O}

omit [LeafObject O] in
theorem refl (h : Heap V E O) : Repointed h h := ⟨fun _ => rfl, rfl, rfl, rfl⟩

omit [LeafObject O] in
theorem put {f : FrameId} {p q : Frame V E O} (hr : Repointed h h₁) (hp : h₁.frames f = some p)
    (hcore : q.core = p.core) : Repointed h (h₁.put f q) := by
  refine ⟨fun x => ?_, hr.objects, hr.next_frame, hr.next_object⟩
  by_cases hx : x = f
  · subst hx
    rw [h₁.put_frames_self, Option.map_some, hcore, ← hr.core x, hp, Option.map_some]
  · rw [h₁.put_frames_of_ne q hx, hr.core x]

omit [LeafObject O] in
theorem frame {f : FrameId} {p : Frame V E O} (hr : Repointed h h₁) (hp : h.frames f = some p) :
    ∃ q, h₁.frames f = some q ∧ q.core = p.core := by
  have hcore := hr.core f
  rw [hp, Option.map_some] at hcore
  exact Option.map_eq_some_iff.mp hcore

end Repointed

omit [LeafObject O] in
/-- What `skip_this_leaf` does, also when the owner is the root itself. -/
theorem skip_this_leaf_spec {h : Heap V E O} {this r o : FrameId} {p po pr : Frame V E O}
    (hp : h.frames this = some p) (hroot : p.root = r) (hlink : p.link = .owner o)
    (hr : r ≠ this) (ho : o ≠ this) (hpo : h.frames o = some po) (hpr : h.frames r = some pr) :
    ∃ h', skip_this_leaf h this = some h' ∧ Repointed h h' ∧
      (∃ q, h'.frames o = some q ∧ q.root = r) ∧ (∃ q, h'.frames r = some q ∧ q.current_worker = o) ∧
      ∀ x, x ≠ o → x ≠ r → h'.frames x = h.frames x := by
  have h₁ := Repointed.put (Repointed.refl h) (q := { po with root := r }) hpo rfl
  obtain ⟨pr', hpr', -⟩ := h₁.frame hpr
  have h₂ := Repointed.put h₁ (q := { pr' with current_worker := o }) hpr' rfl
  refine ⟨(h.put o { po with root := r }).put r { pr' with current_worker := o }, ?_, h₂, ?_, ?_, ?_⟩
  · simp only [skip_this_leaf, hp, Option.bind_eq_bind, Option.bind_some, hroot, hr, ↓reduceIte, hlink, ho,
      Heap.modify_eq hpo, Heap.modify_eq hpr']
  · by_cases heq : o = r
    · subst heq
      obtain rfl : pr' = { po with root := o } :=
        Option.some.inj (hpr'.symm.trans (h.put_frames_self o _))
      exact ⟨_, Heap.put_frames_self _ _ _, rfl⟩
    · exact ⟨{ po with root := r }, by rw [Heap.put_frames_of_ne _ _ heq, Heap.put_frames_self], rfl⟩
  · exact ⟨_, Heap.put_frames_self _ _ _, rfl⟩
  · intro x hxo hxr
    rw [Heap.put_frames_of_ne _ _ hxr, Heap.put_frames_of_ne _ _ hxo]

/-- The four writes of `attach_leaf::await_suspend`, one after another. -/
theorem attach_leaf.await_suspend_eq {h h₁ h₂ h₃ : Heap V E O} {w lt r : FrameId}
    {p plt q₂ q₃ : Frame V E O} {leaf : O} (hp : h.frames w = some p) (hleaf : p.leaf = some leaf)
    (htop : top leaf = some lt) (hne : w ≠ lt) (hroot : p.root = r) (hplt : h.frames lt = some plt)
    (hmod₁ : h.modify plt.current_worker ({ · with root := r }) = some h₁)
    (hmod₂ : h₁.modify lt ({ · with link := .owner w }) = some h₂) (hq₂ : h₂.frames lt = some q₂)
    (hmod₃ : h₂.modify r ({ · with current_worker := q₂.current_worker }) = some h₃)
    (hq₃ : h₃.frames lt = some q₃) :
    attach_leaf.await_suspend h w = some (h₃, q₃.current_worker) := by
  simp only [attach_leaf.await_suspend, Heap.object, hp, Option.bind_eq_bind, Option.bind_some, hleaf,
    htop, hne, ↓reduceIte, hplt, hroot, hmod₁, hmod₂, hq₂, hmod₃, hq₃]

namespace Tree

variable {h h' : Heap V E O} {own lown other : Set FrameId} {t lt w lw o : FrameId} {link llink : Link}
  {fs lfs : List FrameId} {b : Body V E} {bs lbs : List (Body V E)}

theorem top_mem (ht : Tree h own t link w fs bs) : t ∈ w :: fs := ht.chain.top_mem

/-- A new coroutine is a tree of one frame. -/
theorem single {p : Frame V E O} (hp : h.frames t = some p) (hroot : p.root = t) (hcw : p.current_worker = t)
    (hdone : p.done = false) (howned : t ∈ own) (hbounded : ∀ x ∈ own, x < h.next_frame) :
    Tree h own t p.link t [] [p.body] where
  chain := .top hp hdone
  nodup := by simp
  worker := ⟨p, hp, hcw, rfl⟩
  root := ⟨p, hp, hroot⟩
  owned x hx := by
    obtain rfl := List.mem_singleton.mp hx
    exact howned
  bounded := hbounded

/-- Frames that do not exist yet are not part of a tree. -/
theorem disjoint_fresh (ht : Tree h own t link w fs bs) (n : FrameId) :
    Disjoint own (Set.Ico h.next_frame n) :=
  Set.disjoint_left.mpr fun x hx hfresh => not_le_of_gt (ht.bounded x hx) hfresh.1

/-- Only the frames of the chain are looked at. -/
theorem of_same (ht : Tree h own t link w fs bs) (hsame : ∀ x ∈ w :: fs, h'.frames x = h.frames x)
    (hnext : h.next_frame ≤ h'.next_frame) : Tree h' own t link w fs bs := by
  obtain ⟨p, hp, hworker⟩ := ht.worker
  obtain ⟨q, hq, hroot⟩ := ht.root
  refine ⟨ht.chain.congr fun x hx => by rw [hsame x hx], ht.nodup, ⟨p, ?_, hworker⟩,
    ⟨q, ?_, hroot⟩, ht.owned, fun x hx => (ht.bounded x hx).trans_le hnext⟩
  · rw [hsame t ht.top_mem, hp]
  · rw [hsame w (List.mem_cons_self ..), hq]

/-- A tree is not affected by steps that stay outside of it. -/
theorem of_framed (ht : Tree h own t link w fs bs) (hf : Framed h h' other)
    (hdisj : Disjoint own other) : Tree h' own t link w fs bs :=
  ht.of_same (fun x hx => hf.frames x (ht.bounded x (ht.owned x hx))
    (Set.disjoint_left.mp hdisj (ht.owned x hx))) hf.next_frame

theorem mono (ht : Tree h own t link w fs bs) (hsub : own ⊆ other)
    (hbounded : ∀ x ∈ other, x < h.next_frame) : Tree h other t link w fs bs :=
  ⟨ht.chain, ht.nodup, ht.worker, ht.root, fun x hx => hsub (ht.owned x hx), hbounded⟩

/-- The worker runs on: its body and its awaiter change, its pointers do not. -/
theorem put_worker {p q : Frame V E O} (ht : Tree h own t link w fs (b :: bs)) (hp : h.frames w = some p)
    (hroot : q.root = p.root) (hcw : q.current_worker = p.current_worker) (hlink : q.link = p.link)
    (hdone : q.done = false) : Tree (h.put w q) own t link w fs (q.body :: bs) := by
  have hw : w ∉ fs := (List.nodup_cons.mp ht.nodup).1
  refine ⟨ht.chain.set_head hp (h.put_frames_self w q) hdone hlink hw ?_, ht.nodup, ?_, ?_, ht.owned,
    ht.bounded⟩
  · intro x hx
    have hne : x ≠ w := fun heq => hw (heq ▸ hx)
    rw [h.put_frames_of_ne q hne]
  · obtain ⟨pt, hpt, hworker⟩ := ht.worker
    by_cases heq : t = w
    · subst heq
      obtain rfl : pt = p := Option.some.inj (hpt.symm.trans hp)
      exact ⟨q, h.put_frames_self t q, hcw.trans hworker.1, hlink.trans hworker.2⟩
    · exact ⟨pt, by rw [h.put_frames_of_ne q heq, hpt], hworker⟩
  · obtain ⟨pw, hpw, hroot'⟩ := ht.root
    obtain rfl : pw = p := Option.some.inj (hpw.symm.trans hp)
    exact ⟨q, h.put_frames_self w q, hroot.trans hroot'⟩

theorem of_frames (ht : Tree h own t link w fs bs) (hframes : h'.frames = h.frames)
    (hnf : h'.next_frame = h.next_frame) : Tree h' own t link w fs bs :=
  ht.of_same (fun x _ => by rw [hframes]) hnf.ge

/-- The worker runs on, and frames outside of the tree may change as well. -/
theorem of_worker {p q : Frame V E O} (ht : Tree h own t link w fs (b :: bs)) (hp : h.frames w = some p)
    (hq : h'.frames w = some q) (hroot : q.root = p.root) (hcw : q.current_worker = p.current_worker)
    (hlink : q.link = p.link) (hdone : q.done = false)
    (hsame : ∀ x ∈ fs, x ≠ w → h'.frames x = h.frames x) (hnext : h.next_frame ≤ h'.next_frame) :
    Tree h' own t link w fs (q.body :: bs) := by
  refine (ht.put_worker hp hroot hcw hlink hdone).of_same (fun x hx => ?_) hnext
  by_cases heq : x = w
  · rw [heq, hq, h.put_frames_self]
  · rw [hsame x ((List.mem_cons.mp hx).resolve_left heq) heq, h.put_frames_of_ne q heq]

/-- A tree that is not attached may get another consumer. -/
theorem relink {q : Frame V E O} (ht : Tree h own t link w fs bs) (hq : h.frames t = some q)
    (hq' : h'.frames t = some { q with link := llink })
    (hsame : ∀ x ∈ own, x ≠ t → h'.frames x = h.frames x) (hnext : h'.next_frame = h.next_frame) :
    Tree h' own t llink w fs bs := by
  obtain ⟨p, hp, hcw, -⟩ := ht.worker
  obtain ⟨pw, hpw, hroot⟩ := ht.root
  obtain rfl := Option.some.inj (hp.symm.trans hq)
  refine ⟨ht.chain.relink ht.nodup hp hq' rfl fun x hx hne => by rw [hsame x (ht.owned x hx) hne],
    ht.nodup, ⟨_, hq', hcw, rfl⟩, ?_, ht.owned, fun x hx => (ht.bounded x hx).trans_eq hnext.symm⟩
  by_cases heq : w = t
  · subst heq
    obtain rfl := Option.some.inj (hpw.symm.trans hp)
    exact ⟨_, hq', hroot⟩
  · exact ⟨pw, (hsame w (ht.owned w (List.mem_cons_self ..)) heq).trans hpw, hroot⟩

theorem free {d : FrameId} (ht : Tree h own t link w fs bs) (hd : d ∉ w :: fs) :
    Tree (h.free d) own t link w fs bs :=
  ht.of_same (fun _ hx => h.free_frames_of_ne fun heq => hd (heq ▸ hx)) le_rfl

/-- A resumed worker destroys the leaf it was suspended on before it runs on. -/
theorem leave {p : Frame V E O} (ht : Tree h own t link w fs bs) (hleft : Resumable h own w)
    (hp : h.frames w = some p) :
    ∃ h', Returns (fun n => leave_elements_of n h w) h' ∧ h'.frames w = some { p with leaf := none } ∧
      Tree h' own t link w fs bs ∧ Framed h h' own ∧ h'.objects = h.objects ∧
      h'.next_frame = h.next_frame ∧ h'.next_object = h.next_object := by
  obtain ⟨hdone, rest, rfl⟩ := ht.chain.head hp
  have hw := ht.owned w (List.mem_cons_self ..)
  cases hpl : p.leaf with
  | none =>
    have heq : { p with leaf := none } = p := by rw [← hpl]
    refine ⟨h, ⟨0, fun _ _ => ?_⟩, by rw [heq, hp], ht, Framed.refl h own, rfl, rfl, rfl⟩
    simp only [leave_elements_of, hp, Option.bind_eq_bind, Option.bind_some, hpl, Option.isSome_none,
      Bool.false_eq_true, ↓reduceIte]
  | some leaf =>
    have hobj : h.object (.awaiter w) = some leaf := by
      simp only [Heap.object, hp, Option.bind_some, hpl]
    cases htop : top leaf with
    | none =>
      refine ⟨h.put w { p with leaf := none }, ⟨1, fun n hn => ?_⟩, h.put_frames_self .., ?_, ?_, rfl, rfl,
        rfl⟩
      · obtain ⟨n, rfl⟩ : ∃ m, n = m + 1 := ⟨n - 1, by omega⟩
        simp only [leave_elements_of, hp, Option.bind_eq_bind, Option.bind_some, hpl, Option.isSome_some,
          ↓reduceIte, clear, hobj, htop, Heap.modify_eq hp]
      · exact ht.put_worker (q := { p with leaf := none }) hp rfl rfl rfl hdone
      · exact (Framed.refl h own).put _ hw
    | some d =>
      obtain ⟨hd, qd, hqd, hqdone, hqleaf⟩ := hleft.leaf p leaf d hp hpl htop
      have hout : d ∉ w :: fs := by
        intro hin
        obtain ⟨q, hq, hlive⟩ := ht.chain.live hin
        obtain rfl := Option.some.inj (hq.symm.trans hqd)
        rw [hqdone] at hlive
        cases hlive
      have hwd : w ≠ d := fun heq => hout (heq ▸ List.mem_cons_self ..)
      let p₁ : Frame V E O := { p with leaf := some (set_top leaf none) }
      let h₁ := h.put w p₁
      have hp₁ : h₁.frames w = some p₁ := h.put_frames_self w p₁
      have hqd₁ : h₁.frames d = some qd := by rw [h.put_frames_of_ne p₁ hwd.symm, hqd]
      have hp₂ : (h₁.free d).frames w = some p₁ := by rw [h₁.free_frames_of_ne hwd, hp₁]
      have hobj₂ : (h₁.free d).object (.awaiter w) = some (set_top leaf none) := by
        simp only [Heap.object, hp₂, Option.bind_some, p₁]
      refine ⟨(h₁.free d).put w { p₁ with leaf := none }, ⟨3, fun n hn => ?_⟩, Heap.put_frames_self .., ?_,
        ?_, rfl, rfl, rfl⟩
      · obtain ⟨n, rfl⟩ : ∃ m, n = m + 3 := ⟨n - 3, by omega⟩
        have hset : h.set_object (.awaiter w) (set_top leaf none) = some h₁ := Heap.modify_eq hp _
        have hdestroy : destroy (n + 2) h₁ d = some (h₁.free d) := by
          simp only [destroy, hqd₁, Option.bind_eq_bind, Option.bind_some, hqleaf, Option.isSome_none,
            Bool.false_eq_true, ↓reduceIte]
        have hagain : clear (n + 2) (h₁.free d) (.awaiter w) = some (h₁.free d) := by
          simp only [clear, hobj₂, Option.bind_eq_bind, Option.bind_some, top_set_top]
        have hclear : clear (n + 3) h (.awaiter w) = some (h₁.free d) := by
          rw [clear]
          simp only [hobj, Option.bind_eq_bind, Option.bind_some, htop, hset, hdestroy, hagain]
        simp only [leave_elements_of, hp, Option.bind_eq_bind, Option.bind_some, hpl, Option.isSome_some,
          ↓reduceIte, hclear, Heap.modify_eq hp₂]
      · have ht₁ : Tree h₁ own t link w fs (p.body :: rest) :=
          ht.put_worker (q := p₁) hp rfl rfl rfl hdone
        exact (ht₁.free hout).put_worker (q := { p₁ with leaf := none }) hp₂ rfl rfl rfl hdone
      · exact (((Framed.refl h own).put p₁ hw).free hd).put _ hw

/-- A leaf that is over hands its place to its owner, which learns the root only
now and finds the finished leaf in its awaiter. -/
theorem skip {p q : Frame V E O} (ht : Tree h own t link w (o :: fs) bs) (hp : h.frames w = some p)
    (hroot : q.root = p.root) (hlink : q.link = p.link) (hdone : q.done = true) (hleaf : q.leaf = none) :
    ∃ h', skip_this_leaf (h.put w q) w = some h' ∧ owner h' w = some o ∧ h'.frames w = some q ∧
      Tree h' own t link o fs bs.tail ∧ Resumable h' own o ∧ Framed h h' own ∧
      h'.objects = h.objects ∧ h'.next_frame = h.next_frame ∧ h'.next_object = h.next_object := by
  obtain ⟨hw, hnodup⟩ := List.nodup_cons.mp ht.nodup
  obtain ⟨pw, hpw, hpwroot⟩ := ht.root
  obtain rfl : pw = p := Option.some.inj (hpw.symm.trans hp)
  obtain ⟨pt, hpt, -, htlink⟩ := ht.worker
  have hchain := ht.chain
  cases hchain with
  | @leaf _ _ p' po leaf _ bs' hp' _ howner hpo hpopull hpoleaf htop hrest =>
    obtain rfl : p' = pw := Option.some.inj (hp'.symm.trans hp)
    have hto : t ∈ o :: fs := hrest.top_mem
    have htw : t ≠ w := fun heq => hw (heq ▸ hto)
    have how : o ≠ w := fun heq => hw (heq ▸ List.mem_cons_self ..)
    have hput : ∀ x, x ≠ w → (h.put w q).frames x = h.frames x := fun x hx =>
      h.put_frames_of_ne q hx
    obtain ⟨h', hskip, hrep, horoot, htcw, hother⟩ := skip_this_leaf_spec (h.put_frames_self w q)
      (hroot.trans hpwroot) (hlink.trans howner) htw how ((hput o how).trans hpo) ((hput t htw).trans hpt)
    have hwq : h'.frames w = some q := by
      rw [hother w how.symm htw.symm, Heap.put_frames_self]
    have hcore : ∀ x ∈ o :: fs, (h'.frames x).map Frame.core = (h.frames x).map Frame.core := by
      intro x hx
      have hne : x ≠ w := fun heq => hw (heq ▸ hx)
      rw [hrep.core x, hput x hne]
    refine ⟨h', hskip, ?_, hwq, ⟨hrest.congr hcore, hnodup, ?_, horoot, ?_, ?_⟩, ?_, ?_,
      hrep.objects, hrep.next_frame, hrep.next_object⟩
    · simp only [owner, hwq, Option.bind_eq_bind, Option.bind_some, hroot.trans hpwroot, htw, ↓reduceIte,
        hlink.trans howner]
    · obtain ⟨qt, hqt, hcw⟩ := htcw
      obtain ⟨qt', hqt', hqtcore⟩ := hrep.frame ((hput t htw).trans hpt)
      obtain rfl : qt' = qt := Option.some.inj (hqt'.symm.trans hqt)
      obtain ⟨-, -, hqtlink, -⟩ := Frame.mk.inj hqtcore
      exact ⟨qt', hqt, hcw, hqtlink.trans htlink⟩
    · exact fun x hx => ht.owned x (List.mem_cons_of_mem _ hx)
    · exact fun x hx => (ht.bounded x hx).trans_eq hrep.next_frame.symm
    · obtain ⟨qo, hqo, hqocore⟩ := hrep.frame ((hput o how).trans hpo)
      obtain ⟨-, -, -, -, -, hleaf', hpull'⟩ := Frame.mk.inj hqocore
      refine ⟨fun r hr => ?_, fun r leaf' d hr hqoleaf hd => ?_⟩
      · obtain rfl := Option.some.inj (hr.symm.trans hqo)
        exact hpull'.trans hpopull
      obtain rfl := Option.some.inj (hr.symm.trans hqo)
      obtain rfl : leaf' = leaf := by
        have := hqoleaf.symm.trans (hleaf'.trans hpoleaf)
        exact Option.some.inj this
      obtain rfl : d = w := Option.some.inj (hd.symm.trans htop)
      exact ⟨ht.owned d (List.mem_cons_self ..), q, hwq, hdone, hleaf⟩
    · refine ⟨hrep.next_frame.ge, hrep.next_object.ge, fun x _ hout => ?_⟩
      have hxw : x ≠ w := fun heq => hout (heq ▸ ht.owned w (List.mem_cons_self ..))
      have hxo : x ≠ o := fun heq => hout (heq ▸ ht.owned o (by simp))
      have hxt : x ≠ t := fun heq => hout (heq ▸ ht.owned t ht.top_mem)
      rw [hother x hxo hxt, hput x hxw]

/-- Attaching a leaf whose innermost worker may be any number of levels below
its top: only that worker learns the root, and only the top of the leaf learns
the owner. -/
theorem attach {p : Frame V E O} {leaf : O} (ht : Tree h own t link w fs bs) (hp : h.frames w = some p)
    (hpull : p.pulling = none) (hleaf : p.leaf = some leaf) (htop : top leaf = some lt)
    (hl : Tree h lown lt llink lw lfs lbs) (hdisj : Disjoint own lown) :
    ∃ h', attach_leaf.await_suspend h w = some (h', lw) ∧
      Tree h' (own ∪ lown) t link lw (lfs ++ w :: fs) (lbs ++ bs) ∧
      (Resumable h lown lw → Resumable h' (own ∪ lown) lw) ∧ Framed h h' (own ∪ lown) ∧
      h'.objects = h.objects ∧ h'.next_frame = h.next_frame ∧ h'.next_object = h.next_object := by
  have hsep : ∀ x y, x ∈ own → y ∈ lown → x ≠ y := fun x y hx hy heq =>
    Set.disjoint_left.mp hdisj hx (heq ▸ hy)
  have hwown := ht.owned w (List.mem_cons_self ..)
  have htown := ht.owned t ht.top_mem
  have hlwown := hl.owned lw (List.mem_cons_self ..)
  have hltown := hl.owned lt hl.top_mem
  obtain ⟨plt, hplt, hpltcw, -⟩ := hl.worker
  obtain ⟨plw, hplw, -⟩ := hl.root
  obtain ⟨pt, hpt, -, htlink⟩ := ht.worker
  obtain ⟨pw, hpw, hpwroot⟩ := ht.root
  obtain rfl : pw = p := Option.some.inj (hpw.symm.trans hp)
  -- `leaf_p.current_worker.promise().root = &root_p`
  have hrep := Repointed.put (Repointed.refl h) (q := { plw with root := t }) hplw rfl
  obtain ⟨plt₁, hplt₁, hplt₁core⟩ := hrep.frame hplt
  have hplt₁cw : plt₁.current_worker = lw := by
    by_cases heq : lt = lw
    · subst heq
      obtain rfl : plt₁ = { plw with root := t } :=
        Option.some.inj (hplt₁.symm.trans (h.put_frames_self lt _))
      obtain rfl : plw = plt := Option.some.inj (hplw.symm.trans hplt)
      exact hpltcw
    · rw [h.put_frames_of_ne _ heq] at hplt₁
      obtain rfl : plt₁ = plt := Option.some.inj (hplt₁.symm.trans hplt)
      exact hpltcw
  -- `leaf_p._owner = owner`
  let h₂ := (h.put lw { plw with root := t }).put lt { plt₁ with link := .owner w }
  have hplt₂ : h₂.frames lt = some { plt₁ with link := .owner w } := Heap.put_frames_self _ _ _
  have hown₂ : ∀ x ∈ own, h₂.frames x = h.frames x := by
    intro x hx
    rw [Heap.put_frames_of_ne _ _ (hsep x lt hx hltown), Heap.put_frames_of_ne _ _ (hsep x lw hx hlwown)]
  have hpt₂ : h₂.frames t = some pt := (hown₂ t htown).trans hpt
  -- `root_p.current_worker = leaf_p.current_worker`
  let h₃ := h₂.put t { pt with current_worker := lw }
  have hne : lt ≠ t := (hsep t lt htown hltown).symm
  have hplt₃ : h₃.frames lt = some { plt₁ with link := .owner w } := by
    rw [Heap.put_frames_of_ne _ _ hne, hplt₂]
  have hrep₃ : Repointed h₂ h₃ := (Repointed.refl h₂).put hpt₂ rfl
  have hcore : ∀ x, x ≠ lt → (h₃.frames x).map Frame.core = (h.frames x).map Frame.core := by
    intro x hx
    rw [hrep₃.core x, ← hrep.core x, Heap.put_frames_of_ne _ _ hx]
  have hshape : ∀ x q, h.frames x = some q →
      ∃ q', h₃.frames x = some q' ∧ q'.done = q.done ∧ q'.leaf = q.leaf ∧ q'.pulling = q.pulling := by
    intro x q hq
    by_cases hx : x = lt
    · subst hx
      obtain rfl : q = plt := Option.some.inj (hq.symm.trans hplt)
      obtain ⟨-, -, -, -, hdone, hqleaf, hqpull⟩ := Frame.mk.inj hplt₁core
      exact ⟨_, hplt₃, hdone, hqleaf, hqpull⟩
    · have hxcore := hcore x hx
      rw [hq, Option.map_some] at hxcore
      obtain ⟨q', hq', hqcore⟩ := Option.map_eq_some_iff.mp hxcore
      obtain ⟨-, -, -, -, hdone, hqleaf, hqpull⟩ := Frame.mk.inj hqcore
      exact ⟨q', hq', hdone, hqleaf, hqpull⟩
  have hwlt : w ≠ lt := hsep w lt hwown hltown
  obtain ⟨pw₃, hpw₃, hpw₃core⟩ := Option.map_eq_some_iff.mp
    ((hcore w hwlt).trans (by rw [hp, Option.map_some]))
  obtain ⟨-, -, -, -, -, hpw₃leaf, hpw₃pull⟩ := Frame.mk.inj hpw₃core
  have houter : Chain h₃ t (w :: fs) bs := ht.chain.congr fun x hx =>
    hcore x (hsep x lt (ht.owned x hx) hltown)
  refine ⟨h₃, ?_, ⟨?_, ?_, ?_, ?_, ?_, ?_⟩, ?_, ?_, rfl, rfl, rfl⟩
  · have hmod₁ := Heap.modify_eq hplw (fun q => { q with root := t })
    have hmod₃ := Heap.modify_eq hpt₂ (fun q => { q with current_worker := lw })
    rw [← hpltcw] at hmod₁
    rw [← hplt₁cw] at hmod₃
    rw [attach_leaf.await_suspend_eq hp hleaf htop hwlt hpwroot hplt hmod₁
      (by rw [hpltcw]; exact Heap.modify_eq hplt₁ _) hplt₂ hmod₃ (by rw [hplt₁cw]; exact hplt₃)]
    simp only [hplt₁cw, h₃]
  · have hcoreTop : Frame.core { plt₁ with link := .owner w } = Frame.core { plt with link := .owner w } := by
      obtain ⟨-, -, -, hbody, hdone, hpleaf, hpulling⟩ := Frame.mk.inj hplt₁core
      simp only [Frame.core, hbody, hdone, hpleaf, hpulling]
    have hleafChain : Chain h₃ lt (lw :: lfs) lbs :=
      hl.chain.relink hl.nodup hplt hplt₃ hcoreTop (fun x _ hx => hcore x hx)
    exact hleafChain.append hplt₃ rfl hpw₃ (hpw₃pull.trans hpull) (hpw₃leaf.trans hleaf) htop houter
  · refine List.nodup_append.mpr ⟨hl.nodup, ht.nodup, ?_⟩
    exact fun x hx y hy => (hsep y x (ht.owned y hy) (hl.owned x hx)).symm
  · exact ⟨_, Heap.put_frames_self _ _ _, rfl, htlink⟩
  · have hlwt : lw ≠ t := (hsep t lw htown hlwown).symm
    by_cases heq : lw = lt
    · subst heq
      obtain rfl : plt₁ = { plw with root := t } :=
        Option.some.inj (hplt₁.symm.trans (h.put_frames_self lw _))
      exact ⟨_, hplt₃, rfl⟩
    · refine ⟨{ plw with root := t }, ?_, rfl⟩
      rw [Heap.put_frames_of_ne _ _ hlwt, Heap.put_frames_of_ne _ _ heq, Heap.put_frames_self]
  · intro x hx
    rcases List.mem_append.mp (show x ∈ (lw :: lfs) ++ w :: fs from hx) with hx | hx
    · exact Or.inr (hl.owned x hx)
    · exact Or.inl (ht.owned x hx)
  · rintro x (hx | hx)
    · exact ht.bounded x hx
    · exact hl.bounded x hx
  · intro hfin
    obtain ⟨q', hq', -, hq'leaf, hq'pull⟩ := hshape lw plw hplw
    refine ⟨fun q hq => ?_, fun q leaf' d hq hqleaf hd => ?_⟩
    · obtain rfl : q' = q := Option.some.inj (hq'.symm.trans hq)
      exact hq'pull.trans (hfin.pulling plw hplw)
    obtain rfl : q' = q := Option.some.inj (hq'.symm.trans hq)
    obtain ⟨hdown, qd, hqd, hqddone, hqdleaf⟩ := hfin.leaf plw leaf' d hplw (hq'leaf.symm.trans hqleaf) hd
    obtain ⟨qd', hqd', hdone', hleaf', -⟩ := hshape d qd hqd
    exact ⟨Or.inr hdown, qd', hqd', hdone'.trans hqddone, hleaf'.trans hqdleaf⟩
  · refine ⟨le_rfl, le_rfl, fun x _ hout => ?_⟩
    have hxt : x ≠ t := fun heq => hout (heq ▸ Or.inl htown)
    have hxlt : x ≠ lt := fun heq => hout (heq ▸ Or.inr hltown)
    have hxlw : x ≠ lw := fun heq => hout (heq ▸ Or.inr hlwown)
    rw [Heap.put_frames_of_ne _ _ hxt, Heap.put_frames_of_ne _ _ hxlt, Heap.put_frames_of_ne _ _ hxlw]

end Tree

end kelcoro.generators_common
