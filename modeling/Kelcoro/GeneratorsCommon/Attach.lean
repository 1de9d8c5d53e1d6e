import Kelcoro.GeneratorsCommon.Remaining
import Kelcoro.GeneratorsCommon.Tree

namespace kelcoro.generators_common

open LeafObject Remaining

variable {V E O : Type} [LeafObject O]

/-- The leaf in an awaiter, before it is attached: it may be over, not started,
or suspended at any depth. -/
def LeafTree (h : Heap V E O) (lown : Set FrameId) (lt : FrameId) : Remaining V E → Prop
  | none => lt ∈ lown ∧ (∀ x ∈ lown, x < h.next_frame) ∧
      ∃ q, h.frames lt = some q ∧ q.done = true ∧ q.leaf = none
  | some lbs => ∃ link lw lfs, Tree h lown lt link lw lfs lbs ∧ Resumable h lown lw

/-- `co_await` of an object without a coroutine suspends nothing. -/
theorem co_await_leaf_of_none {h : Heap V E O} {w : FrameId} {p : Frame V E O} {leaf : O}
    (hp : h.frames w = some p) (hleaf : p.leaf = some leaf) (htop : top leaf = none) :
    co_await_leaf h w = some (h, w) := by
  have hready : attach_leaf.await_ready h w = some true := by
    simp only [attach_leaf.await_ready, empty, Heap.object, hp, Option.bind_eq_bind, Option.bind_some, hleaf,
      htop]
  simp only [co_await_leaf, hready, Option.bind_eq_bind, Option.bind_some, ↓reduceIte]

namespace LeafTree

variable {h h' : Heap V E O} {own lown : Set FrameId} {lt : FrameId} {st : Remaining V E}

theorem frame (hl : LeafTree h lown lt st) : ∃ q, h.frames lt = some q ∧ q.done = st.isNone := by
  cases st with
  | none =>
    obtain ⟨-, -, q, hq, hdone, -⟩ := hl
    exact ⟨q, hq, hdone⟩
  | some lbs =>
    obtain ⟨_, _, _, ht, -⟩ := hl
    exact ht.chain.live ht.top_mem

theorem top_mem (hl : LeafTree h lown lt st) : lt ∈ lown := by
  cases st with
  | none => exact hl.1
  | some lbs =>
    obtain ⟨_, _, _, ht, -⟩ := hl
    exact ht.owned lt ht.top_mem

theorem empty_eq {i : Nat} (hl : LeafTree h lown lt st) (htop : top (h.objects i) = some lt) :
    empty h (.object i) = some st.isNone := by
  obtain ⟨q, hq, hdone⟩ := hl.frame
  simp only [empty, Heap.object, Option.bind_eq_bind, Option.bind_some, htop, hq, Option.map_some, hdone]

theorem bounded (hl : LeafTree h lown lt st) : ∀ x ∈ lown, x < h.next_frame := by
  cases st with
  | none => exact hl.2.1
  | some lbs =>
    obtain ⟨_, _, _, ht, -⟩ := hl
    exact ht.bounded

/-- A leaf needs no frames but those that were not freed. -/
theorem live_only (hl : LeafTree h lown lt st) : LeafTree h (lown ∩ {x | h.frames x ≠ none}) lt st := by
  cases st with
  | none =>
    obtain ⟨hmem, hbounded, q, hq, hover⟩ := hl
    exact ⟨⟨hmem, fun hnone => by rw [hq] at hnone; cases hnone⟩, fun x hx => hbounded x hx.1, q, hq, hover⟩
  | some lbs =>
    obtain ⟨link, lw, lfs, ht, hres⟩ := hl
    refine ⟨link, lw, lfs, ⟨ht.chain, ht.nodup, ht.worker, ht.root, fun x hx => ⟨ht.owned x hx, fun hnone => ?_⟩,
      fun x hx => ht.bounded x hx.1⟩, hres.pulling, fun p leaf d hp hleaf hd => ?_⟩
    · obtain ⟨q, hq, -⟩ := ht.chain.live hx
      rw [hq] at hnone
      cases hnone
    · obtain ⟨hd, q, hq, hover⟩ := hres.leaf p leaf d hp hleaf hd
      exact ⟨⟨hd, fun hnone => by rw [hq] at hnone; cases hnone⟩, q, hq, hover⟩

/-- A leaf is not affected by steps that stay outside of it. -/
theorem of_same (hl : LeafTree h lown lt st) (hsame : ∀ x ∈ lown, h'.frames x = h.frames x)
    (hnext : h.next_frame ≤ h'.next_frame) : LeafTree h' lown lt st := by
  cases st with
  | none =>
    obtain ⟨hmem, hbounded, q, hq, hover⟩ := hl
    exact ⟨hmem, fun x hx => (hbounded x hx).trans_le hnext, q, (hsame lt hmem).trans hq, hover⟩
  | some lbs =>
    obtain ⟨link, lw, lfs, ht, hres⟩ := hl
    exact ⟨link, lw, lfs, ht.of_same (fun x hx => hsame x (ht.owned x hx)) hnext,
      hres.of_same (ht.owned lw (List.mem_cons_self ..)) hsame⟩

/-- Moving the object re-points at most the link of the top. -/
theorem relink {q : Frame V E O} {link : Link} (hl : LeafTree h lown lt st) (hq : h.frames lt = some q)
    (hq' : h'.frames lt = some { q with link }) (hsame : ∀ x ∈ lown, x ≠ lt → h'.frames x = h.frames x)
    (hnext : h'.next_frame = h.next_frame) : LeafTree h' lown lt st := by
  cases st with
  | none =>
    obtain ⟨hmem, hbounded, r, hr, hdone, hleaf⟩ := hl
    obtain rfl := Option.some.inj (hr.symm.trans hq)
    exact ⟨hmem, fun x hx => (hbounded x hx).trans_eq hnext.symm, _, hq', hdone, hleaf⟩
  | some lbs =>
    obtain ⟨_, lw, lfs, ht, hfin⟩ := hl
    exact ⟨link, lw, lfs, ht.relink hq hq' hsame hnext, hfin.relink (ht.owned lw (List.mem_cons_self ..)) hq hq' hsame⟩

/-- The whole `co_await attach_leaf`, whatever the leaf still has to do. -/
theorem co_await {p : Frame V E O} {leaf : O} {link : Link} {t w : FrameId} {fs : List FrameId}
    {bs : List (Body V E)} (hl : LeafTree h lown lt st) (ht : Tree h own t link w fs bs)
    (hp : h.frames w = some p) (hpull : p.pulling = none) (hleaf : p.leaf = some leaf)
    (htop : top leaf = some lt) (hdisj : Disjoint own lown) :
    ∃ h' w' fs' lbs, co_await_leaf h w = some (h', w') ∧
      Tree h' (own ∪ lown) t link w' fs' (lbs ++ bs) ∧ Resumable h' (own ∪ lown) w' ∧
      pending (some lbs) = pending st ∧ work (some lbs) = work st ∧ Framed h h' (own ∪ lown) ∧
      h'.objects = h.objects ∧ h'.next_frame = h.next_frame ∧ h'.next_object = h.next_object := by
  obtain ⟨q, hq, hdone⟩ := hl.frame
  have hready : attach_leaf.await_ready h w = some st.isNone := by
    simp only [attach_leaf.await_ready, empty, Heap.object, hp, Option.bind_eq_bind, Option.bind_some, hleaf,
      htop, hq, Option.map_some, hdone]
  simp only [co_await_leaf, hready, Option.bind_eq_bind, Option.bind_some]
  cases st with
  | none =>
    obtain ⟨hmem, hbounded, qd, hqd, hqdone, hqleaf⟩ := hl
    have ht' : Tree h (own ∪ lown) t link w fs bs :=
      ht.mono Set.subset_union_left fun x hx => hx.elim (ht.bounded x) (hbounded x)
    refine ⟨h, w, fs, [], rfl, ht', ?_, rfl, rfl, .refl h _, rfl, rfl, rfl⟩
    refine ⟨fun r hr => ?_, fun r leaf' d hr hrleaf hd => ?_⟩
    · obtain rfl := Option.some.inj (hr.symm.trans hp)
      exact hpull
    obtain rfl := Option.some.inj (hr.symm.trans hp)
    obtain rfl := Option.some.inj (hrleaf.symm.trans hleaf)
    obtain rfl := Option.some.inj (hd.symm.trans htop)
    exact ⟨Or.inr hmem, qd, hqd, hqdone, hqleaf⟩
  | some lbs =>
    obtain ⟨_, lw, lfs, hlt, hfin⟩ := hl
    obtain ⟨h', hsuspend, ht', hfin', hframed, hobjects, hnf, hno⟩ := ht.attach hp hpull hleaf htop hlt hdisj
    exact ⟨h', lw, lfs ++ w :: fs, lbs, hsuspend, ht', hfin' hfin, rfl, rfl, hframed, hobjects, hnf, hno⟩

end LeafTree

end kelcoro.generators_common
