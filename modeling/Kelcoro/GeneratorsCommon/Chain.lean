import Kelcoro.GeneratorsCommon.Heap

namespace kelcoro.generators_common

open LeafObject

variable {V E O : Type} [LeafObject O]

/-- The frames from the innermost worker up to the top coroutine `t`, with the
bodies they still have to run. Each frame but the last is the top of the leaf
its owner holds, and is suspended on. Nothing is said about `root` and `current_worker`: in the
middle of a chain both may be stale. -/
inductive Chain (h : Heap V E O) (t : FrameId) : List FrameId → List (Body V E) → Prop
  | top {p : Frame V E O} (hp : h.frames t = some p) (hdone : p.done = false) :
      Chain h t [t] [p.body]
  | leaf {f o : FrameId} {p po : Frame V E O} {leaf : O} {fs : List FrameId} {bs : List (Body V E)}
      (hp : h.frames f = some p) (hdone : p.done = false) (hlink : p.link = .owner o)
      (hpo : h.frames o = some po) (hpull : po.pulling = none) (hleaf : po.leaf = some leaf)
      (htop : LeafObject.top leaf = some f) (hrest : Chain h t (o :: fs) bs) : Chain h t (f :: o :: fs) (p.body :: bs)

namespace Chain

variable {h h' : Heap V E O} {t : FrameId} {fs : List FrameId} {bs : List (Body V E)}

theorem top_mem (hc : Chain h t fs bs) : t ∈ fs := by
  induction hc with
  | top => exact List.mem_singleton_self t
  | leaf _ _ _ _ _ _ _ _ ih => exact List.mem_cons_of_mem _ ih

theorem length_eq (hc : Chain h t fs bs) : bs.length = fs.length := by
  induction hc with
  | top => rfl
  | leaf _ _ _ _ _ _ _ _ ih => simp only [List.length_cons, ih]

theorem live (hc : Chain h t fs bs) {x : FrameId} (hx : x ∈ fs) :
    ∃ p, h.frames x = some p ∧ p.done = false := by
  induction hc with
  | top hp hdone =>
    obtain rfl := List.mem_singleton.mp hx
    exact ⟨_, hp, hdone⟩
  | leaf hp hdone _ _ _ _ _ _ ih =>
    rcases List.mem_cons.mp hx with rfl | hx
    · exact ⟨_, hp, hdone⟩
    · exact ih hx

theorem head {w : FrameId} {p : Frame V E O} (hc : Chain h t (w :: fs) bs) (hp : h.frames w = some p) :
    p.done = false ∧ ∃ rest, bs = p.body :: rest := by
  cases hc with
  | top hp' hdone =>
    obtain rfl := Option.some.inj (hp'.symm.trans hp)
    exact ⟨hdone, [], rfl⟩
  | leaf hp' hdone _ _ _ _ _ _ =>
    obtain rfl := Option.some.inj (hp'.symm.trans hp)
    exact ⟨hdone, _, rfl⟩

/-- The pointers that may be stale are not part of the chain. -/
theorem congr (hc : Chain h t fs bs)
    (hsame : ∀ x ∈ fs, (h'.frames x).map Frame.core = (h.frames x).map Frame.core) :
    Chain h' t fs bs := by
  have hread : ∀ x ∈ fs, ∀ p, h.frames x = some p → ∃ q, h'.frames x = some q ∧ q.core = p.core := by
    intro x hx p hp
    have hmap := hsame x hx
    rw [hp, Option.map_some] at hmap
    exact Option.map_eq_some_iff.mp hmap
  induction hc with
  | @top p hp hdone =>
    obtain ⟨q, hq, hcore⟩ := hread t (List.mem_singleton_self t) p hp
    obtain ⟨-, -, -, hbody, hdone', -, -⟩ := Frame.mk.inj hcore
    rw [← hbody]
    exact .top hq (hdone'.trans hdone)
  | @leaf f o p po leaf fs bs hp hdone hlink hpo hpull hleaf htop _ ih =>
    have ho : o ∈ f :: o :: fs := by simp
    obtain ⟨q, hq, hcore⟩ := hread f (List.mem_cons_self ..) p hp
    obtain ⟨-, -, hlink', hbody, hdone', -, -⟩ := Frame.mk.inj hcore
    obtain ⟨qo, hqo, hocore⟩ := hread o ho po hpo
    obtain ⟨-, -, -, -, -, hleaf', hpull'⟩ := Frame.mk.inj hocore
    rw [← hbody]
    exact .leaf hq (hdone'.trans hdone) (hlink'.trans hlink) hqo (hpull'.trans hpull) (hleaf'.trans hleaf) htop
      (ih (fun x hx => hsame x (List.mem_cons_of_mem _ hx))
        (fun x hx => hread x (List.mem_cons_of_mem _ hx)))

/-- The worker's own body is not looked at by the frames above it. -/
theorem set_head {w : FrameId} {p q : Frame V E O} {b : Body V E} (hc : Chain h t (w :: fs) (b :: bs))
    (hp : h.frames w = some p) (hnew : h'.frames w = some q) (hdone : q.done = false)
    (hlink : q.link = p.link) (hw : w ∉ fs)
    (hsame : ∀ x ∈ fs, (h'.frames x).map Frame.core = (h.frames x).map Frame.core) :
    Chain h' t (w :: fs) (q.body :: bs) := by
  cases hc with
  | top _ _ => exact .top hnew hdone
  | @leaf _ o p' po leaf fs _ hp' _ hlink' hpo hpull hleaf htop hrest =>
    obtain rfl : p' = p := Option.some.inj (hp'.symm.trans hp)
    have hrest' := hrest.congr hsame
    have ho := hsame o (List.mem_cons_self ..)
    rw [hpo, Option.map_some] at ho
    obtain ⟨qo, hqo, hcore⟩ := Option.map_eq_some_iff.mp ho
    obtain ⟨-, -, -, -, -, hleaf', hpull'⟩ := Frame.mk.inj hcore
    exact .leaf hnew hdone (hlink.trans hlink') hqo (hpull'.trans hpull) (hleaf'.trans hleaf) htop hrest'

/-- Nothing in a chain depends on the link of its top. -/
theorem relink {p q : Frame V E O} {link : Link} (hc : Chain h t fs bs) (hnodup : fs.Nodup)
    (hp : h.frames t = some p) (hq : h'.frames t = some q) (hcore : q.core = { p with link }.core)
    (hsame : ∀ x ∈ fs, x ≠ t → (h'.frames x).map Frame.core = (h.frames x).map Frame.core) :
    Chain h' t fs bs := by
  induction hc with
  | @top p' hp' hdone =>
    obtain rfl : p' = p := Option.some.inj (hp'.symm.trans hp)
    obtain ⟨-, -, -, hbody, hdone', -, -⟩ := Frame.mk.inj hcore
    rw [← hbody]
    exact .top hq (hdone'.trans hdone)
  | @leaf f o pf po leaf fs bs hpf hdone hlink hpo hpull hleaf htop hrest ih =>
    obtain ⟨hf, hnodup'⟩ := List.nodup_cons.mp hnodup
    have hframe := hsame f (List.mem_cons_self ..) (fun heq => hf (heq ▸ hrest.top_mem))
    rw [hpf, Option.map_some] at hframe
    obtain ⟨qf, hqf, hfcore⟩ := Option.map_eq_some_iff.mp hframe
    obtain ⟨-, -, hflink, hfbody, hfdone, -, -⟩ := Frame.mk.inj hfcore
    have howner : ∃ qo, h'.frames o = some qo ∧ qo.pulling = po.pulling ∧ qo.leaf = po.leaf := by
      by_cases heq : o = t
      · subst heq
        obtain rfl : po = p := Option.some.inj (hpo.symm.trans hp)
        obtain ⟨-, -, -, -, -, hqleaf, hqpull⟩ := Frame.mk.inj hcore
        exact ⟨q, hq, hqpull, hqleaf⟩
      · have hother := hsame o (by simp) heq
        rw [hpo, Option.map_some] at hother
        obtain ⟨qo, hqo, hocore⟩ := Option.map_eq_some_iff.mp hother
        obtain ⟨-, -, -, -, -, holeaf, hopull⟩ := Frame.mk.inj hocore
        exact ⟨qo, hqo, hopull, holeaf⟩
    obtain ⟨qo, hqo, hqopull, hqoleaf⟩ := howner
    rw [← hfbody]
    exact .leaf hqf (hfdone.trans hdone) (hflink.trans hlink) hqo (hqopull.trans hpull)
      (hqoleaf.trans hleaf) htop
      (ih hnodup' (fun x hx => hsame x (List.mem_cons_of_mem _ hx)))

/-- A leaf whose top got an owner continues the owner's chain. -/
theorem append {lt o : FrameId} {lfs : List FrameId} {lbs : List (Body V E)} {p po : Frame V E O} {leaf : O}
    (hl : Chain h lt lfs lbs) (hp : h.frames lt = some p) (hlink : p.link = .owner o)
    (hpo : h.frames o = some po) (hpull : po.pulling = none) (hleaf : po.leaf = some leaf)
    (htop : LeafObject.top leaf = some lt) (hc : Chain h t (o :: fs) bs) : Chain h t (lfs ++ o :: fs) (lbs ++ bs) := by
  induction hl with
  | top hp' hdone =>
    obtain rfl := Option.some.inj (hp'.symm.trans hp)
    exact .leaf hp' hdone hlink hpo hpull hleaf htop hc
  | leaf hp' hdone hlink' hpo' hpull' hleaf' htop' _ ih =>
    exact .leaf hp' hdone hlink' hpo' hpull' hleaf' htop' ih

end Chain

end kelcoro.generators_common
