import Kelcoro.Generator.Iteration
import Kelcoro.GeneratorsCommon.Programs

namespace kelcoro.generator

open kelcoro.generators_common kelcoro.lib Remaining

variable {V E : Type}

/-- `prepare_to_start` points the coroutine at its object. -/
def relink (nothing : Bool) (i : Nat) (link : Link) : Link :=
  if nothing then link else .consumer (.object i)

theorem create_created (nothing : Bool) (h : GeneratorHeap V E) (body : Body V E) (i : Nat) :
    ∃ h', create nothing h body (.object i) = some h' ∧ Created (relink nothing) h h' i body := by
  obtain ⟨h', hcreate, hframe, hframes, hobjects, hnf, hno⟩ := create_object_spec nothing h body i
  exact ⟨h', hcreate, hframe, hframes, hobjects, hnf, hno⟩

theorem prepare_to_start_spec (nothing : Bool) {h : GeneratorHeap V E} {i : Nat} {t : FrameId}
    {p : Frame V E (Generator V)} (htop : (h.objects i).top = some t) (hp : h.frames t = some p) :
    ∃ h', prepare_to_start nothing h (.object i) = some h' ∧
      h'.frames t = some { p with link := relink nothing i p.link } ∧ (∀ x, x ≠ t → h'.frames x = h.frames x) ∧
      h'.objects = h.objects ∧ h'.next_frame = h.next_frame ∧ h'.next_object = h.next_object := by
  cases nothing with
  | true =>
    refine ⟨h, ?_, hp, fun _ _ => rfl, rfl, rfl, rfl⟩
    simp only [prepare_to_start, Heap.object, Option.bind_eq_bind, Option.bind_some, htop, ↓reduceIte]
  | false =>
    refine ⟨h.put t { p with link := .consumer (.object i) }, ?_, h.put_frames_self t _,
      fun x hx => h.put_frames_of_ne _ hx, rfl, rfl, rfl⟩
    simp only [prepare_to_start, Heap.object, Option.bind_eq_bind, Option.bind_some, htop, Bool.false_eq_true,
      ↓reduceIte, Heap.modify_eq hp]

/-- One half of `swap`: an object that got a coroutine points it at itself. -/
structure Pointed (nothing : Bool) (h h' : GeneratorHeap V E) (i : Nat) : Prop where
  this : ∀ t p, (h.objects i).top = some t → h.frames t = some p →
    h'.frames t = some { p with link := relink nothing i p.link }
  frames : ∀ x, (h.objects i).top ≠ some x → h'.frames x = h.frames x
  objects : h'.objects = h.objects
  next_frame : h'.next_frame = h.next_frame
  next_object : h'.next_object = h.next_object

theorem point_spec (nothing : Bool) {h : GeneratorHeap V E} {i : Nat}
    (hlive : ∀ t, (h.objects i).top = some t → ∃ p, h.frames t = some p) :
    ∃ h', (if (h.objects i).top.isSome then prepare_to_start nothing h (.object i) else some h) = some h' ∧
      Pointed nothing h h' i := by
  cases htop : (h.objects i).top with
  | none =>
    refine ⟨h, by simp, ⟨fun t p ht _ => ?_, fun _ _ => rfl, rfl, rfl, rfl⟩⟩
    rw [htop] at ht
    cases ht
  | some t =>
    obtain ⟨p, hp⟩ := hlive t htop
    obtain ⟨h', hprepare, ht, hframes, hobjects, hnf, hno⟩ := prepare_to_start_spec nothing htop hp
    refine ⟨h', by simpa using hprepare, ⟨fun t' q ht' hq => ?_, fun x hx => hframes x fun heq => hx ?_, hobjects,
      hnf, hno⟩⟩
    · obtain rfl := Option.some.inj (ht'.symm.trans htop)
      obtain rfl := Option.some.inj (hq.symm.trans hp)
      exact ht
    · rw [heq, htop]

theorem relink_relink (nothing : Bool) (i : Nat) (link : Link) :
    relink nothing i (relink nothing i link) = relink nothing i link := by
  cases nothing <;> rfl

theorem swap_swapped (nothing : Bool) (h : GeneratorHeap V E) (i j : Nat)
    (hlive : ∀ t, (h.objects i).top = some t ∨ (h.objects j).top = some t → ∃ p, h.frames t = some p)
    (hunique : ∀ t, (h.objects i).top = some t → (h.objects j).top = some t → i = j) :
    ∃ h', swap nothing h (.object i) (.object j) = some h' ∧ Swapped (relink nothing) h h' i j := by
  let h₁ := (h.put_object i (h.objects j)).put_object j (h.objects i)
  have hobjects : h₁.objects = h.objects ∘ Equiv.swap i j := swap_objects h i j
  have hi : h₁.objects i = h.objects j := by rw [hobjects, Function.comp_apply, Equiv.swap_apply_left]
  have hj : h₁.objects j = h.objects i := by rw [hobjects, Function.comp_apply, Equiv.swap_apply_right]
  obtain ⟨h₂, hpoint₂, hp₂⟩ := point_spec nothing (h := h₁) (i := i) fun t ht =>
    hlive t (.inr (hi ▸ ht))
  have hj₂ : h₂.objects j = h.objects i := by rw [hp₂.objects, hj]
  obtain ⟨h₃, hpoint₃, hp₃⟩ := point_spec nothing (h := h₂) (i := j) fun t ht => by
    rw [hj₂] at ht
    obtain ⟨p, hp⟩ := hlive t (.inl ht)
    by_cases hti : (h₁.objects i).top = some t
    · exact ⟨_, hp₂.this t p hti hp⟩
    · exact ⟨p, (hp₂.frames t hti).trans hp⟩
  rw [hi] at hpoint₂
  rw [hj₂] at hpoint₃
  refine ⟨h₃, ?_, ⟨fun t p ht hp => ?_, fun t p ht hp => ?_, fun x hxi hxj => ?_, ?_, ?_, ?_⟩⟩
  · simp only [swap, Heap.object, Heap.set_object, Option.bind_eq_bind, Option.bind_some]
    cases hsome : (h.objects j).top.isSome with
    | true =>
      simp only [hsome, ↓reduceIte] at hpoint₂ ⊢
      change (prepare_to_start nothing h₁ (.object i)).bind _ = _
      rw [hpoint₂, Option.bind_some, hpoint₃]
    | false =>
      simp only [hsome, Bool.false_eq_true, ↓reduceIte, Option.some.injEq] at hpoint₂ ⊢
      rw [← hpoint₂] at hpoint₃
      exact hpoint₃
  · have hq : h₂.frames t = some { p with link := relink nothing i p.link } := hp₂.this t p (hi.symm ▸ ht) hp
    by_cases htj : (h₂.objects j).top = some t
    · obtain rfl := hunique t (hj₂ ▸ htj) ht
      rw [hp₃.this t _ htj hq, relink_relink]
    · rw [hp₃.frames t htj, hq]
  · have htj : (h₂.objects j).top = some t := hj₂.symm ▸ ht
    by_cases hti : (h₁.objects i).top = some t
    · obtain rfl := hunique t ht (hi ▸ hti)
      rw [hp₃.this t _ htj (hp₂.this t p hti hp), relink_relink]
    · exact hp₃.this t p htj ((hp₂.frames t hti).trans hp)
  · rw [hp₃.frames x (hj₂.symm ▸ hxi), hp₂.frames x (hi.symm ▸ hxj)]
    rfl
  · rw [hp₃.objects, hp₂.objects, hobjects]
  · exact hp₃.next_frame.trans hp₂.next_frame
  · exact hp₃.next_object.trans hp₂.next_object

theorem move_construct_eq (nothing : Bool) (h : GeneratorHeap V E) (i : Nat) (place : Place)
    (hdefault : h.objects i = LeafObject.default) :
    move_construct nothing h (.object i) place = swap nothing h (.object i) place := by
  have hsame : h.put_object i LeafObject.default = h := by
    rw [← hdefault]
    simp only [Heap.put_object, Function.update_eq_self]
  simp only [move_construct, Heap.set_object, Option.bind_eq_bind, Option.bind_some, hsame]

def operations (V E : Type) (nothing : Bool) : Operations V E (Generator V) where
  create := create nothing
  move_construct := move_construct nothing
  swap := swap nothing
  relink := relink nothing
  create_spec := create_created nothing
  swap_spec := swap_swapped nothing
  move_construct_eq := move_construct_eq nothing

/-- A step of a program with generators: it does something with its objects, or
iterates one of them and catches what that throws. -/
inductive Act (V E : Type) where
  | operate (action : Action V E)
  | request (this : Nat) (r : Request) (outcome : Outcome E)
  deriving DecidableEq, Repr

abbrev GeneratorProgram (V E : Type) := Program V E (Generator V)

def Step (nothing : Bool) (p : GeneratorProgram V E) : Act V E → GeneratorProgram V E → Prop
  | .operate action, p' => action.Allowed p ∧ Returns (fun n => perform (operations V E nothing) n p action) p'
  | .request this r outcome, p' =>
    this ∈ p.objects ∧ ∃ h', Returns (fun n => request nothing n p.heap this r) (h', outcome) ∧
      p' = p.asked this h'

/-- A coroutine that is not over delivers to an object of the program. -/
def Linked (nothing : Bool) (p : GeneratorProgram V E) : Prop :=
  nothing = false → ∀ t ∈ p.held, ∀ q, p.heap.frames t = some q → q.done = false →
    ∃ c ∈ p.objects, q.link = .consumer (.object c)

/-- What a request to object `i` comes to. Its coroutine delivers to the object
it is linked to, which need not be `i`. -/
inductive Answer (nothing : Bool) (p : GeneratorProgram V E) (own : FrameId → Set FrameId)
    (st : FrameId → Remaining V E) (i : Nat) :
    GeneratorHeap V E → Outcome E → (FrameId → Remaining V E) → Prop
  | ended (hover : ∀ t, p.top i = some t → st t = none) : Answer nothing p own st i p.heap .returned st
  | delivered {t : FrameId} {c : Nat} {q : Frame V E (Generator V)} {h' : GeneratorHeap V E} {st' : Remaining V E}
      (htop : p.top i = some t) (hlive : st t ≠ none) (hc : c ∈ p.objects) (hq : p.heap.frames t = some q)
      (hlink : nothing = false → q.link = .consumer (.object c))
      (hreq : Requested nothing p.heap h' (own t) c t (st t) st') :
      Answer nothing p own st i h' (outcome (pending (st t))) (Function.update st t st')

section requests

variable {nothing : Bool} {p : GeneratorProgram V E} {own : FrameId → Set FrameId}
  {st : FrameId → Remaining V E} {i : Nat} {h' : GeneratorHeap V E} {out : Outcome E}

/-- A coroutine delivers to the object its link names. -/
theorem delivers_of_link (ho : Owned p own st) {t : FrameId} (ht : t ∈ p.held) {c : Nat}
    (hc : c < p.heap.next_object)
    (hlink : nothing = false → ∀ q, p.heap.frames t = some q →
      if q.done then (p.heap.objects c).current_result = none else q.link = .consumer (.object c)) :
    Delivers nothing p.heap (own t) c t (st t) := by
  have htree := ho.forest.tree t ht
  cases hst : st t with
  | none =>
    rw [hst] at htree
    obtain ⟨hmem, hbounded, q, hq, hdone, hleaf⟩ := htree
    refine ⟨⟨q, hq, hdone, hleaf⟩, hmem, hbounded, fun hn => ?_, hc⟩
    have hcur := hlink hn q hq
    rwa [if_pos hdone] at hcur
  | some bs =>
    rw [hst] at htree
    obtain ⟨link, w, fs, htree, hres⟩ := htree
    obtain ⟨q, hq, -, hqlink⟩ := htree.worker
    obtain ⟨q', hq', hdone⟩ := htree.chain.live htree.top_mem
    obtain rfl := Option.some.inj (hq.symm.trans hq')
    refine ⟨w, fs, ⟨link, htree, fun hn => ?_⟩, hres, hc⟩
    have hconsumer := hlink hn q hq
    rw [if_neg (by simp [hdone])] at hconsumer
    exact hqlink.symm.trans hconsumer

/-- What the link of a coroutine names is what it delivers to. -/
theorem link_of_delivers {own : Set FrameId} {h : GeneratorHeap V E} {c : Nat} {t : FrameId} {st : Remaining V E}
    (hd : Delivers false h own c t st) {q : Frame V E (Generator V)} (hq : h.frames t = some q) :
    if q.done then (h.objects c).current_result = none else q.link = .consumer (.object c) := by
  cases st with
  | none =>
    obtain ⟨r, hr, hdone, -⟩ := Finished.frame hd
    obtain rfl := Option.some.inj (hr.symm.trans hq)
    rw [if_pos hdone]
    exact Finished.current hd rfl
  | some bs =>
    obtain ⟨w, fs, hit⟩ := hd
    obtain ⟨link, htree, hlink⟩ := hit.tree
    obtain ⟨r, hr, -, hrlink⟩ := htree.worker
    obtain ⟨r', hr', hdone⟩ := htree.chain.live htree.top_mem
    obtain rfl := Option.some.inj (hr.symm.trans hq)
    obtain rfl := Option.some.inj (hr.symm.trans hr')
    rw [if_neg (by simp [hdone])]
    exact hrlink.trans (hlink rfl)

theorem delivers_of_live (ho : Owned p own st) (hlinked : Linked nothing p) (hi : i ∈ p.objects) {t : FrameId}
    (htop : p.top i = some t) (hlive : st t ≠ none) :
    ∃ c ∈ p.objects, ∃ q, p.heap.frames t = some q ∧ (nothing = false → q.link = .consumer (.object c)) ∧
      Delivers nothing p.heap (own t) c t (st t) := by
  have ht := p.mem_held hi htop
  obtain ⟨q, hq, hdone⟩ := ho.frame hi htop
  rw [Option.isNone_eq_false_iff.mpr (Option.isSome_iff_ne_none.mpr hlive)] at hdone
  have hc : ∃ c ∈ p.objects, nothing = false → q.link = .consumer (.object c) := by
    cases nothing with
    | true => exact ⟨i, hi, fun hn => by cases hn⟩
    | false =>
      obtain ⟨c, hc, hlink⟩ := hlinked rfl t ht q hq hdone
      exact ⟨c, hc, fun _ => hlink⟩
  obtain ⟨c, hc, hlink⟩ := hc
  refine ⟨c, hc, q, hq, hlink, delivers_of_link ho ht (ho.bounded c hc) fun hn q' hq' => ?_⟩
  obtain rfl := Option.some.inj (hq'.symm.trans hq)
  rw [if_neg (by simp [hdone])]
  exact hlink hn

/-- Every request that is allowed comes back. -/
theorem request_answer (ho : Owned p own st) (hlinked : Linked nothing p) (hi : i ∈ p.objects) (r : Request)
    (hr : r = .increment → empty p.heap (.object i) = some false) :
    ∃ h' out st', Returns (fun n => request nothing n p.heap i r) (h', out) ∧
      Answer nothing p own st i h' out st' := by
  by_cases hover : ∀ t, p.top i = some t → st t = none
  · have hempty := ho.empty_of_over hi hover
    refine ⟨p.heap, .returned, st, ⟨0, fun n _ => ?_⟩, .ended hover⟩
    cases r with
    | begin => simp only [request, begin, begin_with, hempty, Option.bind_eq_bind, Option.bind_some, ↓reduceIte]
    | increment =>
      have hne := hr rfl
      rw [hempty] at hne
      cases hne
  · push Not at hover
    obtain ⟨t, htop, hlive⟩ := hover
    obtain ⟨c, hc, q, hq, hlink, hd⟩ := delivers_of_live ho hlinked hi htop hlive
    obtain ⟨h', st', hret, hreq⟩ := begin_with_spec (resume_spec (work (st t))) hd htop (ho.bounded i hi) le_rfl
    refine ⟨h', _, _, hret.congr fun n => ?_, .delivered htop hlive hc hq hlink hreq⟩
    cases r with
    | begin => rfl
    | increment => exact increment_eq_begin n (hr rfl)

/-- `++` has its assumption checked. -/
theorem empty_of_increment {h : GeneratorHeap V E} {r : Request}
    (hret : Returns (fun n => request nothing n h i r) (h', out)) (hr : r = .increment) :
    empty h (.object i) = some false := by
  subst hr
  obtain ⟨n, hn⟩ := hret
  have hn := hn n le_rfl
  simp only [request, increment, increment_with, Option.bind_eq_bind] at hn
  obtain ⟨b, hb, hrest⟩ := Option.bind_eq_some_iff.mp hn
  cases b with
  | false => exact hb
  | true => cases hrest

theorem answer_of_returns (ho : Owned p own st) (hlinked : Linked nothing p) (hi : i ∈ p.objects) {r : Request}
    (hret : Returns (fun n => request nothing n p.heap i r) (h', out)) :
    ∃ st', Answer nothing p own st i h' out st' := by
  obtain ⟨h₁, out₁, st', hret₁, hanswer⟩ := request_answer ho hlinked hi r (empty_of_increment hret)
  obtain ⟨rfl, rfl⟩ := Prod.mk.inj (hret₁.unique hret)
  exact ⟨st', hanswer⟩

/-- The coroutine of object `i`, unless it is over, delivers to `i`. -/
def LinksBack (p : GeneratorProgram V E) (i : Nat) : Prop :=
  ∀ t, p.top i = some t → ∀ q, p.heap.frames t = some q → q.done = false → q.link = .consumer (.object i)

theorem Answer.of_links_back {st' : FrameId → Remaining V E} (ha : Answer false p own st i h' out st')
    (ho : Owned p own st) (hi : i ∈ p.objects) (hback : LinksBack p i) :
    ((∀ t, p.top i = some t → st t = none) ∧ h' = p.heap ∧ out = .returned ∧ st' = st) ∨
    ∃ t st₁, p.top i = some t ∧ st t ≠ none ∧ Requested false p.heap h' (own t) i t (st t) st₁ ∧
      out = outcome (pending (st t)) ∧ st' = Function.update st t st₁ := by
  cases ha with
  | ended hover => exact .inl ⟨hover, rfl, rfl, rfl⟩
  | @delivered t c q h' st₁ htop hlive hc hq hlink hreq =>
    obtain ⟨q', hq', hdone⟩ := ho.frame hi htop
    rw [Option.isNone_eq_false_iff.mpr (Option.isSome_iff_ne_none.mpr hlive)] at hdone
    obtain rfl := Option.some.inj (hq'.symm.trans hq)
    have hown := hback t htop q' hq' hdone
    rw [hlink rfl] at hown
    cases hown
    exact .inr ⟨t, st₁, htop, hlive, hreq, rfl, rfl⟩

/-- The program is as sound as before. -/
theorem Answer.owned {st' : FrameId → Remaining V E} (ha : Answer nothing p own st i h' out st') (ho : Owned p own st)
    (hlinked : Linked nothing p) (hi : i ∈ p.objects) :
    ∃ own', Owned (p.asked i h') own' st' ∧ Linked nothing (p.asked i h') := by
  cases ha with
  | ended hover =>
    rw [ho.asked_of_over hi hover]
    exact ⟨own, ho, hlinked⟩
  | @delivered t c q h' st' htop hlive hc hq hlink hreq =>
    have ht := p.mem_held hi htop
    have ho' := ho.request ht hreq.framed hreq.delivers.leaf_tree
      (fun k hk => hreq.tops k (ho.bounded k hk)) hreq.took
    rw [Program.asked_of_top htop]
    refine ⟨_, ho', fun hn t' ht' q' hq' hdone => ?_⟩
    have hin : t' ∈ p.held := by
      rcases ht' with ⟨k, hk, hkt⟩ | hin
      · exact .inl ⟨k, hk, (hreq.tops k (ho.bounded k hk)).symm.trans hkt⟩
      · exact .inr hin
    by_cases heq : t' = t
    · subst heq
      subst hn
      have hlinked := link_of_delivers hreq.delivers hq'
      rw [if_neg (by simp [hdone])] at hlinked
      exact ⟨c, hc, hlinked⟩
    · have hsame := hreq.framed.frames t' (ho.forest.lt_next_frame hin) (ho.forest.notMem_own ht hin heq)
      exact hlinked hn t' hin q' (hsame.symm.trans hq') hdone

theorem Linked.traced {p' : GeneratorProgram V E} {st' : FrameId → Remaining V E} (hl : Linked nothing p)
    (ht : Traced (operations V E nothing) p p' st st') : Linked nothing p' := by
  intro hn t hin q hq hdone
  rcases ht.frames t hin q hq with ⟨hin', hq'⟩ | ⟨k, hk, -, link, hlink, -⟩
  · obtain ⟨c, hc, hlink⟩ := hl hn t hin' q hq' hdone
    exact ⟨c, ht.objects hc, hlink⟩
  · subst hn
    exact ⟨k, hk, hlink⟩

end requests

/-- A program whose objects can be used. -/
def Sound (nothing : Bool) (p : GeneratorProgram V E) : Prop :=
  ∃ own st, Owned p own st ∧ Linked nothing p

theorem Sound.initial (nothing : Bool) : Sound nothing (Program.initial : GeneratorProgram V E) := by
  refine ⟨fun _ => ∅, fun _ => none, .initial _ _, fun _ t ht => ?_⟩
  simp [Program.held, held, Program.initial] at ht

theorem Step.sound {nothing : Bool} {p p' : GeneratorProgram V E} {a : Act V E} (hstep : Step nothing p a p')
    (hs : Sound nothing p) : Sound nothing p' := by
  obtain ⟨own, st, ho, hlinked⟩ := hs
  cases a with
  | operate action =>
    obtain ⟨hallowed, hret⟩ := hstep
    obtain ⟨p₁, own', st', hret₁, -, ho', htraced⟩ := perform_spec (operations V E nothing) ho hallowed
    obtain rfl := hret₁.unique hret
    exact ⟨own', st', ho', hlinked.traced htraced⟩
  | request this r out =>
    obtain ⟨hthis, h', hret, rfl⟩ := hstep
    obtain ⟨st', hanswer⟩ := answer_of_returns ho hlinked hthis hret
    obtain ⟨own', ho', hlinked'⟩ := hanswer.owned ho hlinked hthis
    exact ⟨own', st', ho', hlinked'⟩

theorem sound_of_run {nothing : Bool} {p p' : GeneratorProgram V E} {as : List (Act V E)}
    (hrun : Run (Step nothing) p as p') (hs : Sound nothing p) : Sound nothing p' :=
  hrun.invariant (Sound nothing) (fun _ _ _ hs hstep => hstep.sound hs) hs

end kelcoro.generator
