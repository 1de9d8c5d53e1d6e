import Kelcoro.Generator.Objects
import Kelcoro.GeneratorsCommon.Attach

namespace kelcoro.generator

open kelcoro.generators_common kelcoro.lib Remaining

variable {V E : Type} {nothing : Bool}

/-- How a request comes back: it throws exactly when an exception is next. -/
def outcome : List (Event V E) → Outcome E
  | .exception ex :: _ => .threw ex
  | _ => .returned

/-- The value a request leaves in `current_result`. -/
def current : List (Event V E) → Option V
  | .value v :: _ => some v
  | _ => none

/-- Object `i` answered one request. -/
structure Requested (nothing : Bool) (h h' : GeneratorHeap V E) (own : Set FrameId) (i : Nat)
    (t : FrameId) (st st' : Remaining V E) : Prop where
  delivers : Delivers nothing h' (grown own h h') i t st'
  top : (h'.objects i).top = (h.objects i).top
  took : Took st st'
  current : nothing = false → (h'.objects i).current_result = current st.pending
  framed : Framed h h' own
  others : OthersKept h h' i

/-- Every tree with at most `m` work left answers the request made of it. -/
def ResumeSpec (V E : Type) (nothing : Bool) (m : Nat) : Prop :=
  ∀ {h : GeneratorHeap V E} {own : Set FrameId} {i : Nat} {t w : FrameId} {fs : List FrameId}
    {bs : List (Body V E)}, work (some bs) ≤ m → Iterating nothing h own i t w fs bs →
    ∃ h' st', Returns (fun n => resume nothing n h w) (h', outcome (pending (some bs))) ∧
      Requested nothing h h' own i t (some bs) st'

namespace Requested

variable {h h₁ h' : GeneratorHeap V E} {own : Set FrameId} {i : Nat} {t : FrameId}
  {st st₁ st' : Remaining V E}

theorem represents (hr : Requested nothing h h' own i t st st') (htop : (h.objects i).top = some t) :
    Represents nothing h' (grown own h h') i t st' :=
  ⟨hr.delivers, hr.top.trans htop⟩

/-- Nobody loses its coroutine. -/
theorem tops (hr : Requested nothing h h' own i t st st') (j : Nat) (hj : j < h.next_object) :
    (h'.objects j).top = (h.objects j).top := by
  by_cases heq : j = i
  · exact heq ▸ hr.top
  · rw [hr.others j heq hj]

/-- A step inside the tree comes before the answer. -/
theorem of_step (hf : Framed h h₁ own) (hk : Kept h h₁) (hbound : i < h.next_object)
    (hr : Requested nothing h₁ h' (grown own h h₁) i t st st') :
    Requested nothing h h' own i t st st' where
  delivers := by
    rw [← grown_trans own hf.next_frame hr.framed.next_frame]
    exact hr.delivers
  top := by rw [hr.top, hk i hbound]
  took := hr.took
  current := hr.current
  framed := hf.trans hr.framed
  others := (hk.others i).trans hf hr.others

theorem of_silent (hs : Silent st st₁) (hr : Requested nothing h h' own i t st₁ st') :
    Requested nothing h h' own i t st st' where
  delivers := hr.delivers
  top := hr.top
  took := .of_silent hs hr.took
  current hn := by rw [hr.current hn, hs.events]
  framed := hr.framed
  others := hr.others

end Requested

section bodies

variable {h : GeneratorHeap V E} {own : Set FrameId} {i : Nat} {t w : FrameId} {fs : List FrameId}
  {bs : List (Body V E)} {p : Frame V E (Generator V)} {rest : Body V E}

/-- `co_yield value`. -/
theorem run_co_yield (value : V) (hit : Iterating nothing h own i t w fs (.co_yield value rest :: bs))
    (hp : h.frames w = some p) (hleaf : p.leaf = none) (hpull : p.pulling = none) :
    ∃ h', (∀ resume, run_with nothing resume h w (.co_yield value rest) = some (h', .returned)) ∧
      Requested nothing h h' own i t (some (.co_yield value rest :: bs)) (some (rest :: bs)) := by
  obtain ⟨⟨link, ht, hlink⟩, _, hbound⟩ := hit
  obtain ⟨hdone, -⟩ := ht.chain.head hp
  let h₁ := h.put w { p with body := rest }
  have hw := ht.owned w (List.mem_cons_self ..)
  have ht₁ : Tree h₁ own t link w fs (rest :: bs) :=
    ht.put_worker (q := { p with body := rest }) hp rfl rfl rfl hdone
  have hf₁ : Framed h h₁ own := (Framed.refl h own).put _ hw
  obtain ⟨pt, hpt, -, hptlink⟩ := ht₁.worker
  obtain ⟨pw, hpw, hroot⟩ := ht₁.root
  obtain ⟨h₂, hset, hframes, hnf, hno, hothers, htop₂, hcur⟩ :=
    set_result_spec hpw hroot hpt (fun hn => hptlink.trans (hlink hn)) (some value)
  have hgrown : grown own h h₂ = own := grown_of_eq own hnf
  refine ⟨h₂, fun resume => ?_, ⟨⟨w, fs, ⟨link, ?_, hlink⟩, ?_, ?_⟩, htop₂, .co_yield .., hcur,
    hf₁.of_frames hframes hnf hno, hothers⟩⟩
  · simp only [run_with, Heap.modify_eq hp, Option.bind_eq_bind, Option.bind_some, yield_value]
    rw [hset, Option.bind_some]
  · rw [hgrown]
    exact ht₁.of_frames hframes hnf
  · refine .of_none (p := { p with body := rest }) ?_ hleaf hpull
    rw [hframes]
    exact h.put_frames_self w _
  · exact hbound.trans_eq hno.symm

/-- The top coroutine ends: its consumer sees nullptr. -/
theorem finish_top {b : Body V E} (hit : Iterating nothing h own i t w [] [b])
    (hp : h.frames w = some p) (hleaf : p.leaf = none) :
    ∃ h', p.root = w ∧ set_result nothing (h.put w { p with done := true }) w none = some h' ∧
      Finished nothing h' (grown own h h') i t ∧ (h'.objects i).top = (h.objects i).top ∧ Framed h h' own ∧
      OthersKept h h' i ∧ (nothing = false → (h'.objects i).current_result = none) := by
  obtain ⟨⟨link, ht, hlink⟩, _, hbound⟩ := hit
  obtain rfl : t = w := List.mem_singleton.mp ht.top_mem
  obtain ⟨pt, hpt, -, hptlink⟩ := ht.worker
  obtain ⟨pw, hpw, hroot⟩ := ht.root
  obtain rfl := Option.some.inj (hpt.symm.trans hp)
  obtain rfl := Option.some.inj (hpw.symm.trans hp)
  let h₁ := h.put t { pw with done := true }
  have hp₁ : h₁.frames t = some { pw with done := true } := h.put_frames_self t _
  have hf₁ : Framed h h₁ own := (Framed.refl h own).put _ (ht.owned t ht.top_mem)
  obtain ⟨h₂, hset, hframes, hnf, hno, hothers, htop₂, hcur⟩ :=
    set_result_spec hp₁ hroot hp₁ (fun hn => hptlink.trans (hlink hn)) none
  have hgrown : grown own h h₂ = own := grown_of_eq own hnf
  refine ⟨h₂, hroot, hset, ?_, htop₂, hf₁.of_frames hframes hnf hno, hothers, hcur⟩
  rw [hgrown]
  exact ⟨⟨{ pw with done := true }, by rw [hframes, hp₁], rfl, hleaf⟩, ht.owned t ht.top_mem,
    fun x hx => (ht.bounded x hx).trans_eq hnf.symm, hcur, hbound.trans_eq hno.symm⟩

/-- A leaf ends, by returning or by an exception: its owner is the worker. -/
theorem finish_leaf {b : Body V E} {o : FrameId} (hit : Iterating nothing h own i t w (o :: fs) (b :: bs))
    (hp : h.frames w = some p) (hleaf : p.leaf = none) :
    ∃ h', p.root ≠ w ∧ skip_this_leaf (h.put w { p with done := true }) w = some h' ∧ owner h' w = some o ∧
      h'.frames w = some { p with done := true } ∧ Iterating nothing h' (grown own h h') i t o fs bs ∧
      Framed h h' own ∧ Kept h h' := by
  obtain ⟨⟨link, ht, hlink⟩, _, hbound⟩ := hit
  obtain ⟨h', hskip, howner, hw', ht', hleft, hframed, hobjects, hnf, hno⟩ :=
    ht.skip (q := { p with done := true }) hp rfl rfl rfl hleaf
  obtain ⟨pw, hpw, hroot⟩ := ht.root
  obtain rfl := Option.some.inj (hpw.symm.trans hp)
  have hne : pw.root ≠ w := by
    intro heq
    have hmem : t ∈ o :: fs := by
      have hchain := ht.chain
      cases hchain with
      | leaf _ _ _ _ _ _ _ hrest => exact hrest.top_mem
    exact (List.nodup_cons.mp ht.nodup).1 ((hroot.symm.trans heq) ▸ hmem)
  have hgrown : grown own h h' = own := grown_of_eq own hnf
  refine ⟨h', hne, hskip, howner, hw', ?_, hframed, fun j _ => congrFun hobjects j⟩
  rw [hgrown]
  exact ⟨⟨link, ht', hlink⟩, hleft, hbound.trans_eq hno.symm⟩

theorem unhandled_exception_top {f : FrameId} (hp : h.frames f = some p) (hroot : p.root = f) :
    unhandled_exception nothing h f = set_result nothing h f none := by
  simp [unhandled_exception, hp, hroot]

theorem unhandled_exception_leaf {h₁ : GeneratorHeap V E} {f : FrameId} (hp : h.frames f = some p)
    (hroot : p.root ≠ f) (hskip : skip_this_leaf h f = some h₁) :
    unhandled_exception nothing h f = set_result nothing h₁ f none := by
  simp [unhandled_exception, hp, hroot, hskip]

theorem final_awaiter.await_suspend_top {h₁ : GeneratorHeap V E} {f : FrameId} (hp : h.frames f = some p)
    (hroot : p.root = f) (hset : set_result nothing h f none = some h₁) :
    final_awaiter.await_suspend nothing h f = some (h₁, none) := by
  simp [final_awaiter.await_suspend, hp, hroot, hset]

theorem final_awaiter.await_suspend_leaf {h₁ : GeneratorHeap V E} {f o : FrameId} (hp : h.frames f = some p)
    (hroot : p.root ≠ f) (hskip : skip_this_leaf h f = some h₁) (howner : owner h₁ f = some o) :
    final_awaiter.await_suspend nothing h f = some (h₁, some o) := by
  simp [final_awaiter.await_suspend, hp, hroot, hskip, howner]

/-- A body ends with an exception: it leaves the resume at once, whatever the
depth of the coroutine, and the tree is ready to go on behind its owner. -/
theorem run_throw {ex : E} (hit : Iterating nothing h own i t w fs (.throw ex :: bs))
    (hp : h.frames w = some p) (hleaf : p.leaf = none) :
    ∃ h' st', (∀ resume, run_with nothing resume h w (.throw ex) = some (h', .threw ex)) ∧
      Requested nothing h h' own i t (some (.throw ex :: bs)) st' := by
  have hp₁ := h.put_frames_self w { p with done := true }
  cases fs with
  | nil =>
    obtain ⟨_, ht, _⟩ := hit.tree
    obtain rfl : bs = [] := List.length_eq_zero_iff.mp (by simpa using ht.chain.length_eq)
    obtain ⟨h', hroot, hset, hfin, htop, hframed, hothers, hcur⟩ := finish_top hit hp hleaf
    refine ⟨h', none, fun resume => ?_, ⟨hfin, htop, .top_throw ex, hcur, hframed, hothers⟩⟩
    simp only [run_with, Heap.modify_eq hp, Option.bind_eq_bind, Option.bind_some,
      unhandled_exception_top hp₁ hroot, hset]
  | cons o fs =>
    obtain ⟨h₂, hroot, hskip, -, hw₂, hit₂, hframed, hkept⟩ := finish_leaf hit hp hleaf
    obtain ⟨⟨link, ht₂, hlink⟩, hleft, hbound⟩ := hit₂
    obtain ⟨pt, hpt, -, hptlink⟩ := ht₂.worker
    obtain ⟨_, ht, _⟩ := hit.tree
    obtain ⟨pw, hpw, hpwroot⟩ := ht.root
    obtain rfl := Option.some.inj (hpw.symm.trans hp)
    obtain ⟨h₃, hset, hframes, hnf, hno, hothers₃, htop₃, hcur⟩ :=
      set_result_spec hw₂ hpwroot hpt (fun hn => hptlink.trans (hlink hn)) none
    have hbs : bs ≠ [] := by
      have hchain := ht₂.chain
      cases hchain <;> simp
    refine ⟨h₃, some bs, fun resume => ?_, .of_step hframed hkept hit.bounded
      ⟨⟨o, fs, ⟨link, ?_, hlink⟩, ?_, ?_⟩, htop₃, .leaf_throw ex hbs, hcur, ?_, hothers₃⟩⟩
    · simp only [run_with, Heap.modify_eq hp, Option.bind_eq_bind, Option.bind_some,
        unhandled_exception_leaf hp₁ hroot hskip, hset]
    · rw [grown_of_eq (grown own h h₂) hnf]
      exact ht₂.of_frames hframes hnf
    · rw [grown_of_eq (grown own h h₂) hnf]
      exact hleft.of_frames hframes
    · exact hbound.trans_eq hno.symm
    · exact (Framed.refl h₂ _).of_frames hframes hnf hno

end bodies

section requests

variable {m : Nat} {h : GeneratorHeap V E} {own : Set FrameId} {i : Nat} {t : FrameId} {st : Remaining V E}

/-- `begin()` of the object `j` that holds `t`, while the coroutines below are
known to answer. Where the answer goes is up to `t`. -/
theorem begin_with_spec {j : Nat} (hres : ResumeSpec V E nothing m) (hd : Delivers nothing h own i t st)
    (htop : (h.objects j).top = some t) (hbound : j < h.next_object) (hm : work st ≤ m) :
    ∃ h' st', Returns (fun n => begin_with (resume nothing n) h j) (h', outcome (pending st)) ∧
      Requested nothing h h' own i t st st' := by
  cases st with
  | none =>
    obtain ⟨p, hp, hdone, -⟩ := Finished.frame hd
    refine ⟨h, none, ⟨0, fun n _ => ?_⟩, ⟨?_, rfl, ?_, Finished.current hd, .refl h own, fun _ _ _ => rfl⟩⟩
    · simp only [begin_with, empty, Heap.object, Option.bind_eq_bind, Option.bind_some, LeafObject.top, htop,
        hp, Option.map_some, hdone, ↓reduceIte]
      rfl
    · rw [grown_of_eq own rfl]
      exact hd
    · exact ⟨rfl, by simp [pending], fun hne => absurd rfl hne, le_rfl⟩
  | some bs =>
    obtain ⟨w, fs, hit⟩ := hd
    obtain ⟨_, ht, _⟩ := hit.tree
    obtain ⟨pt, hpt, hcw, -⟩ := ht.worker
    obtain ⟨q, hq, hlive⟩ := ht.chain.live ht.top_mem
    obtain rfl := Option.some.inj (hq.symm.trans hpt)
    obtain ⟨h', st', hret, hreq⟩ := hres hm hit
    refine ⟨h', st', ?_, hreq⟩
    obtain ⟨bound, hret⟩ := hret
    refine ⟨bound, fun n hn => ?_⟩
    have hresume : resume nothing n h w = some (h', outcome (pending (some bs))) := hret n hn
    have hempty : empty h (.object j) = some false := by
      simp only [empty, Heap.object, Option.bind_eq_bind, Option.bind_some, LeafObject.top, htop, hpt,
        Option.map_some, hlive]
    have htop' : (h'.objects j).top = some t := (hreq.tops j hbound).trans htop
    simp only [begin_with, increment_with, hempty, Option.bind_eq_bind, Option.bind_some, Bool.false_eq_true,
      ↓reduceIte, htop, hpt, hcw, hresume]
    cases outcome (pending (some bs)) with
    | returned => simp only [htop', ↓reduceIte]
    | threw ex => rfl

/-- What the holder leaves of a generator it asked `pulls` times. -/
theorem pull_with_spec (hres : ResumeSpec V E nothing m) (pulls : Nat)
    (hr : Represents nothing h own i t st) (hm : work st ≤ m) :
    ∃ h' st', Returns (fun n => pull_with (resume nothing n) i pulls h) h' ∧
      Represents nothing h' (grown own h h') i t st' ∧ pending st' = (pending st).drop pulls ∧
      work st' ≤ work st ∧ Framed h h' own ∧ OthersKept h h' i := by
  induction pulls generalizing h own st with
  | zero =>
    refine ⟨h, st, .const rfl, ?_, rfl, le_rfl, .refl h own, fun _ _ _ => rfl⟩
    rw [grown_of_eq own rfl]
    exact hr
  | succ pulls ih =>
    obtain ⟨h₁, st₁, hret₁, hreq⟩ := begin_with_spec hres hr.delivers hr.top hr.delivers.bounded hm
    obtain ⟨h₂, st₂, hret₂, hr₂, hpending, hwork, hf₂, ho₂⟩ :=
      ih (hreq.represents hr.top) (hreq.took.less.trans hm)
    refine ⟨h₂, st₂, ?_, ?_, ?_, hwork.trans hreq.took.less, hreq.framed.trans hf₂, hreq.others.trans hreq.framed ho₂⟩
    · exact hret₁.bind hret₂
    · rw [← grown_trans own hreq.framed.next_frame hf₂.next_frame]
      exact hr₂
    · rw [hpending, hreq.took.events, List.drop_tail]

end requests

section leafs

variable {m : Nat} {h h₁ : GeneratorHeap V E} {own lown : Set FrameId} {i : Nat} {t lt w : FrameId}
  {fs : List FrameId} {bs bs₁ : List (Body V E)} {p : Frame V E (Generator V)} {rest : Body V E}

/-- After steps that deliver nothing, control goes to a worker with less work. -/
theorem go_on (hres : ResumeSpec V E nothing m) (hm : work (some bs) ≤ m + 1)
    (hs : Silent (some bs) (some bs₁)) (hit : Iterating nothing h₁ (grown own h h₁) i t w fs bs₁)
    (hf : Framed h h₁ own) (hk : Kept h h₁) (hbound : i < h.next_object) :
    ∃ h' st', Returns (fun n => resume nothing n h₁ w) (h', outcome (pending (some bs))) ∧
      Requested nothing h h' own i t (some bs) st' := by
  have hless : work (some bs₁) ≤ m := Nat.le_of_lt_succ (hs.less.trans_le hm)
  obtain ⟨h', st', hret, hreq⟩ := hres hless hit
  rw [hs.events] at hret
  exact ⟨h', st', hret, .of_silent hs (.of_step hf hk hbound hreq)⟩

/-- The worker has put a leaf into its awaiter, `h₁`, and awaits it. -/
theorem go_on_leaf {link : Link} {leaf : Generator V} {st : Remaining V E} {b : Body V E}
    (hres : ResumeSpec V E nothing m) (hm : work (some (b :: bs)) ≤ m + 1)
    (hs : ∀ lbs, pending (some lbs) = pending st → work (some lbs) = work st →
      Silent (some (b :: bs)) (some (lbs ++ rest :: bs)))
    (ht : Tree h₁ own t link w fs (rest :: bs)) (hlink : nothing = false → link = .consumer (.object i))
    (hbound : i < h.next_object) (hp : h₁.frames w = some p) (hpull : p.pulling = none)
    (hleaf : p.leaf = some leaf) (hltop : leaf.top = some lt)
    (hl : LeafTree h₁ (Set.Ico h.next_frame h₁.next_frame) lt st)
    (hdisj : Disjoint own (Set.Ico h.next_frame h₁.next_frame)) (hf : Framed h h₁ own) (hk : Kept h h₁) :
    ∃ h' st', Returns (fun n => (co_await_leaf h₁ w).bind fun (h, next) => resume nothing n h next)
        (h', outcome (pending (some (b :: bs)))) ∧
      Requested nothing h h' own i t (some (b :: bs)) st' := by
  obtain ⟨h₂, w', fs', lbs, hawait, ht', hleft, hpending, hwork, hframed, hobjects, hnf, hno⟩ :=
    hl.co_await ht hp hpull hleaf hltop hdisj
  have hgrown : grown own h h₂ = own ∪ Set.Ico h.next_frame h₁.next_frame := by rw [grown, hnf]
  have hf' : Framed h h₂ own := hf.trans hframed
  have hit : Iterating nothing h₂ (grown own h h₂) i t w' fs' (lbs ++ rest :: bs) := by
    rw [hgrown]
    exact ⟨⟨link, ht', hlink⟩, hleft, hbound.trans_le hf'.next_object⟩
  have hk' : Kept h h₂ := fun j hj => by rw [hobjects, hk j hj]
  obtain ⟨h', st', hret, hreq⟩ := go_on hres hm (hs lbs hpending hwork) hit hf' hk' hbound
  refine ⟨h', st', hret.congr fun n => ?_, hreq⟩
  rw [hawait, Option.bind_some]

/-- `co_yield elements_of` of a default constructed generator. -/
theorem run_elements_of_empty (hres : ResumeSpec V E nothing m)
    (hm : work (some (.elements_of_empty rest :: bs)) ≤ m + 1)
    (hit : Iterating nothing h own i t w fs (.elements_of_empty rest :: bs)) (hp : h.frames w = some p)
    (hpull : p.pulling = none) :
    ∃ h' st', Returns (fun n => run_with nothing (resume nothing n) h w (.elements_of_empty rest))
        (h', outcome (pending (some (.elements_of_empty rest :: bs)))) ∧
      Requested nothing h h' own i t (some (.elements_of_empty rest :: bs)) st' := by
  obtain ⟨⟨link, ht, hlink⟩, _, hbound⟩ := hit
  obtain ⟨hdone, -⟩ := ht.chain.head hp
  have hw := ht.owned w (List.mem_cons_self ..)
  let p₁ : Frame V E (Generator V) := { p with body := rest }
  let p₂ : Frame V E (Generator V) := { p₁ with leaf := some LeafObject.default }
  let h₁ := (h.put w p₁).new_object.1
  let h₂ := (h₁.put w p₂).put_object h.next_object LeafObject.default
  have hp₁ : h₁.frames w = some p₁ := h.put_frames_self w p₁
  have hp₂ : h₂.frames w = some p₂ := h₁.put_frames_self w p₂
  have hmove : move_construct nothing h₁ (.awaiter w) (.object h.next_object) = some h₂ := by
    rw [move_construct_awaiter_eq hp₁ ((h.put w p₁).put_object_objects_self h.next_object LeafObject.default)]
    rfl
  have hready : co_await_leaf h₂ w = some (h₂, w) := co_await_leaf_of_none hp₂ rfl LeafObject.top_default
  have ht₁ : Tree h₁ own t link w fs (rest :: bs) :=
    (ht.put_worker (q := p₁) hp rfl rfl rfl hdone).of_frames rfl rfl
  have ht₂ : Tree h₂ own t link w fs (rest :: bs) :=
    (ht₁.put_worker (q := p₂) hp₁ rfl rfl rfl hdone).of_frames rfl rfl
  have hf₂ : Framed h h₂ own := by
    refine ⟨le_rfl, Nat.le_succ _, fun x _ hx => ?_⟩
    have hne : x ≠ w := fun heq => hx (heq ▸ hw)
    exact (h₁.put_frames_of_ne p₂ hne).trans (h.put_frames_of_ne p₁ hne)
  have hobjects : Kept h h₂ := by
    intro j hj
    rw [Heap.put_object_objects_of_ne _ _ (ne_of_lt hj)]
    exact Heap.put_object_objects_of_ne _ _ (ne_of_lt hj)
  have hit₂ : Iterating nothing h₂ (grown own h h₂) i t w fs (rest :: bs) := by
    rw [grown_of_eq own (show h₂.next_frame = h.next_frame from rfl)]
    exact ⟨⟨link, ht₂, hlink⟩, .of_empty_leaf hp₂ rfl LeafObject.top_default hpull, hbound.trans (Nat.lt_succ_self _)⟩
  obtain ⟨h', st', hret, hreq⟩ := go_on hres hm (.elements_of_empty rest bs) hit₂ hf₂ hobjects hbound
  refine ⟨h', st', hret.congr fun n => ?_, hreq⟩
  simp only [run_with, Heap.modify_eq hp, Option.bind_eq_bind, Option.bind_some]
  change (move_construct nothing h₁ (.awaiter w) (.object h.next_object)).bind _ = _
  rw [hmove, Option.bind_some, hready, Option.bind_some]

/-- `co_yield elements_of` of an ordinary range. -/
theorem run_elements_of_range {rng : List V} (hres : ResumeSpec V E nothing m)
    (hm : work (some (.elements_of_range rng rest :: bs)) ≤ m + 1)
    (hit : Iterating nothing h own i t w fs (.elements_of_range rng rest :: bs)) (hp : h.frames w = some p)
    (hpull : p.pulling = none) :
    ∃ h' st', Returns (fun n => run_with nothing (resume nothing n) h w (.elements_of_range rng rest))
        (h', outcome (pending (some (.elements_of_range rng rest :: bs)))) ∧
      Requested nothing h h' own i t (some (.elements_of_range rng rest :: bs)) st' := by
  obtain ⟨⟨link, ht, hlink⟩, _, hbound⟩ := hit
  obtain ⟨hdone, -⟩ := ht.chain.head hp
  have hw := ht.owned w (List.mem_cons_self ..)
  have hfresh : w ≠ h.next_frame := ne_of_lt (ht.bounded w hw)
  let p₁ : Frame V E (Generator V) := { p with body := rest }
  let leaf : Generator V := { current_result := none, top := some h.next_frame }
  let p₂ : Frame V E (Generator V) := { p₁ with leaf := some leaf }
  have hp₁ : (h.put w p₁).frames w = some p₁ := h.put_frames_self w p₁
  obtain ⟨h₂, hcreate, hlt, hp₂, hsame, hobjects, hnf, hno⟩ :=
    create_awaiter_spec nothing hp₁ hfresh (Body.to_generator rng)
  have hown : ∀ x ∈ own, x ≠ w → h₂.frames x = h.frames x := fun x hx hne =>
    (hsame x (ne_of_lt (ht.bounded x hx)) hne).trans (h.put_frames_of_ne p₁ hne)
  have hnext : h.next_frame < h₂.next_frame := hnf ▸ Nat.lt_succ_self _
  have ht₂ : Tree h₂ own t link w fs (rest :: bs) :=
    ht.of_worker (q := p₂) hp hp₂ rfl rfl rfl hdone
      (fun x hx => hown x (ht.owned x (List.mem_cons_of_mem _ hx))) hnext.le
  have hl : LeafTree h₂ (Set.Ico h.next_frame h₂.next_frame) h.next_frame (some [Body.to_generator rng]) :=
    ⟨_, _, _, Tree.single hlt rfl rfl rfl ⟨le_rfl, hnext⟩ fun x hx => hx.2, .of_none hlt rfl rfl⟩
  have hf₂ : Framed h h₂ own := by
    refine ⟨hnext.le, hno.ge, fun x hx hout => ?_⟩
    have hne : x ≠ w := fun heq => hout (heq ▸ hw)
    exact (hsame x (ne_of_lt hx) hne).trans (h.put_frames_of_ne p₁ hne)
  obtain ⟨h', st', hret, hreq⟩ := go_on_leaf hres hm
    (fun lbs hpending hwork => .elements_of_range (by simpa using hpending) (hwork.trans_le (by simp)))
    ht₂ hlink hbound hp₂ hpull rfl rfl hl (ht.disjoint_fresh _) hf₂ fun j _ => congrFun hobjects j
  refine ⟨h', st', hret.congr fun n => ?_, hreq⟩
  simp only [run_with, Heap.modify_eq hp, Option.bind_eq_bind, Option.bind_some]
  rw [hcreate, Option.bind_some]

/-- `co_yield elements_of` of a generator its holder already iterated. -/
theorem run_elements_of {body : Body V E} {pulls : Nat} (hres : ResumeSpec V E nothing m)
    (hm : work (some (.elements_of body pulls rest :: bs)) ≤ m + 1)
    (hit : Iterating nothing h own i t w fs (.elements_of body pulls rest :: bs)) (hp : h.frames w = some p)
    (hpull : p.pulling = none) :
    ∃ h' st', Returns (fun n => run_with nothing (resume nothing n) h w (.elements_of body pulls rest))
        (h', outcome (pending (some (.elements_of body pulls rest :: bs)))) ∧
      Requested nothing h h' own i t (some (.elements_of body pulls rest :: bs)) st' := by
  obtain ⟨⟨link, ht, hlink⟩, _, hbound⟩ := hit
  obtain ⟨hdone, -⟩ := ht.chain.head hp
  have hw := ht.owned w (List.mem_cons_self ..)
  have hwlt : w < h.next_frame := ht.bounded w hw
  let l := h.next_object
  let lt := h.next_frame
  let p₁ : Frame V E (Generator V) := { p with body := rest }
  -- the leaf is created and iterated by its holder
  let h₁ := (h.put w p₁).new_object.1
  have hnew : ∀ j, j < l → h₁.objects j = h.objects j := fun j hj =>
    Heap.put_object_objects_of_ne _ _ (ne_of_lt hj)
  obtain ⟨h₂, hcreate, hlt₂, hsame₂, hobjects₂, hnf₂, hno₂⟩ := create_object_spec nothing h₁ body l
  have hnext₂ : lt < h₂.next_frame := hnf₂ ▸ Nat.lt_succ_self _
  have hltop₂ : (h₂.objects l).top = some lt := by rw [hobjects₂, Function.update_self]; rfl
  have hr₂ : Represents nothing h₂ (Set.Ico lt h₂.next_frame) l lt (some [body]) := by
    refine ⟨⟨lt, [], ⟨_, Tree.single hlt₂ rfl rfl rfl ⟨le_rfl, hnext₂⟩ fun x hx => hx.2, fun hn => ?_⟩,
      .of_none hlt₂ rfl rfl, (Nat.lt_succ_self l).trans_eq hno₂.symm⟩, hltop₂⟩
    simp only [started, hn, Bool.false_eq_true, ↓reduceIte]
  have hbody : work (some [body]) ≤ m := by
    simp only [work_cons, Body.size, work_nil] at hm ⊢
    omega
  obtain ⟨h₃, st₃, hpulled, hr₃, hpending₃, hwork₃, hf₃, ho₃⟩ := pull_with_spec hres pulls hr₂ hbody
  have hgrown₃ : grown (Set.Ico lt h₂.next_frame) h₂ h₃ = Set.Ico lt h₃.next_frame :=
    Set.Ico_union_Ico_eq_Ico hnext₂.le hf₃.next_frame
  rw [hgrown₃] at hr₃
  have hframes₃ : ∀ x, x < lt → h₃.frames x = (h.put w p₁).frames x := by
    intro x hx
    rw [hf₃.frames x (hx.trans hnext₂) fun hin => not_le_of_gt hx hin.1]
    exact hsame₂ x (ne_of_lt hx)
  have hobjects₃ : ∀ j, j < l → h₃.objects j = h.objects j := by
    intro j hj
    rw [ho₃ j (ne_of_lt hj) (hj.trans ((Nat.lt_succ_self l).trans_eq hno₂.symm)), hobjects₂,
      Function.update_of_ne (ne_of_lt hj), hnew j hj]
  -- the leaf is moved into the awaiter
  have hl₃ := hr₃.delivers.leaf_tree
  obtain ⟨q, hq, -⟩ := hl₃.frame
  obtain ⟨h₄, link', hmove, hp₄, hq₄, hsame₄, hobjects₄, hnf₄, hno₄⟩ :=
    move_construct_awaiter_spec nothing ((hframes₃ w hwlt).trans (h.put_frames_self w p₁)) rfl
      hr₃.top (ne_of_gt hwlt) hq
  have hl₄ : LeafTree h₄ (Set.Ico lt h₄.next_frame) lt st₃ := by
    rw [hnf₄]
    refine hl₃.relink hq hq₄ (fun x hx hne => hsame₄ x (ne_of_gt (hwlt.trans_le hx.1)) hne) hnf₄
  have hframes₄ : ∀ x, x < lt → x ≠ w → h₄.frames x = h.frames x := fun x hx hne =>
    (hsame₄ x hne (ne_of_lt hx)).trans ((hframes₃ x hx).trans (h.put_frames_of_ne p₁ hne))
  have hnext₄ : lt ≤ h₄.next_frame := hnf₄ ▸ hnext₂.le.trans hf₃.next_frame
  have hno : l < h₄.next_object :=
    hno₄ ▸ (Nat.lt_succ_self l).trans_le (hno₂.ge.trans hf₃.next_object)
  have hobjects : Kept h h₄ := fun j hj => by
    rw [hobjects₄, Function.update_of_ne (ne_of_lt hj), hobjects₃ j hj]
  have ht₄ : Tree h₄ own t link w fs (rest :: bs) :=
    ht.of_worker hp hp₄ rfl rfl rfl hdone
      (fun x hx => hframes₄ x (ht.bounded x (ht.owned x (List.mem_cons_of_mem _ hx)))) hnext₄
  have hf₄ : Framed h h₄ own := ⟨hnext₄, hno.le, fun x hx hout =>
    hframes₄ x hx fun heq => hout (heq ▸ hw)⟩
  obtain ⟨h', st', hret, hreq⟩ := go_on_leaf hres hm
    (fun lbs hpending hwork => .elements_of (by rw [hpending, hpending₃]; simp)
      (hwork.trans_le (hwork₃.trans (by simp))))
    ht₄ hlink hbound hp₄ hpull rfl hr₃.top hl₄ (ht.disjoint_fresh _) hf₄ hobjects
  let await : Nat → GeneratorHeap V E → Option (GeneratorHeap V E × Outcome E) := fun n h =>
    (move_construct nothing h (.awaiter w) (.object l)).bind fun h =>
      (co_await_leaf h w).bind fun (h, next) => resume nothing n h next
  have hawait : Returns (fun n => await n h₃) (h', outcome (pending (some (.elements_of body pulls rest :: bs)))) := by
    simpa only [await, hmove, Option.bind_some] using hret
  refine ⟨h', st', (hpulled.bind hawait).congr fun n => ?_, hreq⟩
  simp only [run_with, Heap.modify_eq hp, Option.bind_eq_bind, Option.bind_some]
  change (create nothing h₁ body (.object l)).bind _ = _
  rw [hcreate]
  rfl

end leafs

section resumes

variable {m : Nat} {h : GeneratorHeap V E} {own : Set FrameId} {i : Nat} {t w : FrameId}
  {fs : List FrameId} {bs : List (Body V E)} {p : Frame V E (Generator V)}

/-- A body returns: a leaf continues with its owner, the top coroutine reports
the end. -/
theorem run_co_return (hres : ResumeSpec V E nothing m) (hm : work (some (.co_return :: bs)) ≤ m + 1)
    (hit : Iterating nothing h own i t w fs (.co_return :: bs)) (hp : h.frames w = some p)
    (hleaf : p.leaf = none) :
    ∃ h' st', Returns (fun n => run_with nothing (resume nothing n) h w .co_return)
        (h', outcome (pending (some (.co_return :: bs)))) ∧
      Requested nothing h h' own i t (some (.co_return :: bs)) st' := by
  have hp₁ := h.put_frames_self w { p with done := true }
  obtain ⟨_, ht, _⟩ := hit.tree
  have hlength := ht.chain.length_eq
  cases fs with
  | nil =>
    obtain rfl : bs = [] := List.length_eq_zero_iff.mp (by simpa using hlength)
    obtain ⟨h', hroot, hset, hfin, htop, hframed, hothers, hcur⟩ := finish_top hit hp hleaf
    refine ⟨h', none, ⟨0, fun n _ => ?_⟩, ⟨hfin, htop, .top_return, hcur, hframed, hothers⟩⟩
    simp only [run_with, Heap.modify_eq hp, Option.bind_eq_bind, Option.bind_some,
      final_awaiter.await_suspend_top hp₁ hroot hset]
    rfl
  | cons o fs =>
    obtain ⟨h₁, hroot, hskip, howner, -, hit₁, hframed, hkept⟩ := finish_leaf hit hp hleaf
    have hbs : bs ≠ [] := List.ne_nil_of_length_eq_add_one (by simpa using hlength)
    obtain ⟨h', st', hret, hreq⟩ := go_on hres hm (.leaf_return hbs) hit₁ hframed hkept hit.bounded
    refine ⟨h', st', hret.congr fun n => ?_, hreq⟩
    simp only [run_with, Heap.modify_eq hp, Option.bind_eq_bind, Option.bind_some,
      final_awaiter.await_suspend_leaf hp₁ hroot hskip howner]

/-- `co_await` of something ready. -/
theorem run_co_await {rest : Body V E} (hres : ResumeSpec V E nothing m)
    (hm : work (some (.co_await rest :: bs)) ≤ m + 1)
    (hit : Iterating nothing h own i t w fs (.co_await rest :: bs)) (hp : h.frames w = some p)
    (hleaf : p.leaf = none) (hpull : p.pulling = none) :
    ∃ h' st', Returns (fun n => run_with nothing (resume nothing n) h w (.co_await rest))
        (h', outcome (pending (some (.co_await rest :: bs)))) ∧
      Requested nothing h h' own i t (some (.co_await rest :: bs)) st' := by
  obtain ⟨⟨link, ht, hlink⟩, _, hbound⟩ := hit
  obtain ⟨hdone, -⟩ := ht.chain.head hp
  let p₁ : Frame V E (Generator V) := { p with body := rest }
  have hp₁ : (h.put w p₁).frames w = some p₁ := h.put_frames_self w p₁
  have hgrown : grown own h (h.put w p₁) = own := grown_of_eq own rfl
  have hit₁ : Iterating nothing (h.put w p₁) (grown own h (h.put w p₁)) i t w fs (rest :: bs) := by
    rw [hgrown]
    exact ⟨⟨link, ht.put_worker (q := p₁) hp rfl rfl rfl hdone, hlink⟩, .of_none hp₁ hleaf hpull, hbound⟩
  have hframed : Framed h (h.put w p₁) own := (Framed.refl h own).put _ (ht.owned w (List.mem_cons_self ..))
  obtain ⟨h', st', hret, hreq⟩ := go_on hres hm (.co_await rest bs) hit₁ hframed (fun _ _ => rfl) hbound
  refine ⟨h', st', hret.congr fun n => ?_, hreq⟩
  simp only [run_with, Heap.modify_eq hp, Option.bind_eq_bind, Option.bind_some, p₁]

/-- A worker runs from one suspension point up to the answer of the request. -/
theorem run_spec {b : Body V E} (hres : ResumeSpec V E nothing m) (hm : work (some (b :: bs)) ≤ m + 1)
    (hit : Iterating nothing h own i t w fs (b :: bs)) (hp : h.frames w = some p) (hleaf : p.leaf = none) (hpull : p.pulling = none) :
    ∃ h' st', Returns (fun n => run_with nothing (resume nothing n) h w b)
        (h', outcome (pending (some (b :: bs)))) ∧
      Requested nothing h h' own i t (some (b :: bs)) st' := by
  cases b with
  | co_return => exact run_co_return hres hm hit hp hleaf
  | co_yield value rest =>
    obtain ⟨h', hrun, hreq⟩ := run_co_yield value hit hp hleaf hpull
    exact ⟨h', _, ⟨0, fun n _ => hrun _⟩, hreq⟩
  | co_await rest => exact run_co_await hres hm hit hp hleaf hpull
  | throw ex =>
    obtain ⟨h', st', hrun, hreq⟩ := run_throw hit hp hleaf
    exact ⟨h', st', ⟨0, fun n _ => hrun _⟩, hreq⟩
  | elements_of_empty rest => exact run_elements_of_empty hres hm hit hp hpull
  | elements_of leaf pulls rest => exact run_elements_of hres hm hit hp hpull
  | elements_of_range rng rest => exact run_elements_of_range hres hm hit hp hpull

/-- A resumed tree first destroys the leaf its worker was suspended on. -/
theorem resume_spec (m : Nat) : ResumeSpec V E nothing m := by
  induction m with
  | zero =>
    intro h own i t w fs bs hm hit
    obtain ⟨_, ht, _⟩ := hit.tree
    obtain ⟨p, hp, -⟩ := ht.root
    obtain ⟨-, rest, rfl⟩ := ht.chain.head hp
    have hpos := p.body.size_pos
    rw [work_cons] at hm
    omega
  | succ m ih =>
    intro h own i t w fs bs hm hit
    obtain ⟨⟨link, ht, hlink⟩, hleft, hbound⟩ := hit
    obtain ⟨p, hp, -⟩ := ht.root
    obtain ⟨hdone, rest, rfl⟩ := ht.chain.head hp
    obtain ⟨h₁, hleave, hp₁, ht₁, hframed, hobjects, hnf, hno⟩ := ht.leave hleft hp
    have hit₁ : Iterating nothing h₁ own i t w fs (p.body :: rest) :=
      ⟨⟨link, ht₁, hlink⟩, .of_none hp₁ rfl (hleft.pulling p hp), hbound.trans_eq hno.symm⟩
    obtain ⟨h', st', hret, hreq⟩ := run_spec ih hm hit₁ hp₁ rfl (hleft.pulling p hp)
    have hgrown : grown own h h₁ = own := grown_of_eq own hnf
    refine ⟨h', st', .of_succ ?_, .of_step hframed (fun j _ => congrFun hobjects j) hbound (hgrown.symm ▸ hreq)⟩
    refine (hleave.bind (g := fun n h => run_with nothing (resume nothing n) h w p.body) hret).congr fun n => ?_
    simp only [resume, hp, Option.bind_eq_bind, Option.bind_some, hdone, Bool.false_eq_true, ↓reduceIte]

end resumes

end kelcoro.generator
