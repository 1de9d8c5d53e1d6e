import Kelcoro.GeneratorsCommon.Destroy

namespace kelcoro.generators_common

open LeafObject Remaining kelcoro.lib

section streams

variable {V E : Type}

/-- What a coroutine object still has to deliver, as its consumer counts it. -/
structure Stream (V E : Type) where
  events : List (Event V E)
  top_throws : Bool
  ended : Bool
  deriving DecidableEq, Repr

namespace Stream

def of_body (body : Body V E) : Stream V E :=
  { events := body.flatten, top_throws := body.throws, ended := false }

/-- What is left after one request. An exception of the top coroutine itself
ends the stream at once, without one more request for its end. -/
def rest (s : Stream V E) : Stream V E :=
  let ended := s.events.isEmpty || (s.events.length == 1 && s.top_throws)
  { events := s.events.tail, top_throws := s.top_throws && !ended, ended }

end Stream

namespace Remaining

def stream (st : Remaining V E) : Stream V E :=
  { events := pending st, top_throws := top_throws st, ended := st.isNone }

theorem stream_singleton (body : Body V E) : stream (some [body]) = .of_body body := by
  simp only [stream, Stream.of_body, pending_cons, pending_nil, List.append_nil, top_throws_singleton,
    Option.isNone_some]

theorem Took.stream_eq {st st' : Remaining V E} (ht : Took st st') : stream st' = (stream st).rest := by
  have hended : st'.isNone = ((pending st).isEmpty || ((pending st).length == 1 && top_throws st)) := by
    rw [Bool.eq_iff_iff, Option.isNone_iff_eq_none, ht.ended]
    simp
  have hthrows : top_throws st' = (top_throws st && !st'.isNone) := by
    cases st' with
    | none => simp [top_throws]
    | some bs => rw [ht.top (Option.some_ne_none bs), Option.isNone_some, Bool.not_false, Bool.and_true]
  simp only [stream, Stream.rest, ht.events, hthrows, hended]

end Remaining

end streams

variable {V E O : Type} [LeafObject O] {h h' : Heap V E O}

/-- Only links differ, and only those of coroutines `ts`. -/
structure Relinked (h h' : Heap V E O) (ts : Set FrameId) : Prop where
  frames : ∀ x, x ∉ ts → h'.frames x = h.frames x
  tops : ∀ t p, h.frames t = some p → ∃ link, h'.frames t = some { p with link }
  next_frame : h'.next_frame = h.next_frame

namespace Relinked

omit [LeafObject O] in
theorem of_frames (hframes : h'.frames = h.frames) (hnext : h'.next_frame = h.next_frame) (ts : Set FrameId) :
    Relinked h h' ts :=
  ⟨fun x _ => by rw [hframes], fun t p hp => ⟨p.link, by rw [hframes, hp]⟩, hnext⟩

omit [LeafObject O] in
theorem mono {ts ts' : Set FrameId} (hr : Relinked h h' ts) (hsub : ts ⊆ ts') : Relinked h h' ts' :=
  ⟨fun x hx => hr.frames x fun hin => hx (hsub hin), hr.tops, hr.next_frame⟩

end Relinked

/-- Coroutines `ts` that do not know of each other: each has frames of its own,
and something left to deliver. -/
structure Forest (h : Heap V E O) (ts : Set FrameId) (own : FrameId → Set FrameId)
    (st : FrameId → Remaining V E) : Prop where
  tree : ∀ t ∈ ts, LeafTree h (own t) t (st t)
  disjoint : ts.PairwiseDisjoint own

namespace Forest

variable {ts ts' : Set FrameId} {own : FrameId → Set FrameId} {st : FrameId → Remaining V E}

theorem empty (h : Heap V E O) (own : FrameId → Set FrameId) (st : FrameId → Remaining V E) :
    Forest h ∅ own st :=
  ⟨fun _ ht => ht.elim, Set.pairwiseDisjoint_empty⟩

theorem mono (hf : Forest h ts own st) (hsub : ts' ⊆ ts) : Forest h ts' own st :=
  ⟨fun t ht => hf.tree t (hsub ht), hf.disjoint.subset hsub⟩

theorem live_only (hf : Forest h ts own st) : Forest h ts (fun t => own t ∩ {x | h.frames x ≠ none}) st :=
  ⟨fun t ht => (hf.tree t ht).live_only,
    fun _ ht _ ht' hne => (hf.disjoint ht ht' hne).mono Set.inter_subset_left Set.inter_subset_left⟩

theorem frame (hf : Forest h ts own st) {t : FrameId} (ht : t ∈ ts) :
    ∃ q, h.frames t = some q ∧ q.done = (st t).isNone :=
  (hf.tree t ht).frame

theorem lt_next_frame (hf : Forest h ts own st) {t : FrameId} (ht : t ∈ ts) : t < h.next_frame :=
  (hf.tree t ht).bounded t (hf.tree t ht).top_mem

/-- No coroutine owns another one. -/
theorem notMem_own (hf : Forest h ts own st) {t t' : FrameId} (ht : t ∈ ts) (ht' : t' ∈ ts) (hne : t' ≠ t) :
    t' ∉ own t :=
  fun hin => Set.disjoint_left.mp (hf.disjoint ht' ht hne) (hf.tree t' ht').top_mem hin

theorem relinked (hf : Forest h ts own st) (hr : Relinked h h' ts) : Forest h' ts own st := by
  refine ⟨fun t ht => ?_, hf.disjoint⟩
  obtain ⟨q, hq, -⟩ := hf.frame ht
  obtain ⟨link, hq'⟩ := hr.tops t q hq
  refine (hf.tree t ht).relink hq hq' (fun x hx hne => hr.frames x fun hin => ?_) hr.next_frame
  exact hf.notMem_own ht hin hne hx

/-- One coroutine is called. -/
theorem insert {p : Frame V E O} {body : Body V E} {link : Link} (hf : Forest h ts own st)
    (hp : h'.frames h.next_frame = some p) (hstarted : p = { Frame.started h.next_frame body with link })
    (hsame : ∀ x, x ≠ h.next_frame → h'.frames x = h.frames x) (hnext : h'.next_frame = h.next_frame + 1) :
    Forest h' (insert h.next_frame ts) (Function.update own h.next_frame {h.next_frame})
      (Function.update st h.next_frame (some [body])) := by
  subst hstarted
  have hlt : ∀ t ∈ ts, ∀ x ∈ own t, x ≠ h.next_frame := fun t ht x hx =>
    ne_of_lt ((hf.tree t ht).bounded x hx)
  have hne : ∀ t ∈ ts, t ≠ h.next_frame := fun t ht => hlt t ht t (hf.tree t ht).top_mem
  constructor
  · rintro t (rfl | ht)
    · rw [Function.update_self, Function.update_self]
      refine ⟨link, _, [], Tree.single hp rfl rfl rfl rfl ?_, .of_none hp rfl rfl⟩
      rintro x rfl
      exact hnext ▸ Nat.lt_succ_self _
    · rw [Function.update_of_ne (hne t ht), Function.update_of_ne (hne t ht)]
      exact (hf.tree t ht).of_same (fun x hx => hsame x (hlt t ht x hx)) (hnext ▸ Nat.le_succ _)
  · refine Set.PairwiseDisjoint.insert_of_notMem ?_ (fun hin => hne _ hin rfl) ?_
    · intro t ht t' ht' htt'
      simp only [Function.onFun, Function.update_of_ne (hne t ht), Function.update_of_ne (hne t' ht')]
      exact hf.disjoint ht ht' htt'
    · intro t ht
      rw [Function.update_self, Function.update_of_ne (hne t ht)]
      exact Set.disjoint_singleton_left.mpr fun hin => hlt t ht _ hin rfl

/-- One coroutine is destroyed. -/
theorem remove {t : FrameId} (hf : Forest h ts own st) (ht : t ∈ ts)
    (hsame : ∀ x, x ∉ own t → h'.frames x = h.frames x) (hnext : h'.next_frame = h.next_frame) :
    Forest h' (ts \ {t}) own st := by
  refine ⟨fun t' ht' => ?_, hf.disjoint.subset Set.sdiff_subset⟩
  obtain ⟨hin, hne⟩ := ht'
  refine (hf.tree t' hin).of_same (fun x hx => hsame x fun hx' => ?_) hnext.ge
  exact Set.disjoint_left.mp (hf.disjoint hin ht hne) hx hx'

/-- One coroutine is asked, and allocates frames. -/
theorem request {t : FrameId} {st' : Remaining V E} (hf : Forest h ts own st) (hframed : Framed h h' (own t))
    (hl : LeafTree h' (grown (own t) h h') t st') (ht : t ∈ ts) :
    Forest h' ts (Function.update own t (grown (own t) h h')) (Function.update st t st') := by
  have hapart : ∀ t' ∈ ts, t' ≠ t → Disjoint (own t') (grown (own t) h h') := by
    intro t' ht' hne
    refine (hf.disjoint ht' ht hne).union_right (Set.disjoint_left.mpr fun x hx hnew => ?_)
    exact not_le_of_gt ((hf.tree t' ht').bounded x hx) hnew.1
  constructor
  · intro t' ht'
    by_cases heq : t' = t
    · subst heq
      rw [Function.update_self, Function.update_self]
      exact hl
    · rw [Function.update_of_ne heq, Function.update_of_ne heq]
      have hdisj := hf.disjoint ht' ht heq
      refine (hf.tree t' ht').of_same (fun x hx => ?_) hframed.next_frame
      exact hframed.frames x ((hf.tree t' ht').bounded x hx) (Set.disjoint_left.mp hdisj hx)
  · intro t₁ ht₁ t₂ ht₂ hne
    simp only [Function.onFun]
    by_cases h₁ : t₁ = t
    · subst h₁
      rw [Function.update_self, Function.update_of_ne hne.symm]
      exact (hapart t₂ ht₂ hne.symm).symm
    · rw [Function.update_of_ne h₁]
      by_cases h₂ : t₂ = t
      · subst h₂
        rw [Function.update_self]
        exact hapart t₁ ht₁ h₁
      · rw [Function.update_of_ne h₂]
        exact hf.disjoint ht₁ ht₂ hne

end Forest

end kelcoro.generators_common
