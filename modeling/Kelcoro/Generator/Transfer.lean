import Kelcoro.Generator.Programs

namespace kelcoro.generator

open kelcoro.generators_common kelcoro.lib Remaining

/-- The ways in which an object gets the coroutine of another one. -/
inductive Transfer where
  | move_construct
  | move_assign (target : Nat)
  | swap (target : Nat)
  | swap_from (target : Nat)
  | reset (target : Nat)
  deriving DecidableEq, Repr

namespace Transfer

variable {V E : Type}

/-- The last one is `target.reset(source.release())`. -/
def actions (source : Nat) (handle : Option FrameId) : Transfer → List (Act V E)
  | .move_construct => [.operate (.move_construct source)]
  | .move_assign target => [.operate (.move_assign target source)]
  | .swap target => [.operate (.swap target source)]
  | .swap_from target => [.operate (.swap source target)]
  | .reset target => [.operate (.release source), .operate (.reset target handle)]

def owner (p : GeneratorProgram V E) : Transfer → Nat
  | .move_construct => p.heap.next_object
  | .move_assign target | .swap target | .swap_from target | .reset target => target

def Allowed (p : GeneratorProgram V E) (source : Nat) : Transfer → Prop
  | .move_construct => True
  | .move_assign target | .swap target | .swap_from target | .reset target => target ∈ p.objects ∧ target ≠ source

/-- `reset` does not point the coroutine at its new object, so it goes on to
deliver to the old one. -/
def Harmless (nothing : Bool) (p : GeneratorProgram V E) (source : Nat) (t : FrameId) : Transfer → Prop
  | .move_construct | .move_assign _ | .swap _ | .swap_from _ => True
  | .reset target =>
    nothing = true ∨ (p.heap.objects target).current_result = none ∧
      ((p.streams t).ended = true ∨
        (p.heap.objects source).current_result = none ∧ ∀ v, .value v ∉ (p.streams t).events)

end Transfer

section

variable {V E : Type} (nothing : Bool)

/-- The coroutine of object `i` delivers to `i`. -/
def Iterated (p : GeneratorProgram V E) (i : Nat) (t : FrameId) : Prop :=
  p.top i = some t ∧ (nothing = false → ∀ q, p.heap.frames t = some q →
    if q.done then (p.heap.objects i).current_result = none else q.link = .consumer (.object i))

/-- Iterating object `j` in `h'` shows what iterating object `i` in `h` shows,
and writes nothing into `i`. -/
def Preserved (h h' : GeneratorHeap V E) (i j : Nat) : Prop :=
  ∀ requests h₁ os, Returns (fun n => iterate nothing n h i requests) (h₁, os) →
    ∃ h₂, Returns (fun n => iterate nothing n h' j requests) (h₂, os) ∧ h₂.objects i = h'.objects i

end

section preserved

variable {V E : Type} {nothing : Bool} {h h' : GeneratorHeap V E} {own own' : Set FrameId} {i j : Nat}
  {t : FrameId} {st : Remaining V E}

theorem toNat_top_throws_le (st : Remaining V E) : (top_throws st).toNat ≤ (pending st).length := by
  cases hthrows : top_throws st with
  | false => exact Nat.zero_le _
  | true => exact List.length_pos_iff.mpr (pending_ne_nil_of_top_throws st hthrows)

/-- A sequence of requests that comes back was allowed. -/
theorem allowed_of_returns {requests : List Request} {x : GeneratorHeap V E × List (Observation V E)}
    (hr : Represents nothing h own i t st) (hret : Returns (fun n => iterate nothing n h i requests) x) :
    Allowed st requests := by
  induction requests generalizing h own st x with
  | nil => exact fun k hk => by cases hk
  | cons r requests ih =>
    have hincrement : r = .increment → st ≠ none := by
      rintro rfl rfl
      obtain ⟨n, hn⟩ := hret
      obtain ⟨y, hy, -⟩ := Option.bind_eq_some_iff.mp (hn n le_rfl)
      simp only [request, increment, increment_with, hr.delivers.leaf_tree.empty_eq hr.top, Option.bind_eq_bind, Option.bind_some,
        Option.isNone_none, ↓reduceIte] at hy
      cases hy
    have hfirst : Allowed st [r] := by
      intro k hk
      obtain rfl : k = 0 := Nat.lt_one_iff.mp (List.getElem?_eq_some_iff.mp hk).1
      refine ⟨hincrement (Option.some.inj hk), ?_⟩
      rw [Nat.zero_add]
      exact toNat_top_throws_le st
    obtain ⟨h₁, st₁, hret₁, hreq⟩ := request_spec hfirst hr.delivers hr.top hr.delivers.bounded
    have hrest : Returns (fun n => iterate nothing n h₁ i requests) (x.1, x.2.tail) := by
      obtain ⟨b, hb⟩ := hret
      obtain ⟨b₁, hb₁⟩ := hret₁
      refine ⟨max b b₁, fun n hn => ?_⟩
      have hiterate := hb n (by omega)
      simp only [iterate, hb₁ n (by omega), Option.bind_eq_bind, Option.bind_some] at hiterate
      obtain ⟨o, -, hiterate⟩ := Option.bind_eq_some_iff.mp hiterate
      obtain ⟨y, hy, hx⟩ := Option.bind_eq_some_iff.mp hiterate
      obtain rfl := Option.some.inj hx
      exact hy
    intro k hk
    cases k with
    | zero => exact hfirst 0 hk
    | succ k =>
      obtain ⟨hne, hle⟩ := ih (hreq.represents hr.top) hrest k hk
      have hended := hreq.took.ended.not.mp hne
      have hpos : 0 < (pending st).length := List.length_pos_iff.mpr fun hnil => hended (.inl hnil)
      rw [hreq.took.top hne, hreq.took.events, List.length_tail] at hle
      refine ⟨fun hnone => ?_, by omega⟩
      rw [hnone] at hpos
      exact absurd hpos (lt_irrefl 0)

theorem Preserved.of_represents (hr : Represents nothing h own i t st) (hr' : Represents nothing h' own' j t st)
    (hi : i < h'.next_object) (hne : i ≠ j) : Preserved nothing h h' i j := by
  intro requests h₁ os hret
  have hallowed := allowed_of_returns hr hret
  obtain ⟨h₁', hret₁, -⟩ := iterate_spec hallowed hr
  obtain ⟨h₂, hret₂, hothers⟩ := iterate_spec hallowed hr'
  obtain ⟨-, rfl⟩ := Prod.mk.inj (hret₁.unique hret)
  exact ⟨h₂, hret₂, hothers i hne hi⟩

/-- What is seen of a request through an object that nothing is delivered to. -/
def stale (cur : Option V) (o : Observation V E) : Observation V E :=
  { o with value := cur, at_end := cur.isNone }

theorem stale_eq {e : List (Event V E)} (top : Bool) (hvalue : ∀ v, e.head? ≠ some (.value v)) :
    stale none (expected false top e) = expected false top e := by
  rcases e with _ | ⟨v | ex, rest⟩
  · rfl
  · exact absurd rfl (hvalue v)
  · simp [stale, expected]

theorem current_of_no_value {e : List (Event V E)} (hvalue : ∀ v, .value v ∉ e) : current e = none := by
  rcases e with _ | ⟨v | ex, rest⟩
  · rfl
  · exact absurd (List.mem_cons_self ..) (hvalue v)
  · rfl

theorem observe_elsewhere {h₁ : GeneratorHeap V E} {st₁ : Remaining V E}
    (hreq : Requested false h h₁ own i t st st₁) (htop : (h.objects j).top = some t) (hj : j < h.next_object)
    (hne : j ≠ i) :
    observe false h₁ j (outcome (pending st)) =
      some (stale (h.objects j).current_result (expected false (top_throws st) (pending st))) := by
  have hobject := hreq.others j hne hj
  have hempty : empty h₁ (.object j) = some st₁.isNone :=
    hreq.delivers.leaf_tree.empty_eq ((congrArg Generator.top hobject).trans htop)
  rw [took_isNone false hreq.took] at hempty
  simp only [observe, equals_end, dereference, hempty, hobject, Bool.false_eq_true, ↓reduceIte,
    Option.bind_eq_bind, Option.bind_some, stale]
  rcases hpending : pending st with _ | ⟨_ | _, rest⟩ <;> simp [expected, outcome]

/-- The coroutine of `j` delivers to `i`: what is seen through `j` never changes. -/
theorem iterate_elsewhere {requests : List Request} (ha : Allowed st requests) (hd : Delivers false h own i t st)
    (htop : (h.objects j).top = some t) (hj : j < h.next_object) (hne : j ≠ i) :
    ∃ h₂, Returns (fun n => iterate false n h j requests)
        (h₂, (List.range requests.length).map fun k =>
          stale (h.objects j).current_result (expected false (top_throws st) ((pending st).drop k))) ∧
      ((∀ v, .value v ∉ pending st) → (st ≠ none → (h.objects i).current_result = none) →
        h₂.objects i = h.objects i) := by
  induction requests generalizing h own st with
  | nil => exact ⟨h, .const rfl, fun _ _ => rfl⟩
  | cons r requests ih =>
    obtain ⟨h₁, st₁, hret₁, hreq⟩ := request_spec ha hd htop hj
    have hobject := hreq.others j hne hj
    obtain ⟨h₂, hret₂, hkept⟩ := ih (ha.tail hreq.took) hreq.delivers ((congrArg Generator.top hobject).trans htop)
      (hj.trans_le hreq.framed.next_object)
    rw [hobject] at hret₂
    have hrest : (fun k => stale (h.objects j).current_result
          (expected false (top_throws st₁) ((pending st₁).drop k))) =
        (fun k => stale (h.objects j).current_result (expected false (top_throws st) ((pending st).drop k))) ∘
          Nat.succ :=
      funext fun k => congrArg _ (expected_tail false hreq.took k)
    obtain ⟨b₁, hret₁⟩ := hret₁
    obtain ⟨b₂, hret₂⟩ := hret₂
    refine ⟨h₂, ⟨max b₁ b₂, fun n hn => ?_⟩, fun hvalue hcur => ?_⟩
    · simp only [iterate, hret₁ n (by omega), hret₂ n (by omega), observe_elsewhere hreq htop hj hne,
        Option.bind_eq_bind, Option.bind_some, List.length_cons, List.range_succ_eq_map, List.map_cons,
        List.map_map, List.drop_zero, hrest]
    · have hnone : current (pending st) = none := current_of_no_value hvalue
      have hbefore : (h.objects i).current_result = none := by
        by_cases hst : st = none
        · subst hst
          exact Finished.current hd rfl
        · exact hcur hst
      have hsame : h₁.objects i = h.objects i := by
        have hafter := hreq.current rfl
        rw [hnone, ← hbefore] at hafter
        change Generator.mk (h₁.objects i).current_result (h₁.objects i).top = _
        rw [hafter, hreq.top]
      have hvalue₁ : ∀ v, .value v ∉ pending st₁ := fun v hv => by
        rw [hreq.took.events] at hv
        exact hvalue v (List.mem_of_mem_tail hv)
      refine (hkept hvalue₁ fun _ => ?_).trans hsame
      rw [hsame, hbefore]

theorem Allowed.begins (st : Remaining V E) (n : Nat) : Allowed st (List.replicate n .begin) := by
  intro k hk
  have hmem := List.eq_of_mem_replicate (List.mem_of_getElem? hk)
  cases hmem

/-- Iterating through an object that nothing is delivered to goes unnoticed only
while there is nothing to deliver. -/
theorem preserved_elsewhere_iff (hr : Represents false h own i t st) (hd : Delivers false h' own' i t st)
    (htop : (h'.objects j).top = some t) (hj : j < h'.next_object) (hne : j ≠ i) :
    Preserved false h h' i j ↔ (h'.objects j).current_result = none ∧
      (st = none ∨ (h'.objects i).current_result = none ∧ ∀ v, .value v ∉ pending st) := by
  constructor
  · intro hpreserved
    have hsame : ∀ k ≤ (pending st).length, stale (h'.objects j).current_result
        (expected false (top_throws st) ((pending st).drop k)) = expected false (top_throws st) ((pending st).drop k) := by
      have hallowed := Allowed.begins st ((pending st).length + 1)
      obtain ⟨h₁, hret₁, -⟩ := iterate_spec hallowed hr
      obtain ⟨h₂, hret₂, -⟩ := hpreserved _ _ _ hret₁
      obtain ⟨h₃, hret₃, -⟩ := iterate_elsewhere hallowed hd htop hj hne
      have hlists := (Prod.mk.inj (hret₃.unique hret₂)).2
      rw [List.length_replicate] at hlists
      intro k hk
      exact List.map_inj_left.mp hlists k (List.mem_range.mpr (by omega))
    have hcur : (h'.objects j).current_result = none := by
      have hend := congrArg Observation.at_end (hsame _ le_rfl)
      rw [List.drop_length] at hend
      exact Option.isNone_iff_eq_none.mp hend
    have hvalue : ∀ v, .value v ∉ pending st := by
      intro v hv
      obtain ⟨k, hk, hget⟩ := List.getElem_of_mem hv
      have hvalue := congrArg Observation.value (hsame k hk.le)
      rw [List.drop_eq_getElem_cons hk, hget, hcur] at hvalue
      cases hvalue
    refine ⟨hcur, or_iff_not_imp_left.mpr fun hst => ⟨?_, hvalue⟩⟩
    have hallowed := Allowed.begins st 1
    obtain ⟨h₁, hret₁, -⟩ := iterate_spec hallowed hr
    obtain ⟨h₂, hret₂, hkept⟩ := hpreserved _ _ _ hret₁
    obtain ⟨h₃, st₃, hret₃, hreq⟩ := request_spec hallowed hd htop hj
    have hiterate : Returns (fun n => iterate false n h' j [.begin])
        (h₃, [stale (h'.objects j).current_result (expected false (top_throws st) (pending st))]) := by
      obtain ⟨b, hb⟩ := hret₃
      refine ⟨b, fun n hn => ?_⟩
      simp only [iterate, hb n hn, observe_elsewhere hreq htop hj hne, Option.bind_eq_bind, Option.bind_some]
    obtain ⟨rfl, -⟩ := Prod.mk.inj (hiterate.unique hret₂)
    rw [← hkept, hreq.current rfl]
    exact current_of_no_value hvalue
  · rintro ⟨hcur, hst⟩ requests h₁ os hret
    have hallowed := allowed_of_returns hr hret
    obtain ⟨h₁', hret₁, -⟩ := iterate_spec hallowed hr
    obtain ⟨h₂, hret₂, hkept⟩ := iterate_elsewhere hallowed hd htop hj hne
    obtain ⟨-, rfl⟩ := Prod.mk.inj (hret₁.unique hret)
    have hvalue : ∀ v, .value v ∉ pending st := by
      rcases hst with rfl | ⟨-, hvalue⟩
      · simp [pending]
      · exact hvalue
    refine ⟨h₂, ?_, hkept hvalue fun hne => (hst.resolve_left hne).1⟩
    have hsame : (fun k => stale (h'.objects j).current_result
          (expected false (top_throws st) ((pending st).drop k))) =
        fun k => expected false (top_throws st) ((pending st).drop k) := by
      funext k
      rw [hcur]
      refine stale_eq _ fun v hv => ?_
      exact hvalue v (List.mem_of_mem_drop (List.mem_of_mem_head? hv))
    rw [hsame] at hret₂
    exact hret₂

end preserved

section transfers

variable {V E : Type} {nothing : Bool} {p : GeneratorProgram V E} {h' : GeneratorHeap V E}
  {own own' : FrameId → Set FrameId} {st st' : FrameId → Remaining V E} {i j : Nat} {t : FrameId}

/-- Nothing is delivered for `nothing_t`, to whichever object. -/
theorem Delivers.of_nothing {h : GeneratorHeap V E} {own : Set FrameId} {st : Remaining V E}
    (hd : Delivers true h own i t st) (hj : j < h.next_object) : Delivers true h own j t st := by
  cases st with
  | none =>
    have hfin : Finished true h own i t := hd
    exact ⟨hfin.frame, hfin.owned, hfin.owned_bounded, fun hn => absurd hn.symm Bool.false_ne_true, hj⟩
  | some bs =>
    obtain ⟨w, fs, ⟨link, htree, -⟩, hleft, -⟩ := hd
    exact ⟨w, fs, ⟨link, htree, fun hn => absurd hn.symm Bool.false_ne_true⟩, hleft, hj⟩

theorem Iterated.represents (hit : Iterated nothing p i t) (ho : Owned p own st) (hi : i ∈ p.objects) :
    Represents nothing p.heap (own t) i t (st t) :=
  ⟨delivers_of_link ho (p.mem_held hi hit.1) (ho.bounded i hi) hit.2, hit.1⟩

/-- `swap` points each coroutine at the object that has it now. -/
theorem represents_of_swapped (ho : Owned p own st) (hi : i ∈ p.objects) (hj : j ∈ p.objects)
    (hs : Swapped (relink nothing) p.heap h' j i) (hit : Iterated nothing p i t) :
    Represents nothing h' (own t) j t (st t) := by
  obtain ⟨ho', -, -⟩ := ho.swapped (operations V E nothing) hj hi hs rfl
  obtain ⟨htop, hlink⟩ := hit
  have hobject : h'.objects j = p.heap.objects i := by
    rw [hs.objects, Function.comp_apply, Equiv.swap_apply_left]
  have htop' : ({ p with heap := h' } : GeneratorProgram V E).top j = some t := by
    exact (congrArg Generator.top hobject).trans htop
  refine ⟨delivers_of_link ho' (Program.mem_held hj htop') (ho'.bounded j hj) fun hn q' hq' => ?_, htop'⟩
  obtain ⟨q, hq, -⟩ := ho.frame hi htop
  obtain rfl := Option.some.inj ((hs.this t q htop hq).symm.trans hq')
  subst hn
  have hcur := hlink rfl q hq
  by_cases hdone : q.done = true
  · rw [if_pos hdone] at hcur ⊢
    rw [hobject, hcur]
  · rw [if_neg hdone]
    rfl

/-- `reset` leaves the coroutine pointed at the object it was released from. -/
theorem delivers_of_reset (ho : Owned p own st) (hi : i ∈ p.objects) (hj : j ∈ p.objects) (hne : j ≠ i)
    (hit : Iterated nothing p i t) :
    ∃ p', Run (Step nothing) p (Transfer.actions i (some t) (.reset j)) p' ∧
      (∃ own', Delivers nothing p'.heap own' i t (st t)) ∧ (p'.heap.objects j).top = some t ∧
      j < p'.heap.next_object ∧ (p'.heap.objects j).current_result = (p.heap.objects j).current_result ∧
      (p'.heap.objects i).current_result = (p.heap.objects i).current_result := by
  obtain ⟨htop, hlink⟩ := hit
  have ht := p.mem_held hi htop
  obtain ⟨p₁, own₁, st₁, hret₁, hperformed₁, ho₁, htraced₁⟩ :=
    perform_spec (operations V E nothing) (a := .release i) ho hi
  cases hperformed₁
  have hhandle : t ∈ p.handles ∪ (p.top i).toFinset :=
    Finset.mem_union_right _ (Option.mem_toFinset.mpr htop)
  obtain ⟨p₂, own₂, st₂, hret₂, hperformed₂, ho₂, htraced₂⟩ :=
    perform_spec (operations V E nothing) (a := .reset j (some t)) ho₁
      ⟨hj, fun t' ht' => Option.some.inj ht' ▸ hhandle⟩
  cases hperformed₂ with
  | @reset _ _ h₂ emptied =>
    have hobject : (p.heap.put_object i (LeafObject.set_top (p.heap.objects i) none)).objects j = p.heap.objects j :=
      p.heap.put_object_objects_of_ne _ hne
    have hapart : (p.heap.objects j).top ≠ some t := fun htj => hne (ho.holders.unique j hj i hi t htj htop)
    have hframe : h₂.frames t = p.heap.frames t := emptied.frames t (.inr hhandle) (by rw [hobject]; exact hapart)
    have hcurj : (h₂.objects j).current_result = (p.heap.objects j).current_result := by
      rw [← hobject]
      rcases emptied.object with heq | heq <;> rw [heq]
      rfl
    have hcuri : (h₂.objects i).current_result = (p.heap.objects i).current_result := by
      rw [emptied.objects i hne.symm, Heap.put_object_objects_self]
      rfl
    have htop₂ : ((h₂.put_object j (LeafObject.set_top (h₂.objects j) (some t))).objects j).top = some t := by
      rw [Heap.put_object_objects_self]
      rfl
    have hobject₂ : (h₂.put_object j (LeafObject.set_top (h₂.objects j) (some t))).objects i = h₂.objects i :=
      Heap.put_object_objects_of_ne _ _ hne.symm
    have hst : st₂ t = st t := (htraced₂.same t (.inr hhandle)).trans (htraced₁.same t ht)
    refine ⟨_, .cons ⟨hi, hret₁⟩ (.cons ⟨⟨hj, fun t' ht' => Option.some.inj ht' ▸ hhandle⟩, hret₂⟩ (.nil _)),
      ⟨own₂ t, ?_⟩, htop₂, ho₂.bounded j hj, ?_, ?_⟩
    · rw [← hst]
      refine delivers_of_link ho₂ (Program.mem_held hj htop₂) (ho₂.bounded i hi) fun hn q hq => ?_
      have hq' := hlink hn q (hframe.symm.trans hq)
      rw [hobject₂, hcuri]
      exact hq'
    · rw [Heap.put_object_objects_self]
      exact hcurj
    · rw [hobject₂, hcuri]

/-- Handing a coroutine over at any point of its iteration. The new owner shows
what the old one would have shown, and the old one is left alone, unless the
coroutine was handed over by `reset` and still has something to write. -/
theorem transfer_preserves_stream_iff {as : List (Act V E)} (hrun : Run (Step nothing) Program.initial as p)
    (hi : i ∈ p.objects) (hit : Iterated nothing p i t) (transfer : Transfer) (hallowed : transfer.Allowed p i) :
    ∃ p', Run (Step nothing) p (transfer.actions i (some t)) p' ∧
      (Preserved nothing p.heap p'.heap i (transfer.owner p) ↔ transfer.Harmless nothing p i t) := by
  obtain ⟨own, st, ho, hlinked⟩ := sound_of_run hrun (Sound.initial nothing)
  have hr := hit.represents ho hi
  have hsound : ∀ {a : Action V E}, a.Allowed p → ∃ p', Step nothing p (.operate a) p' ∧
      Performed (operations V E nothing) p a p' := by
    intro a ha
    obtain ⟨p', _, _, hret, hperformed, -⟩ := perform_spec (operations V E nothing) ho ha
    exact ⟨p', ⟨ha, hret⟩, hperformed⟩
  cases transfer with
  | move_construct =>
    obtain ⟨p', hstep, hperformed⟩ := hsound (a := .move_construct i) hi
    refine ⟨p', .cons hstep (.nil _), iff_of_true ?_ trivial⟩
    cases hperformed with
    | move_construct hs =>
      let p₁ : GeneratorProgram V E :=
        { p with heap := p.heap.new_object.1, objects := insert p.heap.next_object p.objects }
      obtain ⟨ho₁, -⟩ : Owned p₁ own st ∧ p₁.held ⊆ p.held := ho.construct rfl
      have hlt := ho.bounded i hi
      have hobject : p₁.heap.objects i = p.heap.objects i := p.heap.put_object_objects_of_ne _ (ne_of_lt hlt)
      have hit₁ : Iterated nothing p₁ i t := by
        refine ⟨(congrArg Generator.top hobject).trans hit.1, fun hn q hq => ?_⟩
        rw [hobject]
        exact hit.2 hn q hq
      have hr' := represents_of_swapped ho₁ (Finset.mem_insert_of_mem hi) (Finset.mem_insert_self ..) hs hit₁
      exact .of_represents hr hr' ((hlt.trans (Nat.lt_succ_self _)).trans_eq hs.next_object.symm) (ne_of_lt hlt)
  | move_assign j =>
    obtain ⟨hj, hne⟩ := hallowed
    obtain ⟨p', hstep, hperformed⟩ := hsound (a := .move_assign j i) ⟨hj, hi⟩
    refine ⟨p', .cons hstep (.nil _), iff_of_true ?_ trivial⟩
    cases hperformed with
    | move_assign hs =>
      exact .of_represents hr (represents_of_swapped ho hi hj hs hit)
        ((ho.bounded i hi).trans_eq hs.next_object.symm) hne.symm
  | swap j =>
    obtain ⟨hj, hne⟩ := hallowed
    obtain ⟨p', hstep, hperformed⟩ := hsound (a := .swap j i) ⟨hj, hi⟩
    refine ⟨p', .cons hstep (.nil _), iff_of_true ?_ trivial⟩
    cases hperformed with
    | swap hs =>
      exact .of_represents hr (represents_of_swapped ho hi hj hs hit)
        ((ho.bounded i hi).trans_eq hs.next_object.symm) hne.symm
  | swap_from j =>
    obtain ⟨hj, hne⟩ := hallowed
    obtain ⟨p', hstep, hperformed⟩ := hsound (a := .swap i j) ⟨hi, hj⟩
    refine ⟨p', .cons hstep (.nil _), iff_of_true ?_ trivial⟩
    cases hperformed with
    | swap hs =>
      exact .of_represents hr (represents_of_swapped ho hi hj hs.symm hit)
        ((ho.bounded i hi).trans_eq hs.next_object.symm) hne.symm
  | reset j =>
    obtain ⟨hj, hne⟩ := hallowed
    obtain ⟨p', hrun', ⟨own', hd⟩, htop, hbound, hcurj, hcuri⟩ := delivers_of_reset ho hi hj hne hit
    refine ⟨p', hrun', ?_⟩
    have hstream := ho.streams t (p.mem_held hi hit.1)
    cases nothing with
    | true =>
      exact iff_of_true (.of_represents hr ⟨hd.of_nothing hbound, htop⟩ hd.bounded hne.symm) (.inl rfl)
    | false =>
      rw [show Transfer.owner p (.reset j) = j from rfl, preserved_elsewhere_iff hr hd htop hbound hne, hcurj, hcuri]
      simp only [Transfer.Harmless, hstream, stream, Bool.false_eq_true, Option.isNone_iff_eq_none, false_or]

end transfers

/-- A generator is swapped in the middle of its iteration. -/
theorem swap_preserves_stream :
    ∃ p p', Run (Step false) (Program.initial : GeneratorProgram Nat Nat)
        [.operate (.call (.co_yield 1 (.co_yield 2 .co_return))), .request 0 .begin .returned, .operate .construct] p ∧
      Run (Step false) p (Transfer.actions 0 (some 0) (.swap 1)) p' ∧
      (Preserved false p.heap p'.heap 0 1 ↔ True) := by
  have hbegin : ∀ {h : GeneratorHeap Nat Nat} {x : GeneratorHeap Nat Nat × Outcome Nat},
      (∀ n, begin false (n + 2) h 0 = some x) → Returns (fun n => begin false n h 0) x :=
    fun hx => .of_succ (.of_succ ⟨0, fun n _ => hx n⟩)
  have hrun : Run (Step false) (Program.initial : GeneratorProgram Nat Nat)
      [.operate (.call (.co_yield 1 (.co_yield 2 .co_return))), .request 0 .begin .returned, .operate .construct] _ :=
    .cons ⟨trivial, .const rfl⟩ (.cons ⟨by decide, _, hbegin fun _ => rfl, rfl⟩ (.cons ⟨trivial, .const rfl⟩ (.nil _)))
  obtain ⟨p', hrun', hiff⟩ := transfer_preserves_stream_iff hrun (i := 0) (t := 0) (by decide)
    ⟨rfl, fun _ q hq => by obtain rfl := Option.some.inj hq; rfl⟩
    (.swap 1) ⟨by decide, by decide⟩
  exact ⟨_, p', hrun, hrun', hiff⟩

/-- After `reset` a loop over the new owner shows nothing, and the old owner is
written to. -/
theorem reset_loses_stream :
    ∃ p p', Run (Step false) (Program.initial : GeneratorProgram Nat Nat)
        [.operate (.call (.co_yield 1 .co_return)), .operate .construct] p ∧
      Iterated false p 0 0 ∧ Run (Step false) p (Transfer.actions 0 (some 0) (.reset 1)) p' ∧
      ¬ Preserved false p.heap p'.heap 0 1 := by
  have hclear : ∀ {p q : GeneratorProgram Nat Nat},
      (∀ n, perform (operations Nat Nat false) (n + 1) p (.reset 1 (some 0)) = some q) →
      Returns (fun n => perform (operations Nat Nat false) n p (.reset 1 (some 0))) q :=
    fun hx => .of_succ ⟨0, fun n _ => hx n⟩
  have hiterate : ∀ {h : GeneratorHeap Nat Nat} {i : Nat} {x : GeneratorHeap Nat Nat × List (Observation Nat Nat)},
      (∀ n, iterate false (n + 1) h i [.begin] = some x) → Returns (fun n => iterate false n h i [.begin]) x :=
    fun hx => .of_succ ⟨0, fun n _ => hx n⟩
  refine ⟨_, _, .cons ⟨trivial, .const rfl⟩ (.cons ⟨trivial, .const rfl⟩ (.nil _)), ⟨rfl, ?_⟩,
    .cons ⟨by decide, .const rfl⟩ (.cons ⟨⟨by decide, by decide⟩, hclear fun _ => rfl⟩ (.nil _)), fun hpreserved => ?_⟩
  · intro _ q hq
    obtain rfl := Option.some.inj hq
    rfl
  · obtain ⟨h₂, hret, -⟩ := hpreserved [.begin] _ [{ outcome := .returned, value := some 1, at_end := false, empty := false }]
      (hiterate fun _ => rfl)
    have hpairs := hret.unique (y := (_, [{ outcome := .returned, value := none, at_end := true, empty := false }]))
      (hiterate fun _ => rfl)
    cases (Prod.mk.inj hpairs).2

end kelcoro.generator
