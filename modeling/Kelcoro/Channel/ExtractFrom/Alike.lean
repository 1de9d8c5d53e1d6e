import Kelcoro.Channel.ExtractFrom.Heard
import Kelcoro.GeneratorsCommon.Alike

namespace kelcoro.channel.extract_from

open kelcoro.generators_common kelcoro.lib

variable {V E : Type}

/-- The object of the same channel in a program with channels of other `Yield`s. -/
def counterpart (x : Channel V E) : Channel (Operand V E) E :=
  { current_result := x.current_result.map .value, handle := x.handle, top := x.top, exception := x.exception }

def likeness (V E : Type) : Likeness (Channel V E) (Channel (Operand V E) E) where
  link := Eq
  object x x' := x' = counterpart x
  refl := Eq.refl
  owner_eq hlink howner := hlink.symm.trans howner
  default := rfl
  top hx := by rw [hx]; rfl
  set_top _ hx := by rw [hx]; rfl

/-- A program of channels, and the one in which ranges stand for those with other
`Yield`s. -/
abbrev HeapAlike (S : FrameId → Body V E → Body (Operand V E) E → Prop) (L : FrameId → Prop) (h : ChannelHeap V E)
    (g : ChannelHeap (Operand V E) E) : Prop :=
  Alike (likeness V E) S L h g

namespace HeapAlike

variable {S T : FrameId → Body V E → Body (Operand V E) E → Prop} {L M : FrameId → Prop} {h : ChannelHeap V E}
  {g : ChannelHeap (Operand V E) E} {f : FrameId}

theorem consumer (ha : HeapAlike S L h g) (f : FrameId) :
    Simulates (fun place place' => place' = place) (consumer h f) (channel.consumer g f) := by
  refine (ha.frame f).bind fun p q hpq => ?_
  rw [hpq.root]
  refine (ha.frame p.root).bind fun pr qr hr => ?_
  rw [show qr.link = pr.link from hr.link.symm]
  cases pr.link with
  | consumer place => exact .some rfl
  | uninit | owner _ => exact .none _

theorem consumer_handle (ha : HeapAlike S L h g) (f : FrameId) :
    Simulates (fun r r' => r' = r) (consumer_handle h f) (channel.consumer_handle g f) := by
  refine (ha.consumer f).bind fun place place' hplace => ?_
  subst hplace
  refine (ha.object place').bind fun x x' ⟨hx, _⟩ r hr => ⟨r, ?_, rfl⟩
  rw [hx]
  exact hr

theorem set_result (ha : HeapAlike S L h g) (f : FrameId) (v : Option V) :
    Simulates (HeapAlike S L) (set_result h f v) (channel.set_result g f (v.map .value)) := by
  refine (ha.consumer f).bind fun place place' hplace => ?_
  subst hplace
  refine (ha.object place').bind fun x x' ⟨hx, hstill⟩ => ?_
  rw [hx]
  exact ha.set_object place' rfl hstill

theorem exception (ha : HeapAlike S L h g) (f : FrameId) :
    Simulates (fun ex ex' => ex' = ex) (exception h f) (channel.exception g f) := by
  refine (ha.consumer f).bind fun place place' hplace => ?_
  subst hplace
  refine (ha.object place').bind fun x x' ⟨hx, _⟩ => ?_
  rw [hx]
  exact .some rfl

theorem set_exception (ha : HeapAlike S L h g) (f : FrameId) (ex : Option E) :
    Simulates (HeapAlike S L) (set_exception h f ex) (channel.set_exception g f ex) := by
  refine (ha.consumer f).bind fun place place' hplace => ?_
  subst hplace
  refine (ha.object place').bind fun x x' ⟨hx, hstill⟩ => ?_
  rw [hx]
  exact ha.set_object place' rfl hstill

theorem yield_value (ha : HeapAlike S L h g) (f : FrameId) (value : V) :
    Simulates (AlikeWith (likeness V E) S L) (yield_value h f value) (channel.yield_value g f (.value value)) := by
  refine (ha.set_result f (some value)).bind fun h₁ g₁ ha₁ => (ha₁.consumer_handle f).bind fun r r' hr => ?_
  exact .some ⟨ha₁, hr⟩

theorem final_awaiter (ha : HeapAlike S L h g) (f : FrameId) :
    Simulates (AlikeWith (likeness V E) S L) (final_awaiter.await_suspend h f)
      (channel.final_awaiter.await_suspend g f) := by
  refine (ha.frame f).bind fun p q hpq => ?_
  rw [hpq.root]
  refine .ite (fun _ => ?_) fun _ => ?_
  · refine (ha.skip_this_leaf f).bind fun h₁ g₁ ha₁ => (ha₁.owner f).bind fun o o' ho => ?_
    exact .some ⟨ha₁, congrArg Runner.coroutine ho⟩
  · refine (ha.set_result f none).bind fun h₁ g₁ ha₁ => (ha₁.consumer_handle f).bind fun r r' hr => ?_
    exact .some ⟨ha₁, hr⟩

theorem unhandled_exception (ha : HeapAlike S L h g) (f : FrameId) (ex : E) :
    Simulates (Option.Rel (HeapAlike S L)) (unhandled_exception h f ex) (channel.unhandled_exception g f ex) := by
  refine (ha.exception f).bind fun x x' hx => ?_
  subst hx
  refine .ite (fun _ => .some .none) fun _ => ?_
  refine (ha.frame f).bind fun p q hpq => ?_
  have hskip : Simulates (HeapAlike S L) (if p.root ≠ f then skip_this_leaf h f else some h)
      (if q.root ≠ f then skip_this_leaf g f else some g) := by
    rw [hpq.root]
    exact .ite (fun _ => ha.skip_this_leaf f) fun _ => .some ha
  refine hskip.bind fun h₁ g₁ ha₁ => (ha₁.set_exception f (some ex)).bind fun h₂ g₂ ha₂ => ?_
  refine (ha₂.consumer f).bind fun place place' hplace => ?_
  subst hplace
  refine (ha₂.modify f fun p q hpq => ?_).bind fun h₃ g₃ ha₃ => ?_
  · exact { hpq with link := rfl }
  refine (ha₃.modify f fun p q hpq => ?_).bind fun h₄ g₄ ha₄ => .some (.some ha₄)
  exact { hpq with root := rfl }

theorem create {b : Body V E} {b' : Body (Operand V E) E} (ha : HeapAlike S L h g)
    (hS : ∀ x, x ≠ h.next_frame → ∀ b b', S x b b' → T x b b') (hL : ∀ x, x ≠ h.next_frame → M x → L x)
    (hnew : T h.next_frame b b') (place : Place) (hstill : ∀ f, place = .awaiter f → ¬ M f) :
    Simulates (HeapAlike T M) (create h b place) (channel.create g b' place) := by
  obtain ⟨ha₁, hf⟩ := ha.allocate hS hL hnew
  simp only [channel.create, hf]
  exact ha₁.set_object place rfl hstill

theorem move_construct (ha : HeapAlike S L h g) (this other : Place) (hstill : ∀ f, this = .awaiter f → ¬ L f) :
    Simulates (HeapAlike S L) (move_construct h this other) (channel.move_construct g this other) := by
  refine (ha.set_object this rfl hstill).bind fun h₁ g₁ ha₁ => ?_
  refine (ha₁.object this).bind fun x x' ⟨hx, _⟩ => (ha₁.object other).bind fun y y' ⟨hy, hother⟩ => ?_
  exact (ha₁.set_object this hy hstill).bind fun h₂ g₂ ha₂ => ha₂.set_object other hx hother

theorem take_exception (ha : HeapAlike S L h g) (i : Nat) :
    HeapAlike S L (take_exception h i).1 (channel.take_exception g i).1 ∧
      (channel.take_exception g i).2 = (channel.take_exception h i).2 := by
  have hi : g.objects i = counterpart (h.objects i) := ha.objects i
  simp only [channel.take_exception, hi]
  exact ⟨ha.put_object rfl i, rfl⟩

/-- Whoever iterates object `i` takes the exception if the iteration has stopped. -/
theorem taken (ha : HeapAlike S L h g) (i : Nat) :
    HeapAlike S L (if (h.objects i).current_result.isNone then (channel.take_exception h i).1 else h)
      (if (g.objects i).current_result.isNone then (channel.take_exception g i).1 else g) := by
  have hi : g.objects i = counterpart (h.objects i) := ha.objects i
  have hnone : (g.objects i).current_result.isNone = (h.objects i).current_result.isNone := by
    rw [hi, counterpart, Option.isNone_map]
  rw [hnone]
  split
  · exact (ha.take_exception i).1
  · exact ha

theorem await_suspend (ha : HeapAlike S L h g) (i : Nat) (c : Runner) :
    Simulates (AlikeWith (likeness V E) S L) (starter.await_suspend h i c) (channel.starter.await_suspend g i c) := by
  have hi : g.objects i = counterpart (h.objects i) := ha.objects i
  simp only [starter.await_suspend, hi, counterpart]
  cases (h.objects i).top with
  | none => exact .none _
  | some t =>
    refine ((ha.put_object rfl i).modify t fun p q hpq => ?_).bind fun h₁ g₁ ha₁ => ?_
    · exact { hpq with link := rfl }
    refine (ha₁.frame t).bind fun p q hpq => ?_
    exact .some ⟨ha₁, congrArg Runner.coroutine hpq.current_worker⟩

theorem increment (ha : HeapAlike S L h g) (i : Nat) :
    Simulates (fun r r' => r' = r) (increment h i) (channel.increment g i) := by
  refine (ha.empty (.object i)).bind fun b c hbc => ?_
  subst hbc
  refine .ite (fun _ => .none _) fun _ => ?_
  rw [show (g.objects i).top = (h.objects i).top from (likeness V E).top (ha.objects i)]
  cases (h.objects i).top with
  | none => exact .none _
  | some t => exact (ha.frame t).bind fun p q hpq => .some (congrArg Runner.coroutine hpq.current_worker)

/-- The leaf in the awaiter of `f` is awaited. -/
theorem go_on_leaf (ha : HeapAlike S L h g) (f : FrameId) :
    Simulates (AlikeWith (likeness V E) S L)
      (co_await_leaf h f >>= fun x => some (x.1, Next.transfer (.coroutine x.2)))
      (co_await_leaf g f >>= fun x => some (x.1, Next.transfer (.coroutine x.2))) := by
  refine (ha.co_await_leaf f).bind fun x y ⟨ha₁, hnext⟩ => .some ⟨ha₁, ?_⟩
  rw [hnext]

theorem pull (ha : HeapAlike S L h g) (hf : ¬ L f) (i left : Nat) :
    Simulates (AlikeWith (likeness V E) S L) (channel.pull h f i left) (channel.pull g f i left) := by
  have hstill : ∀ x, Place.awaiter f = .awaiter x → ¬ L x := fun x hx => by cases hx; exact hf
  have hput : ∀ {h g} (ha : HeapAlike S L h g) (pulling : Option (Nat × Nat)), Simulates (HeapAlike S L)
      (h.modify f ({ · with pulling })) (g.modify f ({ · with pulling })) := fun ha pulling =>
    ha.modify f fun p q hpq => { hpq with pulling := rfl, still := fun hL => absurd hL hf }
  cases left with
  | zero =>
    refine (hput (ha.taken i) none).bind fun h₁ g₁ ha₁ => ?_
    exact (ha₁.move_construct _ _ hstill).bind fun h₂ g₂ ha₂ => ha₂.go_on_leaf f
  | succ left =>
    refine (hput (ha.taken i) (some (i, left))).bind fun h₁ g₁ ha₁ => ?_
    refine (ha₁.empty (.object i)).bind fun b c hbc => ?_
    subst hbc
    refine .ite (fun _ => .some ⟨ha₁, rfl⟩) fun _ => ?_
    refine (ha₁.await_suspend i (.coroutine f)).bind fun x y ⟨ha₂, hnext⟩ => .some ⟨ha₂, ?_⟩
    rw [hnext]

end HeapAlike

/-- The next suspension hands over a channel with another `Yield`. -/
def Code.hands_other : Code V E → Bool
  | .elements_of_other_empty _ | .elements_of_other _ _ _ => true
  | _ => false

/-- Bodies of the same code in the two programs. -/
def SameCode (k : Nat) (b : Body V E) (b' : Body (Operand V E) E) : Prop :=
  ∃ c : Code V E, b = c.ranged ∧ b' = c.body ∧ c.cost ≤ k

section running

variable {S : FrameId → Body V E → Body (Operand V E) E → Prop} {L : FrameId → Prop} {k : Nat} {h : ChannelHeap V E}
  {g : ChannelHeap (Operand V E) E} {f : FrameId}

/-- A coroutine runs alike that does not hand over a channel with another `Yield`. -/
theorem run_alike (ha : HeapAlike S L h g) (hS : ∀ x, ¬ L x → ∀ b b', SameCode k b b' → S x b b') (hf : ¬ L f)
    (hnew : ¬ L h.next_frame) (ready : Bool) {c : Code V E} (hc : c.hands_other = false) (hcost : c.cost ≤ k) :
    Simulates (AlikeWith (likeness V E) S L) (run ready h f c.ranged) (run ready g f c.body) := by
  have hstill : ∀ x, Place.awaiter f = .awaiter x → ¬ L x := fun x hx => by cases hx; exact hf
  have hput : ∀ rest : Code V E, rest.cost ≤ k → Simulates (fun h₁ g₁ => HeapAlike S L h₁ g₁ ∧ h₁.next_frame = h.next_frame)
      (h.modify f ({ · with body := rest.ranged })) (g.modify f ({ · with body := rest.body })) := by
    intro rest hrest h₁ hh₁
    obtain ⟨g₁, hg₁, ha₁⟩ := ha.put_body f (hS f hf _ _ ⟨rest, rfl, rfl, hrest⟩) h₁ hh₁
    obtain ⟨p, -, rfl⟩ := Option.map_eq_some_iff.mp hh₁
    exact ⟨g₁, hg₁, ha₁, rfl⟩
  cases c with
  | co_return =>
    refine (ha.put_done f).bind fun h₁ g₁ ha₁ => (HeapAlike.final_awaiter ha₁ f).bind fun x y ⟨ha₂, hnext⟩ => .some ⟨ha₂, ?_⟩
    rw [hnext]
  | throw ex =>
    refine (ha.put_done f).bind fun h₁ g₁ ha₁ => (HeapAlike.unhandled_exception ha₁ f ex).bind fun x y hxy => ?_
    cases hxy with
    | none => exact .some ⟨ha₁, rfl⟩
    | some ha₂ =>
      refine (HeapAlike.final_awaiter ha₂ f).bind fun x y ⟨ha₃, hnext⟩ => .some ⟨ha₃, ?_⟩
      rw [hnext]
  | co_yield value rest =>
    refine (hput rest hcost).bind fun h₁ g₁ ⟨ha₁, _⟩ => (HeapAlike.yield_value ha₁ f value).bind fun x y ⟨ha₂, hnext⟩ => ?_
    exact .some ⟨ha₂, congrArg Next.transfer hnext⟩
  | co_await rest => exact (hput rest hcost).bind fun h₁ g₁ ⟨ha₁, _⟩ => .some ⟨ha₁, rfl⟩
  | elements_of_empty rest =>
    refine (hput rest hcost).bind fun h₁ g₁ ⟨ha₁, _⟩ => ?_
    obtain ⟨h₂, g₂, i, hnewo, hnewo', ha₂, -⟩ := ha₁.exists_new_object
    rw [hnewo, hnewo']
    exact (HeapAlike.move_construct ha₂ _ _ hstill).bind fun h₃ g₃ ha₃ => HeapAlike.go_on_leaf ha₃ f
  | elements_of leaf pulls rest =>
    have hrest : rest.cost ≤ k := (le_max_right ..).trans hcost
    have hleaf : leaf.cost ≤ k := (le_max_left ..).trans hcost
    refine (hput rest hrest).bind fun h₁ g₁ ⟨ha₁, hnf⟩ => ?_
    obtain ⟨h₂, g₂, i, hnewo, hnewo', ha₂, hnf'⟩ := ha₁.exists_new_object
    rw [hnewo, hnewo']
    have hnew₂ : S h₂.next_frame leaf.ranged leaf.body := by
      rw [hnf', hnf]
      exact hS _ hnew _ _ ⟨leaf, rfl, rfl, hleaf⟩
    refine (HeapAlike.create ha₂ (fun _ _ _ _ hb => hb) (fun _ _ hL => hL) hnew₂ (.object i) (by simp)).bind
      fun h₃ g₃ ha₃ => (ha₃.modify f fun p q hpq => ?_).bind fun h₄ g₄ ha₄ => .some ⟨ha₄, rfl⟩
    exact { hpq with pulling := rfl, still := fun hL => absurd hL hf }
  | elements_of_range rng rest =>
    refine (hput rest hcost).bind fun h₁ g₁ ⟨ha₁, hnf⟩ => ?_
    have hnew₁ : S h₁.next_frame (Body.to_generator rng) (Body.to_generator (rng.map .value)) := by
      rw [hnf, ← Code.ranged_to_generator, ← Code.body_to_generator]
      exact hS _ hnew _ _ ⟨_, rfl, rfl, by rw [Code.cost_to_generator]; exact Nat.zero_le k⟩
    refine (HeapAlike.create ha₁ (fun _ _ _ _ hb => hb) (fun _ _ hL => hL) hnew₁ (.awaiter f) hstill).bind
      fun h₂ g₂ ha₂ => HeapAlike.go_on_leaf ha₂ f
  | elements_of_other_empty | elements_of_other => cases hc

/-- `resume` of a coroutine that iterates no channel with another `Yield` and hands
none over. -/
theorem resume_alike {q : Frame (Operand V E) E (Channel (Operand V E) E)} (ha : HeapAlike S L h g)
    (hS : ∀ x, ¬ L x → ∀ b b', SameCode k b b' ↔ S x b b') (hf : ¬ L f) (hnew : ¬ L h.next_frame)
    (hq : g.frames f = some q) (hother : q.pulling = none → ∀ c : Code V E, q.body = c.body → c.hands_other = false)
    (n : Nat) (ready : Bool) :
    Simulates (AlikeWith (likeness V E) S L) (channel.resume n ready h f) (channel.resume n ready g f) := by
  refine .bind_left fun p hp => ?_
  obtain ⟨q', hq', hpq⟩ := ha.frame f p hp
  obtain rfl := Option.some.inj (hq.symm.trans hq')
  simp only [channel.resume, hq, Option.bind_eq_bind, Option.bind_some, hpq.done]
  refine .ite (fun _ => .none _) fun _ => ?_
  rw [hpq.pulling] at hother ⊢
  cases hpull : p.pulling with
  | some x => exact HeapAlike.pull ha hf x.1 x.2
  | none =>
    obtain ⟨c, hb, hb', hcost⟩ := (hS f hf _ _).mpr hpq.body
    have hc := hother hpull c hb'
    rw [hb, hb']
    intro x hx
    obtain ⟨h₁, hleave, hrun⟩ := Option.bind_eq_some_iff.mp hx
    obtain ⟨g₁, hleave', ha₁⟩ := ha.leave_elements_of n f h₁ hleave
    have hnew₁ : ¬ L h₁.next_frame := by rwa [(KeepsPulling.leave_elements_of hleave).1.next_frame]
    have hsame := fun x hx b b' => (hS x hx b b').mp
    obtain ⟨y, hrun', hxy⟩ := run_alike ha₁ hsame hf hnew₁ ready hc hcost x hrun
    exact ⟨y, Option.bind_eq_some_iff.mpr ⟨g₁, hleave', hrun'⟩, hxy⟩

end running

/-- More fuel resumes the same. -/
theorem resume_succ {V : Type} {h : ChannelHeap V E} {f : FrameId} {n : Nat} {ready : Bool} {x : ChannelHeap V E × Next}
    (hresume : channel.resume n ready h f = some x) : channel.resume (n + 1) ready h f = some x := by
  obtain ⟨p, hp, hresume⟩ := Option.bind_eq_some_iff.mp hresume
  refine Option.bind_eq_some_iff.mpr ⟨p, hp, ?_⟩
  by_cases hdone : p.done
  · rw [if_pos hdone] at hresume
    cases hresume
  rw [if_neg hdone] at hresume ⊢
  cases hpull : p.pulling with
  | some l =>
    rw [hpull] at hresume
    exact hresume
  | none =>
    rw [hpull] at hresume
    obtain ⟨h₁, hleave, hrun⟩ := Option.bind_eq_some_iff.mp hresume
    exact Option.bind_eq_some_iff.mpr ⟨h₁, leave_elements_of_succ hleave, hrun⟩

end kelcoro.channel.extract_from
