import Kelcoro.Channel.ExtractFrom.Loops

namespace kelcoro.channel.extract_from

open kelcoro.generators_common kelcoro.lib Remaining Backlog

variable {V E : Type}

section changes

variable {k n' : Nat} {rngs : FrameId → List V} {ns : FrameId → Nat} {h h' : ChannelHeap V E} {y z : Channels V E}
  {f : FrameId} {rng : List V} {p : Frame V E (Channel V E)} {q : Frame (Operand V E) E (Channel (Operand V E) E)}
  {next : Next} {ready : Bool}

/-- `f` iterates another channel from now on, or none. -/
theorem Mirrors.put (hm : Mirrors k rngs ns h y) (loop : Option (Loop × Runner × Channels V E)) (rng : List V) (n' : Nat)
    (hpq : FrameAlike (likeness V E) (SameBody k loop rng) (loop ≠ none) p q) (hf : f < h.next_frame) (hn : n' ≤ k)
    (hi : ∀ l r z, loop = some (l, r, z) → Iterates l r z rng k n') :
    Mirrors k (Function.update rngs f rng) (Function.update ns f n') (h.put f p)
      { heap := y.heap.put f q, loops := Function.update y.loops f loop } := by
  refine ⟨hm.alike.put_as (fun x hx b b' hb => ?_) (fun x hx hloop => ?_) ?_, fun x hx => ?_, fun x => ?_,
    fun x l r z hx => ?_⟩
  · simpa only [Function.update_of_ne hx] using hb
  · simpa only [Function.update_of_ne hx] using hloop
  · simpa only [Function.update_self] using hpq
  · have hxf : x ≠ f := (hf.trans_le hx).ne'
    simpa only [Function.update_of_ne hxf] using hm.fresh x hx
  · by_cases hxf : x = f
    · simpa only [hxf, Function.update_self] using hn
    · simpa only [Function.update_of_ne hxf] using hm.within x
  · by_cases hxf : x = f
    · simp only [hxf, Function.update_self] at hx ⊢
      exact hi l r z hx
    · simp only [Function.update_of_ne hxf] at hx ⊢
      exact hm.loops x l r z hx

theorem Mirrors.lt_next_frame {l : Loop × Runner × Channels V E} (hm : Mirrors k rngs ns h y) (hf : y.loops f = some l) :
    f < h.next_frame := by
  by_contra hge
  rw [hm.fresh f (Nat.le_of_not_lt hge)] at hf
  cases hf

/-- A frame that is known in both programs. -/
theorem Mirrors.frame (hm : Mirrors k rngs ns h y) (hp : h.frames f = some p) :
    ∃ q, y.heap.frames f = some q ∧
      FrameAlike (likeness V E) (SameBody k (y.loops f) (rngs f)) (y.loops f ≠ none) p q :=
  hm.alike.frame f p hp

/-- `f` goes on with the channel it iterates. -/
theorem Mirrors.iterating {l l' : Loop} {r r' : Runner} {z' : Channels V E} (hm : Mirrors k rngs ns h y)
    (hp : h.frames f = some p) (hf : y.loops f = some (l, r, z)) (hholds : l'.holds = l.holds)
    (hi : Iterates l' r' z' (rngs f) k n') :
    ∃ rngs' ns', Mirrors k rngs' ns' h (y.iterating f l' r' z') ∧ ns' f = n' := by
  obtain ⟨q, hq, hpq⟩ := hm.frame hp
  rw [hf] at hpq
  have hbody := hpq.body
  have hput := hm.put (some (l', r', z')) (rngs f) n'
    { hpq with body := by rwa [SameBody, hholds], still := fun _ => hpq.still (Option.some_ne_none _) }
    (hm.lt_next_frame hf) hi.le_cap (fun _ _ _ heq => by cases heq; exact hi)
  rw [put_eq_self hp, put_eq_self hq] at hput
  exact ⟨_, _, hput, Function.update_self ..⟩

/-- A step in which no channel with another `Yield` is involved. -/
theorem Mirrors.resume_plain (hm : Mirrors k rngs ns h y) (hloop : y.loops f = none) (hq : y.heap.frames f = some q)
    (hother : q.pulling = none → ∀ c : Code V E, q.body = c.body → c.hands_other = false)
    (hret : Returns (fun n => channel.resume n ready h f) (h', next)) (hnf : h.next_frame ≤ h'.next_frame) :
    ∃ g', Returns (fun n => channel.resume n ready y.heap f) (g', next) ∧ Mirrors k rngs ns h' { y with heap := g' } := by
  have hS : ∀ x, ¬ y.loops x ≠ none → ∀ b b', SameCode k b b' ↔ SameBody k (y.loops x) (rngs x) b b' := by
    intro x hx b b'
    rw [not_not.mp hx, SameBody]
  have hsim := fun n => resume_alike hm.alike hS (not_not.mpr hloop) (not_not.mpr (hm.fresh _ le_rfl)) hq hother n ready
  obtain ⟨⟨g', next'⟩, hret', ha, hnext⟩ := Simulates.exists_returns hret hsim fun n x => resume_succ
  cases hnext
  exact ⟨g', hret', hm.with_heap ha hnf⟩

/-- The coroutine of `extract_from::do_` is called in place of that of a range. -/
theorem Mirrors.attach {h₁ : ChannelHeap V E} {w : FrameId} (hm : Mirrors k rngs ns h y) (hloop : y.loops f = none)
    (hf : f < h.next_frame) (hi : Iterates .begin .consumer z rng k n')
    (hcreate : create h (Body.to_generator rng) (.awaiter f) = some h₁) (hawait : co_await_leaf h₁ f = some (h', w)) :
    ∃ y', create_and_attach_leaf y f z = some (y', .transfer (.coroutine w)) ∧ ∃ rngs' ns', Mirrors k rngs' ns' h' y' := by
  let loops' := Function.update y.loops h.next_frame (some (.begin, .consumer, z))
  let rngs' := Function.update rngs h.next_frame rng
  have hnf₁ : h₁.next_frame = h.next_frame + 1 := by
    rw [(KeepsPulling.set_object (show (h.allocate _).1.set_object (.awaiter f) _ = some h₁ from hcreate)).next_frame]
    rfl
  have hnf' : h'.next_frame = h.next_frame + 1 := (KeepsPulling.co_await_leaf hawait).next_frame.trans hnf₁
  have hself : loops' h.next_frame = some (.begin, .consumer, z) := Function.update_self ..
  have hother : ∀ x, x ≠ h.next_frame → loops' x = y.loops x := fun x hx => Function.update_of_ne hx ..
  have hstill : ∀ x, Place.awaiter f = .awaiter x → ¬ loops' x ≠ none := by
    intro x hx
    cases hx
    rw [hother f hf.ne, hloop]
    exact fun h => h rfl
  have hnew : SameBody k (loops' h.next_frame) (rngs' h.next_frame) (Body.to_generator rng) .co_return := by
    simp only [hself, rngs', Function.update_self]
    exact ⟨rfl, rfl⟩
  obtain ⟨g₁, hcreate', ha₁⟩ := HeapAlike.create (T := fun x => SameBody k (loops' x) (rngs' x))
    (M := fun x => loops' x ≠ none) hm.alike
    (fun x hx b b' hb => by simpa only [hother x hx, rngs', Function.update_of_ne hx] using hb)
    (fun x hx hloop => by rwa [hother x hx] at hloop)
    hnew (.awaiter f) hstill h₁ hcreate
  obtain ⟨⟨g', w'⟩, hawait', ha', hw⟩ := ha₁.co_await_leaf f _ hawait
  cases hw
  refine ⟨{ heap := g', loops := loops' }, ?_, rngs', Function.update ns h.next_frame n', ha', fun x hx => ?_, fun x => ?_,
    fun x l r z' hx => ?_⟩
  · simp only [create_and_attach_leaf, hcreate', hm.alike.next_frame, Option.bind_eq_bind, Option.bind_some, hawait']
    rfl
  · have hx' : h.next_frame < x := by
      rw [hnf'] at hx
      exact hx
    exact (hother x hx'.ne').trans (hm.fresh x hx'.le)
  · by_cases hxn : x = h.next_frame
    · simpa only [hxn, Function.update_self] using hi.le_cap
    · simpa only [Function.update_of_ne hxn] using hm.within x
  · by_cases hxn : x = h.next_frame
    · subst hxn
      cases hself.symm.trans hx
      simpa only [rngs', Function.update_self] using hi
    · simpa only [rngs', Function.update_of_ne hxn] using hm.loops x l r z' ((hother x hxn).symm.trans hx)

end changes

section calls

/-- A program of one channel function that was just called. -/
theorem call_spec (leaf : Code V E) :
    ∃ y h, call leaf = some y ∧ Mirrors leaf.cost (fun _ => []) (fun _ => 0) h y ∧
      Idle h {0} 0 0 (some [leaf.ranged]) none ∧ (h.objects 0).exception = none := by
  obtain ⟨h, hcreate, hidle, hex, hnf⟩ := create_spec (Heap.initial : ChannelHeap V E) leaf.ranged
  have hinitial : HeapAlike (fun _ => SameCode leaf.cost) (fun _ => False) (Heap.initial : ChannelHeap V E).new_object.1
      Heap.initial.new_object.1 := (Alike.initial (likeness V E) _ _).new_object
  obtain ⟨g, hcreate', ha⟩ := HeapAlike.create hinitial (fun _ _ _ _ hb => hb) (fun _ _ hL => hL)
    ⟨leaf, rfl, rfl, le_rfl⟩ (.object 0) (by simp) h hcreate
  refine ⟨{ heap := g, loops := fun _ => none }, h, ?_, ⟨?_, fun _ _ => rfl, fun _ => Nat.zero_le _, fun _ _ _ _ hx => ?_⟩,
    hidle, hex⟩
  · simp only [call, hcreate', Option.bind_eq_bind, Option.bind_some]
    rfl
  · exact ha.mono fun x p q _ hpq => ⟨hpq.body, fun hx => absurd rfl hx⟩
  · cases hx

/-- An empty channel that is handed over. -/
theorem no_coroutine_spec {cap : Nat} (hcap : 1 ≤ cap) :
    Iterates .begin .consumer (no_coroutine : Channels V E) [] cap 1 := by
  have hm : Mirrors 0 (fun _ => []) (fun _ => 0) (Heap.initial : ChannelHeap V E).new_object.1 no_coroutine :=
    ⟨(Alike.initial (likeness V E) _ _).new_object, fun _ _ => rfl, fun _ => le_rfl, fun _ _ _ _ hx => by cases hx⟩
  exact hm.iterates (.begins_empty rfl rfl hcap)

end calls

section steps

variable {k n' : Nat} {rngs : FrameId → List V} {ns : FrameId → Nat} {h h' : ChannelHeap V E} {y z : Channels V E}
  {f : FrameId} {rng : List V} {p : Frame V E (Channel V E)} {q : Frame (Operand V E) E (Channel (Operand V E) E)}
  {next : Next} {ready : Bool} {loop : Loop}

/-- `h` can make a step of `f`. -/
def Goes (h : ChannelHeap V E) (f : FrameId) : Prop :=
  f < h.next_frame ∧ ∀ ready, ∃ h' next, Returns (fun n => channel.resume n ready h f) (h', next) ∧ h.next_frame ≤ h'.next_frame

/-- What a step of `f` leads to: `h` makes a step too, or it waits while the
channel that `f` iterates makes one of fewer than `n`. -/
inductive Moved (k n : Nat) (h : ChannelHeap V E) (y' : Channels V E) (f : FrameId) (next : Next) : Prop
  | quiet {rngs : FrameId → List V} {ns : FrameId → Nat} (mirrors : Mirrors k rngs ns h y') (less : ns f < n)
      (next_eq : next = .transfer (.coroutine f) ∨ next = .await)
  | both {rngs : FrameId → List V} {ns : FrameId → Nat} {h' : ChannelHeap V E} (ready : Bool)
      (resumed : Returns (fun n => channel.resume n ready h f) (h', next)) (mirrors : Mirrors k rngs ns h' y')

/-- A step of coroutine `r` of a channel that is iterated. -/
def GoesOn (loop : Loop) (r : FrameId) (y : Channels V E) (rng : List V) (cap n : Nat) : Prop :=
  ∀ ready, ∃ y' next r', Returns (fun m => resume m ready y r) (y', next) ∧
    (next = .transfer r' ∨ next = .await ∧ r' = .coroutine r) ∧ ∃ n' < n, Iterates loop r' y' rng cap n'

theorem Goes.live (hg : Goes h f) : ∃ p, h.frames f = some p ∧ p.done = false := by
  obtain ⟨h', next, ⟨bound, hret⟩, -⟩ := hg.2 true
  obtain ⟨p, hp, hres⟩ := Option.bind_eq_some_iff.mp (hret bound le_rfl)
  refine ⟨p, hp, ?_⟩
  by_contra hdone
  rw [Bool.not_eq_false] at hdone
  simp [hdone] at hres

/-- A coroutine that is not `still` leaves the full expression first. -/
theorem returns_leave (hp : h.frames f = some p) (hdone : p.done = false) (hpull : p.pulling = none)
    (hret : Returns (fun n => channel.resume n ready h f) (h', next)) :
    ∃ h₁, Returns (fun n => leave_elements_of n h f) h₁ ∧ run ready h₁ f p.body = some (h', next) := by
  obtain ⟨bound, hret⟩ := hret
  have hat := hret bound le_rfl
  simp only [channel.resume, hp, Option.bind_eq_bind, Option.bind_some, hdone, Bool.false_eq_true, ↓reduceIte, hpull] at hat
  obtain ⟨h₁, hleave, hrun⟩ := Option.bind_eq_some_iff.mp hat
  refine ⟨h₁, ⟨bound, fun n hn => ?_⟩, hrun⟩
  induction hn with
  | refl => exact hleave
  | step _ ih => exact leave_elements_of_succ ih

/-- The same for both programs. -/
theorem Mirrors.leaves (hm : Mirrors k rngs ns h y) (hp : h.frames f = some p) (hdone : p.done = false)
    (hpull : p.pulling = none) (hret : Returns (fun n => channel.resume n ready h f) (h', next)) :
    ∃ h₁ g₁ p₁ q₁, Returns (fun n => leave_elements_of n y.heap f) g₁ ∧ Mirrors k rngs ns h₁ { y with heap := g₁ } ∧
      h₁.frames f = some p₁ ∧ g₁.frames f = some q₁ ∧
      FrameAlike (likeness V E) (SameBody k (y.loops f) (rngs f)) (y.loops f ≠ none) p₁ q₁ ∧
      (p₁.leaf = none ∧ p₁.pulling = none) ∧ h₁.next_frame = h.next_frame ∧
      run ready h₁ f p.body = some (h', next) := by
  obtain ⟨h₁, hleave, hrun⟩ := returns_leave hp hdone hpull hret
  obtain ⟨g₁, hleave', ha₁⟩ := Simulates.exists_returns hleave (fun n => hm.alike.leave_elements_of n f)
    fun n _ => leave_elements_of_succ
  obtain ⟨bound, hbound⟩ := hleave
  obtain ⟨hkeeps, p₁, hp₁, hleaf₁⟩ := KeepsPulling.leave_elements_of (hbound bound le_rfl)
  have hpull₁ : p₁.pulling = none := by
    obtain ⟨p', hp', hsame⟩ := hkeeps.pulling f p₁ hp₁
    obtain rfl := Option.some.inj (hp.symm.trans hp')
    exact hsame.trans hpull
  have hm₁ : Mirrors k rngs ns h₁ { y with heap := g₁ } := hm.with_heap ha₁ hkeeps.next_frame.ge
  obtain ⟨q₁, hq₁, hpq₁⟩ := hm₁.frame hp₁
  exact ⟨h₁, g₁, p₁, q₁, hleave', hm₁, hp₁, hq₁, hpq₁, ⟨hleaf₁, hpull₁⟩, hkeeps.next_frame, hrun⟩

theorem run_of_still (hp : h.frames f = some p) (hdone : p.done = false) (hstill : p.leaf = none ∧ p.pulling = none)
    (hret : Returns (fun n => channel.resume n ready h f) (h', next)) : run ready h f p.body = some (h', next) := by
  obtain ⟨h₁, ⟨bound, hleave⟩, hrun⟩ := returns_leave hp hdone hstill.2 hret
  have hat : leave_elements_of bound h f = some h₁ := hleave bound le_rfl
  rw [leave_eq_self hp hstill.1] at hat
  cases hat
  exact hrun

theorem resume_loop {n : Nat} (hq : y.heap.frames f = some q) (hdone : q.done = false)
    (hloop : y.loops f = some (loop, .consumer, z)) : resume (n + 1) ready y f = do_ n ready y f z loop := by
  simp only [resume, hq, Option.bind_eq_bind, Option.bind_some, hdone, Bool.false_eq_true, ↓reduceIte, hloop]

/-- A coroutine of the channel that `f` iterates goes on. -/
theorem Mirrors.inner_step {r : FrameId} (hm : Mirrors k rngs ns h y) (hp : h.frames f = some p) (hdone : p.done = false)
    (hloop : y.loops f = some (loop, .coroutine r, z)) (hinner : GoesOn loop r z (rngs f) k (ns f)) (ready : Bool) :
    ∃ y' next, Returns (fun n => resume n ready y f) (y', next) ∧ Moved k (ns f) h y' f next := by
  obtain ⟨q, hq, hpq⟩ := hm.frame hp
  obtain ⟨z', next, r', hret, hnext, n', hlt, hi⟩ := hinner ready
  obtain ⟨rngs', ns', hm', hns⟩ := hm.iterating hp hloop rfl hi
  have hless : ns' f < ns f := hns ▸ hlt
  rcases hnext with rfl | ⟨rfl, rfl⟩
  · refine ⟨_, _, .of_succ (hret.imp fun n hn => ?_), .quiet hm' hless (.inl rfl)⟩
    simp only [resume, hq, hn, Option.bind_eq_bind, Option.bind_some, hpq.done, hdone, hloop, Bool.false_eq_true,
      ↓reduceIte]
  · refine ⟨_, _, .of_succ (hret.imp fun n hn => ?_), .quiet hm' hless (.inr rfl)⟩
    simp only [resume, hq, hn, Option.bind_eq_bind, Option.bind_some, hpq.done, hdone, hloop, Bool.false_eq_true,
      ↓reduceIte]

/-- `f` asks for the next element. -/
theorem Mirrors.ask_step {loop' : Loop} {r' : Runner} {z' : Channels V E} (hm : Mirrors k rngs ns h y)
    (hp : h.frames f = some p) (hdone : p.done = false) (hloop : y.loops f = some (loop, .consumer, z))
    (hi : Iterates loop' r' z' (rngs f) k n') (hholds : loop'.holds = loop.holds) (hlt : n' < ns f)
    (hdo : ∀ n, do_ n ready y f z loop = some (y.iterating f loop' r' z', .transfer (.coroutine f))) :
    ∃ y' next, Returns (fun n => resume n ready y f) (y', next) ∧ Moved k (ns f) h y' f next := by
  obtain ⟨q, hq, hpq⟩ := hm.frame hp
  obtain ⟨rngs', ns', hm', hns⟩ := hm.iterating hp hloop hholds hi
  refine ⟨_, _, .of_last fun n => ?_, .quiet hm' (hns ▸ hlt) (.inl rfl)⟩
  rw [resume_loop hq (hpq.done.trans hdone) hloop, hdo]

/-- The holder `f` hands its channel over. -/
theorem Mirrors.hand_over_step (hm : Mirrors k rngs ns h y) (hgoes : Goes h f)
    (hloop : y.loops f = some (.holder 0, .consumer, z)) (ready : Bool) :
    ∃ y' next, Returns (fun n => resume n ready y f) (y', next) ∧ Moved k (ns f) h y' f next := by
  obtain ⟨p, hp, hdone⟩ := hgoes.live
  obtain ⟨q, hq, hpq⟩ := hm.frame hp
  obtain ⟨h', next, hret, -⟩ := hgoes.2 ready
  rw [hloop] at hpq
  have hstill := hpq.still (Option.some_ne_none _)
  obtain ⟨c, hbody, hbody', hcost⟩ : LoopBody k (rngs f) p.body q.body true := hpq.body
  have hrun := run_of_still hp hdone hstill hret
  rw [hbody, run, Heap.modify_eq hp, Option.bind_eq_bind, Option.bind_some] at hrun
  obtain ⟨h₂, hcreate, hrun⟩ := Option.bind_eq_some_iff.mp hrun
  obtain ⟨⟨h₃, w⟩, hawait, heq⟩ := Option.bind_eq_some_iff.mp hrun
  cases heq
  have hm₁ := hm.put none [] 0
    (p := { p with body := c.ranged }) { hpq with body := ⟨c, rfl, hbody', hcost⟩, still := fun hx => absurd rfl hx }
    (hm.lt_next_frame hloop) (Nat.zero_le k) (fun _ _ _ hx => by cases hx)
  rw [put_eq_self hq] at hm₁
  obtain ⟨z', n', hpull, hi⟩ := (hm.loops f _ _ _ hloop).pull_zero
  obtain ⟨y', hattach, rngs', ns', hm'⟩ :=
    hm₁.attach (Function.update_self ..) (hm.lt_next_frame hloop) hi hcreate hawait
  refine ⟨y', _, .of_last fun n => ?_, .both ready hret hm'⟩
  rw [resume_loop hq (hpq.done.trans hdone) hloop, do_, hpull]
  exact hattach

/-- The loop in `f` compares its iterator with the end. -/
theorem Mirrors.compare_step (hm : Mirrors k rngs ns h y) (hgoes : Goes h f)
    (hloop : y.loops f = some (.compare, .consumer, z)) (ready : Bool) :
    ∃ y' next, Returns (fun n => resume n ready y f) (y', next) ∧ Moved k (ns f) h y' f next := by
  obtain ⟨p, hp, hdone⟩ := hgoes.live
  obtain ⟨q, hq, hpq⟩ := hm.frame hp
  obtain ⟨h', next, hret, hnf⟩ := hgoes.2 ready
  rw [hloop] at hpq
  have hstill := hpq.still (Option.some_ne_none _)
  obtain ⟨hbody, hbody'⟩ : LoopBody k (rngs f) p.body q.body false := hpq.body
  have hlt := hm.lt_next_frame hloop
  have hresume : ∀ n, resume (n + 1) ready y f = do_ n ready y f z .compare := fun _ =>
    resume_loop hq (hpq.done.trans hdone) hloop
  rcases (hm.loops f _ _ _ hloop).compare with ⟨v, rng, n', hrng, hcurrent, hi⟩ | ⟨hrng, hcurrent⟩
  · have hrun := run_of_still hp hdone hstill hret
    rw [hbody, hrng, Body.to_generator, run, Heap.modify_eq hp, Option.bind_eq_bind, Option.bind_some] at hrun
    obtain ⟨⟨h₁, r⟩, hyield, heq⟩ := Option.bind_eq_some_iff.mp hrun
    cases heq
    have hm₁ := hm.put (some (.increment, .consumer, z)) rng n' (p := { p with body := Body.to_generator rng })
      { hpq with body := ⟨rfl, hbody'⟩, still := fun _ => hstill } hlt hi.le_cap (fun _ _ _ hx => by cases hx; exact hi)
    rw [put_eq_self hq] at hm₁
    obtain ⟨⟨g', r'⟩, hyield', ha, hr⟩ := HeapAlike.yield_value hm₁.alike f v _ hyield
    cases hr
    have hm' : Mirrors k _ _ h' { y.iterating f .increment .consumer z with heap := g' } := hm₁.with_heap ha hnf
    refine ⟨_, _, .of_last fun n => ?_, .both ready hret hm'⟩
    simp only [hresume, do_, hcurrent]
    rw [hyield']
    rfl
  · have hm₁ := hm.put none [] 0 (p := p)
      { hpq with body := ⟨.co_return, by rw [hbody, hrng]; rfl, hbody', Nat.zero_le k⟩, still := fun hx => absurd rfl hx }
      hlt (Nat.zero_le k) (fun _ _ _ hx => by cases hx)
    rw [put_eq_self hp, put_eq_self hq] at hm₁
    have hother : q.pulling = none → ∀ c : Code V E, q.body = c.body → c.hands_other = false := by
      intro _ c hc
      rw [hbody'] at hc
      cases c <;> first | rfl | cases hc
    obtain ⟨g', hret', hm'⟩ := hm₁.resume_plain (Function.update_self ..) hq hother hret hnf
    refine ⟨_, _, .of_succ (hret'.imp fun n hn => ?_), .both ready hret hm'⟩
    simp only [hresume, do_, hcurrent]
    rw [hn]
    rfl

/-- A coroutine goes on that hands over a channel with another `Yield`. -/
theorem Mirrors.other_step {c : Code V E} (hm : Mirrors k rngs ns h y) (hgoes : Goes h f) (hp : h.frames f = some p)
    (hq : y.heap.frames f = some q) (hloop : y.loops f = none) (hpull : p.pulling = none) (hbody : p.body = c.ranged)
    (hbody' : q.body = c.body) (hcost : c.cost ≤ k) (hother : c.hands_other = true) (ready : Bool) :
    ∃ y' next, Returns (fun n => resume n ready y f) (y', next) ∧ Moved k (ns f) h y' f next := by
  obtain ⟨p', hp', hdone⟩ := hgoes.live
  obtain rfl := Option.some.inj (hp.symm.trans hp')
  obtain ⟨q', hq', hpq⟩ := hm.frame hp
  obtain rfl := Option.some.inj (hq.symm.trans hq')
  obtain ⟨h', next, hret, -⟩ := hgoes.2 true
  obtain ⟨h₁, g₁, p₁, q₁, hleave', hm₁, hp₁, hq₁, hpq₁, hstill₁, hnf₁, hrun⟩ := hm.leaves hp hdone hpull hret
  have hf₁ : f < h₁.next_frame := hgoes.1.trans_eq hnf₁.symm
  have hqpull : q.pulling = none := hpq.pulling.trans hpull
  rw [hbody] at hrun
  cases c with
  | elements_of_other_empty rest =>
    have hrest : rest.cost ≤ k := (le_max_right ..).trans hcost
    rw [Code.ranged, run, Heap.modify_eq hp₁, Option.bind_eq_bind, Option.bind_some] at hrun
    obtain ⟨h₂, hcreate, hrun⟩ := Option.bind_eq_some_iff.mp hrun
    obtain ⟨⟨h₃, w⟩, hawait, heq⟩ := Option.bind_eq_some_iff.mp hrun
    cases heq
    have hm₂ := hm₁.put none [] 0 (p := { p₁ with body := rest.ranged }) (q := { q₁ with body := rest.body })
      { hpq₁ with body := ⟨rest, rfl, rfl, hrest⟩, still := fun hx => absurd rfl hx } hf₁ (Nat.zero_le k)
      (fun _ _ _ hx => by cases hx)
    obtain ⟨y', hattach, rngs', ns', hm'⟩ := hm₂.attach (Function.update_self ..) hf₁
      (no_coroutine_spec ((le_max_left ..).trans hcost)) hcreate hawait
    refine ⟨y', _, .of_succ (hleave'.imp fun n hn => ?_), .both true hret hm'⟩
    simp only [resume, hq, hpq.done, hdone, hloop, hqpull, hbody', Code.body, hn, Heap.modify_eq hq₁,
      Option.bind_eq_bind, Option.bind_some, Bool.false_eq_true, ↓reduceIte]
    have hsame : Function.update y.loops f none = y.loops := by rw [← hloop, Function.update_eq_self]
    simp only [hsame] at hattach
    exact hattach
  | elements_of_other leaf pulls rest =>
    have hrest : rest.cost ≤ k := (le_max_right ..).trans hcost
    rw [Code.ranged, run, Heap.modify_eq hp₁, Option.bind_eq_bind, Option.bind_some] at hrun
    cases hrun
    obtain ⟨z, hz, hcall, hmz, hidle, -⟩ := call_spec leaf
    have hcap : (leaf.cost + 1) * (work (some [leaf.ranged]) + 2 * pulls + 1) + 1 ≤ k := (le_max_left ..).trans hcost
    have hi := hmz.iterates (Turn.held hidle hcap)
    rw [pending_cons, pending_nil, List.append_nil] at hi
    have hm₂ := hm₁.put (some (.holder pulls, .consumer, z)) _ _
      (p := { p₁ with body := .elements_of_range (heard (leaf.ranged.flatten.drop pulls)) rest.ranged })
      (q := { q₁ with body := rest.body })
      { hpq₁ with body := ⟨rest, rfl, rfl, hrest⟩, still := fun _ => hstill₁ } hf₁ hi.le_cap
      (fun _ _ _ hx => by cases hx; exact hi)
    refine ⟨_, _, .of_succ (hleave'.imp fun n hn => ?_), .both true hret hm₂⟩
    simp only [resume, hq, hpq.done, hdone, hloop, hqpull, hbody', Code.body, hn, Heap.modify_eq hq₁, hcall,
      Option.bind_eq_bind, Option.bind_some, Bool.false_eq_true, ↓reduceIte]
    rfl
  | _ => cases hother

/-- A coroutine goes on that does not. -/
theorem Mirrors.same_step {c : Code V E} (hm : Mirrors k rngs ns h y) (hgoes : Goes h f) (hp : h.frames f = some p)
    (hq : y.heap.frames f = some q) (hloop : y.loops f = none) (hbody' : q.body = c.body)
    (hother : q.pulling = none → c.hands_other = false) (ready : Bool) :
    ∃ y' next, Returns (fun n => resume n ready y f) (y', next) ∧ Moved k (ns f) h y' f next := by
  obtain ⟨p', hp', hdone⟩ := hgoes.live
  obtain rfl := Option.some.inj (hp.symm.trans hp')
  obtain ⟨q', hq', hpq⟩ := hm.frame hp
  obtain rfl := Option.some.inj (hq.symm.trans hq')
  obtain ⟨h', next, hret, hnf⟩ := hgoes.2 ready
  have hother' : q.pulling = none → ∀ c : Code V E, q.body = c.body → c.hands_other = false := by
    intro hpull c' hc'
    have hc := hother hpull
    rw [hbody'] at hc'
    cases c <;> cases c' <;> first | rfl | cases hc' | cases hc
  obtain ⟨g', hret', hm'⟩ := hm.resume_plain hloop hq hother' hret hnf
  refine ⟨_, _, .of_succ (hret'.imp fun n hn => ?_), .both ready hret hm'⟩
  simp only [resume, hq, hpq.done, hdone, hloop, Option.bind_eq_bind, Option.bind_some, Bool.false_eq_true, ↓reduceIte]
  cases hpull : q.pulling with
  | some l => simp only [hn, Option.bind_some]
  | none =>
    have hc := hother hpull
    rw [hbody']
    cases c with
    | elements_of_other_empty | elements_of_other => cases hc
    | _ => simp only [Code.body, hn, Option.bind_some]

/-- Every coroutine that goes on in the program with ranges does so here, and the
channels that coroutines iterate go on in between. -/
theorem Mirrors.step (hm : Mirrors k rngs ns h y) (hgoes : Goes h f)
    (hinner : ∀ loop r z, y.loops f = some (loop, .coroutine r, z) → GoesOn loop r z (rngs f) k (ns f)) (ready : Bool) :
    ∃ y' next, Returns (fun n => resume n ready y f) (y', next) ∧ Moved k (ns f) h y' f next := by
  obtain ⟨p, hp, hdone⟩ := hgoes.live
  obtain ⟨q, hq, hpq⟩ := hm.frame hp
  cases hloop : y.loops f with
  | none =>
    rw [hloop] at hpq
    obtain ⟨c, hbody, hbody', hcost⟩ : SameCode k p.body q.body := hpq.body
    by_cases hother : p.pulling = none ∧ c.hands_other = true
    · exact hm.other_step hgoes hp hq hloop hother.1 hbody hbody' hcost hother.2 ready
    · refine hm.same_step hgoes hp hq hloop hbody' (fun hpull => ?_) ready
      rw [hpq.pulling] at hpull
      simpa [hpull] using hother
  | some l =>
    obtain ⟨loop, r, z⟩ := l
    cases r with
    | coroutine r => exact hm.inner_step hp hdone hloop (hinner loop r z hloop) ready
    | consumer =>
      have hi := hm.loops f _ _ _ hloop
      cases loop with
      | holder left =>
        cases left with
        | zero => exact hm.hand_over_step hgoes hloop ready
        | succ left =>
          obtain ⟨z', r', n', hpull, hlt, hi'⟩ := hi.pull_succ
          exact hm.ask_step hp hdone hloop hi' rfl hlt fun n => hpull y f
      | begin =>
        obtain ⟨z', r', n', hbegin, hlt, hi'⟩ := hi.begin_
        exact hm.ask_step hp hdone hloop hi' rfl hlt fun n => hbegin n ready y f
      | compare => exact hm.compare_step hgoes hloop ready
      | increment =>
        obtain ⟨r', n', hincrement, hlt, hi'⟩ := hi.increment
        exact hm.ask_step hp hdone hloop hi' rfl hlt fun n => hincrement n ready y f

theorem within_of_le {a b l cap : Nat} (hle : a ≤ b) (hcap : (k + 1) * (b + l + 1) + 1 ≤ cap) :
    (k + 1) * (a + l + 1) + 1 ≤ cap :=
  (Nat.succ_le_succ (Nat.mul_le_mul_left _ (by omega))).trans hcap

/-- The work of a step pays for all that the channels inside do until the next one. -/
theorem spend_lt {a b l x x' : Nat} (hlt : a < b) (hx : x ≤ k) :
    (k + 1) * (a + l) + x + 1 < (k + 1) * (b + l) + x' + 1 := by
  have hle : (k + 1) * (a + l + 1) ≤ (k + 1) * (b + l) := Nat.mul_le_mul_left _ (by omega)
  rw [Nat.mul_succ] at hle
  omega

/-- The coroutine that iterates the channel was told the answer. -/
theorem turn_of_told {own : Set FrameId} {t cap : Nat} {b : Backlog V E} {st : Remaining V E}
    (ht : Told h' (.of .consumer t) own 0 t st b.events.head?) (ha : Answered b st) (hasked : loop.Asked)
    (hcap : (k + 1) * (b.work + 2 * loop.left + 1) + 1 ≤ cap) (ns' : FrameId → Nat) (x : Nat) :
    ∃ n' < (k + 1) * (b.work + 2 * loop.left) + x + 1, Turn k ns' h' loop .consumer (loop.hears b.events) cap n' := by
  cases loop with
  | holder left =>
    have hturn : Turn k ns' h' (.holder left) _ _ _ _ := .held ht.idle (within_of_le ha.less hcap)
    rw [ha.events, List.drop_tail] at hturn
    refine ⟨_, ?_, hturn⟩
    have hle : (k + 1) * (work st + 2 * left) ≤ (k + 1) * (b.work + 2 * left) :=
      Nat.mul_le_mul_left _ (Nat.add_le_add_right ha.less _)
    simp only [Loop.left]
    omega
  | compare =>
    refine ⟨0, Nat.succ_pos _, ?_⟩
    have hevents := ha.events
    have hobject := ht.object
    have hwithin := within_of_le (l := 0) ha.less hcap
    cases hb : b.events with
    | nil =>
      rw [hb] at hobject
      exact .ended (by rw [hobject]; rfl)
    | cons event events =>
      rw [hb] at ht hobject hevents
      cases event with
      | value v =>
        have hturn : Turn k ns' h' _ _ _ _ _ := .found ht.idle ht.begun hwithin
        rwa [hevents] at hturn
      | exception ex => exact .ended (by rw [hobject]; rfl)
  | begin | increment => cases hasked

theorem goes_of_running {N : Nat} {c : Receiver E} {own : Set FrameId} {i : Nat} {t r : FrameId} {b : Backlog V E}
    (hr : Running h N c own i t r b) : Goes h r := by
  refine ⟨hr.lt_next_frame, fun ready => ?_⟩
  obtain ⟨h', next, hret, hstepped⟩ := resume_spec hr ready
  exact ⟨h', next, hret, hstepped.framed.next_frame⟩

/-- Whatever coroutine of an iterated channel goes on, the coroutine that iterates
it hears what it should. The induction is on the channels that are iterated inside. -/
theorem Iterates.goes_on {r : Runner} {cap n : Nat} (hi : Iterates loop r y rng cap n) :
    ∀ w, r = .coroutine w → GoesOn loop w y rng cap n := by
  induction hi with
  | @mk loop r y rng cap n k h rngs ns alike fresh within loops turn ih =>
    rintro w rfl ready
    have hm : Mirrors k rngs ns h y := ⟨alike, fresh, within, loops⟩
    have hinner := fun l r z hl => ih w l (.coroutine r) z hl r rfl
    cases turn with
    | @asked own t _ b _ _ running hasked hcap =>
      obtain ⟨y', next, hret, hmoved⟩ := hm.step (goes_of_running running) hinner ready
      cases hmoved with
      | quiet mirrors less next_eq =>
        refine ⟨y', next, .coroutine w, hret, next_eq.imp id (⟨·, rfl⟩), _, ?_,
          mirrors.iterates (.asked running hasked hcap)⟩
        omega
      | @both rngs' ns' h' ready' resumed mirrors =>
        obtain ⟨h₁, next₁, hret₁, hstepped⟩ := resume_spec running ready'
        cases hret₁.unique resumed
        have hquiet : ∀ {r' b'}, Running h' 1 (.of .consumer t) (grown own h h') 0 t r' b' → Quiet b b' →
            ∃ n' < (k + 1) * (b.work + 2 * loop.left) + ns w + 1, Iterates loop (.coroutine r') y' (loop.hears b.events) cap n' := by
          intro r' b' hrunning hq
          have hturn : Turn k ns' h' _ _ _ _ _ := .asked hrunning hasked (within_of_le hq.less.le hcap)
          rw [hq.events] at hturn
          exact ⟨_, spend_lt hq.less (mirrors.within r'), mirrors.iterates hturn⟩
        cases hstepped.progress with
        | @transfer r' b' running' quiet => exact ⟨y', _, .coroutine r', hret, .inl rfl, hquiet running' quiet⟩
        | await running' quiet => exact ⟨y', _, .coroutine w, hret, .inr ⟨rfl, rfl⟩, hquiet running' quiet⟩
        | @answered st told answered =>
          obtain ⟨n', hlt, hturn⟩ := turn_of_told told answered hasked hcap ns' (ns w)
          exact ⟨y', _, .consumer, hret, .inl rfl, n', hlt, mirrors.iterates hturn⟩
        | terminated _ untaken => cases untaken

/-- `Mirrors.step` for the channels that coroutines do iterate. -/
theorem Mirrors.moves (hm : Mirrors k rngs ns h y) (hgoes : Goes h f) (ready : Bool) :
    ∃ y' next, Returns (fun n => resume n ready y f) (y', next) ∧ Moved k (ns f) h y' f next :=
  hm.step hgoes (fun _ r _ hloop => (hm.loops f _ _ _ hloop).goes_on r rfl) ready

end steps

end kelcoro.channel.extract_from
