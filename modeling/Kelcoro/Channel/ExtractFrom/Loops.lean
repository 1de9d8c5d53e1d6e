import Kelcoro.Channel.ExtractFrom.Alike
import Kelcoro.Channel.Resume

namespace kelcoro.channel.extract_from

open kelcoro.generators_common kelcoro.lib Remaining Backlog

variable {V E : Type}

/-- The coroutine still holds the channel, and has not called `extract_from::do_`. -/
def Loop.holds : Loop → Bool
  | .holder _ => true
  | .begin | .compare | .increment => false

/-- How often the holder will ask after the request that is being answered. -/
def Loop.left : Loop → Nat
  | .holder left => left
  | .begin | .compare | .increment => 0

/-- What will be heard of the channel when `events` are to come and the request that
is being answered has the first of them. -/
def Loop.hears (events : List (Event V E)) : Loop → List V
  | .holder left => heard (events.drop (left + 1))
  | .begin | .compare | .increment => heard events

/-- The loop in which a request is answered, and not in which one is made. -/
def Loop.Asked : Loop → Prop
  | .holder _ | .compare => True
  | .begin | .increment => False

/-- A coroutine that will hear `rng` of the channel it iterates: its holder stands
before a range of these, and the coroutine of `extract_from::do_` yields them. -/
def LoopBody (k : Nat) (rng : List V) (b : Body V E) (b' : Body (Operand V E) E) : Bool → Prop
  | true => ∃ c : Code V E, b = .elements_of_range rng c.ranged ∧ b' = c.body ∧ c.cost ≤ k
  | false => b = Body.to_generator rng ∧ b' = .co_return

/-- The same for any coroutine, which may iterate no channel. -/
def SameBody (k : Nat) (loop : Option (Loop × Runner × Channels V E)) (rng : List V) (b : Body V E)
    (b' : Body (Operand V E) E) : Prop :=
  match loop with
  | none => SameCode k b b'
  | some (loop, _) => LoopBody k rng b b' loop.holds

/-- In `h` the bodies of `y` are found with ranges in place of the channels. -/
abbrev Reflects (k : Nat) (rngs : FrameId → List V) (h : ChannelHeap V E) (y : Channels V E) : Prop :=
  HeapAlike (fun f => SameBody k (y.loops f) (rngs f)) (fun f => y.loops f ≠ none) h y.heap

/-- How far `h` is, the program with ranges in the place of further channels, in
answering what a coroutine asks object 0, which will hear `rng` of it. There are
at most `n` steps until that coroutine has heard the next element or the end, and
`cap` bounds such numbers for the rest of the loop. -/
inductive Turn (k : Nat) (ns : FrameId → Nat) (h : ChannelHeap V E) : Loop → Runner → List V → Nat → Nat → Prop
  | held {own : Set FrameId} {t : FrameId} {st : Remaining V E} {e : Option (Event V E)} {left cap : Nat}
      (idle : Idle h own 0 t st e) (within : (k + 1) * (work st + 2 * left + 1) + 1 ≤ cap) :
      Turn k ns h (.holder left) .consumer (heard ((pending st).drop left)) cap ((k + 1) * (work st + 2 * left))
  | begins {own : Set FrameId} {t : FrameId} {st : Remaining V E} {e : Option (Event V E)} {cap : Nat}
      (idle : Idle h own 0 t st e) (taken : (h.objects 0).exception = none)
      (within : (k + 1) * (work st + 1) + 1 ≤ cap) :
      Turn k ns h .begin .consumer (heard (pending st)) cap ((k + 1) * (work st + 1) + 1)
  | begins_empty {cap : Nat} (is_empty : empty h (.object 0) = some true)
      (nullptr : (h.objects 0).current_result = none) (within : 1 ≤ cap) : Turn k ns h .begin .consumer [] cap 1
  | asked {own : Set FrameId} {t r : FrameId} {b : Backlog V E} {loop : Loop} {cap : Nat}
      (running : Running h 1 (.of .consumer t) own 0 t r b) (asked : loop.Asked)
      (within : (k + 1) * (b.work + 2 * loop.left + 1) + 1 ≤ cap) :
      Turn k ns h loop (.coroutine r) (loop.hears b.events) cap ((k + 1) * (b.work + 2 * loop.left) + ns r + 1)
  | found {own : Set FrameId} {t : FrameId} {st : Remaining V E} {v : V} {cap : Nat}
      (idle : Idle h own 0 t st (some (.value v))) (begun : Begun h .consumer 0 t)
      (within : (k + 1) * (work st + 1) + 1 ≤ cap) :
      Turn k ns h .compare .consumer (v :: heard (pending st)) cap 0
  | ended {cap : Nat} (nullptr : (h.objects 0).current_result = none) : Turn k ns h .compare .consumer [] cap 0
  | yielded {own : Set FrameId} {t : FrameId} {st : Remaining V E} {v : V} {cap : Nat}
      (idle : Idle h own 0 t st (some (.value v))) (begun : Begun h .consumer 0 t)
      (within : (k + 1) * (work st + 1) + 1 ≤ cap) :
      Turn k ns h .increment .consumer (heard (pending st)) cap ((k + 1) * (work st + 1) + 1)

/-- The coroutine that iterates `y` will hear `rng` of it. -/
inductive Iterates : Loop → Runner → Channels V E → List V → Nat → Nat → Prop
  | mk {loop : Loop} {r : Runner} {y : Channels V E} {rng : List V} {cap n k : Nat} {h : ChannelHeap V E}
      {rngs : FrameId → List V} {ns : FrameId → Nat}
      (alike : Reflects k rngs h y)
      (fresh : ∀ f, h.next_frame ≤ f → y.loops f = none) (within : ∀ f, ns f ≤ k)
      (loops : ∀ f loop r z, y.loops f = some (loop, r, z) → Iterates loop r z (rngs f) k (ns f))
      (turn : Turn k ns h loop r rng cap n) : Iterates loop r y rng cap n

/-- In `h` ranges stand for the channels with other `Yield`s that coroutines of
`y` iterate. -/
structure Mirrors (k : Nat) (rngs : FrameId → List V) (ns : FrameId → Nat) (h : ChannelHeap V E) (y : Channels V E) :
    Prop where
  alike : Reflects k rngs h y
  fresh : ∀ f, h.next_frame ≤ f → y.loops f = none
  within : ∀ f, ns f ≤ k
  loops : ∀ f loop r z, y.loops f = some (loop, r, z) → Iterates loop r z (rngs f) k (ns f)

theorem Mirrors.iterates {k cap n : Nat} {rngs : FrameId → List V} {ns : FrameId → Nat} {h : ChannelHeap V E}
    {y : Channels V E} {loop : Loop} {r : Runner} {rng : List V} (hm : Mirrors k rngs ns h y)
    (turn : Turn k ns h loop r rng cap n) : Iterates loop r y rng cap n :=
  .mk hm.alike hm.fresh hm.within hm.loops turn

theorem Turn.le_cap {k cap n : Nat} {ns : FrameId → Nat} {h : ChannelHeap V E} {loop : Loop} {r : Runner} {rng : List V}
    (ht : Turn k ns h loop r rng cap n) (hns : ∀ f, ns f ≤ k) : n ≤ cap := by
  cases ht with
  | held _ within | begins _ _ within | begins_empty _ _ within | yielded _ _ within => grind
  | @asked _ _ r _ _ _ _ _ within =>
    have hr := hns r
    grind
  | found | ended => exact Nat.zero_le cap

theorem Iterates.le_cap {loop : Loop} {r : Runner} {y : Channels V E} {rng : List V} {cap n : Nat}
    (hi : Iterates loop r y rng cap n) : n ≤ cap := by
  cases hi with
  | mk _ _ within _ turn => exact turn.le_cap within

section asks

variable {k cap n : Nat} {rngs : FrameId → List V} {ns : FrameId → Nat} {h : ChannelHeap V E} {y : Channels V E}
  {loop : Loop} {r : Runner} {rng : List V}

/-- The same with another heap, which is alike too. -/
theorem Mirrors.with_heap {h' : ChannelHeap V E} {g' : ChannelHeap (Operand V E) E} (hm : Mirrors k rngs ns h y)
    (ha : Reflects k rngs h' { y with heap := g' }) (hnf : h.next_frame ≤ h'.next_frame) :
    Mirrors k rngs ns h' { y with heap := g' } :=
  ⟨ha, fun f hf => hm.fresh f (hnf.trans hf), hm.within, hm.loops⟩

theorem Iterates.mirrors (hi : Iterates loop r y rng cap n) :
    ∃ k rngs ns h, Mirrors k rngs ns h y ∧ Turn k ns h loop r rng cap n := by
  cases hi with
  | mk alike fresh within loops turn => exact ⟨_, _, _, _, ⟨alike, fresh, within, loops⟩, turn⟩

/-- `begin()` or `next()` of a channel that is not empty passes control to its worker. -/
theorem Mirrors.await_suspend {own : Set FrameId} {t : FrameId} {lbs : List (Body V E)} {e : Option (Event V E)}
    (hm : Mirrors k rngs ns h y) (hidle : Idle h own 0 t (some lbs) e) (htaken : (h.objects 0).exception = none) :
    ∃ g' h' r, starter.await_suspend y.heap 0 .consumer = some (g', .coroutine r) ∧
      Mirrors k rngs ns h' { y with heap := g' } ∧ Running h' 1 (.of .consumer t) own 0 t r (.of_bodies lbs) := by
  obtain ⟨x, hobject⟩ := hidle.object
  obtain ⟨h', r, hstart, hrunning, -, -, hnf⟩ :=
    starter_spec hidle.tree (by rw [hobject]) Nat.zero_lt_one hidle.bounded .consumer
  rw [hidle.receiver_eq htaken] at hrunning
  obtain ⟨⟨g', r'⟩, hstart', ha, hr⟩ := HeapAlike.await_suspend hm.alike 0 .consumer _ hstart
  cases hr
  exact ⟨g', h', r, hstart', hm.with_heap ha hnf.ge, hrunning⟩

theorem Mirrors.empty_eq {b : Bool} (hm : Mirrors k rngs ns h y) (hempty : empty h (.object 0) = some b) :
    empty y.heap (.object 0) = some b := by
  obtain ⟨c, hc, rfl⟩ := hm.alike.empty (.object 0) b hempty
  exact hc

theorem Mirrors.current_eq (hm : Mirrors k rngs ns h y) :
    (y.heap.objects 0).current_result = (h.objects 0).current_result.map .value := by
  rw [show y.heap.objects 0 = counterpart (h.objects 0) from hm.alike.objects 0, counterpart]

/-- The holder takes the exception. -/
theorem Mirrors.taken {own : Set FrameId} {t : FrameId} {st : Remaining V E} {e : Option (Event V E)}
    (hm : Mirrors k rngs ns h y) (hidle : Idle h own 0 t st e) :
    ∃ h' e', Mirrors k rngs ns h'
        { y with heap := if (y.heap.objects 0).current_result.isNone then (take_exception y.heap 0).1 else y.heap } ∧
      Idle h' own 0 t st e' ∧ (h'.objects 0).exception = none := by
  obtain ⟨h', e', htaken, hidle', hex, -, -, hnf, -⟩ := taken_spec hidle
  exact ⟨h', e', hm.with_heap (htaken ▸ HeapAlike.taken hm.alike 0) hnf.ge, hidle', hex⟩

/-- The holder asks once more. -/
theorem Iterates.pull_succ {left : Nat} (hi : Iterates (.holder (left + 1)) .consumer y rng cap n) :
    ∃ y' r' n', (∀ x f, pull x f y (left + 1) = some (x.iterating f (.holder left) r' y', .transfer (.coroutine f))) ∧
      n' < n ∧ Iterates (.holder left) r' y' rng cap n' := by
  obtain ⟨k, rngs, ns, h, hm, hturn⟩ := hi.mirrors
  cases hturn with
  | @held own t st e _ _ idle within =>
    obtain ⟨h₁, e₁, hm₁, hidle₁, hex₁⟩ := hm.taken idle
    have hempty := hm₁.empty_eq hidle₁.empty_eq
    cases st with
    | none =>
      have hturn : Turn k ns h₁ (.holder left) .consumer (heard ((pending (none : Remaining V E)).drop left)) cap
        ((k + 1) * (work (none : Remaining V E) + 2 * left)) := .held hidle₁ (by grind)
      rw [pending, List.drop_nil, ← List.drop_nil (i := left + 1)] at hturn
      refine ⟨_, .consumer, _, fun x f => ?_, ?_, hm₁.iterates hturn⟩
      · simp only [pull]
        rw [hempty]
        rfl
      · grind
    | some lbs =>
      obtain ⟨g₂, h₂, r, hsuspend, hm₂, hrunning⟩ := hm₁.await_suspend hidle₁ hex₁
      have hr := hm.within r
      refine ⟨_, .coroutine r, _, fun x f => ?_, ?_, hm₂.iterates (.asked hrunning trivial ?_)⟩
      · simp only [pull]
        rw [hempty]
        simp only [next_awaiter.await_suspend, hsuspend]
        rfl
      · simp only [of_bodies, Loop.left]
        grind
      · simp only [of_bodies, Loop.left]
        grind

/-- The holder hands over the channel. -/
theorem Iterates.pull_zero (hi : Iterates (.holder 0) .consumer y rng cap n) :
    ∃ y' n', (∀ x f, pull x f y 0 = create_and_attach_leaf (x.iterated f) f y') ∧ Iterates .begin .consumer y' rng cap n' := by
  obtain ⟨k, rngs, ns, h, hm, hturn⟩ := hi.mirrors
  cases hturn with
  | held idle within =>
    obtain ⟨h₁, e₁, hm₁, hidle₁, hex₁⟩ := hm.taken idle
    exact ⟨_, _, fun x f => rfl, hm₁.iterates (.begins hidle₁ hex₁ within)⟩

/-- `co_await c.begin()`. -/
theorem Iterates.begin_ (hi : Iterates .begin .consumer y rng cap n) :
    ∃ y' r' n', (∀ m ready x f, do_ m ready x f y .begin = some (x.iterating f .compare r' y', .transfer (.coroutine f))) ∧
      n' < n ∧ Iterates .compare r' y' rng cap n' := by
  obtain ⟨k, rngs, ns, h, hm, hturn⟩ := hi.mirrors
  cases hturn with
  | begins_empty is_empty nullptr within =>
    refine ⟨y, .consumer, 0, fun m ready x f => ?_, Nat.zero_lt_one, hm.iterates (.ended nullptr)⟩
    simp only [do_, hm.empty_eq is_empty]
    rfl
  | @begins own t st e _ idle taken within =>
    have hempty := hm.empty_eq idle.empty_eq
    cases st with
    | none =>
      obtain ⟨x, hobject⟩ := idle.object
      refine ⟨y, .consumer, 0, fun m ready x f => ?_, Nat.succ_pos _, hm.iterates (.ended ?_)⟩
      · simp only [do_, hempty]
        rfl
      · rw [hobject]
        exact idle.ended rfl
    | some lbs =>
      obtain ⟨g₁, h₁, r, hsuspend, hm₁, hrunning⟩ := hm.await_suspend idle taken
      have hr := hm.within r
      refine ⟨_, .coroutine r, _, fun m ready x f => ?_, ?_, hm₁.iterates (.asked hrunning trivial within)⟩
      · simp only [do_]
        rw [hempty]
        simp only [hsuspend]
        rfl
      · simp only [of_bodies, Loop.left]
        grind

/-- `co_await (++b)`. -/
theorem Iterates.increment (hi : Iterates .increment .consumer y rng cap n) :
    ∃ r' n', (∀ m ready x f,
        do_ m ready x f y .increment = some (x.iterating f .compare r' y, .transfer (.coroutine f))) ∧
      n' < n ∧ Iterates .compare r' y rng cap n' := by
  obtain ⟨k, rngs, ns, h, hm, hturn⟩ := hi.mirrors
  cases hturn with
  | @yielded own t st v _ idle begun within =>
    cases st with
    | none => cases idle.ended rfl
    | some lbs =>
      obtain ⟨x, hobject⟩ := idle.object
      obtain ⟨hhandle, q, hq, hlink⟩ := begun
      obtain ⟨r, hincrement, hrunning⟩ :=
        increment_spec idle.tree (by rw [hobject]) hq hlink hhandle Nat.zero_lt_one idle.bounded
      rw [idle.receiver_eq (by rw [hobject]; rfl)] at hrunning
      obtain ⟨r', hincrement', rfl⟩ := HeapAlike.increment hm.alike 0 _ hincrement
      have hr := hm.within r
      refine ⟨.coroutine r, _, fun m ready x f => ?_, ?_, hm.iterates (.asked hrunning trivial within)⟩
      · simp only [do_, hincrement']
        rfl
      · simp only [of_bodies, Loop.left]
        grind

/-- `b != c.end()`, and what `*b` gives. -/
theorem Iterates.compare (hi : Iterates .compare .consumer y rng cap n) :
    (∃ v rng' n', rng = v :: rng' ∧ (y.heap.objects 0).current_result = some (.value v) ∧
      Iterates .increment .consumer y rng' cap n') ∨
    rng = [] ∧ (y.heap.objects 0).current_result = none := by
  obtain ⟨k, rngs, ns, h, hm, hturn⟩ := hi.mirrors
  have hcurrent := hm.current_eq
  cases hturn with
  | @found own t st v _ idle begun within =>
    obtain ⟨x, hobject⟩ := idle.object
    rw [hobject] at hcurrent
    exact .inl ⟨v, _, _, rfl, hcurrent, hm.iterates (.yielded idle begun within)⟩
  | ended nullptr =>
    rw [nullptr] at hcurrent
    exact .inr ⟨rfl, hcurrent⟩

end asks

end kelcoro.channel.extract_from
