import Kelcoro.Channel.Programs
import Kelcoro.Generator.Empty

namespace kelcoro.channel

open kelcoro.generators_common kelcoro.lib Remaining

variable {V E : Type}

/-- `it == end()` for an iterator of object `i`. -/
def equals_end (h : ChannelHeap V E) (i : Nat) : Bool :=
  (h.objects i).current_result.isNone

/-- `next_awaiter::await_resume`: nullptr is `none`. -/
def next_awaiter.await_resume (h : ChannelHeap V E) (i : Nat) : Option V :=
  (h.objects i).current_result

/-- `co_foreach` in coroutine `c`, from an iterator on: the values it finds. It
comes to no end when `c` is not resumed. -/
def loop_from : Nat → (Nat → Nat → Bool) → ChannelHeap V E → Nat → Runner → Option (ChannelHeap V E × List V)
  | 0, _, _, _, _ => none
  | n + 1, ready, h, i, c =>
    if equals_end h i then some (h, []) else do
    let v ← (h.objects i).current_result
    let (h, out) ← request n (ready 0) h i c .increment
    if out ≠ some c then none else do
    let (h, vs) ← loop_from n (ready ∘ Nat.succ) h i c
    some (h, v :: vs)

/-- `co_foreach` over object `i`. -/
def loop (n : Nat) (ready : Nat → Nat → Bool) (h : ChannelHeap V E) (i : Nat) (c : Runner) :
    Option (ChannelHeap V E × List V) := do
  let (h, out) ← request n (ready 0) h i c .begin
  if out ≠ some c then none else
  loop_from n (ready ∘ Nat.succ) h i c

/-- `co_await begin()` suspends nobody and gives `end()`, a loop finds nothing,
and `co_await next()` gives nullptr. -/
structure AtEnd (h : ChannelHeap V E) (i : Nat) (c : Runner) : Prop where
  begin : ∀ ready, Returns (fun n => request n ready h i c .begin) (h, some c)
  equals_end : equals_end h i = true
  loop : ∀ ready, Returns (fun n => loop n ready h i c) (h, [])
  next : ∀ ready, Returns (fun n => request n ready h i c .next) (h, some c)
  nullptr : next_awaiter.await_resume h i = none

theorem AtEnd.of_empty {h : ChannelHeap V E} {i : Nat} (hempty : empty h (.object i) = some true)
    (hcurrent : (h.objects i).current_result = none) (c : Runner) : AtEnd h i c := by
  have hbegin := fun n ready => request_of_empty (r := .begin) hempty (by decide) c n ready
  have hnext := fun n ready => request_of_empty (r := .next) hempty (by decide) c n ready
  have hend : channel.equals_end h i = true := by rw [channel.equals_end, hcurrent, Option.isNone_none]
  refine ⟨fun ready => ⟨0, fun n _ => hbegin n ready⟩, hend, fun ready => .of_last fun n => ?_,
    fun ready => ⟨0, fun n _ => hnext n ready⟩, hcurrent⟩
  simp only [channel.loop, hbegin, Option.bind_eq_bind, Option.bind_some, ne_eq, not_true_eq_false, ↓reduceIte,
    loop_from, hend]

def current_result (V E : Type) : CurrentResult V (Channel V E) :=
  ⟨fun x => x.current_result, rfl, fun _ _ => rfl⟩

theorem current_eq_shown (r : Remaining V E) : current (pending r).head? = (stream r).shown := by
  simp only [Stream.shown, stream]
  rcases (pending r).head? with _ | ⟨_ | _⟩ <;> rfl

/-- What keeps the end of each object shown. `begin()` and `next()` deliver to
the object they are asked of. -/
def Act.KeepsEnd (p : ChannelProgram V E) : Act V E → Prop
  | .operate action => action.KeepsEnd (current_result V E) p
  | .take_exception _ => True
  | .request this c r _ => ∀ t d x, p.top this = some t → Asks p this c t r d x →
    KeepsEndAsked (current_result V E) p this d

section runs

variable {k i d : Nat} {t : FrameId} {p p' : ChannelProgram V E} {own : FrameId → Set FrameId}
  {st : FrameId → Remaining V E} {h' : ChannelHeap V E}

theorem shows_end_take_exception (hs : ShowsEnd (current_result V E) p st) :
    ShowsEnd (current_result V E) { p with heap := (take_exception p.heap i).1 } st := by
  have hobjects : ∀ j, ((take_exception p.heap i).1.objects j).top = p.top j ∧
      ((take_exception p.heap i).1.objects j).current_result = (p.heap.objects j).current_result := by
    intro j
    simp only [take_exception]
    by_cases hji : j = i
    · rw [hji, Heap.put_object_objects_self]
      exact ⟨rfl, rfl⟩
    · rw [Heap.put_object_objects_of_ne _ _ hji]
      exact ⟨rfl, rfl⟩
  exact fun j hj hover => (hobjects j).2.trans (hs j hj fun t htop => hover t ((hobjects j).1.trans htop))

theorem Requested.shows_end {x : FrameId} {s : Remaining V E} (hr : Requested p.heap h' (own t) d t x (st t) s)
    (hsound : Sound k p own st) (hi : i ∈ p.objects) (htop : p.top i = some t)
    (hkeeps : KeepsEndAsked (current_result V E) p i d) (hs : ShowsEnd (current_result V E) p st) :
    ShowsEnd (current_result V E) (p.asked i h') (Function.update st t s) := by
  have ho := hsound.owned
  refine hs.asked ho hi htop hr.took (fun j hj => hr.tops (ho.bounded j hj)) ?_
    (fun j hj hjd => congrArg Channel.current_result (hr.others j (ho.bounded j hj) hjd)) hkeeps
  rw [ho.streams t (p.mem_held hi htop), ← current_eq_shown]
  exact congrArg Channel.current_result hr.told.object

theorem Act.Step.shows_end {a : Act V E} (hstep : Act.Step k p a p') (hkeeps : a.KeepsEnd p) (hsound : Sound k p own st)
    (hs : ShowsEnd (current_result V E) p st) :
    ∃ own' st', Sound k p' own' st' ∧ ShowsEnd (current_result V E) p' st' := by
  cases a with
  | operate action =>
    obtain ⟨own', st', hsound', hp, ht⟩ := hsound.operate hstep.1 hstep.2
    exact ⟨own', st', hsound', hs.performed hp hsound.owned hstep.1 hkeeps ht⟩
  | take_exception this =>
    obtain ⟨-, rfl⟩ := hstep
    exact ⟨own, st, hsound.put_object rfl rfl, shows_end_take_exception hs⟩
  | request this c r ready =>
    have hthis : this ∈ p.objects := hstep.1
    rcases hsound.of_request hstep with rfl | ⟨t, d, x, s, h', htop, hd, hx, hasks, hr, rfl⟩
    · exact ⟨own, st, hsound, hs⟩
    · obtain ⟨own', hsound'⟩ := hsound.asked hthis htop hd hx hr
      exact ⟨own', _, hsound', hr.shows_end hsound hthis htop (hkeeps t d x htop hasks) hs⟩

theorem shows_end_of_run {as : List (Act V E)}
    (hrun : Run (fun p a p' => Act.Step k p a p' ∧ a.KeepsEnd p) (initial V E k) as p) :
    ∃ own st, Sound k p own st ∧ ShowsEnd (current_result V E) p st := by
  refine hrun.invariant (fun p => ∃ own st, Sound k p own st ∧ ShowsEnd (current_result V E) p st)
    (fun p a p' ⟨own, st, hsound, hs⟩ ⟨hstep, hkeeps⟩ => hstep.shows_end hkeeps hsound hs) ?_
  obtain ⟨own, hsound⟩ := Sound.initial V E k fun _ => none
  exact ⟨own, _, hsound, fun i hi => absurd hi (Finset.notMem_empty i)⟩

end runs

/-- In every run whose steps leave the end shown, an empty generator or channel
is at its end. -/
theorem empty_is_at_end (V E : Type) :
    (∀ (p : kelcoro.generator.GeneratorProgram V E) (as : List (kelcoro.generator.Act V E)),
      Run (fun p a p' => kelcoro.generator.Step false p a p' ∧ a.KeepsEnd p) Program.initial as p →
      ∀ i ∈ p.objects, empty p.heap (.object i) = some true → kelcoro.generator.AtEnd p.heap i) ∧
    ∀ (k : Nat) (p : ChannelProgram V E) (as : List (Act V E)),
      Run (fun p a p' => Act.Step k p a p' ∧ a.KeepsEnd p) (initial V E k) as p →
      ∀ i ∈ p.objects, empty p.heap (.object i) = some true → ∀ c, AtEnd p.heap i c := by
  constructor
  · intro p as hrun i hi hempty
    obtain ⟨own, st, ho, -, hs⟩ := kelcoro.generator.shows_end_of_run hrun
    exact .of_empty hempty (hs.of_empty ho hi hempty)
  · intro k p as hrun i hi hempty c
    obtain ⟨own, st, hsound, hs⟩ := shows_end_of_run hrun
    exact .of_empty hempty (hs.of_empty hsound.owned hi hempty) c

/-- A loop over a generator and one over a channel come to their end, and the objects
are cleared; the generator is swapped with one that was not begun. -/
theorem empty_is_at_end_after_clear :
    (∃ p : kelcoro.generator.GeneratorProgram Nat Nat, 1 ∈ p.objects ∧ p.top 1 = none ∧ p.top 0 = some 1 ∧
      kelcoro.generator.AtEnd p.heap 1) ∧
    ∃ p : ChannelProgram Nat Nat, 0 ∈ p.objects ∧ p.top 0 = none ∧ AtEnd p.heap 0 (.coroutine 0) := by
  constructor
  · have hrequest : ∀ {h : kelcoro.generator.GeneratorHeap Nat Nat} {r : kelcoro.generator.Request}
        {x : kelcoro.generator.GeneratorHeap Nat Nat × kelcoro.generator.Outcome Nat},
        (∀ n, kelcoro.generator.request false (n + 2) h 0 r = some x) →
        Returns (fun n => kelcoro.generator.request false n h 0 r) x :=
      fun hx => .of_succ (.of_succ ⟨0, fun n _ => hx n⟩)
    have hclear : ∀ {p q : kelcoro.generator.GeneratorProgram Nat Nat},
        (∀ n, perform (kelcoro.generator.operations Nat Nat false) (n + 2) p (.clear 0) = some q) →
        Returns (fun n => perform (kelcoro.generator.operations Nat Nat false) n p (.clear 0)) q :=
      fun hx => .of_succ (.of_succ ⟨0, fun n _ => hx n⟩)
    have hkeeps : ∀ {p : kelcoro.generator.GeneratorProgram Nat Nat}, p.top 0 = some 0 →
        (p.heap.frames 0).map (·.link) = some (.consumer (.object 0)) → kelcoro.generator.AskKeepsEnd p 0 := by
      intro p htop hlink t htop' q hq _ d hlink'
      obtain rfl := Option.some.inj (htop.symm.trans htop')
      rw [hq, Option.map_some, hlink'] at hlink
      cases hlink
      exact .inl rfl
    have hrun : Run (fun p a p' => kelcoro.generator.Step false p a p' ∧ a.KeepsEnd p)
        (Program.initial : kelcoro.generator.GeneratorProgram Nat Nat)
        [.operate (.call (.co_yield 1 .co_return)), .operate (.call (.co_yield 2 .co_return)),
          .request 0 .begin .returned, .request 0 .increment .returned, .operate (.clear 0), .operate (.swap 0 1)] _ :=
      .cons ⟨⟨trivial, .const rfl⟩, trivial⟩
        (.cons ⟨⟨trivial, .const rfl⟩, trivial⟩
          (.cons ⟨⟨by decide, _, hrequest fun _ => rfl, rfl⟩, hkeeps rfl rfl⟩
            (.cons ⟨⟨by decide, _, hrequest fun _ => rfl, rfl⟩, hkeeps rfl rfl⟩
              (.cons ⟨⟨by decide, hclear fun _ => rfl⟩, rfl⟩ (.cons ⟨⟨by decide, .const rfl⟩, trivial⟩ (.nil _))))))
    exact ⟨_, by decide, rfl, rfl, (empty_is_at_end Nat Nat).1 _ _ hrun 1 (by decide) rfl⟩
  · have hrequest : ∀ {h : ChannelHeap Nat Nat} {r : Request} {x : ChannelHeap Nat Nat × Option Runner},
        (∀ n, request (n + 2) (fun _ => true) h 0 (.coroutine 0) r = some x) →
        Returns (fun n => request n (fun _ => true) h 0 (.coroutine 0) r) x :=
      fun hx => .of_succ (.of_succ ⟨0, fun n _ => hx n⟩)
    have hclear : ∀ {p q : ChannelProgram Nat Nat},
        (∀ n, perform (operations Nat Nat) (n + 2) p (.clear 0) = some q) →
        Returns (fun n => perform (operations Nat Nat) n p (.clear 0)) q :=
      fun hx => .of_succ (.of_succ ⟨0, fun n _ => hx n⟩)
    have hready : ∀ {p : ChannelProgram Nat Nat}, Ready p 0 0 .next := fun h => by cases h
    have hkeeps : ∀ {p : ChannelProgram Nat Nat},
        Act.KeepsEnd p (.request 0 0 .next fun _ => true) := fun t d x _ hasks => by cases hasks; exact .inl rfl
    have hrun : Run (fun p a p' => Act.Step 1 p a p' ∧ a.KeepsEnd p) (initial Nat Nat 1)
        [.operate (.call (.co_yield 1 .co_return)), .request 0 0 .next fun _ => true,
          .request 0 0 .next fun _ => true, .operate (.clear 0)] _ :=
      .cons ⟨⟨trivial, .const rfl⟩, trivial⟩
        (.cons ⟨⟨by decide, by decide, hready, _, _, hrequest fun _ => rfl, rfl⟩, hkeeps⟩
          (.cons ⟨⟨by decide, by decide, hready, _, _, hrequest fun _ => rfl, rfl⟩, hkeeps⟩
            (.cons ⟨⟨by decide, hclear fun _ => rfl⟩, rfl⟩ (.nil _))))
    exact ⟨_, by decide, rfl, (empty_is_at_end Nat Nat).2 1 _ _ hrun 0 (by decide) rfl _⟩

/-- Objects that are cleared after an early break are empty and show the value
they were left with. -/
theorem empty_is_not_at_end_after_break :
    (∃ p, Run (kelcoro.generator.Step false) (Program.initial : kelcoro.generator.GeneratorProgram Nat Nat)
        [.operate (.call (.co_yield 1 .co_return)), .request 0 .begin .returned, .operate (.clear 0)] p ∧
      0 ∈ p.objects ∧ empty p.heap (.object 0) = some true ∧ ¬ kelcoro.generator.AtEnd p.heap 0) ∧
    ∃ p, Run (Act.Step 1) (initial Nat Nat 1)
        [.operate (.call (.co_yield 1 .co_return)), .request 0 0 .begin fun _ => true, .operate (.clear 0)] p ∧
      0 ∈ p.objects ∧ empty p.heap (.object 0) = some true ∧ ¬ AtEnd p.heap 0 (.coroutine 0) := by
  constructor
  · have hbegin : ∀ {h : kelcoro.generator.GeneratorHeap Nat Nat}
        {x : kelcoro.generator.GeneratorHeap Nat Nat × kelcoro.generator.Outcome Nat},
        (∀ n, kelcoro.generator.request false (n + 2) h 0 .begin = some x) →
        Returns (fun n => kelcoro.generator.request false n h 0 .begin) x :=
      fun hx => .of_succ (.of_succ ⟨0, fun n _ => hx n⟩)
    have hclear : ∀ {p q : kelcoro.generator.GeneratorProgram Nat Nat},
        (∀ n, perform (kelcoro.generator.operations Nat Nat false) (n + 2) p (.clear 0) = some q) →
        Returns (fun n => perform (kelcoro.generator.operations Nat Nat false) n p (.clear 0)) q :=
      fun hx => .of_succ (.of_succ ⟨0, fun n _ => hx n⟩)
    have hrun : Run (kelcoro.generator.Step false) (Program.initial : kelcoro.generator.GeneratorProgram Nat Nat)
        [.operate (.call (.co_yield 1 .co_return)), .request 0 .begin .returned, .operate (.clear 0)] _ :=
      .cons ⟨trivial, .const rfl⟩ (.cons ⟨by decide, _, hbegin fun _ => rfl, rfl⟩
        (.cons ⟨by decide, hclear fun _ => rfl⟩ (.nil _)))
    exact ⟨_, hrun, by decide, rfl, fun hend => by cases hend.equals_end⟩
  · have hbegin : ∀ {h : ChannelHeap Nat Nat} {x : ChannelHeap Nat Nat × Option Runner},
        (∀ n, request (n + 2) (fun _ => true) h 0 (.coroutine 0) .begin = some x) →
        Returns (fun n => request n (fun _ => true) h 0 (.coroutine 0) .begin) x :=
      fun hx => .of_succ (.of_succ ⟨0, fun n _ => hx n⟩)
    have hready : ∀ {p : ChannelProgram Nat Nat}, Ready p 0 0 .begin := fun h => by cases h
    have hclear : ∀ {p q : ChannelProgram Nat Nat},
        (∀ n, perform (operations Nat Nat) (n + 2) p (.clear 0) = some q) →
        Returns (fun n => perform (operations Nat Nat) n p (.clear 0)) q :=
      fun hx => .of_succ (.of_succ ⟨0, fun n _ => hx n⟩)
    have hrun : Run (Act.Step 1) (initial Nat Nat 1)
        [.operate (.call (.co_yield 1 .co_return)), .request 0 0 .begin fun _ => true, .operate (.clear 0)] _ :=
      .cons ⟨trivial, .const rfl⟩ (.cons ⟨by decide, by decide, hready, _, _, hbegin fun _ => rfl, rfl⟩
        (.cons ⟨by decide, hclear fun _ => rfl⟩ (.nil _)))
    exact ⟨_, hrun, by decide, rfl, fun hend => by cases hend.equals_end⟩

end kelcoro.channel
