import Kelcoro.Channel.Programs

namespace kelcoro.channel

open kelcoro.generators_common kelcoro.lib Remaining

variable {V E : Type}

/-- Object `i` gets the next event of its coroutine `t`, which delivers to it;
the consumer `c` goes on, and other objects are left alone. -/
structure Delivers (p : ChannelProgram V E) (i : Nat) (c t : FrameId) (h' : ChannelHeap V E) (out : Option Runner) :
    Prop where
  resumed : out = some (.coroutine c)
  refers : ∃ q, h'.frames t = some q ∧ q.link = .consumer (.object i)
  shows : (h'.objects i).current_result = current (p.streams t).events.head?
  raises : (h'.objects i).exception = (raised (p.streams t).events.head?).or (p.heap.objects i).exception
  others : ∀ j ∈ p.objects, j ≠ i → h'.objects j = p.heap.objects j

/-- When a request of `c` to object `i` is good: `begin()` and `next()` always
are, `++` when the coroutine knows the object and the object knows `c`. A second
exception finds that the first one was taken. -/
structure Attached (p : ChannelProgram V E) (i : Nat) (c t : FrameId) (r : Request) : Prop where
  increment : r = .increment → (∃ q, p.heap.frames t = some q ∧ q.link = .consumer (.object i)) ∧
    (p.heap.objects i).handle = some (.coroutine c)
  taken : ∀ ex, (p.streams t).events.head? = some (.exception ex) → (p.heap.objects i).exception = none

section requests

variable {k i d : Nat} {c t x : FrameId} {p : ChannelProgram V E} {own : FrameId → Set FrameId}
  {st : FrameId → Remaining V E} {h' : ChannelHeap V E} {r : Request} {out : Option Runner}

theorem Attached.asks (ha : Attached p i c t r) : Asks p i c t r i c := by
  cases r with
  | begin => exact .begin
  | next => exact .next
  | increment =>
    obtain ⟨⟨q, hq, hlink⟩, hhandle⟩ := ha.increment rfl
    exact .increment hq hlink hhandle

theorem Answer.delivers (hanswer : Answer p own i t c st h' out) (hs : Sound k p own st) (ht : t ∈ p.held)
    (ha : Attached p i c t r) : Delivers p i c t h' out := by
  have hstream : (p.streams t).events = pending (st t) := by rw [hs.owned.streams t ht, stream]
  cases hanswer with
  | told requested =>
    obtain ⟨told, -, -, others⟩ := requested
    refine ⟨rfl, told.link, ?_, ?_, fun j hj hne => others j (hs.owned.bounded j hj) hne⟩
    · rw [told.object, hstream]
    · rw [told.object, hstream, Channel.receiver]
  | @terminated ex throws untaken =>
    rw [ha.taken ex (hstream ▸ throws)] at untaken
    cases untaken

/-- Nothing else delivers to the object. -/
theorem Answer.attached (hanswer : Answer p own d t x st h' out) (hs : Sound k p own st) (ht : t ∈ p.held)
    (hasks : Asks p i c t r d x) (hdelivers : Delivers p i c t h' out) : Attached p i c t r := by
  cases hanswer with
  | terminated => cases hdelivers.resumed
  | told requested =>
    obtain ⟨q, hq, hlink⟩ := hdelivers.refers
    obtain ⟨q', hq', hlink'⟩ := requested.told.link
    obtain rfl := Option.some.inj (hq.symm.trans hq')
    rw [hlink] at hlink'
    cases hlink'
    cases hdelivers.resumed
    refine ⟨fun hr => ?_, fun ex hex => ?_⟩
    · subst hr
      cases hasks with
      | increment frame link handle => exact ⟨⟨_, frame, link⟩, handle⟩
    · rw [hs.owned.streams t ht, stream] at hex
      exact requested.told.taken ex hex

/-- A channel at any point of its iteration, whatever was done with it and with
others before, no worker running. A request of a consumer tells it the next
event of the coroutine that the object has now if the coroutine knows the object and
the object the consumer; `begin()` and `next()` see to that. A request that goes elsewhere
does not. -/
theorem request_delivers_iff {as : List (Act V E)} (hrun : Run (Act.Step k) (initial V E k) as p) (hi : i ∈ p.objects)
    (htop : p.top i = some t) (hlive : (p.streams t).ended = false) (hc : c < k) (r : Request) (ready : Nat → Bool) :
    (Attached p i c t r → ∃ h' out, Returns (fun n => request n ready p.heap i (.coroutine c) r) (h', out) ∧
      Delivers p i c t h' out) ∧
    ∀ d x, Asks p i c t r d x → ∀ h' out,
      Returns (fun n => request n ready p.heap i (.coroutine c) r) (h', out) → Delivers p i c t h' out →
      Attached p i c t r := by
  obtain ⟨own, hs⟩ := Sound.initial V E k fun _ => none
  obtain ⟨own, st, hs⟩ := sound_of_run hrun ⟨own, _, hs⟩
  have ht := p.mem_held hi htop
  have hst : st t ≠ none := by
    rintro hnone
    rw [hs.owned.streams t ht, hnone] at hlive
    cases hlive
  constructor
  · intro ha
    obtain ⟨-, -, h', out, hret, hanswer⟩ := hs.request_spec hi hc htop hst ha.asks ready
    exact ⟨h', out, hret, hanswer.delivers hs ht ha⟩
  · intro d x hasks h' out hret hdelivers
    obtain ⟨-, -, h₁, out₁, hret₁, hanswer⟩ := hs.request_spec hi hc htop hst hasks ready
    obtain ⟨rfl, rfl⟩ := Prod.mk.inj (hret₁.unique hret)
    exact hanswer.attached hs ht hasks hdelivers

end requests

/-- Two channels that consumers 0 and 1 have begun are swapped. The iterator of
consumer 0 goes on with the element of the other stream, but finds its own. -/
theorem run_swapped : ∃ p, Run (Act.Step 2) (initial Nat Nat 2)
      [.operate (.call (.co_yield 1 (.co_yield 2 .co_return))),
        .operate (.call (.co_yield 10 (.co_yield 20 .co_return))), .request 0 0 .begin fun _ => true,
        .request 1 1 .begin fun _ => true, .operate (.swap 0 1)] p ∧
    0 ∈ p.objects ∧ p.top 0 = some 3 ∧
    p.streams 3 = { events := [.value 20], top_throws := false, ended := false } ∧
    ∃ h', Returns (fun n => request n (fun _ => true) p.heap 0 (.coroutine 0) .increment)
        (h', some (.coroutine 0)) ∧
      (h'.objects 0).current_result = some 10 ∧ (h'.objects 1).current_result = some 20 := by
  have hrequest : ∀ {h : ChannelHeap Nat Nat} {i : Nat} {c : Runner} {r : Request}
      {x : ChannelHeap Nat Nat × Option Runner}, (∀ n, request (n + 2) (fun _ => true) h i c r = some x) →
      Returns (fun n => request n (fun _ => true) h i c r) x :=
    fun hx => .of_succ (.of_succ ⟨0, fun n _ => hx n⟩)
  have hready : ∀ {p : ChannelProgram Nat Nat} {i : Nat} {c : FrameId}, Ready p i c .begin := fun h => by cases h
  have hrun : Run (Act.Step 2) (initial Nat Nat 2)
      [.operate (.call (.co_yield 1 (.co_yield 2 .co_return))),
        .operate (.call (.co_yield 10 (.co_yield 20 .co_return))), .request 0 0 .begin fun _ => true,
        .request 1 1 .begin fun _ => true, .operate (.swap 0 1)] _ :=
    .cons ⟨trivial, .const rfl⟩ (.cons ⟨trivial, .const rfl⟩
      (.cons ⟨by decide, by decide, hready, _, _, hrequest fun _ => rfl, rfl⟩
        (.cons ⟨by decide, by decide, hready, _, _, hrequest fun _ => rfl, rfl⟩
          (.cons ⟨by decide, .const rfl⟩ (.nil _)))))
  exact ⟨_, hrun, by decide, rfl, rfl, _, hrequest fun _ => rfl, rfl, rfl⟩

theorem request_delivers_after_swap : ∃ p h' out, 0 ∈ p.objects ∧ p.top 0 = some 3 ∧
    Returns (fun n => request n (fun _ => true) p.heap 0 (.coroutine 0) .next) (h', out) ∧
    Delivers (p : ChannelProgram Nat Nat) 0 0 3 h' out := by
  obtain ⟨p, hrun, hi, htop, hstream, -⟩ := run_swapped
  have hattached : Attached p 0 0 3 .next :=
    ⟨(fun h => by cases h), (fun ex hex => by rw [hstream] at hex; cases hex)⟩
  obtain ⟨h', out, hret, hdelivers⟩ :=
    (request_delivers_iff hrun hi htop (by rw [hstream]) (by decide) .next fun _ => true).1 hattached
  exact ⟨p, h', out, hi, htop, hret, hdelivers⟩

/-- After the swap `++` tells the other object, whose current element changes. -/
theorem increment_misses_after_swap : ∃ p, Run (Act.Step 2) (initial Nat Nat 2)
      [.operate (.call (.co_yield 1 (.co_yield 2 .co_return))),
        .operate (.call (.co_yield 10 (.co_yield 20 .co_return))), .request 0 0 .begin fun _ => true,
        .request 1 1 .begin fun _ => true, .operate (.swap 0 1)] p ∧
    0 ∈ p.objects ∧ p.top 0 = some 3 ∧ (p.streams 3).ended = false ∧
    ¬ ∃ h' out, Returns (fun n => request n (fun _ => true) p.heap 0 (.coroutine 0) .increment) (h', out) ∧
      Delivers p 0 0 3 h' out := by
  obtain ⟨p, hrun, hi, htop, hstream, h', hret, hcurrent, -⟩ := run_swapped
  refine ⟨p, hrun, hi, htop, by rw [hstream], fun ⟨h₁, out, hret₁, hdelivers⟩ => ?_⟩
  obtain ⟨rfl, rfl⟩ := Prod.mk.inj (hret₁.unique hret)
  have hshows := hdelivers.shows
  rw [hcurrent, hstream] at hshows
  cases hshows

end kelcoro.channel
