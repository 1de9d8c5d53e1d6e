import Kelcoro.Channel.Requests
import Kelcoro.GeneratorsCommon.Current

namespace kelcoro.channel

open kelcoro.generators_common kelcoro.lib Remaining Backlog

variable {V E : Type}

/-- Operations on channels leave the links of coroutines alone. -/
def relink (_ : Nat) (link : Link) : Link :=
  link

theorem create_created (h : ChannelHeap V E) (body : Body V E) (i : Nat) :
    ∃ h', create h body (.object i) = some h' ∧ Created relink h h' i body := by
  let x : Channel V E := { current_result := none, handle := none, top := some h.next_frame, exception := none }
  refine ⟨(h.allocate body).1.put_object i x, rfl, ⟨?_, ?_, rfl, rfl, rfl⟩⟩
  · exact Function.update_self ..
  · exact fun y hy => Function.update_of_ne hy ..

theorem swap_swapped (h : ChannelHeap V E) (i j : Nat) :
    ∃ h', swap h (.object i) (.object j) = some h' ∧ Swapped relink h h' i j :=
  ⟨(h.put_object i (h.objects j)).put_object j (h.objects i), rfl,
    ⟨fun _ _ _ hp => hp, fun _ _ _ hp => hp, fun _ _ _ => rfl, swap_objects h i j, rfl, rfl⟩⟩

theorem move_construct_eq (h : ChannelHeap V E) (i : Nat) (place : Place)
    (hdefault : h.objects i = LeafObject.default) :
    move_construct h (.object i) place = swap h (.object i) place := by
  have hsame : h.put_object i LeafObject.default = h := by
    rw [← hdefault]
    simp only [Heap.put_object, Function.update_eq_self]
  simp only [move_construct, Heap.set_object, Option.bind_eq_bind, Option.bind_some, hsame]

def operations (V E : Type) : Operations V E (Channel V E) where
  create := create
  move_construct := move_construct
  swap := swap
  relink := relink
  create_spec := create_created
  swap_spec h i j _ _ := swap_swapped h i j
  move_construct_eq := move_construct_eq

/-- A step of a program with channels: it does something with its objects, takes
the exception of one, or a consumer makes a request, which is answered whatever
the executors do meanwhile. -/
inductive Act (V E : Type) where
  | operate (action : Action V E)
  | take_exception (this : Nat)
  | request (this : Nat) (c : FrameId) (r : Request) (ready : Nat → Bool)

abbrev ChannelProgram (V E : Type) := Program V E (Channel V E)

/-- The consumers are coroutines of their own, with the frames below `k`. -/
def initial (V E : Type) (k : Nat) : ChannelProgram V E :=
  { (Program.initial : ChannelProgram V E) with heap := { Heap.initial with next_frame := k } }

/-- Where a request of `c` to object `i` goes: the object that is told the next
event of coroutine `t`, and the consumer that is resumed. `begin()` and `next()`
see to it that these are `i` and `c`. -/
inductive Asks (p : ChannelProgram V E) (i : Nat) (c t : FrameId) : Request → Nat → FrameId → Prop
  | begin : Asks p i c t .begin i c
  | next : Asks p i c t .next i c
  | increment {d x : Nat} {q : Frame V E (Channel V E)} (frame : p.heap.frames t = some q)
      (link : q.link = .consumer (.object d)) (handle : (p.heap.objects d).handle = some (.coroutine x)) :
      Asks p i c t .increment d x

/-- A consumer makes no `++` of a channel that was never begun, or is empty, or whose
coroutine delivers to an object that was moved from: its handle is null, and there the
coroutine goes on without suspending. -/
def Ready (p : ChannelProgram V E) (i : Nat) (c : FrameId) (r : Request) : Prop :=
  r = .increment → ∃ t d x, p.top i = some t ∧ Asks p i c t r d x

/-- A request that ends the program is no step of it. Consumers make requests
whenever they like: one that was resumed in place of another one may go on. -/
def Act.Step (k : Nat) (p : ChannelProgram V E) : Act V E → ChannelProgram V E → Prop
  | .operate action, p' => action.Allowed p ∧ Returns (fun n => perform (operations V E) n p action) p'
  | .take_exception this, p' => this ∈ p.objects ∧ p' = { p with heap := (channel.take_exception p.heap this).1 }
  | .request this c r ready, p' =>
    this ∈ p.objects ∧ c < k ∧ Ready p this c r ∧
      ∃ h' x, Returns (fun n => channel.request n ready p.heap this (.coroutine c) r) (h', some x) ∧
        p' = p.asked this h'

/-- The invariant of a program with channels and the consumers below `k`. -/
structure Sound (k : Nat) (p : ChannelProgram V E) (own : FrameId → Set FrameId) (st : FrameId → Remaining V E) :
    Prop where
  owned : Owned p own st
  links : ∀ t ∈ p.held, ∀ q, p.heap.frames t = some q →
    q.link = .uninit ∨ ∃ d ∈ p.objects, q.link = .consumer (.object d)
  handles : ∀ i ∈ p.objects, ∀ x, (p.heap.objects i).handle = some x → ∃ c < k, x = .coroutine c
  room : k ≤ p.heap.next_frame
  consumers : ∀ c < k, p.heap.frames c = none
  apart : ∀ t ∈ p.held, ∀ c < k, c ∉ own t

/-- Object `d` is told the next event of `t`, and consumer `x` goes on. -/
structure Requested (h h' : ChannelHeap V E) (own : Set FrameId) (d : Nat) (t x : FrameId) (st st' : Remaining V E) :
    Prop where
  told : Told h' ((h.objects d).receiver (.coroutine x)) (grown own h h') d t st' (pending st).head?
  took : Took st st'
  framed : Framed h h' own
  others : ∀ j, j < h.next_object → j ≠ d → h'.objects j = h.objects j

/-- What becomes of a request: it is answered, or `d` would have been told a
second exception. -/
inductive Answer (p : ChannelProgram V E) (own : FrameId → Set FrameId) (d : Nat) (t x : FrameId)
    (st : FrameId → Remaining V E) (h' : ChannelHeap V E) : Option Runner → Prop
  | told {r : Remaining V E} (requested : Requested p.heap h' (own t) d t x (st t) r) :
      Answer p own d t x st h' (some (.coroutine x))
  | terminated {ex : E} (throws : (pending (st t)).head? = some (.exception ex))
      (untaken : (p.heap.objects d).exception.isSome) : Answer p own d t x st h' none

section requests

variable {k i d : Nat} {c t x : FrameId} {p : ChannelProgram V E} {own : FrameId → Set FrameId}
  {st : FrameId → Remaining V E} {h h₁ h' : ChannelHeap V E} {r : Request} {out : Option Runner}

theorem Backlog.Answered.took {lbs : List (Body V E)} {st' : Remaining V E} (ha : Answered (of_bodies lbs) st') :
    Took (some lbs) st' :=
  ⟨ha.events, ha.ended, ha.top, ha.less⟩

theorem Replied.of_started {N : Nat} {s : Backlog V E} {c : Receiver E} {own : Set FrameId}
    (hf : Framed h h₁ own) (hnf : h₁.next_frame = h.next_frame) (ho : ∀ j, j ≠ d → h₁.objects j = h.objects j)
    (hr : Replied h₁ h' N c own d t s out) : Replied h h' N c own d t s out where
  reply := by
    have hgrown : grown own h₁ h' = grown own h h' := by rw [grown, grown, hnf]
    rw [← hgrown]
    exact hr.reply
  framed := by
    refine hf.trans ?_
    rw [grown_of_eq own hnf]
    exact hr.framed
  others j hj hne := (hr.others j hj hne).trans (ho j hne)

theorem Sound.outside (hs : Sound k p own st) (ht : t ∈ p.held) (hx : x < k) :
    Outside p.heap (own t) (.coroutine x) :=
  ⟨hs.consumers x hx, hx.trans_le hs.room, hs.apart t ht x hx⟩

/-- The awaiter of a request of a channel that is not empty. -/
theorem Sound.suspend_spec {lbs : List (Body V E)} (hs : Sound k p own st) (hi : i ∈ p.objects) (hc : c < k)
    (htop : p.top i = some t) (hlbs : st t = some lbs) (hasks : Asks p i c t r d x) :
    d ∈ p.objects ∧ x < k ∧ ∃ h₁ f, suspend p.heap i (.coroutine c) r = some (h₁, .coroutine f) ∧
      Running h₁ p.heap.next_object ((p.heap.objects d).receiver (.coroutine x)) (own t) d t f (.of_bodies lbs) ∧
      Framed p.heap h₁ (own t) ∧ (∀ j, j ≠ d → h₁.objects j = p.heap.objects j) ∧
      h₁.next_frame = p.heap.next_frame := by
  have ht := p.mem_held hi htop
  have htree := hs.owned.forest.tree t ht
  rw [hlbs] at htree
  cases hasks with
  | begin | next => exact ⟨hi, hc, starter_spec htree htop (hs.owned.bounded i hi) le_rfl (.coroutine c)⟩
  | @increment d x q frame link handle =>
    have hd : d ∈ p.objects := by
      rcases hs.links t ht q frame with huninit | ⟨d', hd', hlink⟩
      · rw [huninit] at link
        cases link
      · rw [hlink] at link
        cases link
        exact hd'
    obtain ⟨y, hy, hxy⟩ := hs.handles d hd _ handle
    cases hxy
    obtain ⟨f, hincrement, hrunning⟩ := increment_spec htree htop frame link handle (hs.owned.bounded d hd) le_rfl
    refine ⟨hd, hy, p.heap, f, ?_, hrunning, .refl _ _, fun _ _ => rfl, rfl⟩
    simp only [suspend, hincrement, Option.bind_eq_bind, Option.bind_some]

/-- A request of a channel that is not empty. -/
theorem Sound.request_spec (hs : Sound k p own st) (hi : i ∈ p.objects) (hc : c < k) (htop : p.top i = some t)
    (hlive : st t ≠ none) (hasks : Asks p i c t r d x) (ready : Nat → Bool) :
    d ∈ p.objects ∧ x < k ∧ ∃ h' out, Returns (fun n => request n ready p.heap i (.coroutine c) r) (h', out) ∧
      Answer p own d t x st h' out := by
  obtain ⟨lbs, hlbs⟩ := Option.ne_none_iff_exists'.mp hlive
  have hempty := hs.owned.empty_of_top hi htop
  rw [hlbs] at hempty
  obtain ⟨hd, hx, h₁, f, hsuspend, hrunning, hframed, hothers, hnf⟩ := hs.suspend_spec hi hc htop hlbs hasks
  have hout := (hs.outside (p.mem_held hi htop) hx).of_framed hframed
  rw [grown_of_eq _ hnf] at hout
  obtain ⟨h', out, hret, hreplied⟩ := serve_spec hrunning hout ready
  refine ⟨hd, hx, h', out, hret.congr fun n => ?_, ?_⟩
  · simp only [request, hempty, Option.bind_eq_bind, Option.bind_some, Option.isNone_some, Bool.false_eq_true,
      ↓reduceIte, hsuspend]
  · obtain ⟨hreply, hframed', hothers'⟩ := hreplied.of_started hframed hnf hothers
    cases hreply with
    | told told answered => exact .told ⟨hlbs ▸ told, hlbs ▸ answered.took, hframed', hothers'⟩
    | terminated throws untaken => exact .terminated (by rw [hlbs]; exact throws) untaken

/-- `begin()` and `next()` of an empty channel suspend nothing. -/
theorem request_of_empty (hempty : empty h (.object i) = some true) (hr : r ≠ .increment) (c : Runner) (n : Nat)
    (ready : Nat → Bool) : request n ready h i c r = some (h, some c) := by
  simp only [request, hempty, Option.bind_eq_bind, Option.bind_some, ↓reduceIte, hr]

/-- An empty channel has no `++`. -/
theorem ne_increment_of_empty {y : ChannelHeap V E × Option Runner} {c : Runner} {ready : Nat → Bool}
    (hempty : empty h (.object i) = some true) (hret : Returns (fun n => request n ready h i c r) y) :
    r ≠ .increment := by
  rintro rfl
  obtain ⟨n, hn⟩ := hret
  have hn := hn n le_rfl
  simp only [request, hempty, Option.bind_eq_bind, Option.bind_some, ↓reduceIte] at hn
  cases hn

/-- Frames that were freed belong to nobody, and so do those of consumers. -/
theorem Sound.of_owned (ho : Owned p own st)
    (hlinks : ∀ t ∈ p.held, ∀ q, p.heap.frames t = some q →
      q.link = .uninit ∨ ∃ d ∈ p.objects, q.link = .consumer (.object d))
    (hhandles : ∀ i ∈ p.objects, ∀ x, (p.heap.objects i).handle = some x → ∃ c < k, x = .coroutine c)
    (hroom : k ≤ p.heap.next_frame) (hconsumers : ∀ c < k, p.heap.frames c = none) :
    ∃ own', Sound k p own' st :=
  ⟨_, ho.live_only, hlinks, hhandles, hroom, hconsumers, fun _ _ c hc hin => hin.2 (hconsumers c hc)⟩

theorem Sound.initial (V E : Type) (k : Nat) (st : FrameId → Remaining V E) :
    ∃ own, Sound k (initial V E k) own st := by
  have hheld : (channel.initial V E k).held = ∅ := by
    ext t
    simp [Program.held, held, channel.initial, Program.initial]
  have howned : Owned (channel.initial V E k) (fun _ => ∅) st := by
    refine ⟨.empty _, ?_, fun i hi => ?_, fun t ht => ?_⟩
    · rw [hheld]
      exact .empty _ _ st
    · exact absurd hi (Finset.notMem_empty i)
    · rw [hheld] at ht
      exact ht.elim
  refine Sound.of_owned howned (fun t ht => ?_) (fun i hi => ?_) le_rfl fun _ _ => rfl
  · rw [hheld] at ht
    exact ht.elim
  · exact absurd hi (Finset.notMem_empty i)

/-- The handle of the consumer, which is handed over like `current_result`. -/
def handle_part (V E : Type) : CurrentResult Runner (Channel V E) :=
  ⟨fun x => x.handle, rfl, fun _ _ => rfl⟩

theorem Sound.operate {p' : ChannelProgram V E} {a : Action V E} (hs : Sound k p own st) (ha : a.Allowed p)
    (hret : Returns (fun n => perform (operations V E) n p a) p') :
    ∃ own' st', Sound k p' own' st' ∧ Performed (operations V E) p a p' ∧ Traced (operations V E) p p' st st' := by
  obtain ⟨p₁, own₁, st', hret₁, hp, ho', ht⟩ := perform_spec (operations V E) hs.owned ha
  obtain rfl := hret₁.unique hret
  obtain ⟨n, hn⟩ := hret
  have hconsumers : ∀ c < k, p₁.heap.frames c = none := fun c hc =>
    perform_frames_none hs.owned ha hp (hn n le_rfl) (hs.consumers c hc) (hc.trans_le hs.room)
  suffices hsound : ∃ own', Sound k p₁ own' st' from hsound.imp fun own' hs' => ⟨st', hs', hp, ht⟩
  refine Sound.of_owned ho' (fun t hin q hq => ?_) (fun i hi x hx => ?_) (hs.room.trans hp.next_frame_le) hconsumers
  · rcases ht.frames t hin q hq with ⟨hin', hq'⟩ | ⟨_, _, _, link, hlink, hold⟩
    · exact (hs.links t hin' q hq').imp_right fun ⟨d, hd, hlink⟩ => ⟨d, ht.objects hd, hlink⟩
    · have hlink : q.link = link := hlink
      rw [hlink]
      rcases hold with rfl | ⟨hin', r, hr, rfl⟩
      · exact .inl rfl
      · exact (hs.links t hin' r hr).imp_right fun ⟨d, hd, hlink⟩ => ⟨d, ht.objects hd, hlink⟩
  · have hholds : Holds (handle_part V E) p a i (p₁.top i) (p₁.heap.objects i).handle := hp.holds hs.owned ha hi
    rw [hx] at hholds
    generalize p₁.top i = top at hholds
    generalize hy : some x = y at hholds
    cases hholds with
    | kept hj | cleared hj | released hj | reset hj => exact hs.handles _ hj x hy.symm
    | fresh | called => cases hy

/-- An object changes, but keeps its coroutine. -/
theorem Sound.put_object {x : Channel V E} (hs : Sound k p own st) (htop : x.top = p.top i)
    (hhandle : x.handle = (p.heap.objects i).handle) :
    Sound k { p with heap := p.heap.put_object i x } own st := by
  have hobjects : ∀ j, ((p.heap.put_object i x).objects j).top = p.top j ∧
      ((p.heap.put_object i x).objects j).handle = (p.heap.objects j).handle := by
    intro j
    by_cases hj : j = i
    · subst hj
      rw [Heap.put_object_objects_self]
      exact ⟨htop, hhandle⟩
    · rw [Heap.put_object_objects_of_ne _ _ hj]
      exact ⟨rfl, rfl⟩
  have htops : ({ p with heap := p.heap.put_object i x } : ChannelProgram V E).top = p.top :=
    funext fun j => (hobjects j).1
  have hheld : ({ p with heap := p.heap.put_object i x } : ChannelProgram V E).held = p.held := by
    simp only [Program.held, htops]
  refine ⟨⟨htops ▸ hs.owned.holders, ?_, hs.owned.bounded, fun t ht => hs.owned.streams t (hheld ▸ ht)⟩, ?_, ?_,
    hs.room, hs.consumers, fun t ht => hs.apart t (hheld ▸ ht)⟩
  · rw [hheld]
    exact hs.owned.forest.relinked (.of_frames (p.heap.put_object_frames ..) rfl _)
  · rw [hheld]
    exact hs.links
  · intro j hj y hy
    exact hs.handles j hj y ((hobjects j).2.symm.trans hy)

theorem Requested.tops {own : Set FrameId} {s s' : Remaining V E} (hr : Requested h h' own d t x s s') {j : Nat}
    (hj : j < h.next_object) : (h'.objects j).top = (h.objects j).top := by
  by_cases hjd : j = d
  · rw [hjd, hr.told.object, Channel.receiver]
  · rw [hr.others j hj hjd]

theorem Sound.asked {s : Remaining V E} (hs : Sound k p own st) (hi : i ∈ p.objects) (htop : p.top i = some t)
    (hd : d ∈ p.objects) (hx : x < k) (hr : Requested p.heap h' (own t) d t x (st t) s) :
    ∃ own', Sound k (p.asked i h') own' (Function.update st t s) := by
  have ht := p.mem_held hi htop
  have htops : ∀ j ∈ p.objects, LeafObject.top (h'.objects j) = p.top j := fun j hj => hr.tops (hs.owned.bounded j hj)
  have ho := hs.owned.request ht hr.framed hr.told.tree htops hr.took
  rw [Program.asked_of_top htop]
  refine Sound.of_owned ho (fun t' ht' q hq => ?_) (fun j hj y hy => ?_) (hs.room.trans hr.framed.next_frame)
    fun c hc => ?_
  · have hin : t' ∈ p.held := by
      rcases ht' with ⟨j, hj, hjt⟩ | hin
      · exact .inl ⟨j, hj, (htops j hj).symm.trans hjt⟩
      · exact .inr hin
    by_cases heq : t' = t
    · subst heq
      obtain ⟨q', hq', hlink⟩ := hr.told.link
      obtain rfl := Option.some.inj (hq.symm.trans hq')
      exact .inr ⟨d, hd, hlink⟩
    · have hsame := hr.framed.frames t' (hs.owned.forest.lt_next_frame hin) (hs.owned.forest.notMem_own ht hin heq)
      exact hs.links t' hin q (hsame.symm.trans hq)
  · have hy : (h'.objects j).handle = some y := hy
    by_cases hjd : j = d
    · rw [hjd, hr.told.object] at hy
      cases hy
      exact ⟨x, hx, rfl⟩
    · rw [hr.others j (hs.owned.bounded j hj) hjd] at hy
      exact hs.handles j hj y hy
  · exact (hr.framed.frames c (hc.trans_le hs.room) (hs.apart t ht c hc)).trans (hs.consumers c hc)

/-- The request of a step found its channel empty, or was answered. -/
theorem Sound.of_request {p' : ChannelProgram V E} {ready : Nat → Bool} (hs : Sound k p own st)
    (hstep : Act.Step k p (.request i c r ready) p') :
    p' = p ∨ ∃ t d x s h', p.top i = some t ∧ d ∈ p.objects ∧ x < k ∧ Asks p i c t r d x ∧
      Requested p.heap h' (own t) d t x (st t) s ∧ p' = p.asked i h' := by
  obtain ⟨hi, hc, hready, h', y, hret, rfl⟩ := hstep
  by_cases hover : ∀ t, p.top i = some t → st t = none
  · have hempty := hs.owned.empty_of_over hi hover
    have hreturns : Returns (fun n => request n ready p.heap i (.coroutine c) r) (p.heap, some (.coroutine c)) :=
      ⟨0, fun n _ => request_of_empty hempty (ne_increment_of_empty hempty hret) (.coroutine c) n ready⟩
    obtain rfl : p.heap = h' := (Prod.mk.inj (hreturns.unique hret)).1
    exact .inl (hs.owned.asked_of_over hi hover)
  · push Not at hover
    obtain ⟨t, htop, hlive⟩ := hover
    have hasks : ∃ d x, Asks p i c t r d x := by
      cases r with
      | begin => exact ⟨i, c, .begin⟩
      | next => exact ⟨i, c, .next⟩
      | increment =>
        obtain ⟨t', d, x, htop', hasks⟩ := hready rfl
        obtain rfl := Option.some.inj (htop.symm.trans htop')
        exact ⟨d, x, hasks⟩
    obtain ⟨d, x, hasks⟩ := hasks
    obtain ⟨hd, hx, h₁, out, hret₁, hanswer⟩ := hs.request_spec hi hc htop hlive hasks ready
    obtain ⟨rfl, rfl⟩ := Prod.mk.inj (hret₁.unique hret)
    cases hanswer with
    | told requested => exact .inr ⟨t, d, x, _, _, htop, hd, hx, hasks, requested, rfl⟩

/-- Every step keeps the program sound. -/
theorem Act.Step.sound {p' : ChannelProgram V E} {a : Act V E} (hstep : Act.Step k p a p') (hs : Sound k p own st) :
    ∃ own' st', Sound k p' own' st' := by
  cases a with
  | operate action =>
    obtain ⟨own', st', hs', -⟩ := hs.operate hstep.1 hstep.2
    exact ⟨own', st', hs'⟩
  | take_exception this =>
    obtain ⟨-, rfl⟩ := hstep
    exact ⟨own, st, hs.put_object rfl rfl⟩
  | request this c r ready =>
    have hthis : this ∈ p.objects := hstep.1
    rcases hs.of_request hstep with rfl | ⟨t, d, x, s, h', htop, hd, hx, -, hr, rfl⟩
    · exact ⟨own, st, hs⟩
    · obtain ⟨own', hs'⟩ := hs.asked hthis htop hd hx hr
      exact ⟨own', _, hs'⟩

theorem sound_of_run {p' : ChannelProgram V E} {as : List (Act V E)} (hrun : Run (Act.Step k) p as p')
    (hs : ∃ own st, Sound k p own st) : ∃ own st, Sound k p' own st :=
  hrun.invariant (fun p => ∃ own st, Sound k p own st) (fun _ _ _ ⟨_, _, hs⟩ hstep => hstep.sound hs) hs

end requests

end kelcoro.channel
