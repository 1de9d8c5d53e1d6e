import Kelcoro.Channel.Model
import Kelcoro.GeneratorsCommon.Attach

namespace kelcoro.channel

open kelcoro.generators_common Remaining

/-- What a channel still has to deliver while a request is being answered. -/
structure Backlog (V E : Type) where
  events : List (Event V E)
  top_throws : Bool
  work : Nat

namespace Backlog

variable {V E : Type}

def of_bodies (bs : List (Body V E)) : Backlog V E :=
  { events := pending (some bs), top_throws := Remaining.top_throws (some bs), work := Remaining.work (some bs) }

/-- The worker iterates a channel of its own: the events it will find in it
later, when it is a leaf, come before its own. -/
def holding (events : List (Event V E)) (work : Nat) (bs : List (Body V E)) : Backlog V E :=
  { events := events ++ pending (some bs), top_throws := Remaining.top_throws (some bs),
    work := work + Remaining.work (some bs) }

/-- A step that answers nothing. -/
structure Quiet (s s' : Backlog V E) : Prop where
  events : s'.events = s.events
  top : s'.top_throws = s.top_throws
  less : s'.work < s.work

/-- One request was answered; see `Took`. -/
structure Answered (s : Backlog V E) (st : Remaining V E) : Prop where
  events : pending st = s.events.tail
  ended : st = none ↔ s.events = [] ∨ s.events.length = 1 ∧ s.top_throws = true
  top : st ≠ none → Remaining.top_throws st = s.top_throws
  less : Remaining.work st ≤ s.work

theorem Quiet.of_silent {bs bs' : List (Body V E)} (h : Silent (some bs) (some bs')) :
    Quiet (of_bodies bs) (of_bodies bs') :=
  ⟨h.events, h.top, h.less⟩

theorem Answered.of_took {bs : List (Body V E)} {st : Remaining V E} (h : Took (some bs) st) :
    Answered (of_bodies bs) st :=
  ⟨h.events, h.ended, h.top, h.less⟩

end Backlog

open Backlog

variable {V E : Type}

/-- The value an answer leaves in `current_result`. -/
def current : Option (Event V E) → Option V
  | some (.value v) => some v
  | _ => none

/-- The exception an answer leaves in `exception`. -/
def raised : Option (Event V E) → Option E
  | some (.exception ex) => some ex
  | _ => none

/-- A channel object whose last request was answered with `e`. -/
structure Idle (h : ChannelHeap V E) (own : Set FrameId) (i : Nat) (t : FrameId) (st : Remaining V E)
    (e : Option (Event V E)) : Prop where
  tree : LeafTree h own t st
  object : ∃ handle, h.objects i = { current_result := current e, handle, top := some t, exception := raised e }
  ended : st = none → current e = none
  bounded : i < h.next_object

/-- What an object that values are delivered to keeps meanwhile. -/
structure Receiver (E : Type) where
  handle : Runner
  top : Option FrameId
  exception : Option E

/-- The object of coroutine `t` itself, which `c` iterates. -/
def Receiver.of (c : Runner) (t : FrameId) : Receiver E :=
  { handle := c, top := some t, exception := none }

def Channel.receiver (x : Channel V E) (c : Runner) : Receiver E :=
  { handle := c, top := x.top, exception := x.exception }

/-- A channel that is being iterated, and delivers to object `i`, one of those
that were there before. -/
structure Level (h : ChannelHeap V E) (N : Nat) (c : Receiver E) (own : Set FrameId) (i : Nat) (t w : FrameId)
    (fs : List FrameId) (bs : List (Body V E)) : Prop where
  tree : Tree h own t (.consumer (.object i)) w fs bs
  object : ∃ cur, h.objects i =
    { current_result := cur, handle := some c.handle, top := c.top, exception := c.exception }
  older : i < N
  room : N ≤ h.next_object

theorem Level.bounded {h : ChannelHeap V E} {N : Nat} {c : Receiver E} {own : Set FrameId} {i : Nat} {t w : FrameId}
    {fs : List FrameId} {bs : List (Body V E)} (hl : Level h N c own i t w fs bs) : i < h.next_object :=
  hl.older.trans_le hl.room

/-- Object `i` was told `e`. An exception finds that the one before was taken. -/
structure Told (h : ChannelHeap V E) (c : Receiver E) (own : Set FrameId) (i : Nat) (t : FrameId)
    (st : Remaining V E) (e : Option (Event V E)) : Prop where
  tree : LeafTree h own t st
  object : h.objects i =
    { current_result := current e, handle := some c.handle, top := c.top, exception := (raised e).or c.exception }
  link : ∃ q, h.frames t = some q ∧ q.link = .consumer (.object i)
  ended : st = none → current e = none
  taken : ∀ ex, e = some (.exception ex) → c.exception = none
  bounded : i < h.next_object

/-- The consumer `c` has begun to iterate object `i`, and may go on with `++`. -/
def Begun (h : ChannelHeap V E) (c : Runner) (i : Nat) (t : FrameId) : Prop :=
  (h.objects i).handle = some c ∧ ∃ q, h.frames t = some q ∧ q.link = .consumer (.object i)

theorem Idle.receiver_eq {h : ChannelHeap V E} {own : Set FrameId} {i : Nat} {t : FrameId} {st : Remaining V E}
    {e : Option (Event V E)} (hi : Idle h own i t st e) (htaken : (h.objects i).exception = none) (c : Runner) :
    (h.objects i).receiver c = .of c t := by
  obtain ⟨x, hobject⟩ := hi.object
  rw [Channel.receiver, htaken, hobject, Receiver.of]

theorem Told.idle {h : ChannelHeap V E} {c : Runner} {own : Set FrameId} {i : Nat} {t : FrameId}
    {st : Remaining V E} {e : Option (Event V E)} (ht : Told h (.of c t) own i t st e) : Idle h own i t st e :=
  ⟨ht.tree, ⟨some c, by rw [ht.object, Receiver.of, Option.or_none]⟩, ht.ended, ht.bounded⟩

theorem Told.begun {h : ChannelHeap V E} {c : Runner} {own : Set FrameId} {i : Nat} {t : FrameId}
    {st : Remaining V E} {e : Option (Event V E)} (ht : Told h (.of c t) own i t st e) : Begun h c i t :=
  ⟨by rw [ht.object, Receiver.of], ht.link⟩

/-- The worker `w` iterates its own object `l` and will ask it `left` times more. -/
def Holder (h : ChannelHeap V E) (w : FrameId) (l left : Nat) : Prop :=
  ∃ p, h.frames w = some p ∧ p.leaf = none ∧ p.pulling = some (l, left)

/-- A request has not been answered, and `r` is the coroutine that goes on: the
innermost worker of the channel itself, or of a channel that its worker
iterates, and so on. Channels that workers iterate are in objects from `N` on. -/
inductive Running (h : ChannelHeap V E) :
    Nat → Receiver E → Set FrameId → Nat → FrameId → FrameId → Backlog V E → Prop
  | working {N : Nat} {c : Receiver E} {own : Set FrameId} {i : Nat} {t w : FrameId} {fs : List FrameId}
      {bs : List (Body V E)} (level : Level h N c own i t w fs bs) (left : Resumable h own w) :
      Running h N c own i t w (.of_bodies bs)
  | pulling {N : Nat} {c : Receiver E} {own lown : Set FrameId} {i l left : Nat} {t w lt r : FrameId}
      {fs : List FrameId} {bs : List (Body V E)} {s : Backlog V E} (level : Level h N c own i t w fs bs)
      (holder : Holder h w l left) (above : N ≤ l) (disj : Disjoint own lown)
      (inner : Running h (l + 1) (.of (.coroutine w) lt) lown l lt r s) :
      Running h N c (own ∪ lown) i t r
        (holding (s.events.drop (left + 1)) (s.work + (2 * left + 2)) bs)
  | pulled {N : Nat} {c : Receiver E} {own lown : Set FrameId} {i l left : Nat} {t w lt : FrameId}
      {fs : List FrameId} {bs : List (Body V E)} {st : Remaining V E} {e : Option (Event V E)}
      (level : Level h N c own i t w fs bs) (holder : Holder h w l left) (above : N ≤ l)
      (disj : Disjoint own lown) (inner : Idle h lown l lt st e) :
      Running h N c (own ∪ lown) i t w
        (holding ((pending st).drop left) (work st + (2 * left + 1)) bs)

/-- Objects below `N` keep what they hold, except for `i`. -/
def OthersKept (h h' : ChannelHeap V E) (N i : Nat) : Prop :=
  ∀ j, j < N → j ≠ i → h'.objects j = h.objects j

/-- What one step of the runner leads to. A second exception that the receiver
would be told ends the program. -/
inductive Progress (h' : ChannelHeap V E) (N : Nat) (c : Receiver E) (own : Set FrameId) (i : Nat) (t r : FrameId)
    (s : Backlog V E) : Next → Prop
  | transfer {r' : FrameId} {s' : Backlog V E} (running : Running h' N c own i t r' s') (quiet : Quiet s s') :
      Progress h' N c own i t r s (.transfer (.coroutine r'))
  | await {s' : Backlog V E} (running : Running h' N c own i t r s') (quiet : Quiet s s') :
      Progress h' N c own i t r s .await
  | answered {st : Remaining V E} (told : Told h' c own i t st s.events.head?) (answered : Answered s st) :
      Progress h' N c own i t r s (.transfer c.handle)
  | terminated {ex : E} (throws : s.events.head? = some (.exception ex)) (untaken : c.exception.isSome) :
      Progress h' N c own i t r s .terminate

/-- Everything a step of the runner does to the program. -/
structure Stepped (h h' : ChannelHeap V E) (N : Nat) (c : Receiver E) (own : Set FrameId) (i : Nat) (t r : FrameId)
    (s : Backlog V E) (next : Next) : Prop where
  progress : Progress h' N c (grown own h h') i t r s next
  framed : Framed h h' own
  others : OthersKept h h' N i

end kelcoro.channel
