import Kelcoro.Channel.Iteration

namespace kelcoro.channel

open kelcoro.generators_common kelcoro.lib Remaining Backlog

variable {V E : Type}

/-- Coroutines run from one suspension to the next, until one goes on that is no
channel coroutine, or the program is terminated (`none`). `ready k` says whether
a `co_await` in the `k`-th of these runs finds its result; otherwise an executor
resumes the coroutine later. -/
def serve : Nat → (Nat → Bool) → ChannelHeap V E → Runner → Option (ChannelHeap V E × Option Runner)
  | 0, _, _, _ => none
  | _ + 1, _, h, .consumer => some (h, some .consumer)
  | n + 1, ready, h, .coroutine f =>
    if (h.frames f).isNone then some (h, some (.coroutine f)) else do
    let (h, next) ← resume n (ready 0) h f
    match next with
    | .transfer runner => serve n (ready ∘ Nat.succ) h runner
    | .await => serve n (ready ∘ Nat.succ) h (.coroutine f)
    | .terminate => some (h, none)

/-- The awaiters of the three requests that coroutine `c` makes of object `i`. -/
def suspend (h : ChannelHeap V E) (i : Nat) (c : Runner) : Request → Option (ChannelHeap V E × Runner)
  | .begin => starter.await_suspend h i c
  | .next => next_awaiter.await_suspend h i c
  | .increment => do some (h, ← increment h i)

/-- A request, from the `co_await` of `c` on until a coroutine that is not part
of a channel goes on. An empty channel suspends nothing, and has no `++`. -/
def request (n : Nat) (ready : Nat → Bool) (h : ChannelHeap V E) (i : Nat) (c : Runner) (r : Request) :
    Option (ChannelHeap V E × Option Runner) := do
  if ← empty h (.object i) then
    if r = .increment then none else some (h, some c)
  else do
    let (h, runner) ← suspend h i c r
    serve n ready h runner

/-- A coroutine that is no channel coroutine. -/
def Outside (h : ChannelHeap V E) (own : Set FrameId) : Runner → Prop
  | .consumer => True
  | .coroutine g => h.frames g = none ∧ g < h.next_frame ∧ g ∉ own

/-- What a request comes to: the receiver of its event goes on, unless it would
have been told a second exception. -/
inductive Reply (h' : ChannelHeap V E) (c : Receiver E) (own : Set FrameId) (i : Nat) (t : FrameId)
    (s : Backlog V E) : Option Runner → Prop
  | told {st : Remaining V E} (told : Told h' c own i t st s.events.head?) (answered : Answered s st) :
      Reply h' c own i t s (some c.handle)
  | terminated {ex : E} (throws : s.events.head? = some (.exception ex)) (untaken : c.exception.isSome) :
      Reply h' c own i t s none

/-- Everything a request does to the program. -/
structure Replied (h h' : ChannelHeap V E) (N : Nat) (c : Receiver E) (own : Set FrameId) (i : Nat) (t : FrameId)
    (s : Backlog V E) (out : Option Runner) : Prop where
  reply : Reply h' c (grown own h h') i t s out
  framed : Framed h h' own
  others : OthersKept h h' N i

variable {h h₁ h' : ChannelHeap V E} {N : Nat} {c : Receiver E} {own : Set FrameId} {i : Nat} {t r : FrameId}
  {s s₁ : Backlog V E} {out : Option Runner}

theorem Backlog.Answered.of_quiet {st : Remaining V E} (hq : Quiet s s₁) (ha : Answered s₁ st) : Answered s st where
  events := by rw [ha.events, hq.events]
  ended := by rw [ha.ended, hq.events, hq.top]
  top hst := (ha.top hst).trans hq.top
  less := ha.less.trans (Nat.le_of_lt hq.less)

theorem Reply.of_quiet (hq : Quiet s s₁) (hr : Reply h' c own i t s₁ out) : Reply h' c own i t s out := by
  cases hr with
  | told told answered =>
    rw [hq.events] at told
    exact .told told (answered.of_quiet hq)
  | terminated throws untaken => exact .terminated (hq.events ▸ throws) untaken

theorem Replied.of_quiet (hq : Quiet s s₁) (hf : Framed h h₁ own) (ho : OthersKept h h₁ N i)
    (hr : Replied h₁ h' N c (grown own h h₁) i t s₁ out) : Replied h h' N c own i t s out where
  reply := by
    rw [← grown_trans own hf.next_frame hr.framed.next_frame]
    exact hr.reply.of_quiet hq
  framed := hf.trans hr.framed
  others j hj hne := (hr.others j hj hne).trans (ho j hj hne)

theorem Outside.of_framed {x : Runner} (ho : Outside h own x) (hf : Framed h h' own) :
    Outside h' (grown own h h') x := by
  cases x with
  | consumer => trivial
  | coroutine g =>
    obtain ⟨hnone, hlt, hout⟩ := ho
    refine ⟨(hf.frames g hlt hout).trans hnone, hlt.trans_le hf.next_frame, ?_⟩
    rintro (hin | hin)
    · exact hout hin
    · exact not_le_of_gt hlt hin.1

theorem Outside.serve_eq {x : Runner} (ho : Outside h own x) (n : Nat) (ready : Nat → Bool) :
    serve (n + 1) ready h x = some (h, some x) := by
  cases x with
  | consumer => rfl
  | coroutine g => simp only [serve, ho.1, Option.isNone_none, ↓reduceIte]

theorem Running.live (hr : Running h N c own i t r s) : ∃ p, h.frames r = some p := by
  induction hr with
  | working level | pulled level =>
    obtain ⟨p, hp, -⟩ := level.tree.root
    exact ⟨p, hp⟩
  | pulling _ _ _ _ _ ih => exact ih

/-- Whatever the schedule, a request is answered, or ends the program. -/
theorem serve_spec (hr : Running h N c own i t r s) (hout : Outside h own c.handle) (ready : Nat → Bool) :
    ∃ h' out, Returns (fun n => serve n ready h (.coroutine r)) (h', out) ∧ Replied h h' N c own i t s out := by
  induction hm : s.work using Nat.strong_induction_on generalizing h own r s ready with
  | h m ih =>
    subst hm
    obtain ⟨p, hp⟩ := hr.live
    obtain ⟨h₁, next, hret, hprogress, hframed, hothers⟩ := resume_spec hr (ready 0)
    have hserve : ∀ {x : ChannelHeap V E × Option Runner}, Returns (fun n => match next with
          | .transfer runner => serve n (ready ∘ Nat.succ) h₁ runner
          | .await => serve n (ready ∘ Nat.succ) h₁ (.coroutine r)
          | .terminate => some (h₁, none)) x →
        Returns (fun n => serve n ready h (.coroutine r)) x := by
      intro x hx
      refine .of_succ ((hret.bind (g := fun n y => match y.2 with
        | .transfer runner => serve n (ready ∘ Nat.succ) y.1 runner
        | .await => serve n (ready ∘ Nat.succ) y.1 (.coroutine r)
        | .terminate => some (y.1, none)) hx).congr fun n => ?_)
      simp only [serve, hp, Option.isNone_some, Bool.false_eq_true, ↓reduceIte]
    cases hprogress with
    | transfer running quiet =>
      obtain ⟨h', out, hret', hreplied⟩ := ih _ quiet.less running (hout.of_framed hframed) (ready ∘ Nat.succ) rfl
      exact ⟨h', out, hserve hret', hreplied.of_quiet quiet hframed hothers⟩
    | await running quiet =>
      obtain ⟨h', out, hret', hreplied⟩ := ih _ quiet.less running (hout.of_framed hframed) (ready ∘ Nat.succ) rfl
      exact ⟨h', out, hserve hret', hreplied.of_quiet quiet hframed hothers⟩
    | answered told answered =>
      refine ⟨h₁, _, hserve (.of_succ ⟨0, fun n _ => ?_⟩), .told told answered, hframed, hothers⟩
      exact (hout.of_framed hframed).serve_eq n _
    | terminated throws untaken => exact ⟨h₁, _, hserve (.const rfl), .terminated throws untaken, hframed, hothers⟩

end kelcoro.channel
