import Kelcoro.Channel.Resume
import Kelcoro.Generator.Iteration
import Kelcoro.Lib.Run

namespace kelcoro.channel

open kelcoro.generators_common kelcoro.lib Remaining Backlog

/-- What a consumer coroutine awaits: `begin()` or `next()`, which also take an
iteration up again after a break, or `++` on an iterator. -/
inductive Request where
  | begin
  | next
  | increment
  deriving DecidableEq, Repr

/-- What a consumer finds when it goes on after a request: the value, or else
the exception it takes. -/
structure Observation (V E : Type) where
  value : Option V
  exception : Option E
  empty : Bool
  deriving DecidableEq, Repr

/-- A consumer of one channel, and the threads that run it and its coroutines:
`active` are the coroutines threads are running, `awaiting` those that suspended
in a `co_await` and that an executor will resume. `issued` counts the requests
that suspended the consumer, `resumed` how often its handle was resumed. -/
structure State (V E : Type) where
  heap : ChannelHeap V E
  active : List Runner
  awaiting : List FrameId
  requests : List Request
  waiting : Bool
  log : List (Observation V E)
  issued : Nat
  resumed : Nat
  terminated : Bool

/-- The next step: an active coroutine goes on, up to its next suspension, or
an executor resumes one that awaits it. -/
inductive Choice where
  | go (k : Nat) (ready : Bool)
  | resume (k : Nat)
  deriving DecidableEq, Repr

section machine

variable {V E : Type} (i : Nat)

def observe (h : ChannelHeap V E) : Option (ChannelHeap V E × Observation V E) := do
  let value := (h.objects i).current_result
  let (h, exception) := if value.isNone then take_exception h i else (h, none)
  let empty ← empty h (.object i)
  some (h, { value, exception, empty })

/-- The awaiters of the three requests, for a channel that is not empty. -/
def await_suspend (h : ChannelHeap V E) : Request → Option (ChannelHeap V E × Runner)
  | .begin => starter.await_suspend h i .consumer
  | .next => next_awaiter.await_suspend h i .consumer
  | .increment => do some (h, ← increment h i)

/-- The consumer comes out of a request, or makes the next one. `begin()` and
`next()` of an empty channel suspend nothing. -/
def consumer_go (s : State V E) (others : List Runner) : Option (State V E) :=
  if s.waiting then do
    let (h, o) ← observe i s.heap
    some { s with heap := h, waiting := false, log := s.log ++ [o] }
  else
    match s.requests with
    | [] => none
    | r :: requests => do
      if ← empty s.heap (.object i) then
        if r = .increment then none else do
        let (h, o) ← observe i s.heap
        some { s with heap := h, requests, log := s.log ++ [o] }
      else do
        let (h, runner) ← await_suspend i s.heap r
        some { s with heap := h, requests, waiting := true, issued := s.issued + 1, active := runner :: others }

def coroutine_go (s : State V E) (others : List Runner) (f : FrameId) (h : ChannelHeap V E) : Next → State V E
  | .transfer runner =>
    { s with heap := h, active := runner :: others,
             resumed := if runner = .consumer then s.resumed + 1 else s.resumed }
  | .await => { s with heap := h, active := others, awaiting := f :: s.awaiting }
  | .terminate => { s with heap := h, active := others, terminated := true }

def step (n : Nat) (s : State V E) : Choice → Option (State V E)
  | .go k ready => do
    let runner ← s.active[k]?
    let others := s.active.eraseIdx k
    match runner with
    | .consumer => consumer_go i s others
    | .coroutine f => do
      let (h, next) ← resume n ready s.heap f
      some (coroutine_go s others f h next)
  | .resume k => do
    let f ← s.awaiting[k]?
    some { s with active := .coroutine f :: s.active, awaiting := s.awaiting.eraseIdx k }

/-- `step`, with as much fuel as it takes. -/
def Step (s : State V E) (choice : Choice) (s' : State V E) : Prop :=
  Returns (fun n => step i n s choice) s'

end machine

section

variable {V E : Type}

/-- The choices there are; the consumer is done when it has no request left. -/
def State.Enabled (s : State V E) : Choice → Prop
  | .go k _ => ∃ runner, s.active[k]? = some runner ∧
      (runner = .consumer → s.waiting = true ∨ s.requests ≠ [])
  | .resume k => k < s.awaiting.length

/-- A consumer calls a channel function and is about to iterate what it got. -/
def start (h : ChannelHeap V E) (body : Body V E) (requests : List Request) : Option (State V E × Nat) := do
  let (h, i) := h.new_object
  let h ← create h body (.object i)
  some ({ heap := h, active := [.consumer], awaiting := [], requests, waiting := false, log := [],
          issued := 0, resumed := 0, terminated := false }, i)

/-- What a consumer finds after a request when `events` are still to come. -/
def expected (top : Bool) : List (Event V E) → Observation V E
  | [] => { value := none, exception := none, empty := true }
  | .value v :: _ => { value := some v, exception := none, empty := false }
  | .exception ex :: rest => { value := none, exception := some ex, empty := rest.isEmpty && top }

/-- The answers of a whole sequence of requests. -/
def answers (top : Bool) (events : List (Event V E)) (n : Nat) : List (Observation V E) :=
  (List.range n).map fun k => expected top (events.drop k)

/-- Which `++` the rest of the schedule may contain. -/
def Allowed (st : Remaining V E) (requests : List Request) : Prop :=
  ∀ k, requests[k]? = some .increment → st ≠ none ∧ k + (top_throws st).toNat ≤ (pending st).length

/-- The same while a request is being answered. -/
def AllowedAfter (b : Backlog V E) (requests : List Request) : Prop :=
  ∀ k, requests[k]? = some .increment → k + 1 + b.top_throws.toNat ≤ b.events.length

/-- Who runs, who is awaited, and how many requests are unanswered. -/
structure Control (s : State V E) (waiting : Bool) (active : List Runner) (awaiting : List FrameId)
    (unanswered : Nat) : Prop where
  waiting : s.waiting = waiting
  active : s.active = active
  awaiting : s.awaiting = awaiting
  count : s.issued = s.resumed + unanswered
  terminated : s.terminated = false

/-- The states between two steps, with a bound for the steps that are left and
the answers that are still to be found. -/
inductive Phase (i : Nat) (s : State V E) : Nat → List (Observation V E) → Prop
  | ready {own : Set FrameId} {t : FrameId} {st : Remaining V E} {e : Option (Event V E)}
      (idle : Idle s.heap own i t st e) (taken : (s.heap.objects i).exception = none)
      (begun : s.requests.head? = some .increment → Begun s.heap .consumer i t)
      (allowed : Allowed st s.requests) (control : Control s false [.consumer] [] 0) :
      Phase i s (4 * s.requests.length + 2 * work st)
        (answers (top_throws st) (pending st) s.requests.length)
  | answered {own : Set FrameId} {t : FrameId} {b : Backlog V E} {st : Remaining V E}
      (idle : Idle s.heap own i t st b.events.head?) (begun : Begun s.heap .consumer i t)
      (answered : Answered b st) (allowed : AllowedAfter b s.requests)
      (control : Control s true [.consumer] [] 0) :
      Phase i s (4 * s.requests.length + 1 + 2 * work st)
        (answers b.top_throws b.events (s.requests.length + 1))
  | running {own : Set FrameId} {t r : FrameId} {b : Backlog V E}
      (running : Running s.heap (i + 1) (.of .consumer t) own i t r b) (allowed : AllowedAfter b s.requests)
      (control : Control s true [.coroutine r] [] 1) :
      Phase i s (4 * s.requests.length + 2 + 2 * b.work)
        (answers b.top_throws b.events (s.requests.length + 1))
  | suspended {own : Set FrameId} {t r : FrameId} {b : Backlog V E}
      (running : Running s.heap (i + 1) (.of .consumer t) own i t r b) (allowed : AllowedAfter b s.requests)
      (control : Control s true [] [r] 1) :
      Phase i s (4 * s.requests.length + 3 + 2 * b.work)
        (answers b.top_throws b.events (s.requests.length + 1))

theorem answers_succ (top : Bool) (events : List (Event V E)) (n : Nat) :
    answers top events (n + 1) = expected top events :: answers top events.tail n := by
  simp only [answers, List.range_succ_eq_map, List.map_cons, List.drop_zero, List.map_map, List.cons.injEq,
    true_and]
  refine List.map_congr_left fun k _ => ?_
  rw [Function.comp_apply, List.drop_tail]

/-- A stream that is over has nothing but its end to show. -/
theorem answers_answered {b : Backlog V E} {st : Remaining V E} (h : Answered b st) (n : Nat) :
    answers b.top_throws b.events.tail n = answers (top_throws st) (pending st) n := by
  rw [← h.events]
  by_cases hst : st = none
  · subst hst
    refine List.map_congr_left fun k _ => ?_
    rw [pending, List.drop_nil, expected, expected]
  · rw [h.top hst]

theorem Backlog.Answered.expected_eq {b : Backlog V E} {st : Remaining V E} (h : Answered b st)
    (hended : st = none → current b.events.head? = none) :
    { value := current b.events.head?, exception := raised b.events.head?, empty := st.isNone } =
      expected b.top_throws b.events := by
  have hover := h.ended
  rw [← Option.isNone_iff_eq_none] at hover hended
  cases hevents : b.events with
  | nil =>
    have hempty : st.isNone = true := hover.mpr (Or.inl hevents)
    simp [expected, current, raised, hempty]
  | cons event rest =>
    rw [hevents] at hover hended
    cases event with
    | value v =>
      have hempty : st.isNone = false := by
        rw [Bool.eq_false_iff]
        exact fun hnone => Option.some_ne_none v (hended hnone)
      simp [expected, current, raised, hempty]
    | exception ex =>
      have hempty : st.isNone = (rest.isEmpty && b.top_throws) := by
        rw [Bool.eq_iff_iff, hover]
        simp
      simp [expected, current, raised, hempty]

theorem Backlog.Answered.allowed {b : Backlog V E} {st : Remaining V E} {requests : List Request} (h : Answered b st)
    (ha : AllowedAfter b requests) : Allowed st requests := by
  intro k hk
  have hle := ha k hk
  have hne : st ≠ none := by
    rw [ne_eq, h.ended]
    rintro (hnil | ⟨hone, htop⟩)
    · rw [hnil, List.length_nil] at hle
      omega
    · rw [htop, hone, Bool.toNat_true] at hle
      omega
  refine ⟨hne, ?_⟩
  rw [h.top hne, h.events, List.length_tail]
  omega

section steps

variable {i : Nat} {s : State V E} {own : Set FrameId} {t : FrameId} {st : Remaining V E} {e : Option (Event V E)}
  {h : ChannelHeap V E}

/-- The consumer looks at the answer, and takes the exception if there is one. -/
theorem observe_spec (hidle : Idle h own i t st e) :
    ∃ h' e', observe i h = some (h', { value := current e, exception := raised e, empty := st.isNone }) ∧
      Idle h' own i t st e' ∧ (h'.objects i).exception = none ∧
      (∀ c, Begun h c i t → Begun h' c i t) := by
  obtain ⟨h', e', htaken, hidle', hex, hframes, -⟩ := taken_spec hidle
  obtain ⟨x, hobject⟩ := hidle.object
  have hempty := hidle'.empty_eq
  subst htaken
  refine ⟨_, e', ?_, hidle', hex, fun c hbegun => ?_⟩
  · rcases e with _ | ⟨v | ex⟩ <;>
      simp_all [observe, take_exception, current, raised]
  · obtain ⟨hhandle, q, hq, hlink⟩ := hbegun
    refine ⟨?_, q, by rw [hframes, hq], hlink⟩
    split
    · simp [take_exception, hhandle]
    · exact hhandle

/-- The awaiters of a channel that is not empty pass control to its worker. -/
theorem await_suspend_spec {r : Request} {lbs : List (Body V E)} (hidle : Idle h own i t (some lbs) e)
    (hex : (h.objects i).exception = none) (hbegun : r = .increment → Begun h .consumer i t) :
    ∃ h' f, await_suspend i h r = some (h', .coroutine f) ∧
      Running h' (i + 1) (.of .consumer t) own i t f (.of_bodies lbs) := by
  obtain ⟨x, hobject⟩ := hidle.object
  have htop : (h.objects i).top = some t := by rw [hobject]
  rw [← hidle.receiver_eq hex]
  cases r with
  | begin | next =>
    obtain ⟨h', f, hstart, hrunning, -⟩ :=
      starter_spec hidle.tree htop (Nat.lt_succ_self i) hidle.bounded .consumer
    exact ⟨h', f, hstart, hrunning⟩
  | increment =>
    obtain ⟨hhandle, q, hq, hlink⟩ := hbegun rfl
    obtain ⟨f, hincrement, hrunning⟩ :=
      increment_spec hidle.tree htop hq hlink hhandle (Nat.lt_succ_self i) hidle.bounded
    exact ⟨h, f, by simp only [await_suspend, hincrement, Option.bind_eq_bind, Option.bind_some], hrunning⟩

/-- The consumer makes a request. -/
theorem ready_step {r : Request} {requests : List Request} (hidle : Idle s.heap own i t st e)
    (htaken : (s.heap.objects i).exception = none)
    (hbegun : s.requests.head? = some .increment → Begun s.heap .consumer i t)
    (hallowed : Allowed st s.requests) (hcontrol : Control s false [.consumer] [] 0)
    (hrequests : s.requests = r :: requests) :
    ∃ s' m' future', consumer_go i s [] = some s' ∧ m' < 4 * s.requests.length + 2 * work st ∧
      Phase i s' m' future' ∧
      s'.log ++ future' = s.log ++ answers (top_throws st) (pending st) s.requests.length := by
  obtain ⟨hwaiting, hactive, hawaiting, hcount, hterminated⟩ := hcontrol
  have hempty := hidle.empty_eq
  rw [hrequests] at hbegun hallowed ⊢
  cases st with
  | none =>
    have hr : r ≠ .increment := fun heq => (hallowed 0 (by rw [heq]; rfl)).1 rfl
    have hnext : requests.head? ≠ some .increment := fun heq => by
      rw [List.head?_eq_getElem?] at heq
      exact (hallowed 1 heq).1 rfl
    obtain ⟨h', e', hobserve, hidle', hex, -⟩ := observe_spec hidle
    have hraised : raised e = none := by
      obtain ⟨x, hobject⟩ := hidle.object
      rw [hobject] at htaken
      exact htaken
    rw [hidle.ended rfl, hraised] at hobserve
    refine ⟨{ s with heap := h', requests, log := s.log ++ [expected false []] }, _, _, ?_, ?_,
      .ready hidle' hex (fun heq => absurd heq hnext) (fun k hk => ?_)
        ⟨hwaiting, hactive, hawaiting, hcount, hterminated⟩, ?_⟩
    · simp only [consumer_go, hwaiting, Bool.false_eq_true, ↓reduceIte, hrequests, hempty, Option.isNone_none,
        Option.bind_eq_bind, Option.bind_some, hr, hobserve, expected]
    · simp only [List.length_cons]
      omega
    · exact absurd rfl (hallowed (k + 1) hk).1
    · simp only [List.length_cons, answers_succ, pending, List.tail_nil, List.append_assoc, List.singleton_append,
        expected]
  | some lbs =>
    obtain ⟨h', f, hsuspend, hrunning⟩ := await_suspend_spec (r := r) hidle htaken fun heq => hbegun (by rw [heq]; rfl)
    have hallowed' : AllowedAfter (of_bodies lbs) requests := fun k hk => (hallowed (k + 1) hk).2
    refine ⟨{ s with heap := h', requests, waiting := true, issued := s.issued + 1, active := [.coroutine f] }, _, _,
      ?_, ?_, .running hrunning hallowed' ⟨rfl, rfl, hawaiting, ?_, hterminated⟩, rfl⟩
    · simp only [consumer_go, hwaiting, Bool.false_eq_true, ↓reduceIte, hrequests, hempty, Option.isNone_some,
        Option.bind_eq_bind, Option.bind_some, hsuspend]
    · simp only [List.length_cons, of_bodies]
      omega
    · simp only [hcount]

/-- The consumer comes out of a request. -/
theorem answered_step {b : Backlog V E} (hidle : Idle s.heap own i t st b.events.head?)
    (hbegun : Begun s.heap .consumer i t) (hanswered : Answered b st) (hallowed : AllowedAfter b s.requests)
    (hcontrol : Control s true [.consumer] [] 0) :
    ∃ s' m' future', consumer_go i s [] = some s' ∧ m' < 4 * s.requests.length + 1 + 2 * work st ∧
      Phase i s' m' future' ∧
      s'.log ++ future' = s.log ++ answers b.top_throws b.events (s.requests.length + 1) := by
  obtain ⟨hwaiting, hactive, hawaiting, hcount, hterminated⟩ := hcontrol
  obtain ⟨h', e', hobserve, hidle', hex, hbegun'⟩ := observe_spec hidle
  have hexpected : ({ value := current b.events.head?, exception := raised b.events.head?, empty := st.isNone } :
      Observation V E) = expected b.top_throws b.events := hanswered.expected_eq hidle.ended
  rw [hexpected] at hobserve
  have hallowed' : Allowed st s.requests := hanswered.allowed hallowed
  refine ⟨{ s with heap := h', waiting := false, log := s.log ++ [expected b.top_throws b.events] }, _, _, ?_, ?_,
    .ready hidle' hex (fun _ => hbegun' _ hbegun) hallowed' ⟨rfl, hactive, hawaiting, hcount, hterminated⟩, ?_⟩
  · simp only [consumer_go, hwaiting, ↓reduceIte, hobserve, Option.bind_eq_bind, Option.bind_some]
  · simp only
    omega
  · rw [answers_succ, answers_answered hanswered, List.append_assoc, List.singleton_append]

/-- A coroutine of the tree goes on. -/
theorem running_step {r : FrameId} {b : Backlog V E} (hrunning : Running s.heap (i + 1) (.of .consumer t) own i t r b)
    (hallowed : AllowedAfter b s.requests) (hcontrol : Control s true [.coroutine r] [] 1) (ready : Bool) :
    ∃ s' m' future',
      Returns (fun n => (resume n ready s.heap r).bind fun (h, next) => some (coroutine_go s [] r h next)) s' ∧
      m' < 4 * s.requests.length + 2 + 2 * b.work ∧ Phase i s' m' future' ∧
      s'.log ++ future' = s.log ++ answers b.top_throws b.events (s.requests.length + 1) := by
  obtain ⟨hwaiting, hactive, hawaiting, hcount, hterminated⟩ := hcontrol
  obtain ⟨h', next, hret, hprogress, -⟩ := resume_spec hrunning ready
  have hstep : Returns (fun n => (resume n ready s.heap r).bind fun (h, next) => some (coroutine_go s [] r h next))
      (coroutine_go s [] r h' next) :=
    hret.bind (g := fun _ x => some (coroutine_go s [] r x.1 x.2)) (.const rfl)
  have hmono : ∀ {b' : Backlog V E}, Quiet b b' → AllowedAfter b' s.requests := by
    intro b' hquiet k hk
    rw [hquiet.events, hquiet.top]
    exact hallowed k hk
  cases hprogress with
  | transfer running quiet =>
    have hless := quiet.less
    refine ⟨_, _, _, hstep, ?_, .running running (hmono quiet) ⟨hwaiting, rfl, hawaiting, hcount, hterminated⟩, ?_⟩
    · simp only [coroutine_go]
      omega
    · simp only [coroutine_go, quiet.events, quiet.top]
  | await running quiet =>
    have hless := quiet.less
    refine ⟨_, _, _, hstep, ?_, .suspended running (hmono quiet)
      ⟨hwaiting, rfl, by simp [coroutine_go, hawaiting], hcount, hterminated⟩, ?_⟩
    · simp only [coroutine_go]
      omega
    · simp only [coroutine_go, quiet.events, quiet.top]
  | terminated _ untaken => cases untaken
  | answered told answered =>
    have hless := answered.less
    refine ⟨_, _, _, hstep, ?_, .answered told.idle told.begun answered hallowed ⟨hwaiting, rfl, hawaiting, ?_, hterminated⟩, rfl⟩
    · simp only [coroutine_go]
      omega
    · simp only [coroutine_go, Receiver.of, ↓reduceIte, hcount]

theorem step_go_consumer {others : List Runner} (hactive : s.active = .consumer :: others) (n : Nat) (ready : Bool) :
    step i n s (.go 0 ready) = consumer_go i s others := by
  simp [step, hactive]

theorem step_go_coroutine {f : FrameId} {others : List Runner} (hactive : s.active = .coroutine f :: others) (n : Nat)
    (ready : Bool) :
    step i n s (.go 0 ready) =
      (resume n ready s.heap f).bind fun (h, next) => some (coroutine_go s others f h next) := by
  simp [step, hactive]

/-- Every choice there is can be taken. -/
theorem phase_step {m : Nat} {future : List (Observation V E)} {choice : Choice} (hphase : Phase i s m future)
    (henabled : s.Enabled choice) :
    ∃ s' m' future', Step i s choice s' ∧ m' < m ∧ Phase i s' m' future' ∧
      s'.log ++ future' = s.log ++ future := by
  cases choice with
  | go k ready =>
    obtain ⟨runner, hk, hdone⟩ := henabled
    obtain ⟨hlt, hrunner⟩ := List.getElem?_eq_some_iff.mp hk
    have hsingle : ∀ {r : Runner}, s.active = [r] → k = 0 ∧ runner = r := by
      intro r hactive
      rw [hactive] at hlt hk
      obtain rfl := Nat.lt_one_iff.mp hlt
      exact ⟨rfl, (Option.some.inj hk).symm⟩
    cases hphase with
    | ready idle taken begun allowed control =>
      obtain ⟨rfl, rfl⟩ := hsingle control.active
      have hne : s.requests ≠ [] := (hdone rfl).resolve_left (by rw [control.waiting]; simp)
      obtain ⟨r, requests, hrequests⟩ := List.exists_cons_of_ne_nil hne
      obtain ⟨s', m', future', hgo, hrest⟩ := ready_step idle taken begun allowed control hrequests
      exact ⟨s', m', future', ⟨0, fun n _ => (step_go_consumer control.active n ready).trans hgo⟩, hrest⟩
    | answered idle begun answered allowed control =>
      obtain ⟨rfl, rfl⟩ := hsingle control.active
      obtain ⟨s', m', future', hgo, hrest⟩ := answered_step idle begun answered allowed control
      exact ⟨s', m', future', ⟨0, fun n _ => (step_go_consumer control.active n ready).trans hgo⟩, hrest⟩
    | running running allowed control =>
      obtain ⟨rfl, rfl⟩ := hsingle control.active
      obtain ⟨s', m', future', hgo, hrest⟩ := running_step running allowed control ready
      exact ⟨s', m', future', hgo.congr fun n => step_go_coroutine control.active n ready, hrest⟩
    | suspended running allowed control =>
      rw [control.active] at hk
      cases hk
  | resume k =>
    cases hphase with
    | ready _ _ _ _ control | answered _ _ _ _ control | running _ _ control =>
      rw [State.Enabled, control.awaiting] at henabled
      cases henabled
    | @suspended own t r b running allowed control =>
      obtain ⟨hwaiting, hactive, hawaiting, hcount, hterminated⟩ := control
      obtain rfl : k = 0 := by
        rw [State.Enabled, hawaiting] at henabled
        exact Nat.lt_one_iff.mp henabled
      refine ⟨{ s with active := [.coroutine r], awaiting := [] }, _, _, ⟨0, fun n _ => ?_⟩, ?_,
        .running running allowed ⟨hwaiting, rfl, rfl, hcount, hterminated⟩, rfl⟩
      · simp [step, hawaiting, hactive]
      · simp only
        omega

theorem Step.enabled {s' : State V E} {choice : Choice} (hstep : Step i s choice s') : s.Enabled choice := by
  obtain ⟨n, hstep⟩ := hstep
  have hn : step i n s choice = some s' := hstep n le_rfl
  cases choice with
  | go k ready =>
    cases hk : s.active[k]? with
    | none => simp [step, hk] at hn
    | some runner =>
      refine ⟨runner, hk, fun hrunner => ?_⟩
      subst hrunner
      by_contra hdone
      simp only [not_or, not_not, Bool.not_eq_true] at hdone
      simp [step, hk, consumer_go, hdone.1, hdone.2] at hn
  | resume k =>
    by_contra hk
    simp [step, List.getElem?_eq_none (Nat.le_of_not_lt hk)] at hn

/-- Every step uses up the bound, and the answers as they are found. -/
theorem Step.phase {s' : State V E} {choice : Choice} {m : Nat} {future : List (Observation V E)}
    (hstep : Step i s choice s') (hphase : Phase i s m future) :
    ∃ m' future', m' < m ∧ Phase i s' m' future' ∧ s'.log ++ future' = s.log ++ future := by
  obtain ⟨s₁, m', future', hstep₁, hrest⟩ := phase_step hphase hstep.enabled
  obtain rfl : s₁ = s' := hstep₁.unique hstep
  exact ⟨m', future', hrest⟩

end steps

/-- What can be said of a consumer at any moment, when it is going to find
`found`: what it has found so far, that it runs alone and only after each of its
requests was answered once, and that somebody runs for it otherwise. -/
structure Served (i : Nat) (found : List (Observation V E)) (s : State V E) : Prop where
  log : s.log <+: found
  terminated : s.terminated = false
  alone : .consumer ∈ s.active → s.active = [.consumer] ∧ s.awaiting = [] ∧ s.resumed = s.issued
  owed : .consumer ∉ s.active → s.active.length + s.awaiting.length = 1 ∧ s.resumed + 1 = s.issued
  goes_on : ∀ choice, s.Enabled choice → ∃ s', Step i s choice s'
  complete : (∀ choice, ¬ s.Enabled choice) → s.log = found

theorem Phase.served {i m : Nat} {s : State V E} {future : List (Observation V E)} (hphase : Phase i s m future) :
    Served i (s.log ++ future) s where
  log := List.prefix_append ..
  terminated := by
    cases hphase with
    | ready _ _ _ _ control | answered _ _ _ _ control | running _ _ control | suspended _ _ control =>
      exact control.terminated
  alone hmem := by
    cases hphase with
    | ready _ _ _ _ control | answered _ _ _ _ control =>
      exact ⟨control.active, control.awaiting, control.count.symm⟩
    | running _ _ control | suspended _ _ control =>
      simp [control.active] at hmem
  owed hmem := by
    cases hphase with
    | ready _ _ _ _ control | answered _ _ _ _ control =>
      rw [control.active] at hmem
      exact absurd (List.mem_singleton_self _) hmem
    | running _ _ control | suspended _ _ control =>
      exact ⟨by rw [control.active, control.awaiting]; rfl, control.count.symm⟩
  goes_on choice henabled := by
    obtain ⟨s', _, _, hstep, -⟩ := phase_step hphase henabled
    exact ⟨s', hstep⟩
  complete hdone := by
    cases hphase with
    | ready _ _ _ _ control =>
      have hnil : s.requests = [] := by
        by_contra hne
        exact hdone (.go 0 true) ⟨.consumer, by rw [control.active]; rfl, fun _ => .inr hne⟩
      rw [hnil]
      exact (List.append_nil _).symm
    | answered _ _ _ _ control =>
      exact absurd ⟨.consumer, by rw [control.active]; rfl, fun _ => .inl control.waiting⟩ (hdone (.go 0 true))
    | @running _ _ r _ _ _ control =>
      exact absurd ⟨.coroutine r, by rw [control.active]; rfl, fun h => by cases h⟩ (hdone (.go 0 true))
    | suspended _ _ control =>
      exact absurd (by rw [State.Enabled, control.awaiting]; exact Nat.zero_lt_one) (hdone (.resume 0))

/-- Every consumer of a channel function, from any state of the program, in
every run: it takes the exception whenever the iteration stops. -/
theorem start_spec (h : ChannelHeap V E) (body : Body V E) (requests : List Request)
    (hallowed : ∀ k, requests[k]? = some .increment → 0 < k ∧ k + body.throws.toNat ≤ body.flatten.length) :
    ∃ s i, start h body requests = some (s, i) ∧ ∃ bound, ∀ choices s', Run (Step i) s choices s' →
      choices.length ≤ bound ∧ Served i (answers body.throws body.flatten requests.length) s' := by
  obtain ⟨h₁, hcreate, hidle, hex, -⟩ := create_spec h body
  let i := h.next_object
  let s : State V E :=
    { heap := h₁, active := [.consumer], awaiting := [], requests, waiting := false, log := [], issued := 0,
      resumed := 0, terminated := false }
  have hstart : start h body requests = some (s, i) := by
    have hcreate' : create h.new_object.1 body (.object h.new_object.2) = some h₁ := hcreate
    simp only [start, hcreate', Option.bind_eq_bind, Option.bind_some]
    rfl
  have hphase : Phase i s (4 * requests.length + 2 * work (some [body]))
      (answers body.throws body.flatten requests.length) := by
    have hready := Phase.ready (s := s) hidle hex
      (fun hbegun => by
        rw [List.head?_eq_getElem?] at hbegun
        exact absurd (hallowed 0 hbegun).1 (lt_irrefl 0))
      (fun k hk => ⟨Option.some_ne_none _, by simpa using (hallowed k hk).2⟩) ⟨rfl, rfl, rfl, rfl, rfl⟩
    simpa only [top_throws_singleton, pending_cons, pending_nil, List.append_nil] using hready
  refine ⟨s, i, hstart, 4 * requests.length + 2 * work (some [body]), fun choices s' hrun => ?_⟩
  obtain ⟨m', hle, future, hphase', hlog⟩ := hrun.measured
    (fun m s => ∃ future, Phase i s m future ∧ s.log ++ future = answers body.throws body.flatten requests.length)
    (fun m s choice s' hs hstep => by
      obtain ⟨future, hphase, hlog⟩ := hs
      obtain ⟨m', future', hlt, hphase', hlog'⟩ := hstep.phase hphase
      exact ⟨m', hlt, future', hphase', hlog'.trans hlog⟩)
    ⟨_, hphase, rfl⟩
  exact ⟨by omega, hlog ▸ hphase'.served⟩

end

/-- What a request finds when `element` is the next one the stream has. -/
def found {V : Type} : Option V → Observation V Empty
  | some v => { value := some v, exception := none, empty := false }
  | none => { value := none, exception := none, empty := true }

/-- The request of a generator's consumer that asks for the same. -/
def Request.generator : Request → kelcoro.generator.Request
  | .begin | .next => .begin
  | .increment => .increment

/-- Iterating a tree of channels that do not throw, while its coroutines really
suspend and are resumed by executors: in every run the consumer finds the
elements in the order of nested loops, as the consumer of the generator of the
same tree does. Each request that suspends the consumer resumes it once, while
no coroutine of the tree runs or is awaited, and every run comes to its end. -/
theorem consumer_finds_elements {V : Type} (h : ChannelHeap V Empty) (g : kelcoro.generator.GeneratorHeap V Empty)
    (body : Body V Empty) (requests : List Request)
    (hallowed : ∀ k, requests[k]? = some .increment → 0 < k ∧ k ≤ body.elements.length) :
    (∃ s i, start h body requests = some (s, i) ∧ ∃ bound, ∀ choices s', Run (Step i) s choices s' →
      choices.length ≤ bound ∧
      Served i ((List.range requests.length).map fun k => found body.elements[k]?) s') ∧
    ∃ g' os, Returns (fun n => kelcoro.generator.consume false n g body (requests.map Request.generator)) (g', os) ∧
      os.map (·.value) = (List.range requests.length).map fun k => (found body.elements[k]?).value := by
  have hanswers : answers body.throws body.flatten requests.length =
      (List.range requests.length).map fun k => found body.elements[k]? := by
    refine List.map_congr_left fun k _ => ?_
    rw [body.throws_eq_false, body.flatten_eq_elements, ← List.map_drop, ← List.head?_drop]
    cases body.elements.drop k <;> rfl
  constructor
  · rw [← hanswers]
    refine start_spec h body requests fun k hk => ?_
    simpa [body.throws_eq_false, body.flatten_eq_elements] using hallowed k hk
  · obtain ⟨g', hret⟩ := kelcoro.generator.consume_spec false g body (requests.map Request.generator) fun k hk => by
      rw [List.getElem?_map, Option.map_eq_some_iff] at hk
      obtain ⟨r, hr, hr'⟩ := hk
      refine ⟨Option.some_ne_none _, ?_⟩
      cases r with
      | begin | next => cases hr'
      | increment => simpa [body.throws_eq_false, body.flatten_eq_elements] using (hallowed k hr).2
    refine ⟨g', _, hret, ?_⟩
    rw [List.length_map, List.map_map]
    refine List.map_congr_left fun k _ => ?_
    rw [Function.comp_apply, kelcoro.generator.expected_elements]
    cases body.elements[k]? <;> rfl

theorem consumer_finds_elements_partly_consumed :
    ∃ s i, start (Heap.initial : ChannelHeap Nat Empty) (.elements_of
        (.co_yield 1 (.co_await (.elements_of (.co_yield 2 (.co_yield 3 .co_return)) 0 (.co_yield 4 .co_return)))) 2
        (.elements_of_range [5] .co_return)) [.begin, .increment, .next, .increment] = some (s, i) ∧
      ∃ bound, ∀ choices s', Run (Step i) s choices s' → choices.length ≤ bound ∧
        Served i [found (some 3), found (some 4), found (some 5), found none] s' := by
  refine (consumer_finds_elements _ Heap.initial _ _ fun k hk => ?_).1
  rcases k with _ | _ | _ | _ | k <;> simp_all [Body.elements]

end kelcoro.channel
