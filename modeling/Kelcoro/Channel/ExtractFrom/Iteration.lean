import Kelcoro.Channel.ExtractFrom.Resume
import Kelcoro.Channel.Iteration

namespace kelcoro.channel.extract_from

open kelcoro.generators_common kelcoro.lib Remaining

/-- A consumer of a channel, and the threads that run it and its coroutines, some
of which iterate channels with another `Yield`. -/
structure State (V E : Type) extends channel.State (Operand V E) E where
  loops : FrameId → Option (Loop × Runner × Channels V E)

variable {V E : Type}

def State.channels (s : State V E) : Channels V E :=
  { heap := s.heap, loops := s.loops }

def step (n : Nat) (s : State V E) : Choice → Option (State V E)
  | .go k ready => do
    let runner ← s.active[k]?
    let others := s.active.eraseIdx k
    match runner with
    | .consumer => do
      let t ← consumer_go 0 s.toState others
      some { s with toState := t }
    | .coroutine f => do
      let (x, next) ← resume n ready s.channels f
      some { toState := coroutine_go s.toState others f x.heap next, loops := x.loops }
  | .resume k => do
    let f ← s.awaiting[k]?
    some { s with active := .coroutine f :: s.active, awaiting := s.awaiting.eraseIdx k }

def Step (s : State V E) (choice : Choice) (s' : State V E) : Prop :=
  Returns (fun n => step n s choice) s'

/-- A consumer calls a channel function and is about to iterate what it got. -/
def start (code : Code V E) (requests : List Request) : Option (State V E) := do
  let x ← call code
  some { heap := x.heap, loops := x.loops, active := [.consumer], awaiting := [], requests, waiting := false, log := [],
         issued := 0, resumed := 0, terminated := false }

/-- An observation, with the value as it is kept. -/
def seen (o : Observation V E) : Observation (Operand V E) E :=
  { value := o.value.map .value, exception := o.exception, empty := o.empty }

/-- `channel.Served` of a consumer that is going to find `found`. -/
structure Served (found : List (Observation V E)) (s : State V E) : Prop where
  log : s.log <+: found.map seen
  terminated : s.terminated = false
  alone : .consumer ∈ s.active → s.active = [.consumer] ∧ s.awaiting = [] ∧ s.resumed = s.issued
  owed : .consumer ∉ s.active → s.active.length + s.awaiting.length = 1 ∧ s.resumed + 1 = s.issued
  goes_on : ∀ choice, s.Enabled choice → ∃ s', Step s choice s'
  complete : (∀ choice, ¬ s.Enabled choice) → s.log = found.map seen

section consumers

variable {S : FrameId → Body V E → Body (Operand V E) E → Prop} {L : FrameId → Prop} {h h' : ChannelHeap V E}
  {g : ChannelHeap (Operand V E) E}

theorem observe_alike (ha : HeapAlike S L h g) (i : Nat) :
    Simulates (fun x y => HeapAlike S L x.1 y.1 ∧ y.2 = seen x.2 ∧ x.1.next_frame = h.next_frame) (observe i h)
      (observe i g) := by
  have hi : g.objects i = counterpart (h.objects i) := ha.objects i
  cases hv : (h.objects i).current_result with
  | some v =>
    simp only [observe, hi, counterpart, hv, Option.map_some, Option.isNone_some, Bool.false_eq_true, ↓reduceIte]
    refine (ha.empty (.object i)).bind fun b c hbc => .some ⟨ha, ?_, rfl⟩
    rw [hbc]
    rfl
  | none =>
    simp only [observe, hi, counterpart, hv, Option.map_none, Option.isNone_none, ↓reduceIte]
    obtain ⟨ha', hex⟩ := HeapAlike.take_exception ha i
    refine (ha'.empty (.object i)).bind fun b c hbc => .some ⟨ha', ?_, rfl⟩
    rw [hbc, hex]
    rfl

theorem await_suspend_alike (ha : HeapAlike S L h g) (i : Nat) (r : Request) :
    Simulates (fun x y => HeapAlike S L x.1 y.1 ∧ y.2 = x.2 ∧ x.1.next_frame = h.next_frame) (await_suspend i h r)
      (await_suspend i g r) := by
  cases r with
  | begin | next =>
    intro x hx
    obtain ⟨y, hy, ha', hnext⟩ := HeapAlike.await_suspend ha i .consumer x hx
    refine ⟨y, hy, ha', hnext, ?_⟩
    obtain ⟨t, -, hrest⟩ := Option.bind_eq_some_iff.mp hx
    obtain ⟨h₁, hmodify, hrest⟩ := Option.bind_eq_some_iff.mp hrest
    obtain ⟨p, -, heq⟩ := Option.bind_eq_some_iff.mp hrest
    cases heq
    exact (KeepsPulling.modify hmodify fun _ => rfl).next_frame
  | increment =>
    refine (HeapAlike.increment ha i).bind fun r r' hr => .some ⟨ha, hr, rfl⟩

end consumers

/-- Where the coroutines of both programs are; the number counts the steps that only
the one with the channels makes. -/
inductive Abreast (ns : FrameId → Nat) (t : channel.State V E) (s : State V E) : Nat → Prop
  | together (active : s.active = t.active) (awaiting : s.awaiting = t.awaiting) :
      Abreast ns t s (match t.active with | [.coroutine f] => 2 * ns f | _ => 0)
  | asleep {f : FrameId} (active : t.active = [.coroutine f]) (awaiting : t.awaiting = []) (active_here : s.active = [])
      (awaiting_here : s.awaiting = [f]) : Abreast ns t s (2 * ns f + 1)

/-- A state, and that of the program with ranges in the place of the channels. -/
structure StateAlike (k : Nat) (t : channel.State V E) (s : State V E) (n : Nat) : Prop where
  channels : ∃ rngs ns, Mirrors k rngs ns t.heap s.channels ∧ Abreast ns t s n
  requests : s.requests = t.requests
  waiting : s.waiting = t.waiting
  log : s.log = t.log.map seen
  issued : s.issued = t.issued
  resumed : s.resumed = t.resumed
  terminated : s.terminated = t.terminated

namespace StateAlike

variable {k n : Nat} {t t' : channel.State V E} {s s' : State V E}

theorem le (hs : StateAlike k t s n) : n ≤ 2 * k + 1 := by
  obtain ⟨rngs, ns, hm, ha⟩ := hs.channels
  cases ha with
  | together active awaiting =>
    split
    · have hle := hm.within ‹_›
      omega
    · exact Nat.zero_le _
  | @asleep f active awaiting active_here awaiting_here =>
    have hle := hm.within f
    omega

/-- The consumer goes on alike. -/
theorem consumer_go {rngs : FrameId → List V} {ns : FrameId → Nat} (hs : StateAlike k t s n)
    (hm : Mirrors k rngs ns t.heap s.channels) (others : List Runner) (hactive' : s.active = t.active)
    (hawaiting : s.awaiting = t.awaiting) (hgo : consumer_go 0 t others = some t') :
    ∃ s₁, channel.consumer_go 0 s.toState others = some s₁ ∧ ∃ n', StateAlike k t' { s with toState := s₁ } n' := by
  obtain ⟨-, hrequests, hwaiting, hlog, hissued, hresumed, hterminated⟩ := hs
  have hheap : ∀ {h' : ChannelHeap V E} {g' : ChannelHeap (Operand V E) E},
      HeapAlike (fun f => SameBody k (s.loops f) (rngs f)) (fun f => s.loops f ≠ none) h' g' →
      h'.next_frame = t.heap.next_frame → Mirrors k rngs ns h' { heap := g', loops := s.loops } := fun ha hnf =>
    hm.with_heap ha hnf.ge
  cases hwait : t.waiting with
  | true =>
    simp only [channel.consumer_go, hwait, ↓reduceIte] at hgo
    obtain ⟨⟨h', o⟩, hobserve, heq⟩ := Option.bind_eq_some_iff.mp hgo
    cases heq
    obtain ⟨⟨g', o'⟩, hobserve', ha, ho, hnf⟩ := observe_alike hm.alike 0 _ hobserve
    cases ho
    simp only [channel.consumer_go, hwaiting, hwait, ↓reduceIte]
    refine ⟨_, Option.bind_eq_some_iff.mpr ⟨_, hobserve', rfl⟩, _, ⟨rngs, ns, hheap ha hnf, .together hactive' hawaiting⟩,
      hrequests, rfl, ?_, hissued, hresumed, hterminated⟩
    simp only [hlog, List.map_append, List.map_cons, List.map_nil]
    rfl
  | false =>
    simp only [channel.consumer_go, hwait, Bool.false_eq_true, ↓reduceIte] at hgo
    simp only [channel.consumer_go, hwaiting, hwait, Bool.false_eq_true, ↓reduceIte, hrequests]
    cases hr : t.requests with
    | nil =>
      rw [hr] at hgo
      cases hgo
    | cons r requests =>
      rw [hr] at hgo
      obtain ⟨b, hempty, hgo⟩ := Option.bind_eq_some_iff.mp hgo
      have hempty' : empty s.heap (.object 0) = some b := hm.empty_eq hempty
      simp only [hempty', Option.bind_eq_bind, Option.bind_some]
      cases b with
      | true =>
        simp only [↓reduceIte] at hgo ⊢
        split at hgo
        · cases hgo
        · rename_i hne
          obtain ⟨⟨h', o⟩, hobserve, heq⟩ := Option.bind_eq_some_iff.mp hgo
          cases heq
          obtain ⟨⟨g', o'⟩, hobserve', ha, ho, hnf⟩ := observe_alike hm.alike 0 _ hobserve
          cases ho
          rw [if_neg hne]
          refine ⟨_, Option.bind_eq_some_iff.mpr ⟨_, hobserve', rfl⟩, _, ⟨rngs, ns, hheap ha hnf, .together hactive' hawaiting⟩,
            rfl, rfl, ?_, hissued, hresumed, hterminated⟩
          simp only [hlog, List.map_append, List.map_cons, List.map_nil]
          rfl
      | false =>
        simp only [Bool.false_eq_true, ↓reduceIte] at hgo ⊢
        obtain ⟨⟨h', runner⟩, hsuspend, heq⟩ := Option.bind_eq_some_iff.mp hgo
        cases heq
        obtain ⟨⟨g', runner'⟩, hsuspend', ha, hrunner, hnf⟩ := await_suspend_alike hm.alike 0 r _ hsuspend
        cases hrunner
        refine ⟨_, Option.bind_eq_some_iff.mpr ⟨_, hsuspend', rfl⟩, _, ⟨rngs, ns, hheap ha hnf, .together rfl hawaiting⟩,
          rfl, rfl, hlog, ?_, hresumed, hterminated⟩
        simp only [hissued]

/-- A coroutine does, and only the program with the channels makes a step. -/
theorem quiet {rngs : FrameId → List V} {ns : FrameId → Nat} {f : FrameId} {y : Channels V E} (hs : StateAlike k t s n)
    (hactive : t.active = [.coroutine f]) (hawaiting : t.awaiting = []) (hawaiting' : s.awaiting = t.awaiting)
    (hm : Mirrors k rngs ns t.heap y) {next : Next}
    (hnext : next = .transfer (.coroutine f) ∨ next = .await) {x : Nat} (hless : ns f < x) :
    ∃ n' < 2 * x, StateAlike k t { toState := coroutine_go s.toState [] f y.heap next, loops := y.loops } n' := by
  obtain ⟨-, hrequests, hwaiting, hlog, hissued, hresumed, hterminated⟩ := hs
  obtain ⟨g, loops⟩ := y
  rcases hnext with rfl | rfl
  · refine ⟨2 * ns f, by omega, ⟨rngs, ns, hm, ?_⟩, hrequests, hwaiting, hlog, hissued, hresumed, hterminated⟩
    have habreast : Abreast ns t { toState := coroutine_go s.toState [] f g (.transfer (.coroutine f)), loops } _ :=
      .together hactive.symm hawaiting'
    rwa [hactive] at habreast
  · refine ⟨2 * ns f + 1, by omega, ⟨rngs, ns, hm, .asleep hactive hawaiting rfl ?_⟩, hrequests, hwaiting, hlog, hissued,
      hresumed, hterminated⟩
    rw [coroutine_go, hawaiting', hawaiting]

/-- A coroutine does, and both programs make a step. -/
theorem both {rngs : FrameId → List V} {ns : FrameId → Nat} {f : FrameId} {y : Channels V E} {h' : ChannelHeap V E}
    (hs : StateAlike k t s n) (hawaiting : s.awaiting = t.awaiting) (hm : Mirrors k rngs ns h' y) (next : Next) :
    ∃ n', StateAlike k (coroutine_go t [] f h' next) { toState := coroutine_go s.toState [] f y.heap next, loops := y.loops } n' := by
  obtain ⟨-, hrequests, hwaiting, hlog, hissued, hresumed, hterminated⟩ := hs
  obtain ⟨g, loops⟩ := y
  cases next with
  | transfer runner =>
    refine ⟨_, ⟨rngs, ns, hm, .together rfl hawaiting⟩, hrequests, hwaiting, hlog, hissued, ?_, hterminated⟩
    simp only [coroutine_go, hresumed]
  | await =>
    refine ⟨_, ⟨rngs, ns, hm, .together rfl ?_⟩, hrequests, hwaiting, hlog, hissued, hresumed, hterminated⟩
    simp only [coroutine_go, hawaiting]
  | terminate =>
    exact ⟨_, ⟨rngs, ns, hm, .together rfl hawaiting⟩, hrequests, hwaiting, hlog, hissued, hresumed, rfl⟩

end StateAlike

/-- What a step comes to: the program with ranges waits, or makes one too. -/
inductive Advance (k m n : Nat) (future : List (Observation V E)) (t : channel.State V E) (s' : State V E) : Prop
  | quiet {n' : Nat} (less : n' < n) (alike : StateAlike k t s' n')
  | both {t' : channel.State V E} {m' n' : Nat} {future' : List (Observation V E)} (less : m' < m)
      (phase : Phase 0 t' m' future') (log : t'.log ++ future' = t.log ++ future) (alike : StateAlike k t' s' n')

section steps

variable {k m n : Nat} {future : List (Observation V E)} {t t' : channel.State V E} {s s' : State V E}

theorem consumer_step (hphase : Phase 0 t m future) (hs : StateAlike k t s n) (hactive : t.active = [.consumer])
    (hactive' : s.active = t.active) (hawaiting : s.awaiting = t.awaiting) (ready : Bool)
    (henabled : t.waiting = true ∨ t.requests ≠ []) :
    ∃ s', Step s (.go 0 ready) s' ∧ Advance k m n future t s' := by
  obtain ⟨t', m', future', ⟨bound, hstep⟩, hlt, hphase', hlog⟩ :=
    phase_step hphase (show t.Enabled (.go 0 ready) from ⟨.consumer, by rw [hactive]; rfl, fun _ => henabled⟩)
  have hgo : consumer_go 0 t [] = some t' := (step_go_consumer hactive bound ready).symm.trans (hstep bound le_rfl)
  obtain ⟨rngs, ns, hm, -⟩ := hs.channels
  obtain ⟨s₁, hgo', n', hs'⟩ := hs.consumer_go hm [] hactive' hawaiting hgo
  refine ⟨_, ⟨0, fun n _ => ?_⟩, .both hlt hphase' hlog hs'⟩
  simp [step, hactive', hactive, hgo']

theorem coroutine_step {f : FrameId} {own : Set FrameId} {c : FrameId} {b : Backlog V E} (hphase : Phase 0 t m future)
    (hs : StateAlike k t s n) (hactive : t.active = [.coroutine f]) (hawaiting : t.awaiting = [])
    (hrunning : Running t.heap 1 (.of .consumer c) own 0 c f b)
    (hactive' : s.active = t.active) (hawaiting' : s.awaiting = t.awaiting) {rngs : FrameId → List V} {ns : FrameId → Nat}
    (hm : Mirrors k rngs ns t.heap s.channels) (hn : n = 2 * ns f) (ready : Bool) :
    ∃ s', Step s (.go 0 ready) s' ∧ Advance k m n future t s' := by
  obtain ⟨y, next, hret, hmoved⟩ := hm.moves (goes_of_running hrunning) ready
  have hstep : Step s (.go 0 ready) { toState := coroutine_go s.toState [] f y.heap next, loops := y.loops } := by
    refine hret.imp fun n hn => ?_
    simp [step, hactive', hactive, hn]
  refine ⟨_, hstep, ?_⟩
  cases hmoved with
  | quiet mirrors less next_eq =>
    obtain ⟨n', hless, hs'⟩ := hs.quiet hactive hawaiting hawaiting' mirrors next_eq less
    exact .quiet (hn ▸ hless) hs'
  | both ready' resumed mirrors =>
    obtain ⟨t', m', future', hstep', hlt, hphase', hlog⟩ :=
      phase_step hphase
        (show t.Enabled (.go 0 ready') from ⟨.coroutine f, by rw [hactive]; rfl, fun h => by cases h⟩)
    have hgo : Returns (fun n => channel.step 0 n t (.go 0 ready')) (coroutine_go t [] f _ next) :=
      resumed.imp fun n hn => by rw [step_go_coroutine hactive, hn]; rfl
    obtain rfl := hstep'.unique hgo
    obtain ⟨n', hs'⟩ := hs.both hawaiting' mirrors next
    exact .both hlt hphase' hlog hs'

theorem resume_step (hphase : Phase 0 t m future) (hs : StateAlike k t s n) (hactive : s.active = t.active)
    (hawaiting : s.awaiting = t.awaiting) {j : Nat} (henabled : j < s.awaiting.length) :
    ∃ s', Step s (.resume j) s' ∧ Advance k m n future t s' := by
  obtain ⟨t', m', future', ⟨bound, hstep⟩, hlt, hphase', hlog⟩ :=
    phase_step hphase (show t.Enabled (.resume j) by rw [hawaiting] at henabled; exact henabled)
  obtain ⟨⟨rngs, ns, hm, -⟩, hrequests, hwaiting, hlog', hissued, hresumed, hterminated⟩ := hs
  have hgo : channel.step 0 bound t (.resume j) = some t' := hstep bound le_rfl
  obtain ⟨f, hf, heq⟩ := Option.bind_eq_some_iff.mp hgo
  cases heq
  refine ⟨{ s with active := .coroutine f :: s.active, awaiting := s.awaiting.eraseIdx j }, ⟨0, fun n _ => ?_⟩,
    .both hlt hphase' hlog ⟨⟨rngs, ns, hm, .together ?_ ?_⟩, hrequests, hwaiting, hlog', hissued, hresumed, hterminated⟩⟩
  · simp [step, hawaiting, hf]
  · simp only [hactive]
  · simp only [hawaiting]

/-- Every choice there is can be taken. -/
theorem step_spec {choice : Choice} (hphase : Phase 0 t m future) (hs : StateAlike k t s n)
    (henabled : s.Enabled choice) : ∃ s', Step s choice s' ∧ Advance k m n future t s' := by
  obtain ⟨rngs, ns, hm, habreast⟩ := hs.channels
  cases choice with
  | go j ready =>
    obtain ⟨runner, hj, hdone⟩ := henabled
    obtain ⟨hlt, -⟩ := List.getElem?_eq_some_iff.mp hj
    cases habreast with
    | asleep _ _ active_here _ =>
      rw [active_here] at hj
      cases hj
    | together active awaiting =>
      have hsingle : ∀ {r : Runner}, t.active = [r] → j = 0 ∧ runner = r := by
        intro r hactive
        rw [active, hactive] at hlt hj
        obtain rfl := Nat.lt_one_iff.mp hlt
        exact ⟨rfl, (Option.some.inj hj).symm⟩
      rw [hs.waiting, hs.requests] at hdone
      have hphase' := hphase
      cases hphase with
      | ready _ _ _ _ control | answered _ _ _ _ control =>
        obtain ⟨rfl, rfl⟩ := hsingle control.active
        exact consumer_step hphase' hs control.active active awaiting ready (hdone rfl)
      | running running _ control =>
        obtain ⟨rfl, rfl⟩ := hsingle control.active
        refine coroutine_step hphase' hs control.active control.awaiting running active awaiting hm ?_ ready
        rw [control.active]
      | suspended _ _ control =>
        rw [active, control.active] at hj
        cases hj
  | resume j =>
    cases habreast with
    | together active awaiting => exact resume_step hphase hs active awaiting henabled
    | @asleep f active awaiting active_here awaiting_here =>
      obtain rfl : j = 0 := by
        rw [State.Enabled, awaiting_here] at henabled
        exact Nat.lt_one_iff.mp henabled
      obtain ⟨-, hrequests, hwaiting, hlog, hissued, hresumed, hterminated⟩ := hs
      refine ⟨{ s with active := [.coroutine f], awaiting := [] }, ⟨0, fun n _ => ?_⟩, .quiet (Nat.lt_succ_self (2 * ns f))
        ⟨⟨rngs, ns, hm, ?_⟩, hrequests, hwaiting, hlog, hissued, hresumed, hterminated⟩⟩
      · simp [step, active_here, awaiting_here]
      · have habreast : Abreast ns t { s with active := [.coroutine f], awaiting := [] } _ :=
          .together active.symm awaiting.symm
        rwa [active] at habreast

theorem Step.enabled {choice : Choice} (hstep : Step s choice s') : s.Enabled choice := by
  obtain ⟨n, hstep⟩ := hstep
  have hn : step n s choice = some s' := hstep n le_rfl
  cases choice with
  | go k ready =>
    cases hk : s.active[k]? with
    | none => simp [step, hk] at hn
    | some runner =>
      refine ⟨runner, hk, fun hrunner => ?_⟩
      subst hrunner
      by_contra hdone
      simp only [not_or, not_not, Bool.not_eq_true] at hdone
      simp [step, hk, consumer_go, hdone.1, hdone.2] at hn
  | resume k =>
    by_contra hk
    simp [step, List.getElem?_eq_none (Nat.le_of_not_lt hk)] at hn

/-- The invariant of a run: there are at most `bound` steps left, and `found` is what
the consumer will have found. -/
def Inv (k : Nat) (found : List (Observation V E)) (bound : Nat) (s : State V E) : Prop :=
  ∃ t m n future, Phase 0 t m future ∧ StateAlike k t s n ∧ t.log ++ future = found ∧ (2 * k + 2) * m + n = bound

theorem Inv.step {found : List (Observation V E)} {bound : Nat} {choice : Choice} (hi : Inv k found bound s)
    (henabled : s.Enabled choice) : ∃ s', Step s choice s' ∧ ∃ bound' < bound, Inv k found bound' s' := by
  obtain ⟨t, m, n, future, hphase, hs, rfl, rfl⟩ := hi
  obtain ⟨s', hstep, hadvance⟩ := step_spec hphase hs henabled
  refine ⟨s', hstep, ?_⟩
  cases hadvance with
  | quiet less alike => exact ⟨_, by omega, t, m, _, future, hphase, alike, rfl, rfl⟩
  | @both t' m' n' future' less phase log alike =>
    refine ⟨_, ?_, t', m', n', future', phase, alike, log, rfl⟩
    have hle := alike.le
    have hm : (2 * k + 2) * (m' + 1) ≤ (2 * k + 2) * m := Nat.mul_le_mul_left _ less
    rw [Nat.mul_succ] at hm
    omega

theorem Inv.served {found : List (Observation V E)} {bound : Nat} (hi : Inv k found bound s) : Served found s := by
  obtain ⟨t, m, n, future, hphase, hs, rfl, rfl⟩ := id hi
  obtain ⟨rngs, ns, hm, habreast⟩ := hs.channels
  obtain ⟨hlog, hterminated, halone, howed, -, hcomplete⟩ := hphase.served
  refine ⟨?_, hs.terminated.trans hterminated, fun hmem => ?_, fun hmem => ?_, fun choice henabled => ?_, fun hdone => ?_⟩
  · rw [hs.log]
    exact hlog.map seen
  · rw [hs.issued, hs.resumed]
    cases habreast with
    | together active awaiting =>
      rw [active, awaiting]
      exact halone (active ▸ hmem)
    | asleep _ _ active_here _ => simp [active_here] at hmem
  · rw [hs.issued, hs.resumed]
    cases habreast with
    | together active awaiting =>
      rw [active, awaiting]
      exact howed (active ▸ hmem)
    | asleep active awaiting active_here awaiting_here =>
      rw [active_here, awaiting_here]
      exact ⟨rfl, (howed (by simp [active])).2⟩
  · obtain ⟨s', hstep, -⟩ := hi.step henabled
    exact ⟨s', hstep⟩
  · rw [hs.log]
    congr 1
    cases habreast with
    | together active awaiting =>
      refine hcomplete fun choice henabled => hdone choice ?_
      cases choice with
      | go j ready =>
        obtain ⟨runner, hj, hmore⟩ := henabled
        exact ⟨runner, by rwa [active], by rwa [hs.waiting, hs.requests]⟩
      | resume j => exact (awaiting ▸ henabled : j < s.awaiting.length)
    | asleep _ _ _ awaiting_here =>
      exact absurd (by rw [State.Enabled, awaiting_here]; exact Nat.zero_lt_one) (hdone (.resume 0))

end steps

section consuming

variable (c : Code V E)

/-- Every consumer of a channel function, in every run: it hears the events of the
tree in which ranges stand for the channels with other `Yield`s. -/
theorem start_spec (requests : List Request)
    (hallowed : ∀ k, requests[k]? = some .increment → 0 < k ∧ k + c.throws.toNat ≤ c.ranged.flatten.length) :
    ∃ s, start c requests = some s ∧ ∃ bound, ∀ choices s', Run Step s choices s' →
      choices.length ≤ bound ∧ Served (answers c.throws c.ranged.flatten requests.length) s' := by
  obtain ⟨y, h, hcall, hm, hidle, hex⟩ := call_spec c
  let t : channel.State V E :=
    { heap := h, active := [.consumer], awaiting := [], requests, waiting := false, log := [], issued := 0, resumed := 0,
      terminated := false }
  let s : State V E :=
    { heap := y.heap, loops := y.loops, active := [.consumer], awaiting := [], requests, waiting := false, log := [],
      issued := 0, resumed := 0, terminated := false }
  have hphase : Phase 0 t (4 * requests.length + 2 * work (some [c.ranged]))
      (answers c.throws c.ranged.flatten requests.length) := by
    rw [← c.throws_ranged] at hallowed ⊢
    have hready := Phase.ready (s := t) hidle hex
      (fun hbegun => by
        rw [List.head?_eq_getElem?] at hbegun
        exact absurd (hallowed 0 hbegun).1 (lt_irrefl 0))
      (fun k hk => ⟨Option.some_ne_none _, by simpa using (hallowed k hk).2⟩) ⟨rfl, rfl, rfl, rfl, rfl⟩
    simpa only [top_throws_singleton, pending_cons, pending_nil, List.append_nil] using hready
  have halike : StateAlike c.cost t s 0 := by
    refine ⟨⟨fun _ => [], fun _ => 0, ?_, .together rfl rfl⟩, rfl, rfl, rfl, rfl, rfl, rfl⟩
    obtain ⟨g, loops⟩ := y
    exact hm
  have hstart : start c requests = some s := by
    simp only [start, hcall, Option.bind_eq_bind, Option.bind_some]
    rfl
  obtain ⟨bound, hs⟩ : ∃ bound, Inv c.cost (answers c.throws c.ranged.flatten requests.length) bound s :=
    ⟨_, t, _, 0, _, hphase, halike, rfl, rfl⟩
  refine ⟨s, hstart, bound, fun choices s' hrun => ?_⟩
  obtain ⟨m', hle, hinv⟩ := hrun.measured (Inv c.cost (answers c.throws c.ranged.flatten requests.length))
    (fun m s choice s' hi hstep => by
      obtain ⟨s₁, hstep₁, m', hlt, hi'⟩ := hi.step hstep.enabled
      obtain rfl := hstep₁.unique hstep
      exact ⟨m', hlt, hi'⟩)
    hs
  exact ⟨(Nat.le_add_right _ _).trans hle, hinv.served⟩

variable {c}

/-- Nothing is lost of channels that do not throw. -/
theorem consumer_finds_all {V : Type} (c : Code V Empty) (requests : List Request)
    (hallowed : ∀ k, requests[k]? = some .increment → 0 < k ∧ k ≤ c.flatten.length) :
    ∃ s, start c requests = some s ∧ ∃ bound, ∀ choices s', Run Step s choices s' →
      choices.length ≤ bound ∧ Served (answers false c.flatten requests.length) s' := by
  have hflatten := Code.flatten_ranged c.keeps_exceptions
  have hthrows : c.throws = false := by rw [← c.throws_ranged, Body.throws_eq_false]
  have hspec := start_spec c requests fun k hk => by
    rw [hflatten, hthrows]
    exact hallowed k hk
  rwa [hflatten, hthrows] at hspec

end consuming

end kelcoro.channel.extract_from
