import Kelcoro.Generator.Programs
import Kelcoro.GeneratorsCommon.Current

namespace kelcoro.generator

open kelcoro.generators_common kelcoro.lib Remaining

variable {V E : Type}

/-- `current_result`, for an ordinary `Yield`. -/
def current_result (V : Type) : CurrentResult V (Generator V) :=
  ⟨fun g => g.current_result, rfl, fun _ _ => rfl⟩

theorem current_eq_shown (r : Remaining V E) : current r.pending = (stream r).shown := by
  simp only [Stream.shown, stream]
  rcases r.pending with _ | ⟨_ | _, _⟩ <;> rfl

/-- What keeps the end of an object shown while object `i` is asked. -/
def AskKeepsEnd (p : GeneratorProgram V E) (i : Nat) : Prop :=
  ∀ t, p.top i = some t → ∀ q, p.heap.frames t = some q → q.done = false →
    ∀ d, q.link = .consumer (.object d) → KeepsEndAsked (current_result V) p i d

section requests

variable {p : GeneratorProgram V E} {own : FrameId → Set FrameId} {st st' : FrameId → Remaining V E} {i : Nat}
  {h' : GeneratorHeap V E} {out : Outcome E}

theorem LinksBack.keeps_end (hback : LinksBack p i) : AskKeepsEnd p i := by
  intro t htop q hq hdone d hlink
  have hown := hback t htop q hq hdone
  rw [hlink] at hown
  cases hown
  exact .inl rfl

theorem Answer.shows_end (ha : Answer false p own st i h' out st') (ho : Owned p own st) (hi : i ∈ p.objects)
    (hkeeps : AskKeepsEnd p i) (hs : ShowsEnd (current_result V) p st) :
    ShowsEnd (current_result V) (p.asked i h') st' := by
  cases ha with
  | ended hover =>
    rw [ho.asked_of_over hi hover]
    exact hs
  | @delivered t d q h' r htop hlive hd hq hlink hreq =>
    obtain ⟨q', hq', hdone⟩ := ho.frame hi htop
    rw [Option.isNone_eq_false_iff.mpr (Option.isSome_iff_ne_none.mpr hlive)] at hdone
    obtain rfl := Option.some.inj (hq'.symm.trans hq)
    refine hs.asked ho hi htop hreq.took (fun k hk => hreq.tops k (ho.bounded k hk)) ?_
      (fun k hk hkd => congrArg Generator.current_result (hreq.others k hkd (ho.bounded k hk)))
      (hkeeps t htop q' hq' hdone d (hlink rfl))
    rw [ho.streams t (p.mem_held hi htop), ← current_eq_shown]
    exact hreq.current rfl

end requests

/-- A range-based `for` from an iterator on: the values it finds, and how it ends. -/
def loop_from : Nat → GeneratorHeap V E → Nat → Option (GeneratorHeap V E × List V × Outcome E)
  | 0, _, _ => none
  | n + 1, h, i => do
    if ← equals_end false h i then some (h, [], .returned) else do
    let v ← dereference false h i
    let (h, out) ← increment false n h i
    match out with
    | .threw ex => some (h, [v], .threw ex)
    | .returned => do
      let (h, vs, out) ← loop_from n h i
      some (h, v :: vs, out)

/-- A range-based `for` over object `i`. -/
def loop (n : Nat) (h : GeneratorHeap V E) (i : Nat) : Option (GeneratorHeap V E × List V × Outcome E) := do
  let (h, out) ← begin false n h i
  match out with
  | .threw ex => some (h, [], .threw ex)
  | .returned => loop_from n h i

/-- `begin()` gives `end()` at once, and a loop finds nothing. -/
structure AtEnd (h : GeneratorHeap V E) (i : Nat) : Prop where
  begin : Returns (fun n => begin false n h i) (h, .returned)
  equals_end : equals_end false h i = some true
  loop : Returns (fun n => loop n h i) (h, [], .returned)

theorem AtEnd.of_empty {h : GeneratorHeap V E} {i : Nat} (hempty : empty h (.object i) = some true)
    (hcurrent : (h.objects i).current_result = none) : AtEnd h i := by
  have hbegin : ∀ n, generator.begin false n h i = some (h, .returned) := fun n => by
    simp only [generator.begin, begin_with, hempty, Option.bind_eq_bind, Option.bind_some, ↓reduceIte]
  have hend : generator.equals_end false h i = some true := by
    simp only [generator.equals_end, Bool.false_eq_true, ↓reduceIte, hcurrent, Option.isNone_none]
  refine ⟨⟨0, fun n _ => hbegin n⟩, hend, .of_last fun n => ?_⟩
  simp only [generator.loop, hbegin, loop_from, hend, Option.bind_eq_bind, Option.bind_some, ↓reduceIte]

def Act.KeepsEnd (p : GeneratorProgram V E) : Act V E → Prop
  | .operate action => action.KeepsEnd (current_result V) p
  | .request this _ _ => AskKeepsEnd p this

theorem shows_end_of_run {p : GeneratorProgram V E} {as : List (Act V E)}
    (hrun : Run (fun p a p' => Step false p a p' ∧ a.KeepsEnd p) Program.initial as p) :
    ∃ own st, Owned p own st ∧ Linked false p ∧ ShowsEnd (current_result V) p st := by
  refine hrun.invariant (fun p => ∃ own st, Owned p own st ∧ Linked false p ∧ ShowsEnd (current_result V) p st)
    (fun p a p' ⟨own, st, ho, hl, hs⟩ ⟨hstep, hkeeps⟩ => ?_) ?_
  · cases a with
    | operate action =>
      obtain ⟨hallowed, hret⟩ := hstep
      obtain ⟨p₁, own', st', hret₁, hp, ho', ht⟩ := perform_spec (operations V E false) ho hallowed
      obtain rfl := hret₁.unique hret
      exact ⟨own', st', ho', hl.traced ht, hs.performed hp ho hallowed hkeeps ht⟩
    | request this r out =>
      obtain ⟨hthis, h', hret, rfl⟩ := hstep
      obtain ⟨st', hanswer⟩ := answer_of_returns ho hl hthis hret
      obtain ⟨own', ho', hl'⟩ := hanswer.owned ho hl hthis
      exact ⟨own', st', ho', hl', hanswer.shows_end ho hthis hkeeps hs⟩
  · obtain ⟨own, st, ho, hl⟩ := Sound.initial (V := V) (E := E) false
    exact ⟨own, st, ho, hl, fun i hi => absurd hi (Finset.notMem_empty i)⟩

end kelcoro.generator
