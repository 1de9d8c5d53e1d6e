import Kelcoro.Generator.Alike
import Kelcoro.Generator.Transfer
import Kelcoro.Generator.Empty

namespace kelcoro.generator

open kelcoro.generators_common kelcoro.lib Remaining

variable {V E : Type}

/-- What a consumer does short of `clear`, `release` and `reset`. -/
def Act.Consumes : Act V E → Prop
  | .operate (.clear _) | .operate (.release _) | .operate (.reset _ _) => False
  | _ => True

/-- Every object iterates its own coroutine. -/
def AllIterated (p : GeneratorProgram V E) : Prop :=
  ∀ i ∈ p.objects, ∀ t, p.top i = some t → Iterated false p i t

section iterated

variable {p : GeneratorProgram V E} {h' : GeneratorHeap V E} {own : FrameId → Set FrameId}
  {st st' : FrameId → Remaining V E} {i j : Nat} {t : FrameId} {out : Outcome E}

/-- Nothing that concerns the object and its coroutine has changed. -/
theorem Iterated.congr {p' : GeneratorProgram V E} (hit : Iterated false p i t)
    (hobject : p'.heap.objects i = p.heap.objects i) (hframe : p'.heap.frames t = p.heap.frames t) :
    Iterated false p' i t := by
  refine ⟨(congrArg Generator.top hobject).trans hit.1, fun hn q hq => ?_⟩
  rw [hobject]
  exact hit.2 hn q (hframe.symm.trans hq)

/-- The object took over the coroutine of object `j`, and points it at itself. -/
theorem Iterated.of_swapped {p' : GeneratorProgram V E} {q : Frame V E (Generator V)} (hit : Iterated false p j t)
    (hq : p.heap.frames t = some q) (hobject : p'.heap.objects i = p.heap.objects j)
    (hframe : p'.heap.frames t = some { q with link := relink false i q.link }) : Iterated false p' i t := by
  refine ⟨(congrArg Generator.top hobject).trans hit.1, fun hn r hr => ?_⟩
  obtain rfl := Option.some.inj (hframe.symm.trans hr)
  have hcur := hit.2 hn q hq
  by_cases hdone : q.done = true
  · rw [if_pos hdone] at hcur ⊢
    rw [hobject, hcur]
  · rw [if_neg hdone]
    rfl

theorem AllIterated.construct (hall : AllIterated p) (ho : Owned p own st) :
    AllIterated { p with heap := p.heap.new_object.1, objects := insert p.heap.next_object p.objects } := by
  intro k hk t ht
  rcases Finset.mem_insert.mp hk with rfl | hk
  · have hnone : (p.heap.new_object.1.objects p.heap.next_object).top = none :=
      congrArg Generator.top (p.heap.put_object_objects_self _ _)
    cases hnone.symm.trans ht
  · have hobject : p.heap.new_object.1.objects k = p.heap.objects k :=
      p.heap.put_object_objects_of_ne _ (ne_of_lt (ho.bounded k hk))
    exact (hall k hk t ((congrArg Generator.top hobject).symm.trans ht)).congr hobject rfl

theorem AllIterated.swapped (hall : AllIterated p) (ho : Owned p own st) (hi : i ∈ p.objects) (hj : j ∈ p.objects)
    (hs : Swapped (relink false) p.heap h' i j) : AllIterated { p with heap := h' } := by
  intro k hk t ht
  have hobject : h'.objects k = p.heap.objects (Equiv.swap i j k) := by rw [hs.objects, Function.comp_apply]
  have hl := Holders.swap_mem hi hj hk
  have htl : p.top (Equiv.swap i j k) = some t := (congrArg Generator.top hobject).symm.trans ht
  have hit := hall _ hl t htl
  obtain ⟨q, hq⟩ := ho.live hl htl
  by_cases hki : k = i
  · subst hki
    rw [Equiv.swap_apply_left] at htl hobject hit
    exact hit.of_swapped hq hobject (hs.this t q htl hq)
  · by_cases hkj : k = j
    · subst hkj
      rw [Equiv.swap_apply_right] at htl hobject hit
      exact hit.of_swapped hq hobject (hs.other t q htl hq)
    · rw [Equiv.swap_apply_of_ne_of_ne hki hkj] at htl hobject hit
      refine hit.congr hobject (hs.frames t (fun hti => hki ?_) fun htj => hkj ?_)
      · exact ho.holders.unique k hk i hi t htl hti
      · exact ho.holders.unique k hk j hj t htl htj

theorem AllIterated.performed {a : Action V E} {p' : GeneratorProgram V E} (hall : AllIterated p)
    (ho : Owned p own st) (ha : a.Allowed p) (hconsumes : (Act.operate a : Act V E).Consumes)
    (hp : Performed (operations V E false) p a p') : AllIterated p' := by
  cases hp with
  | construct => exact hall.construct ho
  | @call body h' hc =>
    obtain ⟨ho₁, hheld⟩ := ho.construct rfl
    have hall₁ := hall.construct ho
    intro k hk t ht
    by_cases hki : k = p.heap.next_object
    · subst hki
      have htop : (h'.objects p.heap.next_object).top = some p.heap.next_frame := by
        rw [hc.objects, Function.update_self]
        rfl
      obtain rfl := Option.some.inj (htop.symm.trans ht)
      refine ⟨htop, fun _ q hq => ?_⟩
      obtain rfl := Option.some.inj (hc.frame.symm.trans hq)
      rfl
    · have hobject : h'.objects k = p.heap.new_object.1.objects k := by
        rw [hc.objects, Function.update_of_ne hki]
      have htop := (congrArg Generator.top hobject).symm.trans ht
      refine (hall₁ k hk t htop).congr hobject (hc.frames t ?_)
      exact ne_of_lt (ho₁.forest.lt_next_frame (Program.mem_held hk htop))
  | @move_construct source h' hs =>
    obtain ⟨ho₁, -⟩ := ho.construct rfl
    exact (hall.construct ho).swapped ho₁ (Finset.mem_insert_self ..) (Finset.mem_insert_of_mem ha) hs
  | move_assign hs => exact hall.swapped ho ha.1 ha.2 hs
  | swap hs => exact hall.swapped ho ha.1 ha.2 hs
  | clear | release | reset => exact hconsumes.elim

theorem AllIterated.links_back (hall : AllIterated p) (hi : i ∈ p.objects) : LinksBack p i := by
  intro t htop q hq hdone
  have hlink := (hall i hi t htop).2 rfl q hq
  rwa [if_neg (by simp [hdone])] at hlink

/-- A coroutine that delivers to its own object goes on to do so. -/
theorem AllIterated.asked (hall : AllIterated p) (ho : Owned p own st) (hi : i ∈ p.objects)
    (ha : Answer false p own st i h' out st') : AllIterated (p.asked i h') := by
  rcases ha.of_links_back ho hi (hall.links_back hi) with
    ⟨hover, rfl, -, -⟩ | ⟨t, st₁, htop, -, hreq, -, -⟩
  · rw [ho.asked_of_over hi hover]
    exact hall
  · rw [Program.asked_of_top htop]
    intro k hk t' ht'
    have htop' : p.top k = some t' := (hreq.tops k (ho.bounded k hk)).symm.trans ht'
    by_cases hki : k = i
    · subst hki
      obtain rfl := Option.some.inj (htop.symm.trans htop')
      exact ⟨ht', fun _ r hr => link_of_delivers hreq.delivers hr⟩
    · have ht := p.mem_held hi htop
      have hin := p.mem_held hk htop'
      have hne : t' ≠ t := fun heq => hki (ho.holders.unique k hk i hi t (heq ▸ htop') htop)
      refine (hall k hk t' htop').congr (hreq.others k hki (ho.bounded k hk)) ?_
      exact hreq.framed.frames t' (ho.forest.lt_next_frame hin) (ho.forest.notMem_own ht hin hne)

end iterated

section alike

/-- The same program with an ordinary `Yield`, `p`, and with `nothing_t`, `q`. -/
structure ProgramAlike (p q : GeneratorProgram V E) : Prop where
  heap : Alike p.heap q.heap
  objects : q.objects = p.objects
  handles : q.handles = p.handles
  streams : q.streams = p.streams

namespace ProgramAlike

variable {p q p' q' : GeneratorProgram V E} {a : Action V E}

theorem initial : ProgramAlike (Program.initial : GeneratorProgram V E) Program.initial :=
  ⟨.initial _ _ _, rfl, rfl, rfl⟩

theorem top_eq (hpq : ProgramAlike p q) (i : Nat) : q.top i = p.top i :=
  hpq.heap.tops i

theorem allowed_iff (hpq : ProgramAlike p q) : a.Allowed q ↔ a.Allowed p := by
  cases a <;> simp only [Action.Allowed, hpq.objects, hpq.handles]

theorem with_heap {h g : GeneratorHeap V E} (hpq : ProgramAlike p q) (ha : Alike h g) :
    ProgramAlike { p with heap := h } { q with heap := g } :=
  ⟨ha, hpq.objects, hpq.handles, hpq.streams⟩

/-- An object that is new in both programs. -/
theorem with_object {h g : GeneratorHeap V E} (hpq : ProgramAlike p q) (ha : Alike h g) :
    ProgramAlike { p with heap := h, objects := insert p.heap.next_object p.objects }
      { q with heap := g, objects := insert q.heap.next_object q.objects } := by
  refine ⟨ha, ?_, hpq.handles, hpq.streams⟩
  simp only [hpq.objects, hpq.heap.next_object]

theorem perform (hpq : ProgramAlike p q) (n : Nat) (a : Action V E) :
    Simulates ProgramAlike (perform (operations V E false) n p a) (perform (operations V E true) n q a) := by
  have hnew := hpq.heap.new_object
  have hi : q.heap.new_object.2 = p.heap.new_object.2 := hpq.heap.next_object
  cases a with
  | construct => exact .some (hpq.with_object hnew)
  | call body =>
    simp only [generators_common.perform, operations, hi]
    refine (Alike.create hnew body _).bind fun h g ha => .some ⟨ha, ?_, hpq.handles, ?_⟩
    · simp only [hpq.objects]
    · simp only [hpq.streams, hpq.heap.next_frame]
  | move_construct source =>
    simp only [generators_common.perform, operations, hi]
    refine (Alike.move_construct hnew _ _).bind fun h g ha => .some ⟨ha, ?_, hpq.handles, hpq.streams⟩
    simp only [hpq.objects]
  | move_assign this other | swap this other =>
    exact (hpq.heap.swap _ _).bind fun h g ha => .some (hpq.with_heap ha)
  | clear this => exact ((Alike.clear_destroy n).1 hpq.heap _).bind fun h g ha => .some (hpq.with_heap ha)
  | release this =>
    have htop : LeafObject.top (q.heap.objects this) = LeafObject.top (p.heap.objects this) := hpq.top_eq this
    have hnone : (LeafObject.set_top (q.heap.objects this) none).top =
        (LeafObject.set_top (p.heap.objects this) none).top := rfl
    refine .some ⟨hpq.heap.put_object hnone this, hpq.objects, ?_, hpq.streams⟩
    simp only [hpq.handles, htop]
  | reset this handle =>
    refine Simulates.bind (R := Alike) ?_ fun h g ha => .some ⟨ha, hpq.objects, ?_, hpq.streams⟩
    · refine ((Alike.clear_destroy n).1 hpq.heap _).bind fun h g ha => ?_
      exact (Alike.top ha (.object this)).bind fun o o' ho => Alike.set_top ha _ rfl
    · simp only [hpq.handles]

end ProgramAlike

/-- A program beside how the last request made of each coroutine came back. -/
structure Recorded (V E : Type) where
  program : GeneratorProgram V E
  last : FrameId → Option (Outcome E)

namespace Recorded

def initial : Recorded V E :=
  { program := Program.initial, last := fun _ => none }

def record (s : Recorded V E) : Act V E → FrameId → Option (Outcome E)
  | .operate _ => s.last
  | .request this _ outcome =>
    match s.program.top this with
    | none => s.last
    | some t => Function.update s.last t (some outcome)

def Step (nothing : Bool) (s : Recorded V E) (a : Act V E) (s' : Recorded V E) : Prop :=
  generator.Step nothing s.program a s'.program ∧ s'.last = s.record a

theorem record_of_top {s : Recorded V E} {i : Nat} {r : Request} {out : Outcome E} {t : FrameId}
    (htop : s.program.top i = some t) : s.record (.request i r out) t = some out := by
  simp only [record, htop, Function.update_self]

theorem record_of_ne {s : Recorded V E} {i : Nat} {r : Request} {out : Outcome E} {t : FrameId}
    (hne : s.program.top i ≠ some t) : s.record (.request i r out) t = s.last t := by
  simp only [record]
  cases htop : s.program.top i with
  | none => rfl
  | some t' => exact Function.update_of_ne (fun heq => hne (htop.trans (congrArg some heq.symm))) ..

end Recorded

structure RecordedAlike (s s' : Recorded V E) : Prop where
  program : ProgramAlike s.program s'.program
  last : s'.last = s.last

theorem Recorded.Step.of_step {nothing : Bool} {s : Recorded V E} {a : Act V E} {p : GeneratorProgram V E}
    (hstep : generator.Step nothing s.program a p) : s.Step nothing a ⟨p, s.record a⟩ :=
  ⟨hstep, rfl⟩

theorem Recorded.Step.unique {nothing : Bool} {s s₁ s₂ : Recorded V E} {a : Act V E} (h₁ : s.Step nothing a s₁)
    (h₂ : s.Step nothing a s₂) : s₁ = s₂ := by
  obtain ⟨program₁, last₁⟩ := s₁
  obtain ⟨program₂, last₂⟩ := s₂
  obtain ⟨hstep₁, rfl⟩ := h₁
  obtain ⟨hstep₂, rfl⟩ := h₂
  cases a with
  | operate action =>
    obtain rfl : program₁ = program₂ := hstep₁.2.unique hstep₂.2
    rfl
  | request this r out =>
    obtain ⟨-, h₁, hret₁, rfl⟩ := hstep₁
    obtain ⟨-, h₂, hret₂, rfl⟩ := hstep₂
    rw [(Prod.mk.inj (hret₁.unique hret₂)).1]

namespace RecordedAlike

variable {s s₁ s' s₁' : Recorded V E} {a : Act V E}

theorem record_eq (hs : RecordedAlike s s') : s'.record a = s.record a := by
  cases a with
  | operate action => exact hs.last
  | request this r out => simp only [Recorded.record, hs.program.top_eq, hs.last]

theorem empty_eq (hs : RecordedAlike s s') (hsound : Sound false s.program) {i : Nat} (hi : i ∈ s.program.objects) :
    empty s'.program.heap (.object i) = empty s.program.heap (.object i) := by
  obtain ⟨own, st, ho, -⟩ := hsound
  have hdefined : ∃ b, empty s.program.heap (.object i) = some b := by
    cases htop : s.program.top i with
    | none => exact ⟨true, ho.empty_of_over hi fun t ht => by rw [htop] at ht; cases ht⟩
    | some t => exact ⟨_, ho.empty_of_top hi htop⟩
  obtain ⟨b, hb⟩ := hdefined
  obtain ⟨b', hb', rfl⟩ := hs.program.heap.empty (.object i) b hb
  rw [hb, hb']

/-- What one of the programs does the other one can do as well. -/
theorem step (hs : RecordedAlike s s') (hsound : Sound false s.program) (hsound' : Sound true s'.program) :
    (∀ s₁, s.Step false a s₁ → ∃ s₁', s'.Step true a s₁' ∧ RecordedAlike s₁ s₁') ∧
    ∀ s₁', s'.Step true a s₁' → ∃ s₁, s.Step false a s₁ ∧ RecordedAlike s₁ s₁' := by
  have hempty : ∀ i ∈ s.program.objects, _ := fun i hi => hs.empty_eq hsound hi
  obtain ⟨own, st, ho, hlinked⟩ := hsound
  obtain ⟨own', st', ho', hlinked'⟩ := hsound'
  have hobjects := hs.program.objects
  cases a with
  | operate action =>
    have hboth : action.Allowed s.program →
        ∃ p q, Returns (fun n => perform (operations V E false) n s.program action) p ∧
          Returns (fun n => perform (operations V E true) n s'.program action) q ∧ ProgramAlike p q := by
      intro ha
      obtain ⟨p, _, _, hp, -⟩ := perform_spec (operations V E false) ho ha
      obtain ⟨q, _, _, hq, -⟩ := perform_spec (operations V E true) ho' (hs.program.allowed_iff.mpr ha)
      exact ⟨p, q, hp, hq, Simulates.returns hp hq fun n => hs.program.perform n action⟩
    constructor
    · rintro s₁ ⟨⟨ha, hret⟩, hlast⟩
      obtain ⟨p, q, hp, hq, hpq⟩ := hboth ha
      obtain rfl := hp.unique hret
      exact ⟨⟨q, s'.last⟩, ⟨⟨hs.program.allowed_iff.mpr ha, hq⟩, rfl⟩, hpq, hs.last.trans hlast.symm⟩
    · rintro s₁ ⟨⟨ha, hret⟩, hlast⟩
      obtain ⟨p, q, hp, hq, hpq⟩ := hboth (hs.program.allowed_iff.mp ha)
      obtain rfl := hq.unique hret
      exact ⟨⟨p, s.last⟩, ⟨⟨hs.program.allowed_iff.mp ha, hp⟩, rfl⟩, hpq, hlast.trans hs.last⟩
  | request this r out =>
    have hboth : this ∈ s.program.objects → (r = .increment → empty s.program.heap (.object this) = some false) →
        ∃ h g out, Returns (fun n => request false n s.program.heap this r) (h, out) ∧
          Returns (fun n => request true n s'.program.heap this r) (g, out) ∧ Alike h g := by
      intro hi hr
      obtain ⟨h, out, _, hp, -⟩ := request_answer ho hlinked hi r hr
      obtain ⟨g, out', _, hq, -⟩ := request_answer ho' hlinked' (hobjects ▸ hi) r fun heq =>
        (hempty this hi).trans (hr heq)
      obtain ⟨ha, hout⟩ := Simulates.returns hp hq fun n => hs.program.heap.request n this r
      obtain rfl : out' = out := hout
      exact ⟨h, g, out', hp, hq, ha⟩
    have hasked : ∀ {h g : GeneratorHeap V E}, Alike h g →
        ProgramAlike (s.program.asked this h) (s'.program.asked this g) := fun ha =>
      ⟨ha, hobjects, hs.program.handles, by simp only [Program.asked, hs.program.top_eq, hs.program.streams]⟩
    constructor
    · rintro s₁ ⟨⟨hi, h₁, hret, hs₁⟩, hlast⟩
      obtain ⟨h, g, out', hp, hq, ha⟩ := hboth hi (empty_of_increment hret)
      obtain ⟨rfl, rfl⟩ := Prod.mk.inj (hp.unique hret)
      refine ⟨⟨s'.program.asked this g, s'.record (.request this r out')⟩, ⟨⟨hobjects ▸ hi, g, hq, rfl⟩, rfl⟩, ?_,
        hs.record_eq.trans hlast.symm⟩
      rw [hs₁]
      exact hasked ha
    · rintro s₁ ⟨⟨hi, g₁, hret, hs₁⟩, hlast⟩
      obtain ⟨h, g, out', hp, hq, ha⟩ := hboth (hobjects ▸ hi) fun heq =>
        (hempty this (hobjects ▸ hi)).symm.trans (empty_of_increment hret heq)
      obtain ⟨rfl, rfl⟩ := Prod.mk.inj (hq.unique hret)
      refine ⟨⟨s.program.asked this h, s.record (.request this r out')⟩, ⟨⟨hobjects ▸ hi, h, hp, rfl⟩, rfl⟩, ?_,
        hlast.trans hs.record_eq⟩
      rw [hs₁]
      exact hasked ha

end RecordedAlike

/-- Related programs whose objects can be used. -/
def SoundAlike (s s' : Recorded V E) : Prop :=
  RecordedAlike s s' ∧ Sound false s.program ∧ Sound true s'.program

theorem SoundAlike.initial : SoundAlike (Recorded.initial : Recorded V E) Recorded.initial :=
  ⟨⟨.initial, rfl⟩, .initial _, .initial _⟩

theorem SoundAlike.run {s s' : Recorded V E} (hs : SoundAlike s s') (as : List (Act V E)) :
    (∀ s₁, Run (Recorded.Step false) s as s₁ → ∃ s₁', Run (Recorded.Step true) s' as s₁' ∧ SoundAlike s₁ s₁') ∧
    ∀ s₁', Run (Recorded.Step true) s' as s₁' → ∃ s₁, Run (Recorded.Step false) s as s₁ ∧ SoundAlike s₁ s₁' := by
  constructor
  · intro s₁ hrun
    refine hrun.simulates SoundAlike (fun s a s₁ s' hs hstep => ?_) hs
    obtain ⟨s₁', hstep', hs₁⟩ := (hs.1.step hs.2.1 hs.2.2).1 s₁ hstep
    exact ⟨s₁', hstep', hs₁, hstep.1.sound hs.2.1, hstep'.1.sound hs.2.2⟩
  · intro s₁' hrun
    refine hrun.simulates (fun s' s => SoundAlike s s') (fun s' a s₁' s hs hstep => ?_) hs
    obtain ⟨s₁, hstep', hs₁⟩ := (hs.1.step hs.2.1 hs.2.2).2 s₁' hstep
    exact ⟨s₁, hstep', hs₁, hstep'.1.sound hs.2.1, hstep.1.sound hs.2.2⟩

end alike

section comparisons

/-- What is known of a program with an ordinary `Yield` that its consumers use as
they should: an object shows a value exactly when the last request brought one. -/
structure Known (s : Recorded V E) (own : FrameId → Set FrameId) (st : FrameId → Remaining V E) : Prop where
  owned : Owned s.program own st
  linked : Linked false s.program
  iterated : AllIterated s.program
  ends : ShowsEnd (current_result V) s.program st
  current : ∀ i ∈ s.program.objects, ∀ t, s.program.top i = some t → st t ≠ none →
    ((s.program.heap.objects i).current_result = none ↔ s.last t ≠ some .returned)
  asked : ∀ t, s.program.heap.next_frame ≤ t → s.last t = none

variable {s s₁ : Recorded V E} {own own' : FrameId → Set FrameId} {st st' : FrameId → Remaining V E}

theorem Known.initial : Known (Recorded.initial : Recorded V E) (fun _ => ∅) fun _ => none := by
  have hnone : ∀ i, i ∉ (Program.initial : GeneratorProgram V E).objects := fun i hi => by
    simp [Program.initial] at hi
  refine ⟨.initial _ _, fun _ t ht => ?_, fun i hi => absurd hi (hnone i), fun i hi => absurd hi (hnone i),
    fun i hi => absurd hi (hnone i), fun _ _ => rfl⟩
  simp [Recorded.initial, Program.held, held, Program.initial] at ht

theorem Known.operate {a : Action V E} (hk : Known s own st) (hconsumes : (Act.operate a : Act V E).Consumes)
    (hstep : s.Step false (.operate a) s₁) : ∃ own' st', Known s₁ own' st' := by
  obtain ⟨⟨ha, hret⟩, hlast⟩ := hstep
  obtain ⟨p', own', st', hret', hp, ho', ht⟩ := perform_spec (operations V E false) hk.owned ha
  obtain rfl := hret'.unique hret
  have hkeeps : a.KeepsEnd (current_result V) s.program := by
    cases a <;> trivial
  refine ⟨own', st', ho', hk.linked.traced ht, hk.iterated.performed hk.owned ha hconsumes hp,
    hk.ends.performed hp hk.owned ha hkeeps ht, fun i hi t htop hlive => ?_, fun t hle => ?_⟩
  · have hholds : Holds (current_result V) s.program a i (s₁.program.top i) (s₁.program.heap.objects i).current_result :=
      hp.holds hk.owned ha hi
    rw [htop] at hholds
    rw [hlast, Recorded.record]
    generalize (s₁.program.heap.objects i).current_result = c at hholds ⊢
    generalize hx : some t = x at hholds
    cases hholds with
    | kept hj =>
      have hsame := ht.same t (Program.mem_held hj hx.symm)
      exact hk.current _ hj t hx.symm fun hnone => hlive (hsame.trans hnone)
    | fresh => cases hx
    | called =>
      obtain rfl := Option.some.inj hx
      rw [hk.asked _ le_rfl]
      exact iff_of_true rfl nofun
    | cleared | released | reset => exact hconsumes.elim
  · rw [hlast, Recorded.record]
    exact hk.asked t (hp.next_frame_le.trans hle)

theorem Known.request {i : Nat} {r : Request} {out : Outcome E} (hk : Known s own st)
    (hstep : s.Step false (.request i r out) s₁) : ∃ own' st', Known s₁ own' st' := by
  obtain ⟨⟨hi, h', hret, hp⟩, hlast⟩ := hstep
  obtain ⟨st', hanswer⟩ := answer_of_returns hk.owned hk.linked hi hret
  have hback := hk.iterated.links_back hi
  obtain ⟨own', ho', hlinked'⟩ := hanswer.owned hk.owned hk.linked hi
  have hiterated := hk.iterated.asked hk.owned hi hanswer
  have hends := hanswer.shows_end hk.owned hi hback.keeps_end hk.ends
  have hnew : ∀ t, s.program.heap.next_frame ≤ t → s.record (.request i r out) t = none := by
    intro t hle
    rw [Recorded.record_of_ne fun htop => ?_]
    · exact hk.asked t hle
    · exact absurd (hk.owned.forest.lt_next_frame (Program.mem_held hi htop)) (not_lt_of_ge hle)
  obtain ⟨program, last⟩ := s₁
  obtain rfl : program = s.program.asked i h' := hp
  obtain rfl : last = s.record (.request i r out) := hlast
  rcases hanswer.of_links_back hk.owned hi hback with
    ⟨hover, rfl, rfl, rfl⟩ | ⟨t₀, st₁, htop₀, hlive₀, hreq, rfl, rfl⟩
  · refine ⟨own', st', ho', hlinked', hiterated, hends, fun k hkin t htop hlive => ?_, hnew⟩
    change _ ↔ s.record (.request i r .returned) t ≠ some .returned
    rw [Recorded.record_of_ne fun htopi => hlive (hover t htopi)]
    exact hk.current k hkin t htop hlive
  · refine ⟨own', _, ho', hlinked', hiterated, hends, fun k hkin t htop hlive => ?_, fun t hle => ?_⟩
    · have htop' : s.program.top k = some t := (hreq.tops k (hk.owned.bounded k hkin)).symm.trans htop
      by_cases hki : k = i
      · subst hki
        obtain rfl := Option.some.inj (htop₀.symm.trans htop')
        rw [Function.update_self] at hlive
        change (h'.objects k).current_result = none ↔ s.record (.request k r _) t₀ ≠ some .returned
        rw [Recorded.record_of_top htop₀, hreq.current rfl]
        have hended := hreq.took.ended.not.mp hlive
        rcases hpending : pending (st t₀) with _ | ⟨v | ex, rest⟩
        · exact absurd (.inl hpending) hended
        · simp [generator.current, outcome]
        · simp [generator.current, outcome]
      · have hne : t ≠ t₀ := fun heq => hki (hk.owned.holders.unique k hkin i hi t htop' (heq ▸ htop₀))
        change (h'.objects k).current_result = none ↔ s.record (.request i r _) t ≠ some .returned
        rw [Recorded.record_of_ne fun htopi => hki (hk.owned.holders.unique k hkin i hi t htop' htopi),
          hreq.others k hki (hk.owned.bounded k hkin)]
        rw [Function.update_of_ne hne] at hlive
        exact hk.current k hkin t htop' hlive
    · exact hnew t (hreq.framed.next_frame.trans hle)

theorem Known.run {as : List (Act V E)} (hrun : Run (Recorded.Step false) s as s₁)
    (hconsumes : ∀ a ∈ as, a.Consumes) (hk : Known s own st) : ∃ own' st', Known s₁ own' st' := by
  induction hrun generalizing own st with
  | nil => exact ⟨own, st, hk⟩
  | @cons s s₂ s₁ a as hstep _ ih =>
    have hstepped : ∃ own₂ st₂, Known s₂ own₂ st₂ := by
      cases a with
      | operate action => exact hk.operate (hconsumes _ (List.mem_cons_self ..)) hstep
      | request i r out => exact hk.request hstep
    obtain ⟨own₂, st₂, hk₂⟩ := hstepped
    exact ih (fun a ha => hconsumes a (List.mem_cons_of_mem _ ha)) hk₂

/-- The object has a coroutine, which was asked before and answered without an
exception the last time, or is over. -/
def Comparable (s : Recorded V E) (i : Nat) : Prop :=
  ∃ t, s.program.top i = some t ∧ (s.last t = some .returned ∨ (s.program.streams t).ended = true)

/-- An iterator of object `i` shows a value. -/
def ShowsValue (nothing : Bool) (h : GeneratorHeap V E) (i : Nat) : Prop :=
  equals_end nothing h i = some false

theorem SoundAlike.equals_end_eq {s' : Recorded V E} (ha : SoundAlike s s') (ho : Owned s.program own st) {i : Nat}
    (hi : i ∈ s.program.objects) :
    equals_end true s'.program.heap i = (s.program.top i).map fun t => (st t).isNone := by
  have htops : (s'.program.heap.objects i).top = s.program.top i := ha.1.program.heap.tops i
  simp only [equals_end, ↓reduceIte, htops, Option.bind_eq_bind]
  cases htop : s.program.top i with
  | none => rfl
  | some t =>
    obtain ⟨q, hq, hdone⟩ := ho.frame hi htop
    obtain ⟨q', hq', hqq'⟩ := ha.1.program.heap.frame t q hq
    simp only [Option.bind_some, hq', Option.map_some, hqq'.done, hdone]

theorem Known.equals_end_iff {s' : Recorded V E} (hk : Known s own st) (ha : SoundAlike s s') {i : Nat}
    (hi : i ∈ s.program.objects) :
    equals_end true s'.program.heap i = equals_end false s.program.heap i ↔ Comparable s i := by
  rw [ha.equals_end_eq hk.owned hi]
  simp only [equals_end, Bool.false_eq_true, ↓reduceIte, Comparable]
  cases htop : s.program.top i with
  | none => simp
  | some t =>
    have hstream := hk.owned.streams t (Program.mem_held hi htop)
    simp only [Option.map_some, Option.some.injEq, hstream, stream, exists_eq_left']
    by_cases hst : st t = none
    · have hcur : (s.program.heap.objects i).current_result = none := hk.ends i hi fun t' htop' => by
        obtain rfl := Option.some.inj (htop.symm.trans htop')
        exact hst
      simp [hst, hcur]
    · have hcur := hk.current i hi t htop hst
      rw [Option.isNone_eq_false_iff.mpr (Option.isSome_iff_ne_none.mpr hst)]
      by_cases hlast : s.last t = some .returned
      · have hsome := hcur.not.mpr (not_not.mpr hlast)
        simp [hlast, Option.isSome_iff_ne_none.mpr hsome]
      · simp [hlast, hcur.mpr hlast]

/-- A request that came back without an exception shows a value in both. -/
theorem Known.shows_value_iff {s' : Recorded V E} (hk : Known s own st) (ha : SoundAlike s s') {i : Nat}
    (hi : i ∈ s.program.objects) (hlast : ∀ t, s.program.top i = some t → s.last t = some .returned) :
    ShowsValue true s'.program.heap i ↔ ShowsValue false s.program.heap i := by
  unfold ShowsValue
  cases htop : s.program.top i with
  | some t => rw [(hk.equals_end_iff ha hi).mpr ⟨t, htop, .inl (hlast t htop)⟩]
  | none =>
    have hcur : (s.program.heap.objects i).current_result = none := hk.ends i hi fun t ht => by
      rw [htop] at ht
      cases ht
    rw [ha.equals_end_eq hk.owned hi, htop]
    simp [equals_end, hcur]

/-- What the last step of a run records of the object it asked. -/
theorem last_of_request {as : List (Act V E)} {i : Nat} {r : Request} {out : Outcome E}
    (hrun : Run (Recorded.Step false) s (as ++ [.request i r out]) s₁) (hk : Known s own st)
    (hconsumes : ∀ a ∈ as ++ [.request i r out], a.Consumes) :
    i ∈ s₁.program.objects ∧ ∀ t, s₁.program.top i = some t → s₁.last t = some out := by
  obtain ⟨s₂, hrun₂, hrest⟩ := hrun.of_append
  obtain ⟨own₂, st₂, hk₂⟩ := hk.run hrun₂ fun a ha => hconsumes a (List.mem_append_left _ ha)
  cases hrest with
  | cons hstep hnil =>
    cases hnil
    obtain ⟨⟨hi, h', hret, hp⟩, hlast⟩ := hstep
    obtain ⟨st', hanswer⟩ := answer_of_returns hk₂.owned hk₂.linked hi hret
    rw [hp, hlast]
    refine ⟨hi, fun t htop => ?_⟩
    have htop' : s₂.program.top i = some t := by
      cases hanswer with
      | ended => exact htop
      | delivered _ _ _ _ _ hreq => exact (hreq.tops i (hk₂.owned.bounded i hi)).symm.trans htop
    exact Recorded.record_of_top htop'

end comparisons

/-- The same consumer of generators with an ordinary `Yield` and of generators of
`nothing_t`: it can do the same, meets the same exceptions and gets as many
values. At each point an iterator compares with `end()` alike exactly when its
object has a coroutine whose last request did not leave by the exception of a
leaf, or that is over. -/
theorem nothing_agrees_iff {V E : Type} {as : List (Act V E)} (hconsumes : ∀ a ∈ as, a.Consumes) :
    ((∃ s, Run (Recorded.Step false) Recorded.initial as s) ↔ ∃ s, Run (Recorded.Step true) Recorded.initial as s) ∧
    ∀ s s', Run (Recorded.Step false) Recorded.initial as s → Run (Recorded.Step true) Recorded.initial as s' →
      (∀ i ∈ s.program.objects,
        (equals_end true s'.program.heap i = equals_end false s.program.heap i ↔ Comparable s i)) ∧
      ∀ i r, as.getLast? = some (.request i r .returned) →
        (ShowsValue true s'.program.heap i ↔ ShowsValue false s.program.heap i) := by
  obtain ⟨hforward, hback⟩ := (SoundAlike.initial (V := V) (E := E)).run as
  refine ⟨⟨fun ⟨s, hrun⟩ => ?_, fun ⟨s', hrun⟩ => ?_⟩, fun s s' hrun hrun' => ?_⟩
  · obtain ⟨s', hrun', -⟩ := hforward s hrun
    exact ⟨s', hrun'⟩
  · obtain ⟨s, hrun', -⟩ := hback s' hrun
    exact ⟨s, hrun'⟩
  · obtain ⟨s'', hrun'', ha⟩ := hforward s hrun
    obtain rfl := hrun''.unique (fun _ _ _ _ h₁ h₂ => h₁.unique h₂) hrun'
    obtain ⟨own, st, hk⟩ := Known.initial.run hrun hconsumes
    refine ⟨fun i hi => hk.equals_end_iff ha hi, fun i r hlast => ?_⟩
    obtain ⟨as', rfl⟩ := List.getLast?_eq_some_iff.mp hlast
    obtain ⟨hi, hlast⟩ := last_of_request hrun Known.initial hconsumes
    exact hk.shows_value_iff ha hi hlast

/-- A consumer that swaps two generators in the middle of their iteration. -/
theorem nothing_agrees_after_swap :
    ∃ s s' : Recorded Nat Nat,
      Run (Recorded.Step false) Recorded.initial [.operate (.call (.co_yield 1 .co_return)), .operate .construct,
        .request 0 .begin .returned, .operate (.swap 0 1)] s ∧
      Run (Recorded.Step true) Recorded.initial [.operate (.call (.co_yield 1 .co_return)), .operate .construct,
        .request 0 .begin .returned, .operate (.swap 0 1)] s' ∧
      (equals_end true s'.program.heap 1 = equals_end false s.program.heap 1 ↔ Comparable s 1) := by
  have hbegin : ∀ {nothing : Bool} {h : GeneratorHeap Nat Nat} {x : GeneratorHeap Nat Nat × Outcome Nat},
      (∀ n, begin nothing (n + 1) h 0 = some x) → Returns (fun n => begin nothing n h 0) x :=
    fun hx => .of_succ ⟨0, fun n _ => hx n⟩
  have hrun : Run (Recorded.Step false) (Recorded.initial : Recorded Nat Nat)
      [.operate (.call (.co_yield 1 .co_return)), .operate .construct, .request 0 .begin .returned,
        .operate (.swap 0 1)] _ :=
    .cons (.of_step ⟨trivial, .const rfl⟩) (.cons (.of_step ⟨trivial, .const rfl⟩)
      (.cons (.of_step ⟨by decide, _, hbegin fun _ => rfl, rfl⟩)
        (.cons (.of_step ⟨by decide, .const rfl⟩) (.nil _))))
  have hconsumes : ∀ a ∈ ([.operate (.call (.co_yield 1 .co_return)), .operate .construct,
      .request 0 .begin .returned, .operate (.swap 0 1)] : List (Act Nat Nat)), a.Consumes := by
    simp [Act.Consumes]
  obtain ⟨hiff, hall⟩ := nothing_agrees_iff hconsumes
  obtain ⟨s', hrun'⟩ := hiff.mp ⟨_, hrun⟩
  exact ⟨_, s', hrun, hrun', (hall _ s' hrun hrun').1 1 (by decide)⟩

/-- A default constructed generator, and one whose leaf threw. -/
theorem nothing_disagrees :
    ∃ s s' : Recorded Nat Nat,
      Run (Recorded.Step false) Recorded.initial [.operate .construct,
        .operate (.call (.elements_of (.throw 7) 0 (.co_yield 1 .co_return))), .request 1 .begin (.threw 7)] s ∧
      Run (Recorded.Step true) Recorded.initial [.operate .construct,
        .operate (.call (.elements_of (.throw 7) 0 (.co_yield 1 .co_return))), .request 1 .begin (.threw 7)] s' ∧
      equals_end false s.program.heap 0 = some true ∧ equals_end true s'.program.heap 0 = none ∧
      equals_end false s.program.heap 1 = some true ∧ equals_end true s'.program.heap 1 = some false := by
  have hbegin : ∀ {nothing : Bool} {h : GeneratorHeap Nat Nat} {x : GeneratorHeap Nat Nat × Outcome Nat},
      (∀ n, begin nothing (n + 2) h 1 = some x) → Returns (fun n => begin nothing n h 1) x :=
    fun hx => .of_succ (.of_succ ⟨0, fun n _ => hx n⟩)
  refine ⟨_, _, .cons (.of_step ⟨trivial, .const rfl⟩) (.cons (.of_step ⟨trivial, .const rfl⟩)
      (.cons (.of_step ⟨by decide, _, hbegin fun _ => rfl, rfl⟩) (.nil _))),
    .cons (.of_step ⟨trivial, .const rfl⟩) (.cons (.of_step ⟨trivial, .const rfl⟩)
      (.cons (.of_step ⟨by decide, _, hbegin fun _ => rfl, rfl⟩) (.nil _))), rfl, rfl, rfl, rfl⟩

end kelcoro.generator
