import Kelcoro.Event.NotifyAll
import Mathlib

namespace kelcoro.event.copy_throws

open kelcoro.lib kelcoro.lib.waiters kelcoro.nonowner_lockfree_stack

/-- An event whose input may throw when it is copied: how many copies each call
of `notify_all` has made, and which calls an exception has left. -/
structure World (α I : Type) where
  state : State α I
  copies : Nat → Nat
  threw : Nat → Bool

variable {α I : Type} [DecidableEq α]

def construct : World α I where
  state := event.construct
  copies := fun _ => 0
  threw := fun _ => false

/-- The call is about to copy its input for a subscriber. -/
def NotifyPc.copies_input : NotifyPc α → Bool
  | .loop (some (.of _)) => true
  | _ => false

variable (throws : Nat → Nat → Bool)

/-- The next step of call `k`; `throws k i` tells whether its copy number `i`
throws. -/
def run (w : World α I) (k : Nat) : Option (World α I) :=
  if w.threw k then none
  else if NotifyPc.copies_input (w.state.notifies k).pc then
    if throws k (w.copies k) then some { w with threw := Function.update w.threw k true }
    else (event.run w.state k).map fun state =>
      { w with state, copies := Function.update w.copies k (w.copies k + 1) }
  else (event.run w.state k).map fun state => { w with state }

def Step (w : World α I) (a : Act α I) (w' : World α I) : Prop :=
  match a with
  | .run k => run throws w k = some w'
  | a => event.Step w.state a w'.state ∧ w'.copies = w.copies ∧ w'.threw = w.threw

/-- The call has returned, or an exception has left it. -/
def Over (w : World α I) (k : Nat) : Prop :=
  w.threw k = true ∨ ∃ result, (w.state.notifies k).pc = .returned result

/-- Subscription `j` was attached by call `k`, with the input of that call, and
by no other one. -/
def AttachedOnce (s : State α I) (k j : Nat) : Prop :=
  (∃ later earlier, s.log = later ++ .attaches j k :: earlier ∧
    ∀ i, .attaches j i ∉ later ∧ .attaches j i ∉ earlier) ∧
  ∃ x, (s.notifies k).input = some x ∧ ((∃ v ∈ s.attached, s.task v = j ∧ s.input v = some x) ∨ s.received j = some x)

/-- The subscription is not lost: it was attached, or it still waits. -/
def Kept (s : State α I) (k j : Nat) : Prop := AttachedOnce s k j ∨ j ∈ waiting s.log

/-- How many inputs are copied of which the nodes are still to be attached. -/
def NotifyPc.copied : NotifyPc α → Nat
  | .next _ | .attach _ _ => 1
  | _ => 0

/-- What the copies of call `k` were made for. -/
structure Copied (w : World α I) (k : Nat) : Prop where
  copied : ∀ i, i < w.copies k → throws k i = false
  unused : .takes k ∉ w.state.log → w.copies k = 0 ∧ w.threw k = false
  count : ∀ later earlier, w.state.log = later ++ .takes k :: earlier →
    w.copies k + (remaining id k w.state.log).length =
      (waiting earlier).length + NotifyPc.copied (w.state.notifies k).pc
  threw : w.threw k = true →
    throws k (w.copies k) = true ∧ NotifyPc.copies_input (w.state.notifies k).pc = true

variable {throws} {s s' : State α I} {w w' : World α I} {place : α → Place} {lists : Nat → List α} {a : Act α I}
  {j k : Nat} {later earlier : List waiters.Event}

/-- What another step does leaves the call where it is. -/
theorem step_elsewhere (hstep : event.Step s a s') (ha : a ≠ .run k) :
    (s'.log = s.log ∨ ∃ e, s'.log = e :: s.log ∧ e ≠ .takes k ∧ ∀ j, e ≠ .attaches j k) ∧
      (k < s.taken → s'.notifies k = s.notifies k) := by
  have hpush : ∀ c b, event.push s c b = some s' →
      (s'.log = s.log ∨ ∃ e, s'.log = e :: s.log ∧ e ≠ .takes k ∧ ∀ j, e ≠ .attaches j k) ∧
        (k < s.taken → s'.notifies k = s.notifies k) := by
    intro c b hstep
    unfold event.push at hstep
    split at hstep
    case h_1 v _ =>
      obtain ⟨t, -, rfl⟩ := Option.map_eq_some_iff.mp hstep
      refine ⟨?_, fun _ => rfl⟩
      dsimp only
      split
      · exact .inr ⟨_, rfl, by simp, by simp⟩
      · exact .inl rfl
    case h_2 => cases hstep
  cases a with
  | subscribe v =>
    simp only [event.Step, event.subscribe, Option.ite_none_left_eq_some] at hstep
    obtain ⟨t, -, rfl⟩ := Option.map_eq_some_iff.mp hstep.2
    exact ⟨.inl rfl, fun _ => rfl⟩
  | push c => exact hpush c _ hstep
  | push_spurious c => exact hpush c _ hstep
  | notify_all input =>
    obtain ⟨t, -, rfl⟩ := Option.map_eq_some_iff.mp hstep
    exact ⟨.inl rfl, fun hk => Function.update_of_ne hk.ne _ _⟩
  | run l =>
    have hl : k ≠ l := by
      rintro rfl
      exact ha rfl
    simp only [event.Step, event.run] at hstep
    split at hstep
    case h_2 c _ =>
      obtain ⟨t, -, rfl⟩ := Option.map_eq_some_iff.mp hstep
      split
      all_goals exact ⟨.inr ⟨.takes l, rfl, by simpa using hl.symm, by simp⟩, fun _ => goto_of_ne hl _⟩
    case h_8 v next _ =>
      cases hstep
      exact ⟨.inr ⟨_, rfl, by simp, by simp [hl.symm]⟩, fun _ => goto_of_ne hl _⟩
    all_goals cases hstep
    all_goals exact ⟨.inl rfl, fun _ => goto_of_ne hl _⟩
  | resume v =>
    simp only [event.Step, event.resume, Option.ite_none_right_eq_some, Option.some.injEq] at hstep
    obtain ⟨-, rfl⟩ := hstep
    exact ⟨.inl rfl, fun _ => rfl⟩
  | relink v next =>
    simp only [event.Step, event.relink, Option.ite_none_right_eq_some] at hstep
    obtain ⟨t, -, rfl⟩ := Option.map_eq_some_iff.mp hstep.2
    exact ⟨.inl rfl, fun _ => rfl⟩
  | overwrite v input =>
    simp only [event.Step, event.overwrite, Option.ite_none_left_eq_some, Option.some.injEq] at hstep
    obtain ⟨-, rfl⟩ := hstep
    exact ⟨.inl rfl, fun _ => rfl⟩

/-- Whom call `k` has still to attach depends on its own events. -/
theorem remaining_cons {e : waiters.Event} {log : List waiters.Event} (htakes : e ≠ .takes k)
    (hattaches : ∀ j, e ≠ .attaches j k) : remaining id k (e :: log) = remaining id k log := by
  cases e with
  | enters j => rfl
  | takes i =>
    have hne : i ≠ k := by
      rintro rfl
      exact htakes rfl
    simp [remaining, hne]
  | attaches j i =>
    have hne : i ≠ k := by
      rintro rfl
      exact hattaches j rfl
    simp [remaining, hne]

/-- The first step of a call takes the subscribers. -/
theorem run_first (hinv : Inv s place lists) (hstep : event.run s k = some s') (hnot : .takes k ∉ s.log) :
    s'.log = .takes k :: s.log ∧ NotifyPc.copies_input (s.notifies k).pc = false ∧
      NotifyPc.copied (s'.notifies k).pc = 0 := by
  have hbusy : ¬ (s.notifies k).pc.Busy := by
    intro hbusy
    obtain ⟨later, earlier, hsplit, -⟩ := (hinv.results k).1 hbusy
    exact hnot (by simp [hsplit])
  unfold event.run at hstep
  cases hpc : (s.notifies k).pc with
  | idle => simp [hpc] at hstep
  | pop c =>
    simp only [hpc] at hstep
    obtain ⟨t, -, rfl⟩ := Option.map_eq_some_iff.mp hstep
    split
    · exact ⟨rfl, rfl, by simp [NotifyPc.copied]⟩
    · exact ⟨rfl, rfl, by simp [NotifyPc.copied]⟩
  | loop | next | attach => exact absurd (by rw [hpc]; trivial) hbusy
  | returned result => simp [hpc] at hstep

/-- The other ones copy the input for the next subscriber, or attach the one for
which it was copied. -/
theorem run_next (hinv : Inv s place lists) (hstep : event.run s k = some s') (htaken : .takes k ∈ s.log) :
    (∃ recent, s'.log = recent ++ s.log ∧ .takes k ∉ recent) ∧
      (remaining id k s'.log).length + NotifyPc.copied (s.notifies k).pc +
          (NotifyPc.copies_input (s.notifies k).pc).toNat =
        (remaining id k s.log).length + NotifyPc.copied (s'.notifies k).pc := by
  have hwalks := hinv.walks k
  have hremaining := hinv.remaining k
  unfold event.run at hstep
  cases hpc : (s.notifies k).pc with
  | idle => simp [hpc] at hstep
  | pop c => exact absurd htaken (hinv.pop k c hpc).2
  | returned result => simp [hpc] at hstep
  | loop top =>
    cases top with
    | none =>
      simp only [hpc, Option.some.injEq] at hstep
      subst hstep
      exact ⟨⟨[], rfl, by simp⟩, by simp [NotifyPc.copied, NotifyPc.copies_input]⟩
    | some node =>
      cases node with
      | closed_marker => simp [hpc] at hstep
      | of v =>
        simp only [hpc, Option.some.injEq] at hstep
        subst hstep
        exact ⟨⟨[], rfl, by simp⟩, by simp [NotifyPc.copied, NotifyPc.copies_input]⟩
  | next top =>
    simp only [hpc, Option.some.injEq] at hstep
    subst hstep
    exact ⟨⟨[], rfl, by simp⟩, by simp [NotifyPc.copied, NotifyPc.copies_input]⟩
  | attach top next =>
    rw [hpc] at hwalks
    obtain ⟨v, rest, rfl, hrest, -, -⟩ := hwalks
    simp only [hpc, Option.some.injEq] at hstep
    subst hstep
    rw [hrest] at hremaining
    refine ⟨⟨[_], rfl, by simp⟩, ?_⟩
    simp [NotifyPc.copied, NotifyPc.copies_input, waiters.remaining, ← hremaining]

namespace Copied

omit [DecidableEq α] in
theorem init : Copied throws (construct : World α I) k := by
  constructor <;> simp [construct, event.construct]

/-- Another step. -/
theorem elsewhere (h : Copied throws w k) (hinv : Inv w.state place lists) (hstep : event.Step w.state a w'.state)
    (ha : a ≠ .run k) (hcopies : w'.copies k = w.copies k) (hthrew : w'.threw k = w.threw k) :
    Copied throws w' k := by
  obtain ⟨hlog, hnotifies⟩ := step_elsewhere hstep ha
  have hmem : .takes k ∈ w'.state.log ↔ .takes k ∈ w.state.log := by
    rcases hlog with hlog | ⟨e, hlog, htakes, -⟩
    · rw [hlog]
    · rw [hlog, List.mem_cons, or_iff_right (Ne.symm htakes)]
  have hpc : .takes k ∈ w.state.log → w'.state.notifies k = w.state.notifies k := fun htaken =>
    hnotifies (hinv.started k htaken)
  refine ⟨?_, ?_, ?_, ?_⟩
  · rw [hcopies]
    exact h.copied
  · rw [hmem, hcopies, hthrew]
    exact h.unused
  · intro later earlier hsplit
    have htaken : .takes k ∈ w.state.log := hmem.mp (by simp [hsplit])
    rw [hcopies, hpc htaken]
    rcases hlog with hlog | ⟨e, hlog, htakes, hattaches⟩
    · rw [hlog]
      exact h.count later earlier (hlog ▸ hsplit)
    · rw [hlog, remaining_cons htakes hattaches]
      rw [hlog] at hsplit
      cases later with
      | nil => exact absurd (List.cons.inj hsplit).1 htakes
      | cons x later => exact h.count later earlier (List.cons.inj hsplit).2
  · intro hthrown
    rw [hthrew] at hthrown
    have htaken : .takes k ∈ w.state.log := by
      by_contra hnot
      simp [(h.unused hnot).2] at hthrown
    rw [hcopies, hpc htaken]
    exact h.threw hthrown

/-- The call goes on without an exception. -/
theorem run (h : Copied throws w k) (hinv : Inv w.state place lists) (hstep : event.run w.state k = some s')
    (hthrew : w.threw k = false) {n : Nat} (hn : n = w.copies k + (NotifyPc.copies_input (w.state.notifies k).pc).toNat)
    (hcopy : NotifyPc.copies_input (w.state.notifies k).pc = true → throws k (w.copies k) = false) :
    Copied throws { w with state := s', copies := Function.update w.copies k n } k := by
  have hcopied : ∀ i, i < n → throws k i = false := by
    intro i hi
    cases hcopies : NotifyPc.copies_input (w.state.notifies k).pc with
    | false => exact h.copied i (by simpa [hn, hcopies] using hi)
    | true =>
      rcases Nat.lt_or_ge i (w.copies k) with hlt | hge
      · exact h.copied i hlt
      · have heq : i = w.copies k := by
          simp only [hn, hcopies, Bool.toNat_true] at hi
          omega
        rw [heq]
        exact hcopy hcopies
  refine ⟨by simpa using hcopied, fun hnot => ?_, fun later earlier hsplit => ?_, fun hthrown => ?_⟩
  · by_cases htaken : .takes k ∈ w.state.log
    · obtain ⟨⟨recent, hlog, -⟩, -⟩ := run_next hinv hstep htaken
      exact absurd (by simp [hlog, htaken]) hnot
    · exact absurd (by simp [(run_first hinv hstep htaken).1]) hnot
  · simp only [Function.update_self, hn]
    by_cases htaken : .takes k ∈ w.state.log
    · obtain ⟨⟨recent, hlog, hrecent⟩, hlength⟩ := run_next hinv hstep htaken
      obtain ⟨later', hlater⟩ : ∃ later', w.state.log = later' ++ .takes k :: earlier := by
        simp only [hlog] at hsplit
        rcases List.append_eq_append_iff.mp hsplit with ⟨as, hlater, hold⟩ | ⟨bs, hrecent', hold⟩
        · exact ⟨as, hold⟩
        · cases bs with
          | nil => exact ⟨[], by simpa using hold.symm⟩
          | cons x bs =>
            cases hold
            exact absurd (by simp [hrecent']) hrecent
      have hcount := h.count later' earlier hlater
      omega
    · obtain ⟨hlog, hinput, hcopied'⟩ := run_first hinv hstep htaken
      obtain rfl : later = [] := by
        cases later with
        | nil => rfl
        | cons x later =>
          simp only [hlog] at hsplit
          exact absurd (by simp [(List.cons.inj hsplit).2]) htaken
      have hearlier : w.state.log = earlier := by
        simp only [hlog] at hsplit
        exact (List.cons.inj hsplit).2
      simp [hlog, hinput, hcopied', waiters.remaining, hearlier, (h.unused htaken).1]
  · simp [hthrew] at hthrown

omit [DecidableEq α] in
/-- A copy throws. -/
theorem throw (h : Copied throws w k) (hinput : NotifyPc.copies_input (w.state.notifies k).pc = true)
    (hthrows : throws k (w.copies k) = true) (htaken : .takes k ∈ w.state.log) :
    Copied throws { w with threw := Function.update w.threw k true } k :=
  ⟨h.copied, fun hnot => absurd htaken hnot, h.count, fun _ => ⟨hthrows, hinput⟩⟩

end Copied

variable (throws) in
/-- What holds at any time. -/
structure Sound (w : World α I) : Prop where
  inv : ∃ place lists, Inv w.state place lists
  copied : ∀ k, Copied throws w k

namespace Sound

omit [DecidableEq α] in
theorem init : Sound throws (construct : World α I) := ⟨⟨_, _, construct_inv⟩, fun _ => Copied.init⟩

/-- Another action than a step of a call. -/
theorem other (h : Sound throws w) (hrun : ∀ k, a ≠ .run k) (hstep : event.Step w.state a w'.state)
    (hcopies : w'.copies = w.copies) (hthrew : w'.threw = w.threw) : Sound throws w' := by
  obtain ⟨place, lists, hinv⟩ := h.inv
  exact ⟨hinv.step hstep, fun k => (h.copied k).elsewhere hinv hstep (hrun k) (by rw [hcopies]) (by rw [hthrew])⟩

/-- A step of a call that does not throw. -/
theorem goes_on (h : Sound throws w) (hstep : event.run w.state k = some s') (hthrew : w.threw k = false) {n : Nat}
    (hn : n = w.copies k + (NotifyPc.copies_input (w.state.notifies k).pc).toNat)
    (hcopy : NotifyPc.copies_input (w.state.notifies k).pc = true → throws k (w.copies k) = false) :
    Sound throws { w with state := s', copies := Function.update w.copies k n } := by
  obtain ⟨place, lists, hinv⟩ := h.inv
  refine ⟨hinv.run hstep, fun l => ?_⟩
  by_cases hl : l = k
  · subst hl
    exact (h.copied l).run hinv hstep hthrew hn hcopy
  · refine (h.copied l).elsewhere hinv (a := .run k) hstep ?_ (Function.update_of_ne hl _ _) rfl
    rintro heq
    cases heq
    exact hl rfl

theorem run (h : Sound throws w) (hstep : run throws w k = some w') : Sound throws w' := by
  unfold copy_throws.run at hstep
  split at hstep
  case isTrue => cases hstep
  case isFalse hthrew =>
    have hthrew : w.threw k = false := by simpa using hthrew
    split at hstep
    case isTrue hinput =>
      split at hstep
      case isTrue hthrows =>
        cases hstep
        obtain ⟨place, lists, hinv⟩ := h.inv
        have htaken : .takes k ∈ w.state.log := by
          by_contra hnot
          cases hpc : (w.state.notifies k).pc with
          | loop top =>
            obtain ⟨later, earlier, hsplit, -⟩ := (hinv.results k).1 (by rw [hpc]; trivial)
            exact hnot (by simp [hsplit])
          | _ => simp [hpc, NotifyPc.copies_input] at hinput
        refine ⟨h.inv, fun l => ?_⟩
        by_cases hl : l = k
        · subst hl
          exact (h.copied l).throw hinput hthrows htaken
        · have hold := h.copied l
          exact ⟨hold.copied, by simpa [hl] using hold.unused, hold.count, by simpa [hl] using hold.threw⟩
      case isFalse hthrows =>
        obtain ⟨s', hrun, rfl⟩ := Option.map_eq_some_iff.mp hstep
        exact h.goes_on hrun hthrew (by simp [hinput]) fun _ => by simpa using hthrows
    case isFalse hinput =>
      obtain ⟨s', hrun, rfl⟩ := Option.map_eq_some_iff.mp hstep
      have hnext := h.goes_on (n := w.copies k) hrun hthrew (by simp [hinput]) fun hcopies => absurd hcopies hinput
      rwa [Function.update_eq_self] at hnext

theorem step (h : Sound throws w) (hstep : Step throws w a w') : Sound throws w' := by
  cases a with
  | run k => exact h.run hstep
  | subscribe | push | push_spurious | notify_all | resume | relink | overwrite =>
    obtain ⟨hstep, hcopies, hthrew⟩ := hstep
    exact h.other (by simp) hstep hcopies hthrew

theorem of_run {as : List (Act α I)} (hrun : Run (Step throws) construct as w) : Sound throws w :=
  hrun.invariant (Sound throws) (fun _ _ _ h hstep => h.step hstep) init

end Sound

omit [DecidableEq α] in
/-- Whoever was attached was attached once, and with the input. -/
theorem attachedOnce_of_mem (hinv : Inv s place lists) (hmem : .attaches j k ∈ s.log) : AttachedOnce s k j := by
  have hfair : Fair id s.log := fair_of_lawful (fun l => List.Perm.refl l) hinv.lawful
  have hplaced : Placed id s.log := placed_of_lawful (fun l => List.Perm.refl l) hinv.lawful
  refine ⟨?_, ?_⟩
  · obtain ⟨later, earlier, hsplit⟩ := List.append_of_mem hmem
    refine ⟨later, earlier, hsplit, fun i => ⟨fun hlater => ?_, hfair.once later j k earlier hsplit i⟩⟩
    obtain ⟨newest, between, rfl⟩ := List.append_of_mem hlater
    exact hfair.once newest j i (between ++ .attaches j k :: earlier) (by simp [hsplit]) k (by simp)
  · rcases hinv.delivered j k hmem with ⟨v, hv, rfl⟩ | ⟨x, hreceived, hx⟩
    · obtain ⟨l, hl, hinput⟩ := hinv.inputs v hv
      have heq := ((hplaced.attached _ k).mp hmem).symm.trans ((hplaced.attached _ l).mp hl)
      cases heq
      obtain ⟨x, hx⟩ := hinv.given k (hinv.attacher _ k hmem)
      exact ⟨x, hx, .inl ⟨v, hv, rfl, hinput.trans hx⟩⟩
    · exact ⟨x, hx, .inr hreceived⟩

omit [DecidableEq α] in
theorem AttachedOnce.mem (h : AttachedOnce s k j) : .attaches j k ∈ s.log := by
  obtain ⟨⟨later, earlier, hsplit, -⟩, -⟩ := h
  simp [hsplit]

/-- A call that is over has lost none of the subscribers it took if and only if
none of their copies threw: those after the one that did are neither attached nor
subscribed. -/
theorem no_subscriber_is_lost_iff {as : List (Act α I)} (hrun : Run (Step throws) construct as w)
    (hsplit : w.state.log = later ++ .takes k :: earlier) (hover : Over w k) :
    (∀ j ∈ waiting earlier, Kept w.state k j) ↔ ∀ i, i < (waiting earlier).length → throws k i = false := by
  have h : Sound throws w := .of_run hrun
  obtain ⟨place, lists, hinv⟩ := h.inv
  have hcopied := h.copied k
  have hcount := hcopied.count later earlier hsplit
  have hremaining := hinv.remaining k
  have hwalks := hinv.walks k
  have hfair : Fair id w.state.log := fair_of_lawful (fun l => List.Perm.refl l) hinv.lawful
  have hplaced : Placed id w.state.log := placed_of_lawful (fun l => List.Perm.refl l) hinv.lawful
  have hordered := hfair.ordered later k earlier hsplit
  rw [id] at hordered
  rcases hover with hthrew | ⟨result, hpc⟩
  · -- the subscriber whose copy threw is lost
    obtain ⟨hthrows, hinput⟩ := hcopied.threw hthrew
    obtain ⟨v, hpc⟩ : ∃ v, (w.state.notifies k).pc = .loop (some (.of v)) := by
      cases hpc : (w.state.notifies k).pc with
      | loop top =>
        rcases top with _ | ⟨_ | v⟩
        · simp [hpc, NotifyPc.copies_input] at hinput
        · simp [hpc, NotifyPc.copies_input] at hinput
        · exact ⟨v, rfl⟩
      | _ => simp [hpc, NotifyPc.copies_input] at hinput
    rw [hpc] at hwalks hcount
    obtain ⟨x, rest, hrest⟩ : ∃ x rest, lists k = x :: rest := by
      cases hlists : lists k with
      | nil =>
        rw [hlists] at hwalks
        have hnull : some (Node.of v) = none := hwalks
        cases hnull
      | cons x rest => exact ⟨x, rest, rfl⟩
    rw [hrest, List.map_cons] at hremaining
    rw [← hremaining] at hcount hordered
    simp only [NotifyPc.copied, List.length_cons] at hcount
    refine ⟨fun hkept => ?_, fun hnone => ?_⟩
    · have htaken := (hplaced.remaining (w.state.task x) k).mp (by simp [← hremaining])
      rcases hkept (w.state.task x) (by simp [← hordered]) with honce | hwaiting
      · cases htaken.symm.trans ((hplaced.attached _ k).mp honce.mem)
      · cases htaken.symm.trans ((hplaced.waiting _).mp hwaiting)
    · have hfalse := hnone (w.copies k) (by omega)
      rw [hthrows] at hfalse
      cases hfalse
  · -- the call has attached all it took
    rw [hpc] at hwalks hcount
    have hlists : lists k = [] := hwalks
    rw [hlists, List.map_nil] at hremaining
    rw [← hremaining] at hcount hordered
    simp only [NotifyPc.copied, List.length_nil] at hcount
    refine ⟨fun _ i hi => hcopied.copied i (by omega), fun _ j hj => .inl (attachedOnce_of_mem hinv ?_)⟩
    rw [← hordered, List.append_nil] at hj
    rw [hsplit]
    exact List.mem_append_left _ (mem_attached hj)

/-- Two coroutines subscribe; the second copy throws. -/
def throws_at_second : List (Act Nat Nat) :=
  [.subscribe 10, .push 0, .push 0, .subscribe 11, .push 1, .push 1, .notify_all 7, .run 0, .run 0, .run 0, .run 0,
    .run 0]

theorem Step.of_state (hstep : event.Step w.state a s') (ha : ∀ k, a ≠ .run k) :
    Step throws w a { w with state := s' } := by
  cases a with
  | run k => exact absurd rfl (ha k)
  | subscribe | push | push_spurious | notify_all | resume | relink | overwrite => exact ⟨hstep, rfl, rfl⟩

theorem Step.of_run (hstep : run throws w k = some w') : Step throws w (.run k) w' := hstep

theorem run_throws_at_second : ∃ w : World Nat Nat, Run (Step fun _ i => i == 1) construct throws_at_second w ∧
    w.state.log = [.attaches 1 0] ++ .takes 0 :: [.enters 1, .enters 0] ∧ w.threw 0 = true := by
  refine ⟨_, .cons (.of_state rfl (by simp)) <| .cons (.of_state rfl (by simp)) <|
    .cons (.of_state rfl (by simp)) <| .cons (.of_state rfl (by simp)) <| .cons (.of_state rfl (by simp)) <|
    .cons (.of_state rfl (by simp)) <| .cons (.of_state rfl (by simp)) <| .cons (.of_run rfl) <|
    .cons (.of_run rfl) <| .cons (.of_run rfl) <| .cons (.of_run rfl) <| .cons (.of_run rfl) <| .nil _, ?_, ?_⟩
  · rfl
  · rfl

/-- One subscriber is attached, and the other one is lost. -/
theorem subscriber_is_lost : ¬ ∀ (throws : Nat → Nat → Bool) (as : List (Act Nat Nat)) (w : World Nat Nat),
    Run (Step throws) construct as w → ∀ k later earlier, w.state.log = later ++ .takes k :: earlier →
      w.threw k = true → ∀ j ∈ waiting earlier, Kept w.state k j := by
  intro hall
  obtain ⟨w, hrun, hlog, hthrew⟩ := run_throws_at_second
  rcases hall _ _ w hrun 0 [.attaches 1 0] [.enters 1, .enters 0] hlog hthrew 0 (by decide) with honce | hwaiting
  · have hmem := honce.mem
    rw [hlog] at hmem
    simp at hmem
  · rw [hlog] at hwaiting
    simp [waiting] at hwaiting

theorem no_subscriber_is_lost_iff_throws_at_second : ∃ w : World Nat Nat, w.threw 0 = true ∧
    ((∀ j ∈ waiting [.enters 1, .enters 0], Kept w.state 0 j) ↔
      ∀ i, i < (waiting [.enters 1, .enters 0]).length → (i == 1) = false) := by
  obtain ⟨w, hrun, hlog, hthrew⟩ := run_throws_at_second
  exact ⟨w, hthrew, no_subscriber_is_lost_iff hrun hlog (.inl hthrew)⟩

end kelcoro.event.copy_throws
