import Kelcoro.Gate.Close
import Mathlib

namespace kelcoro.gate.holder

open kelcoro.lib

variable {κ η α : Type} [DecidableEq κ] [DecidableEq η] [DecidableEq α]

omit [DecidableEq α] in
def try_enter (s : State α) : Bool × State α :=
  if s.is_closed then (false, s) else (true, { s with count := s.count + 1 })

/-- `enter()`, or `none` when it throws `gate_closed_exception`. -/
def enter (s : State α) : Option (State α) :=
  match try_enter s with
  | (false, _) => none
  | (true, s) => some s

/-- Gates, and holders with their `g`; `entries` are the successful raw entries
that were not left. -/
structure World (κ η α : Type) where
  gates : κ → State α
  holders : η → Option (Option κ)
  entries : κ → Nat

def construct : World κ η α where
  gates := fun _ => gate.construct
  holders := fun _ => none
  entries := fun _ => 0

/-- What the coroutines do, one operation at a time: those that a `leave` resumes
as well. `of_gate` is something else that is done with a gate. -/
inductive Action (κ η α : Type) where
  | try_enter (k : κ)
  | enter (k : κ)
  | leave (k : κ)
  | hold (h : η) (k : κ)
  | construct (h : η)
  | move_construct (h other : η)
  | move_assign (h other : η)
  | release (h : η)
  | destroy (h : η)
  | of_gate (k : κ) (a : gate.Action α)

inductive Outcome where
  | returned
  | refused
  | threw
  deriving DecidableEq, Repr

namespace World

variable (w : World κ η α)

def set_gate (k : κ) (s : State α) : World κ η α := { w with gates := Function.update w.gates k s }

def set_holder (h : η) (g : Option (Option κ)) : World κ η α := { w with holders := Function.update w.holders h g }

def leave (k : κ) : Option (World κ η α) := (gate.step (w.gates k) .leave).map (w.set_gate k)

/-- `if (g) g->leave()`. -/
def leave_gate : Option κ → Option (World κ η α)
  | none => some w
  | some k => w.leave k

/-- A raw entry, which succeeded. -/
def entered (k : κ) (s : State α) : World κ η α :=
  { w.set_gate k s with entries := Function.update w.entries k (w.entries k + 1) }

end World

def step (w : World κ η α) : Action κ η α → Option (Outcome × World κ η α)
  | .try_enter k =>
    match try_enter (w.gates k) with
    | (false, s) => some (.refused, w.set_gate k s)
    | (true, s) => some (.returned, w.entered k s)
  | .enter k =>
    match enter (w.gates k) with
    | none => some (.threw, w)
    | some s => some (.returned, w.entered k s)
  | .leave k => do
    let w ← { w with entries := Function.update w.entries k (w.entries k - 1) }.leave k
    some (.returned, w)
  | .hold h k =>
    match enter (w.gates k) with
    | none => some (.threw, w)
    | some s => some (.returned, (w.set_gate k s).set_holder h (some (some k)))
  | .construct h => some (.returned, w.set_holder h (some none))
  | .move_construct h other => do
    let g ← w.holders other
    some (.returned, (w.set_holder other (some none)).set_holder h (some g))
  | .move_assign h other => do
    let g ← w.holders h
    let g' ← w.holders other
    some (.returned, (w.set_holder h (some g')).set_holder other (some g))
  | .release h => do
    let g ← w.holders h
    -- `g` is null before the waiters are resumed
    let w ← (w.set_holder h (some none)).leave_gate g
    some (.returned, w)
  | .destroy h => do
    let g ← w.holders h
    let w ← (w.set_holder h none).leave_gate g
    some (.returned, w)
  | .of_gate k a => do
    let s ← gate.step (w.gates k) a
    some (.returned, w.set_gate k s)

/-- Whoever leaves has entered, and a holder is constructed once. -/
def Allowed (w : World κ η α) : Action κ η α → Prop
  | .leave k => w.entries k ≠ 0
  | .hold h _ | .construct h | .move_construct h _ => w.holders h = none
  | .of_gate _ a => a ≠ .try_enter ∧ a ≠ .leave
  | _ => True

def Step (w : World κ η α) (a : Action κ η α) (w' : World κ η α) : Prop :=
  Allowed w a ∧ ∃ o, step w a = some (o, w')

/-- The gate that the operation leaves. -/
def leaves (w : World κ η α) : Action κ η α → Option κ
  | .leave k => some k
  | .release h | .destroy h => (w.holders h).join
  | _ => none

/-- The holders that hold the gate. -/
def holding (w : World κ η α) (k : κ) : Set η := {h | w.holders h = some (some k)}

/-- The counts are those of the holders and of the raw entries, and one more at
the gate that is `owed` an operation: a holder has gone and its `leave` is still
to come, or a holder is still to be given what has entered. -/
structure Counted (w : World κ η α) (owed : Option κ) : Prop where
  finite : ∀ k, (holding w k).Finite
  count : ∀ k, (w.gates k).count = (holding w k).ncard + w.entries k + if owed = some k then 1 else 0
  waiters : ∀ k, ∃ held parts, gate.Inv (w.gates k) held parts

abbrev Inv (w : World κ η α) : Prop := Counted w none

variable {s s' : State α} {w w' : World κ η α} {k : κ} {h other : η} {owed : Option κ} {held : List α}
  {parts : List (attach_list.Loop α × List α)}

omit [DecidableEq η] [DecidableEq α] in
@[simp] theorem set_gate_self : (w.set_gate k s).gates k = s := by simp [World.set_gate]

omit [DecidableEq η] [DecidableEq α] in
theorem set_gate_of_ne {j : κ} (hj : j ≠ k) : (w.set_gate k s).gates j = w.gates j := by
  simp [World.set_gate, hj]

omit [DecidableEq η] [DecidableEq α] in
@[simp] theorem holding_set_gate {j : κ} : holding (w.set_gate k s) j = holding w j := rfl

omit [DecidableEq η] [DecidableEq α] in
@[simp] theorem entries_set_gate : (w.set_gate k s).entries = w.entries := rfl

omit [DecidableEq α] in
theorem enter_eq_some (h : enter s = some s') : s' = { s with count := s.count + 1 } := by
  cases hclosed : s.is_closed <;> simp_all [enter, try_enter]

theorem iterate_count (hstep : s.iterate = some s') : s'.count = s.count := by
  unfold State.iterate at hstep
  split at hstep
  case h_1 => cases hstep
  case h_2 waiters _ =>
    split at hstep
    case h_1 =>
      cases hstep
      rfl
    case h_2 v _ _ =>
      obtain ⟨waiters', -, rfl⟩ := Option.map_eq_some_iff.mp hstep
      rfl

theorem leave_count (hstep : gate.step s .leave = some s') : s.count = s'.count + 1 := by
  simp only [gate.step, Option.ite_none_left_eq_some] at hstep
  obtain ⟨hcount, hstep⟩ := hstep
  split at hstep
  · have hcounts : s'.count = s.count - 1 := iterate_count hstep
    omega
  · cases hstep
    show s.count = s.count - 1 + 1
    omega

/-- Only entering and leaving count. -/
theorem step_count {a : gate.Action α} (henter : a ≠ .try_enter) (hleave : a ≠ .leave)
    (hstep : gate.step s a = some s') : s'.count = s.count := by
  cases a with
  | try_enter => exact absurd rfl henter
  | leave => exact absurd rfl hleave
  | close v =>
    simp only [gate.step, Option.ite_none_left_eq_some, Option.some.injEq] at hstep
    rw [← hstep.2]
  | co_await v =>
    simp only [gate.step, Option.ite_none_left_eq_some] at hstep
    obtain ⟨-, hstep⟩ := hstep
    split at hstep
    all_goals
      cases hstep
      rfl
  | reopen =>
    simp only [gate.step, Option.ite_none_right_eq_some, Option.some.injEq] at hstep
    rw [← hstep.2]
  | iterate => exact iterate_count hstep
  | relink v next =>
    obtain ⟨waiters, -, rfl⟩ := Option.map_eq_some_iff.mp hstep
    rfl

theorem waiters_iterate (h : gate.Inv s held parts) (hstep : s.iterate = some s') :
    ∃ parts', gate.Inv s' held parts' := by
  obtain ⟨waiters, ⟨loop, parts', -, hinv, rfl⟩ | ⟨loop, loop', v, rest, parts', -, hinv, rfl⟩⟩ := h.iterate hstep
  · exact ⟨parts', hinv⟩
  · exact ⟨_, hinv.waiters, hinv.attached⟩

theorem waiters_step (h : gate.Inv s held parts) {a : gate.Action α} (hstep : gate.step s a = some s') :
    ∃ held' parts', gate.Inv s' held' parts' := by
  cases a with
  | try_enter =>
    simp only [gate.step] at hstep
    split at hstep
    all_goals
      cases hstep
      exact ⟨held, parts, h.waiters, h.attached⟩
  | leave =>
    simp only [gate.step, Option.ite_none_left_eq_some] at hstep
    obtain ⟨-, hstep⟩ := hstep
    have hinv : gate.Inv { s with count := s.count - 1 } held parts := ⟨h.waiters, h.attached⟩
    split at hstep
    · obtain ⟨parts', h'⟩ := waiters_iterate hinv.take hstep
      exact ⟨[], parts', h'⟩
    · cases hstep
      exact ⟨held, parts, hinv⟩
  | close v =>
    simp only [gate.step, Option.ite_none_left_eq_some, Option.some.injEq] at hstep
    obtain ⟨-, rfl⟩ := hstep
    exact ⟨held, parts, h.waiters, h.attached⟩
  | co_await v =>
    simp only [gate.step, Option.ite_none_left_eq_some] at hstep
    obtain ⟨hfree, hstep⟩ := hstep
    split at hstep
    · cases hstep
      exact ⟨held, parts, h.waiters, h.attached⟩
    · cases hstep
      have hbusy : s.close_waiters.busy v = false := by simp_all
      exact ⟨held ++ [v], parts, h.suspend hbusy⟩
  | reopen =>
    simp only [gate.step, Option.ite_none_right_eq_some, Option.some.injEq] at hstep
    obtain ⟨-, rfl⟩ := hstep
    exact ⟨held, parts, h.waiters, h.attached⟩
  | iterate =>
    obtain ⟨parts', h'⟩ := waiters_iterate h hstep
    exact ⟨held, parts', h'⟩
  | relink v next =>
    obtain ⟨waiters, hrelink, rfl⟩ := Option.map_eq_some_iff.mp hstep
    exact ⟨held, parts, h.relink hrelink⟩

/-- A `leave` that has begun can go on. -/
theorem exists_iterate (h : gate.Inv s held parts) (hparts : parts ≠ []) : ∃ s', s.iterate = some s' := by
  obtain ⟨⟨loop, rest⟩, parts, rfl⟩ := List.exists_cons_of_ne_nil hparts
  have hloops : s.close_waiters.loops = loop :: parts.map Prod.fst := h.waiters.loops
  unfold State.iterate
  cases htop : loop.top with
  | none =>
    have hiterate : s.close_waiters.iterate = some { s.close_waiters with loops := parts.map Prod.fst } := by
      simp [attach_list.Waiters.iterate, hloops, htop]
    simp [hiterate, h.attached]
  | some v =>
    simp [attach_list.Waiters.iterate, attach_list.Waiters.resume, hloops, htop]

/-- `leave` returns on a gate that somebody has entered. -/
theorem exists_leave (h : gate.Inv s held parts) (hcount : s.count ≠ 0) : ∃ s', gate.step s .leave = some s' := by
  have hinv : gate.Inv { s with count := s.count - 1 } held parts := ⟨h.waiters, h.attached⟩
  simp only [gate.step, if_neg hcount]
  split
  · exact exists_iterate hinv.take (by simp)
  · exact ⟨_, rfl⟩

omit [DecidableEq α] in
theorem holding_set_holder {g : Option (Option κ)} :
    holding (w.set_holder h g) k = if g = some (some k) then insert h (holding w k) else holding w k \ {h} := by
  ext x
  by_cases hx : x = h
  · subst hx
    split <;> simp_all [holding, World.set_holder]
  · split <;> simp [holding, World.set_holder, hx]

omit [DecidableEq κ] [DecidableEq η] [DecidableEq α] in
theorem not_mem_holding {g : Option (Option κ)} (hg : w.holders h = g) (hne : g ≠ some (some k)) :
    h ∉ holding w k := fun hmem => hne (hg.symm.trans hmem)

namespace Counted

omit [DecidableEq η] [DecidableEq α] in
theorem set_gate {owed' : Option κ} (hw : Counted w owed) (hsame : ∀ j, j ≠ k → (owed = some j ↔ owed' = some j))
    (hcount : s.count = (holding w k).ncard + w.entries k + if owed' = some k then 1 else 0)
    (hwaiters : ∃ held parts, gate.Inv s held parts) : Counted (w.set_gate k s) owed' := by
  refine ⟨hw.finite, fun j => ?_, fun j => ?_⟩
  · by_cases hj : j = k
    · subst hj
      simpa using hcount
    · simpa [set_gate_of_ne hj, hsame j hj] using hw.count j
  · by_cases hj : j = k
    · subst hj
      simpa using hwaiters
    · simpa [set_gate_of_ne hj] using hw.waiters j

omit [DecidableEq η] in
/-- The gate is left that is owed. -/
theorem leave (hw : Counted w (some k)) (hstep : w.leave k = some w') : Inv w' := by
  obtain ⟨s, hleave, rfl⟩ := Option.map_eq_some_iff.mp hstep
  obtain ⟨held, parts, hinv⟩ := hw.waiters k
  refine hw.set_gate (fun j hj => ?_) ?_ (waiters_step hinv hleave)
  · simp [Ne.symm hj]
  · have hcount := hw.count k
    have hleft := leave_count hleave
    simp only [if_true, reduceCtorEq, if_false] at hcount ⊢
    omega

omit [DecidableEq η] in
theorem leave_gate (hw : Counted w owed) (hstep : w.leave_gate owed = some w') : Inv w' := by
  cases owed with
  | none =>
    cases hstep
    exact hw
  | some k => exact hw.leave hstep

omit [DecidableEq η] [DecidableEq α] in
/-- What has entered is owed until a holder has it, or it is a raw entry. -/
theorem enter (hw : Inv w) : Counted (w.set_gate k { w.gates k with count := (w.gates k).count + 1 }) (some k) := by
  obtain ⟨held, parts, hinv⟩ := hw.waiters k
  refine hw.set_gate (fun j hj => ?_) ?_ ⟨held, parts, hinv.waiters, hinv.attached⟩
  · simp [Ne.symm hj]
  · simpa using hw.count k

omit [DecidableEq η] in
theorem of_gate (hw : Inv w) {a : gate.Action α} (henter : a ≠ .try_enter) (hleave : a ≠ .leave)
    (hstep : gate.step (w.gates k) a = some s) : Inv (w.set_gate k s) := by
  obtain ⟨held, parts, hinv⟩ := hw.waiters k
  refine hw.set_gate (fun j _ => Iff.rfl) ?_ (waiters_step hinv hstep)
  rw [step_count henter hleave hstep]
  exact hw.count k

omit [DecidableEq η] [DecidableEq α] in
/-- What has entered is a raw entry. -/
theorem entered (hw : Counted w (some k)) :
    Inv { w with entries := Function.update w.entries k (w.entries k + 1) } := by
  refine ⟨hw.finite, fun j => ?_, hw.waiters⟩
  have hcount := hw.count j
  by_cases hj : j = k
  · subst hj
    simpa [holding, Nat.add_assoc] using hcount
  · simpa [holding, hj, Ne.symm hj] using hcount

omit [DecidableEq η] [DecidableEq α] in
/-- A raw entry is about to be left. -/
theorem leaving (hw : Inv w) (hentries : w.entries k ≠ 0) :
    Counted { w with entries := Function.update w.entries k (w.entries k - 1) } (some k) := by
  refine ⟨hw.finite, fun j => ?_, hw.waiters⟩
  have hcount := hw.count j
  by_cases hj : j = k
  · subst hj
    simp only [Function.update_self, holding, if_true, reduceCtorEq, if_false] at hcount ⊢
    omega
  · simpa [holding, hj, Ne.symm hj] using hcount

omit [DecidableEq α] in
/-- A holder that holds nothing, or was just made, gets what has entered. -/
theorem given (hw : Counted w owed) (hh : (w.holders h).join = none) (g : Option κ) (howed : owed = g) :
    Inv (w.set_holder h (some g)) := by
  subst howed
  have hnot : ∀ k, h ∉ holding w k := fun k hmem => by
    rw [show w.holders h = some (some k) from hmem] at hh
    cases hh
  refine ⟨fun k => ?_, fun k => ?_, hw.waiters⟩
  · rw [holding_set_holder]
    split
    · exact (hw.finite k).insert h
    · exact (hw.finite k).sdiff
  · have hcount := hw.count k
    rw [holding_set_holder]
    show (w.gates k).count = _ + w.entries k + 0
    split
    case isTrue hk =>
      cases hk
      rw [Set.ncard_insert_of_notMem (hnot k) (hw.finite k)]
      simp only [if_true] at hcount
      omega
    case isFalse hk =>
      rw [Set.sdiff_singleton_eq_self (hnot k)]
      rw [if_neg fun heq => hk (congrArg some heq)] at hcount
      exact hcount

omit [DecidableEq α] in
/-- A holder is emptied or destroyed, and its gate is owed the `leave`. -/
theorem dropped (hw : Inv w) {g : Option κ} (hh : w.holders h = some g) {g' : Option (Option κ)}
    (hg' : g'.join = none) : Counted (w.set_holder h g') g := by
  have hne : ∀ k, g' ≠ some (some k) := by
    rintro k rfl
    cases hg'
  refine ⟨fun k => ?_, fun k => ?_, hw.waiters⟩
  · rw [holding_set_holder, if_neg (hne k)]
    exact (hw.finite k).sdiff
  · have hcount := hw.count k
    rw [holding_set_holder, if_neg (hne k)]
    show (w.gates k).count = _ + w.entries k + _
    split
    case isTrue hk =>
      subst hk
      have hmem : h ∈ holding w k := hh
      have hpos : 0 < (holding w k).ncard := (Set.ncard_pos (hw.finite k)).mpr ⟨h, hmem⟩
      rw [Set.ncard_sdiff_singleton_of_mem hmem]
      simp only [reduceCtorEq, if_false] at hcount
      omega
    case isFalse hk =>
      rw [Set.sdiff_singleton_eq_self (not_mem_holding hh fun heq => hk (Option.some.inj heq))]
      exact hcount

omit [DecidableEq η] [DecidableEq α] in
/-- The holders have exchanged their gates. -/
theorem swapped (hw : Inv w) (hgates : w'.gates = w.gates) (hentries : w'.entries = w.entries)
    (σ : Equiv.Perm η) (hholding : ∀ k x, x ∈ holding w' k ↔ σ x ∈ holding w k) : Inv w' := by
  have himage : ∀ k, holding w' k = σ.symm '' holding w k := by
    intro k
    ext x
    rw [hholding, Equiv.image_symm_eq_preimage]
    exact Iff.rfl
  refine ⟨fun k => ?_, fun k => ?_, fun k => by rw [hgates]; exact hw.waiters k⟩
  · rw [himage]
    exact (hw.finite k).image _
  · rw [himage, Set.ncard_image_of_injective _ σ.symm.injective, hgates, hentries]
    exact hw.count k

omit [DecidableEq η] [DecidableEq α] in
theorem init : Inv (holder.construct : World κ η α) where
  finite k := by simp [holding, holder.construct]
  count k := by simp [holding, holder.construct, gate.construct]
  waiters k := ⟨[], [], gate.construct_inv⟩

omit [DecidableEq α] in
theorem move_construct (hw : Inv w) (hh : w.holders h = none) {g : Option κ} (hother : w.holders other = some g) :
    Inv ((w.set_holder other (some none)).set_holder h (some g)) := by
  have hne : h ≠ other := by
    rintro rfl
    cases hh.symm.trans hother
  refine hw.swapped rfl rfl (Equiv.swap h other) fun k x => ?_
  rcases eq_or_ne x h with rfl | hxh
  · simp [holding, World.set_holder, hother]
  · rcases eq_or_ne x other with rfl | hxo
    · simp [holding, World.set_holder, hxh, hh]
    · simp [holding, World.set_holder, hxh, hxo, Equiv.swap_apply_of_ne_of_ne hxh hxo]

omit [DecidableEq α] in
theorem move_assign (hw : Inv w) {g g' : Option κ} (hh : w.holders h = some g) (hother : w.holders other = some g') :
    Inv ((w.set_holder h (some g')).set_holder other (some g)) := by
  refine hw.swapped rfl rfl (Equiv.swap h other) fun k x => ?_
  rcases eq_or_ne x other with rfl | hxo
  · simp [holding, World.set_holder, hh]
  · rcases eq_or_ne x h with rfl | hxh
    · simp [holding, World.set_holder, hxo, hother]
    · simp [holding, World.set_holder, hxh, hxo, Equiv.swap_apply_of_ne_of_ne hxh hxo]

theorem step (hw : Inv w) {a : Action κ η α} (hstep : Step w a w') : Inv w' := by
  obtain ⟨hallowed, o, hstep⟩ := hstep
  cases a with
  | try_enter k =>
    simp only [holder.step, try_enter] at hstep
    split at hstep
    case h_1 s heq =>
      split at heq
      · cases heq
        cases hstep
        exact hw.set_gate (fun j _ => Iff.rfl) (hw.count k) (hw.waiters k)
      · cases heq
    case h_2 s heq =>
      split at heq
      · cases heq
      · cases heq
        cases hstep
        exact hw.enter.entered
  | enter k =>
    simp only [holder.step] at hstep
    split at hstep
    case h_1 =>
      cases hstep
      exact hw
    case h_2 s heq =>
      obtain rfl := enter_eq_some heq
      cases hstep
      exact hw.enter.entered
  | leave k =>
    obtain ⟨w₁, hleave, heq⟩ := Option.bind_eq_some_iff.mp hstep
    cases heq
    exact (hw.leaving hallowed).leave hleave
  | hold h k =>
    simp only [holder.step] at hstep
    split at hstep
    case h_1 =>
      cases hstep
      exact hw
    case h_2 s heq =>
      obtain rfl := enter_eq_some heq
      cases hstep
      exact hw.enter.given (by simp [World.set_gate, show w.holders h = none from hallowed]) (some k) rfl
  | construct h =>
    cases hstep
    exact hw.given (by simp [show w.holders h = none from hallowed]) none rfl
  | move_construct h other =>
    obtain ⟨g, hother, heq⟩ := Option.bind_eq_some_iff.mp hstep
    cases heq
    exact hw.move_construct hallowed hother
  | move_assign h other =>
    obtain ⟨g, hh, hstep⟩ := Option.bind_eq_some_iff.mp hstep
    obtain ⟨g', hother, heq⟩ := Option.bind_eq_some_iff.mp hstep
    cases heq
    exact hw.move_assign hh hother
  | release h =>
    obtain ⟨g, hh, hstep⟩ := Option.bind_eq_some_iff.mp hstep
    obtain ⟨w₁, hleave, heq⟩ := Option.bind_eq_some_iff.mp hstep
    cases heq
    exact (hw.dropped hh rfl).leave_gate hleave
  | destroy h =>
    obtain ⟨g, hh, hstep⟩ := Option.bind_eq_some_iff.mp hstep
    obtain ⟨w₁, hleave, heq⟩ := Option.bind_eq_some_iff.mp hstep
    cases heq
    exact (hw.dropped hh rfl).leave_gate hleave
  | of_gate k a =>
    obtain ⟨s, hs, heq⟩ := Option.bind_eq_some_iff.mp hstep
    cases heq
    exact hw.of_gate hallowed.1 hallowed.2 hs

omit [DecidableEq η] [DecidableEq α] in
/-- Whoever leaves has been counted. -/
theorem leaves (hw : Inv w) {a : Action κ η α} (hallowed : Allowed w a) (hleaves : leaves w a = some k) :
    (w.gates k).count ≠ 0 := by
  have hcount := hw.count k
  have hholder : ∀ h, (w.holders h).join = some k → (w.gates k).count ≠ 0 := by
    intro h hh
    have hmem : h ∈ holding w k := Option.join_eq_some_iff.mp hh
    have hpos : 0 < (holding w k).ncard := (Set.ncard_pos (hw.finite k)).mpr ⟨h, hmem⟩
    omega
  cases a with
  | leave j =>
    obtain rfl : j = k := Option.some.inj hleaves
    have hentries : w.entries j ≠ 0 := hallowed
    omega
  | release h => exact hholder h hleaves
  | destroy h => exact hholder h hleaves
  | try_enter | enter | hold | construct | move_construct | move_assign | of_gate => cases hleaves

/-- The `leave` returns. -/
theorem exists_step (hw : Inv w) {a : Action κ η α} (hallowed : Allowed w a) (hleaves : holder.leaves w a = some k) :
    ∃ r, holder.step w a = some r := by
  obtain ⟨held, parts, hinv⟩ := hw.waiters k
  obtain ⟨s, hs⟩ := exists_leave hinv (hw.leaves hallowed hleaves)
  cases a with
  | leave j =>
    obtain rfl : j = k := Option.some.inj hleaves
    simp [holder.step, World.leave, hs]
  | release h =>
    have hh : w.holders h = some (some k) := Option.join_eq_some_iff.mp hleaves
    simp [holder.step, World.leave_gate, World.leave, World.set_holder, hh, hs]
  | destroy h =>
    have hh : w.holders h = some (some k) := Option.join_eq_some_iff.mp hleaves
    simp [holder.step, World.leave_gate, World.leave, World.set_holder, hh, hs]
  | try_enter | enter | hold | construct | move_construct | move_assign | of_gate => cases hleaves

end Counted

/-- An entry that is refused, or throws, changes nothing. -/
theorem unchanged_of_failed {a : Action κ η α} {o : Outcome} (hstep : step w a = some (o, w'))
    (ho : o ≠ .returned) : w' = w := by
  cases a with
  | try_enter k =>
    cases hclosed : (w.gates k).is_closed
    · simp [step, try_enter, hclosed] at hstep
      exact absurd hstep.1.symm ho
    · simp [step, try_enter, hclosed] at hstep
      rw [← hstep.2]
      simp [World.set_gate]
  | enter k =>
    cases hclosed : (w.gates k).is_closed
    · simp [step, enter, try_enter, hclosed] at hstep
      exact absurd hstep.1.symm ho
    · simp [step, enter, try_enter, hclosed] at hstep
      exact hstep.2.symm
  | hold h k =>
    cases hclosed : (w.gates k).is_closed
    · simp [step, enter, try_enter, hclosed] at hstep
      exact absurd hstep.1.symm ho
    · simp [step, enter, try_enter, hclosed] at hstep
      exact hstep.2.symm
  | construct h =>
    cases hstep
    exact absurd rfl ho
  | leave | move_construct | of_gate =>
    obtain ⟨_, -, heq⟩ := Option.bind_eq_some_iff.mp hstep
    cases heq
    exact absurd rfl ho
  | move_assign | release | destroy =>
    obtain ⟨_, -, hstep⟩ := Option.bind_eq_some_iff.mp hstep
    obtain ⟨_, -, heq⟩ := Option.bind_eq_some_iff.mp hstep
    cases heq
    exact absurd rfl ho

/-- A step, and how the operation ends. -/
def Ended (w : World κ η α) (e : Action κ η α × Outcome) (w' : World κ η α) : Prop :=
  Allowed w e.1 ∧ step w e.1 = some (e.2, w')

/-- A raw entry that succeeded. -/
def entered_raw (k : κ) : Action κ η α × Outcome → Bool
  | (.try_enter j, .returned) | (.enter j, .returned) => j = k
  | _ => false

def left_raw (k : κ) : Action κ η α × Outcome → Bool
  | (.leave j, _) => j = k
  | _ => false

/-- Raw entries are counted where they succeed, until they are left. -/
theorem Ended.entries {e : Action κ η α × Outcome} (hstep : Ended w e w') (k : κ) :
    w'.entries k + (left_raw k e).toNat = w.entries k + (entered_raw k e).toNat := by
  obtain ⟨a, o⟩ := e
  obtain ⟨hallowed, hstep⟩ := hstep
  have hentered : ∀ j, (Function.update w.entries j (w.entries j + 1)) k = w.entries k + (decide (j = k)).toNat := by
    intro j
    rcases eq_or_ne j k with rfl | hj
    · simp
    · simp [hj, Ne.symm hj]
  cases a with
  | try_enter j =>
    cases hclosed : (w.gates j).is_closed
    · simp [step, try_enter, hclosed] at hstep
      obtain ⟨rfl, rfl⟩ := hstep
      exact hentered j
    · simp [step, try_enter, hclosed] at hstep
      obtain ⟨rfl, rfl⟩ := hstep
      rfl
  | enter j =>
    cases hclosed : (w.gates j).is_closed
    · simp [step, enter, try_enter, hclosed] at hstep
      obtain ⟨rfl, rfl⟩ := hstep
      exact hentered j
    · simp [step, enter, try_enter, hclosed] at hstep
      obtain ⟨rfl, rfl⟩ := hstep
      rfl
  | hold h j =>
    cases hclosed : (w.gates j).is_closed <;> simp [step, enter, try_enter, hclosed] at hstep <;>
      obtain ⟨rfl, rfl⟩ := hstep <;> rfl
  | leave j =>
    obtain ⟨w₁, hleave, heq⟩ := Option.bind_eq_some_iff.mp hstep
    obtain ⟨s, -, rfl⟩ := Option.map_eq_some_iff.mp hleave
    cases heq
    have hentries : w.entries j ≠ 0 := hallowed
    rcases eq_or_ne j k with rfl | hj
    · simp only [entries_set_gate, Function.update_self, left_raw, entered_raw, decide_true, Bool.toNat_true,
        Bool.toNat_false]
      omega
    · simp [left_raw, entered_raw, hj, Ne.symm hj]
  | construct h =>
    cases hstep
    rfl
  | move_construct h other =>
    obtain ⟨g, -, heq⟩ := Option.bind_eq_some_iff.mp hstep
    cases heq
    rfl
  | move_assign h other =>
    obtain ⟨g, -, hstep⟩ := Option.bind_eq_some_iff.mp hstep
    obtain ⟨g', -, heq⟩ := Option.bind_eq_some_iff.mp hstep
    cases heq
    rfl
  | release h | destroy h =>
    obtain ⟨g, -, hstep⟩ := Option.bind_eq_some_iff.mp hstep
    obtain ⟨w₁, hleave, heq⟩ := Option.bind_eq_some_iff.mp hstep
    cases heq
    cases g with
    | none =>
      cases hleave
      rfl
    | some j =>
      obtain ⟨s, -, rfl⟩ := Option.map_eq_some_iff.mp hleave
      rfl
  | of_gate j a =>
    obtain ⟨s, -, heq⟩ := Option.bind_eq_some_iff.mp hstep
    cases heq
    rfl

/-- In every run the raw entries are those that succeeded and were not left. -/
theorem entries_of_run {as : List (Action κ η α)} (hrun : Run Step w as w') :
    ∃ os, os.length = as.length ∧ Run Ended w (as.zip os) w' ∧
      ∀ k, w'.entries k + (as.zip os).countP (left_raw k) = w.entries k + (as.zip os).countP (entered_raw k) := by
  induction hrun with
  | nil => exact ⟨[], rfl, .nil _, fun k => rfl⟩
  | @cons w w₁ w' a as hstep _ ih =>
    obtain ⟨hallowed, o, ho⟩ := hstep
    obtain ⟨os, hlength, hended, hentries⟩ := ih
    have hstep : Ended w (a, o) w₁ := ⟨hallowed, ho⟩
    refine ⟨o :: os, by simp [hlength], .cons hstep hended, fun k => ?_⟩
    have hone := hstep.entries k
    have hrest := hentries k
    simp only [List.zip_cons_cons, List.countP_cons]
    cases hleft : left_raw k (a, o) <;> cases hentered : entered_raw k (a, o) <;>
      simp only [hleft, hentered, Bool.toNat_true, Bool.toNat_false, Bool.false_eq_true, if_true, if_false] at hone ⊢ <;>
      omega

/-- `active_count()` is the number of the holders that hold the gate and of the
raw entries that succeeded and were not left; an entry that fails changes no count;
and whoever leaves a gate has been counted. -/
theorem active_count_eq {as : List (Action κ η α)} (hrun : Run Step construct as w) :
    (∀ k, (holding w k).Finite ∧ (w.gates k).active_count = (holding w k).ncard + w.entries k) ∧
      (∃ os, os.length = as.length ∧ Run Ended construct (as.zip os) w ∧
        ∀ k, w.entries k + (as.zip os).countP (left_raw k) = (as.zip os).countP (entered_raw k)) ∧
      (∀ k h, (w.gates k).is_closed = true →
        step w (.enter k) = some (.threw, w) ∧ step w (.hold h k) = some (.threw, w)) ∧
      (∀ a o w', step w a = some (o, w') → o ≠ .returned →
        ∀ k, (w'.gates k).active_count = (w.gates k).active_count) ∧
      ∀ a k, Allowed w a → leaves w a = some k → (w.gates k).count ≠ 0 ∧ ∃ r, step w a = some r := by
  have hw : Inv w := hrun.invariant Inv (fun _ _ _ hw hstep => hw.step hstep) Counted.init
  obtain ⟨os, hlength, hended, hentries⟩ := entries_of_run hrun
  refine ⟨fun k => ⟨hw.finite k, hw.count k⟩, ⟨os, hlength, hended, fun k => ?_⟩, fun k h hclosed => ?_,
    fun a o w' hstep ho k => ?_,
    fun a k hallowed hleaves => ⟨hw.leaves hallowed hleaves, hw.exists_step hallowed hleaves⟩⟩
  · simpa [construct] using hentries k
  · simp [step, enter, try_enter, hclosed]
  · rw [unchanged_of_failed hstep ho]

/-- Two holders exchange their gates, one of them is released, a holder and an
entry at the closed gate fail, and an entry at the other one succeeds. -/
def exchange : List (Action Bool Nat Nat) :=
  [.hold 0 false, .hold 1 true, .move_assign 0 1, .of_gate true (.close 5), .release 0, .hold 2 true, .enter true,
    .try_enter false]

/-- The two that fail throw; holder 1 holds the open gate, which was entered once besides. -/
theorem active_count_eq_after_exchange : ∃ w : World Bool Nat Nat, Run Step construct exchange w ∧
    Run Ended construct (exchange.zip [.returned, .returned, .returned, .returned, .returned, .threw, .threw, .returned]) w ∧
      (w.gates true).active_count = 0 ∧ (w.gates true).is_closed = true ∧
      (w.gates false).active_count = 2 ∧ (holding w false).ncard = 1 ∧ w.entries false = 1 ∧
      (∃ os, os.length = exchange.length ∧ Run Ended construct (exchange.zip os) w ∧
        ∀ k, w.entries k + (exchange.zip os).countP (left_raw k) = (exchange.zip os).countP (entered_raw k)) ∧
      step w (.enter true) = some (.threw, w) ∧ step w (.hold 2 true) = some (.threw, w) := by
  have hrun : ∃ w : World Bool Nat Nat, Run Step construct exchange w ∧
      Run Ended construct
        (exchange.zip [.returned, .returned, .returned, .returned, .returned, .threw, .threw, .returned]) w ∧
      (w.gates true).active_count = 0 ∧ (w.gates true).is_closed = true ∧ (w.gates false).active_count = 2 ∧
      w.entries false = 1 :=
    ⟨_, .cons ⟨rfl, _, rfl⟩ <| .cons ⟨rfl, _, rfl⟩ <| .cons ⟨trivial, _, rfl⟩ <|
      .cons ⟨⟨by simp, by simp⟩, _, rfl⟩ <| .cons ⟨trivial, _, rfl⟩ <| .cons ⟨rfl, _, rfl⟩ <|
      .cons ⟨trivial, _, rfl⟩ <| .cons ⟨trivial, _, rfl⟩ <| .nil _,
      .cons ⟨rfl, rfl⟩ <| .cons ⟨rfl, rfl⟩ <| .cons ⟨trivial, rfl⟩ <| .cons ⟨⟨by simp, by simp⟩, rfl⟩ <|
      .cons ⟨trivial, rfl⟩ <| .cons ⟨rfl, rfl⟩ <| .cons ⟨trivial, rfl⟩ <| .cons ⟨trivial, rfl⟩ <| .nil _, rfl, rfl, rfl, rfl⟩
  obtain ⟨w, hrun, hended, hempty, hclosed, htwo, hone⟩ := hrun
  obtain ⟨hcount, hentries, hfails, -⟩ := active_count_eq hrun
  have hheld := (hcount false).2
  rw [htwo, hone] at hheld
  exact ⟨w, hrun, hended, hempty, hclosed, htwo, by omega, hone, hentries, hfails true 2 hclosed⟩

end kelcoro.gate.holder
