import Kelcoro.Lib.Log
import Mathlib

namespace kelcoro.lib.waiters

/-- What happens where waiters are woken all at once: waiter `j` enters, call `k`
takes all who are waiting, and attaches one of those it took. -/
inductive Event where
  | enters (j : Nat)
  | takes (k : Nat)
  | attaches (j k : Nat)
  deriving DecidableEq, Repr

/-- Who is waiting after the events of a log (the newest event and the waiter
that came last are first). -/
def waiting : List Event → List Nat
  | [] => []
  | .enters j :: log => j :: waiting log
  | .takes _ :: _ => []
  | .attaches _ _ :: log => waiting log

variable (order : List Nat → List Nat)

/-- Whom call `k` has still to attach, in its order. -/
def remaining (k : Nat) : List Event → List Nat
  | [] => []
  | .enters _ :: log => remaining k log
  | .takes i :: log => if i = k then order (waiting log) else remaining k log
  | .attaches _ i :: log => if i = k then (remaining k log).tail else remaining k log

/-- Whom call `k` has attached, the first one first. -/
def attached (k : Nat) : List Event → List Nat
  | [] => []
  | .enters _ :: log => attached k log
  | .takes _ :: log => attached k log
  | .attaches j i :: log => if i = k then attached k log ++ [j] else attached k log

/-- A waiter enters once, a call takes the waiters once, and attaches the next
one of those it took. -/
def Follows (log : List Event) : Event → Prop
  | .enters j => .enters j ∉ log
  | .takes k => .takes k ∉ log
  | .attaches j k => ∃ rest, remaining order k log = j :: rest

/-- Where a waiter is. -/
inductive Place where
  | outside
  | waiting
  | taken (k : Nat)
  | attached (k : Nat)
  deriving DecidableEq, Repr

def place (j : Nat) : List Event → Place
  | [] => .outside
  | .enters i :: log => if i = j then .waiting else place j log
  | .takes k :: log => if place j log = .waiting then .taken k else place j log
  | .attaches i k :: log => if i = j then .attached k else place j log

/-- What the lists of a log say of the places. -/
structure Placed (log : List Event) : Prop where
  waiting : ∀ j, j ∈ waiting log ↔ place j log = .waiting
  waiting_nodup : (waiters.waiting log).Nodup
  remaining : ∀ j k, j ∈ remaining order k log ↔ place j log = .taken k
  remaining_nodup : ∀ k, (waiters.remaining order k log).Nodup
  entered : ∀ j, .enters j ∈ log ↔ place j log ≠ .outside
  takes : ∀ j k, place j log = .taken k → .takes k ∈ log
  attached : ∀ j k, .attaches j k ∈ log ↔ place j log = .attached k

variable {order} {log : List Event} {j k : Nat}

namespace Placed

theorem nil : Placed order [] := by
  constructor <;> simp [waiters.waiting, waiters.remaining, place]

theorem enters (h : Placed order log) (hnew : .enters j ∉ log) : Placed order (.enters j :: log) := by
  have houtside : place j log = .outside := by
    by_contra hne
    exact hnew ((h.entered j).mpr hne)
  constructor
  · intro i
    by_cases hij : j = i
    · subst hij
      simp [waiters.waiting, place]
    · simp [waiters.waiting, place, hij, Ne.symm hij, h.waiting i]
  · refine List.nodup_cons.mpr ⟨fun hmem => ?_, h.waiting_nodup⟩
    exact absurd ((h.waiting j).mp hmem) (by simp [houtside])
  · intro i k
    by_cases hij : j = i
    · subst hij
      simp [waiters.remaining, place, h.remaining, houtside]
    · simp [waiters.remaining, place, hij, h.remaining]
  · exact h.remaining_nodup
  · intro i
    by_cases hij : j = i
    · subst hij
      simp [place]
    · simp [place, hij, Ne.symm hij, h.entered i]
  · intro i k hplace
    by_cases hij : j = i
    · simp [place, hij] at hplace
    · simp only [place, if_neg hij] at hplace
      exact List.mem_cons_of_mem _ (h.takes i k hplace)
  · intro i k
    by_cases hij : j = i
    · subst hij
      simp [place, h.attached, houtside]
    · simp [place, hij, h.attached]

theorem take (h : Placed order log) (horder : ∀ l, (order l).Perm l) (hnew : .takes k ∉ log) :
    Placed order (.takes k :: log) := by
  have hnone : ∀ j, place j log ≠ .taken k := fun j hplace => hnew (h.takes j k hplace)
  have hplace : ∀ j i, place j (.takes k :: log) = .taken i ↔
      place j log = .waiting ∧ i = k ∨ place j log = .taken i := by
    intro j i
    by_cases hwaiting : place j log = .waiting
    · simp [place, hwaiting, eq_comm]
    · simp [place, hwaiting]
  constructor
  · intro j
    by_cases hwaiting : place j log = .waiting <;> simp [waiters.waiting, place, hwaiting]
  · exact List.nodup_nil
  · intro j i
    rw [hplace]
    by_cases hik : k = i
    · subst hik
      simp [waiters.remaining, (horder _).mem_iff, h.waiting j, hnone j]
    · simp [waiters.remaining, hik, Ne.symm hik, h.remaining j i]
  · intro i
    by_cases hik : k = i
    · simp only [waiters.remaining, if_pos hik]
      exact (horder _).nodup_iff.mpr h.waiting_nodup
    · simp only [waiters.remaining, if_neg hik]
      exact h.remaining_nodup i
  · intro j
    by_cases hwaiting : place j log = .waiting <;> simp [place, hwaiting, h.entered j]
  · intro j i hi
    rcases (hplace j i).mp hi with ⟨-, rfl⟩ | hold
    · exact List.mem_cons_self ..
    · exact List.mem_cons_of_mem _ (h.takes j i hold)
  · intro j i
    by_cases hwaiting : place j log = .waiting <;> simp [place, hwaiting, h.attached j]

theorem attach (h : Placed order log) {rest : List Nat} (hrest : waiters.remaining order k log = j :: rest) :
    Placed order (.attaches j k :: log) := by
  have hj : place j log = .taken k := (h.remaining j k).mp (by simp [hrest])
  have hnodup := h.remaining_nodup k
  rw [hrest] at hnodup
  constructor
  · intro i
    by_cases hij : j = i
    · subst hij
      simp [waiters.waiting, place, h.waiting, hj]
    · simp [waiters.waiting, place, hij, h.waiting]
  · exact h.waiting_nodup
  · intro i l
    have hold := h.remaining i l
    by_cases hij : j = i
    · subst hij
      by_cases hkl : k = l
      · subst hkl
        simpa [waiters.remaining, place, hrest] using (List.nodup_cons.mp hnodup).1
      · simpa [waiters.remaining, place, hkl, hj] using hold
    · by_cases hkl : k = l
      · subst hkl
        simpa [waiters.remaining, place, hrest, hij, Ne.symm hij] using hold
      · simpa [waiters.remaining, place, hkl, hij] using hold
  · intro l
    by_cases hkl : k = l
    · subst hkl
      simpa [waiters.remaining, hrest] using (List.nodup_cons.mp hnodup).2
    · simp only [waiters.remaining, if_neg hkl]
      exact h.remaining_nodup l
  · intro i
    by_cases hij : j = i
    · subst hij
      simp [place, h.entered, hj]
    · simp [place, hij, h.entered]
  · intro i l hplace
    by_cases hij : j = i
    · simp [place, hij] at hplace
    · simp only [place, if_neg hij] at hplace
      exact List.mem_cons_of_mem _ (h.takes i l hplace)
  · intro i l
    by_cases hij : j = i
    · subst hij
      simp [place, h.attached, hj, eq_comm]
    · simp [place, hij, Ne.symm hij, h.attached]

end Placed

theorem placed_of_lawful (horder : ∀ l, (order l).Perm l) (h : Lawful (Follows order) log) :
    Placed order log := by
  induction log with
  | nil => exact Placed.nil
  | cons e log ih =>
    have hplaced := ih h.2
    cases e with
    | enters j => exact hplaced.enters h.1
    | takes k => exact hplaced.take horder h.1
    | attaches j k =>
      obtain ⟨rest, hrest⟩ := h.1
      exact hplaced.attach hrest

/-- A waiter that waits entered after the last call took the waiters; one that a
call has taken entered before that call and after the one before it. -/
theorem entered_last (j : Nat) (log : List Event) :
    (place j log = .waiting → ∃ later earlier, log = later ++ .enters j :: earlier ∧
        ∀ k, .takes k ∉ later) ∧
      ∀ k, place j log = .taken k → ∃ later between earlier,
        log = later ++ .takes k :: between ++ .enters j :: earlier ∧ ∀ i, .takes i ∉ between := by
  induction log with
  | nil => simp [place]
  | cons e log ih =>
    obtain ⟨hwaiting, htaken⟩ := ih
    cases e with
    | enters i =>
      by_cases hij : i = j
      · subst hij
        exact ⟨fun _ => ⟨[], log, rfl, by simp⟩, fun k hplace => by simp [place] at hplace⟩
      · simp only [place, if_neg hij]
        refine ⟨fun hplace => ?_, fun k hplace => ?_⟩
        · obtain ⟨later, earlier, rfl, hnone⟩ := hwaiting hplace
          exact ⟨.enters i :: later, earlier, rfl, by simpa using hnone⟩
        · obtain ⟨later, between, earlier, rfl, hnone⟩ := htaken k hplace
          exact ⟨.enters i :: later, between, earlier, rfl, hnone⟩
    | takes i =>
      by_cases hold : place j log = .waiting
      · simp only [place, if_pos hold]
        refine ⟨nofun, fun k hplace => ?_⟩
        obtain ⟨later, earlier, rfl, hnone⟩ := hwaiting hold
        cases hplace
        exact ⟨[], later, earlier, rfl, hnone⟩
      · simp only [place, if_neg hold]
        refine ⟨fun hplace => absurd hplace hold, fun k hplace => ?_⟩
        obtain ⟨later, between, earlier, rfl, hnone⟩ := htaken k hplace
        exact ⟨.takes i :: later, between, earlier, rfl, hnone⟩
    | attaches i l =>
      by_cases hij : i = j
      · subst hij
        exact ⟨fun hplace => by simp [place] at hplace, fun k hplace => by simp [place] at hplace⟩
      · simp only [place, if_neg hij]
        refine ⟨fun hplace => ?_, fun k hplace => ?_⟩
        · obtain ⟨later, earlier, rfl, hnone⟩ := hwaiting hplace
          exact ⟨.attaches i l :: later, earlier, rfl, by simpa using hnone⟩
        · obtain ⟨later, between, earlier, rfl, hnone⟩ := htaken k hplace
          exact ⟨.attaches i l :: later, between, earlier, rfl, hnone⟩

/-- A call attaches those it took in its order. -/
theorem attached_append_remaining (h : Lawful (Follows order) log) {later earlier : List Event}
    (hsplit : log = later ++ .takes k :: earlier) :
    attached k later ++ remaining order k log = order (waiting earlier) := by
  induction later generalizing log with
  | nil => simp [hsplit, attached, remaining]
  | cons e later ih =>
    subst hsplit
    have hlater : attached k later ++ remaining order k (later ++ .takes k :: earlier) =
        order (waiting earlier) := ih h.2 rfl
    cases e with
    | enters i => exact hlater
    | takes i =>
      have hne : i ≠ k := by
        rintro rfl
        exact h.1 (by simp)
      simpa [attached, remaining, hne] using hlater
    | attaches i l =>
      by_cases hl : l = k
      · subst hl
        obtain ⟨rest, hrest⟩ : ∃ rest, remaining order l (later ++ .takes l :: earlier) = i :: rest := h.1
        rw [hrest] at hlater
        simp [attached, remaining, hrest, ← hlater]
      · simpa [attached, remaining, hl] using hlater

theorem mem_attached {log : List waiters.Event} (h : j ∈ attached k log) : .attaches j k ∈ log := by
  induction log with
  | nil => simp [attached] at h
  | cons e log ih =>
    cases e with
    | enters i => exact List.mem_cons_of_mem _ (ih h)
    | takes i => exact List.mem_cons_of_mem _ (ih h)
    | attaches i l =>
      simp only [attached] at h
      split at h
      case isTrue hl =>
        subst hl
        rcases List.mem_append.mp h with h | h
        · exact List.mem_cons_of_mem _ (ih h)
        · rw [List.mem_singleton.mp h]
          exact List.mem_cons_self
      case isFalse => exact List.mem_cons_of_mem _ (ih h)

/-- A call does not attach those who enter after it took the waiters. -/
theorem not_attached_of_late (horder : ∀ l, (order l).Perm l) (h : Lawful (Follows order) log)
    {later earlier : List Event} (hsplit : log = later ++ .enters j :: earlier)
    (hk : .takes k ∈ earlier) : place j log ≠ .taken k ∧ place j log ≠ .attached k := by
  induction later generalizing log with
  | nil => simp [hsplit, place]
  | cons e later ih =>
    subst hsplit
    obtain ⟨htaken, hattached⟩ := ih h.2 rfl
    have hlater := placed_of_lawful horder h.2
    cases e with
    | enters i =>
      have hij : i ≠ j := by
        rintro rfl
        exact h.1 (by simp)
      simpa [place, hij] using ⟨htaken, hattached⟩
    | takes i =>
      have hik : i ≠ k := by
        rintro rfl
        exact h.1 (by simp [hk])
      by_cases hwaiting : place j (later ++ .enters j :: earlier) = .waiting
      · simp [place, hwaiting, hik]
      · simpa [place, hwaiting] using ⟨htaken, hattached⟩
    | attaches i l =>
      by_cases hij : i = j
      · subst hij
        obtain ⟨rest, hrest⟩ := h.1
        have hmem : i ∈ remaining order l (later.append (.enters i :: earlier)) := by
          rw [hrest]
          exact List.mem_cons_self ..
        have hl := (hlater.remaining i l).mp hmem
        have hlk : l ≠ k := by
          rintro rfl
          exact htaken hl
        simp [place, hlk]
      · simpa [place, hij] using ⟨htaken, hattached⟩

variable (order) in
/-- What waiters may rely on. -/
structure Fair (log : List Event) : Prop where
  /-- Nobody is attached twice. -/
  once : ∀ later j k earlier, log = later ++ .attaches j k :: earlier → ∀ i, .attaches j i ∉ earlier
  /-- A waiter is attached by the first call that takes the waiters after it entered. -/
  first : ∀ later j k earlier, log = later ++ .attaches j k :: earlier →
    ∃ after between before, earlier = after ++ .takes k :: between ++ .enters j :: before ∧
      ∀ i, .takes i ∉ between
  /-- A call does not attach those who enter after it took the waiters. -/
  late : ∀ later j earlier k, log = later ++ .enters j :: earlier → .takes k ∈ earlier →
    .attaches j k ∉ log
  /-- Nobody is lost. -/
  kept : ∀ j, .enters j ∈ log →
    j ∈ waiting log ∨ (∃ k, j ∈ remaining order k log) ∨ ∃ k, .attaches j k ∈ log
  /-- A call attaches those who were waiting in its order. -/
  ordered : ∀ later k earlier, log = later ++ .takes k :: earlier →
    attached k later ++ remaining order k log = order (waiting earlier)

theorem fair_of_lawful (horder : ∀ l, (order l).Perm l) (h : Lawful (Follows order) log) :
    Fair order log where
  once later j k earlier hsplit i hmem := by
    obtain ⟨rest, hrest⟩ := h.follows hsplit
    have hplaced := placed_of_lawful horder (h.of_split hsplit)
    have htaken := (hplaced.remaining j k).mp (by simp [hrest])
    have hattached := (hplaced.attached j i).mp hmem
    cases htaken.symm.trans hattached
  first later j k earlier hsplit := by
    obtain ⟨rest, hrest⟩ := h.follows hsplit
    have hplaced := placed_of_lawful horder (h.of_split hsplit)
    exact (entered_last j earlier).2 k ((hplaced.remaining j k).mp (by simp [hrest]))
  late later j earlier k hsplit hk hmem :=
    (not_attached_of_late horder h hsplit hk).2 (((placed_of_lawful horder h).attached j k).mp hmem)
  kept j hmem := by
    have hplaced := placed_of_lawful horder h
    have hinside := (hplaced.entered j).mp hmem
    cases hplace : place j log with
    | outside => exact absurd hplace hinside
    | waiting => exact Or.inl ((hplaced.waiting j).mpr hplace)
    | taken k => exact Or.inr (Or.inl ⟨k, (hplaced.remaining j k).mpr hplace⟩)
    | attached k => exact Or.inr (Or.inr ⟨k, (hplaced.attached j k).mpr hplace⟩)
  ordered _ _ _ hsplit := attached_append_remaining h hsplit

end kelcoro.lib.waiters
