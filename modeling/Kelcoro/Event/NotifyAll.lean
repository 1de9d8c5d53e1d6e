import Kelcoro.Event.Invariant
import Mathlib

namespace kelcoro.event

open kelcoro.lib kelcoro.lib.waiters kelcoro.nonowner_lockfree_stack

variable {α I : Type} [DecidableEq α] {s s' : State α I} {place : α → Place} {lists : Nat → List α}
  {v : α} {k c : Nat}

omit [DecidableEq α] in
@[simp] theorem goto_self (pc : NotifyPc α) :
    (s.goto k pc).notifies k = { s.notifies k with pc := pc } := by simp [State.goto]

omit [DecidableEq α] in
theorem goto_of_ne {l : Nat} (hl : l ≠ k) (pc : NotifyPc α) :
    (s.goto k pc).notifies l = s.notifies l := by simp [State.goto, hl]

omit [DecidableEq α] in
@[simp] theorem goto_log (pc : NotifyPc α) : (s.goto k pc).log = s.log := rfl

omit [DecidableEq α] in
@[simp] theorem goto_taken (pc : NotifyPc α) : (s.goto k pc).taken = s.taken := rfl

omit [DecidableEq α] in
@[simp] theorem goto_subscribers (pc : NotifyPc α) : (s.goto k pc).subscribers = s.subscribers := rfl

omit [DecidableEq α] in
@[simp] theorem goto_input (l : Nat) (pc : NotifyPc α) :
    ((s.goto k pc).notifies l).input = (s.notifies l).input := by
  by_cases hl : l = k
  · subst hl
    simp
  · rw [goto_of_ne hl]

namespace Inv

omit [DecidableEq α] in
theorem lt_taken (h : Inv s place lists) (hpc : (s.notifies k).pc ≠ .idle) : k < s.taken := by
  by_contra hle
  exact hpc (h.begun k (by omega))

/-- The exchange of the top: all who are in the stack are taken. -/
theorem pops (h : Inv s place lists) (hpc : (s.notifies k).pc = .pop c)
    {t : nonowner_lockfree_stack.State α} (ht : step s.subscribers (.run c) = some t) {pc : NotifyPc α}
    (hwalks : pc.Walks s.subscribers.stack.next s.input (s.notifies k).input (content s.subscribers.log))
    (hpop : ∀ d, pc ≠ .pop d) (hbusy : pc.Busy → content s.subscribers.log ≠ [])
    (hresult : ∀ result, pc = .returned result → (result = false ↔ content s.subscribers.log = [])) :
    Inv ({ s with subscribers := t, log := .takes k :: s.log }.goto k pc)
      (fun w => if w ∈ content s.subscribers.log then .notify k else place w)
      (Function.update lists k (content s.subscribers.log)) := by
  have hstack := stack_step h (allowed_run h c) ht
  obtain ⟨hcall, hnew⟩ := h.pop k c hpc
  simp only [step, nonowner_lockfree_stack.run, hcall, Stack.try_pop_all, Option.some.injEq] at ht
  subst ht
  have hk : k < s.taken := h.lt_taken (by simp [hpc])
  have hempty : lists k = [] := by
    have hold := h.walks k
    rw [hpc] at hold
    exact hold
  have hcontent : ∀ w, w ∈ content s.subscribers.log → place w = .stack := fun w hw =>
    place_of_mem_content h hw
  have hwaiting : content s.subscribers.log = [] ↔ waiters.waiting s.log = [] := by
    rw [← h.waiting, List.map_eq_nil_iff]
  have hplace : ∀ w p, p ≠ .stack → p ≠ .notify k →
      ((if w ∈ content s.subscribers.log then Place.notify k else place w) = p ↔ place w = p) := by
    intro w p hstack hnotify
    by_cases hw : w ∈ content s.subscribers.log
    · simp [hw, hcontent w hw, hstack.symm, hnotify.symm]
    · simp [hw]
  have hfree : ∀ w, (if w ∈ content s.subscribers.log then Place.notify k else place w) ≠ .free →
      place w ≠ .free := fun w hw heq => hw ((hplace w .free (by simp) (by simp)).mpr heq)
  exact { h with
    stack := hstack
    opened := by simp [nonowner_lockfree_stack.State.delivered, State.goto]
    calls := fun d => by
      by_cases hd : d = c
      · subst hd
        simp [nonowner_lockfree_stack.State.delivered, State.goto, nonowner_lockfree_stack.idle, Subscribes]
      · simpa [nonowner_lockfree_stack.State.delivered, State.goto, hd] using h.calls d
    busy := fun w => by
      by_cases hw : w ∈ content s.subscribers.log
      · simp [nonowner_lockfree_stack.State.delivered, State.goto, hw]
      · simpa [nonowner_lockfree_stack.State.delivered, State.goto, hw] using h.busy w
    mem_lists := fun l w => by
      by_cases hl : l = k
      · subst hl
        by_cases hw : w ∈ content s.subscribers.log
        · simp [hw]
        · have hnot : place w ≠ .notify l := fun heq => by
            simpa [hempty] using (h.mem_lists l w).mpr heq
          simp [hw, hnot]
      · rw [hplace w (.notify l) (by simp) (by simpa using hl), Function.update_of_ne hl]
        exact h.mem_lists l w
    attached := fun w => (h.attached w).trans (hplace w .executor (by simp) (by simp)).symm
    used := fun w => (h.used w).trans (not_congr (hplace w .free (by simp) (by simp))).symm
    lists_nodup := fun l => by
      by_cases hl : l = k
      · subst hl
        simpa using h.stack.content_nodup
      · simpa [hl] using h.lists_nodup l
    task_lt := fun w hw => h.task_lt w (hfree w hw)
    task_inj := fun w x hw hx => h.task_inj w x (hfree w hw) (hfree x hx)
    pop := fun l d hl => by
      have hlk : l ≠ k := by
        rintro rfl
        exact hpop d (by simpa using hl)
      rw [goto_of_ne hlk] at hl
      have hd : d ≠ c := by
        rintro rfl
        exact hlk (h.pop_inj l k d hl hpc)
      obtain ⟨hold, hnot⟩ := h.pop l d hl
      refine ⟨?_, ?_⟩
      · simpa [nonowner_lockfree_stack.State.delivered, State.goto, hd] using hold
      · simpa [State.goto, hlk] using hnot
    pop_inj := fun l m d hl hm => by
      have hlk : l ≠ k := by
        rintro rfl
        exact hpop d (by simpa using hl)
      have hmk : m ≠ k := by
        rintro rfl
        exact hpop d (by simpa using hm)
      rw [goto_of_ne hlk] at hl
      rw [goto_of_ne hmk] at hm
      exact h.pop_inj l m d hl hm
    begun := fun l hl => by
      have hlk : l ≠ k := by
        rintro rfl
        exact hk.not_ge hl
      rw [goto_of_ne hlk]
      exact h.begun l hl
    walks := fun l => by
      by_cases hl : l = k
      · subst hl
        simpa [nonowner_lockfree_stack.State.delivered, State.goto] using hwalks
      · rw [goto_of_ne hl, Function.update_of_ne hl]
        exact h.walks l
    waiting := rfl
    remaining := fun l => by
      by_cases hl : l = k
      · subst hl
        simpa [State.goto, waiters.remaining] using h.waiting
      · simpa [State.goto, waiters.remaining, hl, Ne.symm hl] using h.remaining l
    lawful := ⟨hnew, h.lawful⟩
    entering := fun d w hw => by
      have hd : d ≠ c := by
        rintro rfl
        simp [nonowner_lockfree_stack.State.delivered, State.goto, nonowner_lockfree_stack.idle] at hw
      have hold := h.entering d w (by simpa [nonowner_lockfree_stack.State.delivered, State.goto, hd] using hw)
      simpa [State.goto] using hold
    entered := fun j hj => h.entered j (by simpa [State.goto] using hj)
    started := fun l hl => by
      rcases List.mem_cons.mp hl with heq | hl
      · cases heq
        exact hk
      · exact h.started l hl
    attacher := fun j l hl => h.attacher j l (by simpa [State.goto] using hl)
    inputs := fun w hw => by
      obtain ⟨l, hl, hinput⟩ := h.inputs w hw
      exact ⟨l, List.mem_cons_of_mem _ hl, hinput.trans (goto_input l pc).symm⟩
    received := fun j x hx => by
      obtain ⟨l, hl, hinput⟩ := h.received j x hx
      exact ⟨l, List.mem_cons_of_mem _ hl, (goto_input l pc).trans hinput⟩
    given := fun l hl => by
      rw [goto_input]
      exact h.given l hl
    delivered := fun j l hl => by
      rw [goto_input]
      exact h.delivered j l (by simpa using hl)
    results := fun l => by
      by_cases hl : l = k
      · subst hl
        simp only [goto_self]
        refine ⟨fun hb => ⟨[], s.log, rfl, ?_⟩, fun result hr => ⟨[], s.log, rfl, ?_⟩⟩
        · exact fun hnone => hbusy hb (hwaiting.mpr hnone)
        · rw [hresult result hr, hwaiting]
      · rw [goto_of_ne hl]
        exact h.results_cons _ l }

omit [DecidableEq α] in
/-- A call of `notify_all` goes on in its list, or returns at the end of it. -/
theorem goes (h : Inv s place lists) (hbusy : (s.notifies k).pc.Busy) {pc : NotifyPc α}
    (hwalks : pc.Walks s.subscribers.stack.next s.input (s.notifies k).input (lists k))
    (hpop : ∀ d, pc ≠ .pop d) (hresult : pc ≠ .returned false) :
    Inv (s.goto k pc) place lists := by
  have hk : k < s.taken := h.lt_taken (by
    intro heq
    simp [heq, NotifyPc.Busy] at hbusy)
  have hpops : ∀ l d, ((s.goto k pc).notifies l).pc = .pop d → (s.notifies l).pc = .pop d := by
    intro l d hl
    by_cases hlk : l = k
    · subst hlk
      exact absurd (by simpa using hl) (hpop d)
    · rwa [goto_of_ne hlk] at hl
  exact { h with
    pop := fun l d hl => h.pop l d (hpops l d hl)
    pop_inj := fun l m d hl hm => h.pop_inj l m d (hpops l d hl) (hpops m d hm)
    begun := fun l hl => by
      have hlk : l ≠ k := by
        rintro rfl
        exact hk.not_ge hl
      rw [goto_of_ne hlk]
      exact h.begun l hl
    walks := fun l => by
      by_cases hl : l = k
      · subst hl
        rw [goto_self]
        exact hwalks
      · rw [goto_of_ne hl]
        exact h.walks l
    inputs := fun w hw => by
      obtain ⟨l, hl, hinput⟩ := h.inputs w hw
      exact ⟨l, hl, hinput.trans (goto_input l pc).symm⟩
    received := fun j x hx => by
      obtain ⟨l, hl, hinput⟩ := h.received j x hx
      exact ⟨l, hl, (goto_input l pc).trans hinput⟩
    given := fun l hl => by
      rw [goto_input]
      exact h.given l hl
    delivered := fun j l hl => by
      rw [goto_input]
      exact h.delivered j l hl
    results := fun l => by
      by_cases hl : l = k
      · subst hl
        obtain ⟨later, earlier, hsplit, hne⟩ := (h.results l).1 hbusy
        refine ⟨fun _ => ⟨later, earlier, hsplit, hne⟩, fun result hr => ⟨later, earlier, hsplit, ?_⟩⟩
        have hpc : pc = .returned result := by simpa using hr
        have htrue : result ≠ false := by
          rintro rfl
          exact hresult hpc
        exact iff_of_false htrue hne
      · rw [goto_of_ne hl]
        exact h.results l }

/-- The `input` is written of a node that no call needs any more, or that its
call has not passed yet. -/
theorem writes (h : Inv s place lists) {x : Option I} (hattached : v ∉ s.attached)
    (hwalks : ∀ k, v ∈ lists k → ∃ top, (s.notifies k).pc = .loop top) :
    Inv { s with input := Function.update s.input v x } place lists := by
  exact { h with
    walks := fun k => by
      by_cases hv : v ∈ lists k
      · obtain ⟨top, hpc⟩ := hwalks k hv
        have hold := h.walks k
        rw [hpc] at hold
        dsimp only
        rw [hpc]
        exact hold
      · refine (h.walks k).congr (fun _ _ => rfl) fun w hw => Function.update_of_ne ?_ ..
        rintro rfl
        exact hv hw
    inputs := fun w hw => by
      have hwv : w ≠ v := by
        rintro rfl
        exact hattached hw
      simpa [hwv] using h.inputs w hw }

/-- The first node of the list is attached; its coroutine may be resumed. -/
theorem attaches (h : Inv s place lists) {next : Option (Node α)}
    (hpc : (s.notifies k).pc = .attach (.of v) next) :
    ∃ rest, Inv ({ s with attached := v :: s.attached, log := .attaches (s.task v) k :: s.log }.goto k
      (.loop next)) (Function.update place v .executor) (Function.update lists k rest) := by
  have hwalks := h.walks k
  rw [hpc] at hwalks
  obtain ⟨w, rest, heq, hlist, hlinked, hinput⟩ := hwalks
  cases heq
  have hplace : place v = .notify k := (h.mem_lists k v).mp (by simp [hlist])
  have hnodup := h.lists_nodup k
  rw [hlist] at hnodup
  obtain ⟨hrest, hrest_nodup⟩ := List.nodup_cons.mp hnodup
  have hremaining := h.remaining k
  rw [hlist, List.map_cons] at hremaining
  have hk : k < s.taken := h.lt_taken (by simp [hpc])
  have hbusy := (h.results k).1 (by simp [hpc, NotifyPc.Busy])
  have hpops : ∀ l d, (({ s with
      attached := v :: s.attached
      log := waiters.Event.attaches (s.task v) k :: s.log }.goto k (.loop next)).notifies l).pc = .pop d →
      l ≠ k ∧ (s.notifies l).pc = .pop d := by
    intro l d hl
    by_cases hlk : l = k
    · subst hlk
      simp at hl
    · rw [goto_of_ne hlk] at hl
      exact ⟨hlk, hl⟩
  have hkept : ∀ w, Function.update place v .executor w ≠ .free → place w ≠ .free := by
    intro w hw
    by_cases hwv : w = v
    · simp [hwv, hplace]
    · rwa [Function.update_of_ne hwv] at hw
  refine ⟨rest, { h with
    busy := fun w => ?_
    mem_lists := fun l w => ?_
    attached := fun w => ?_
    used := fun w => ?_
    lists_nodup := fun l => ?_
    attached_nodup := ?_
    task_lt := fun w hw => h.task_lt w (hkept w hw)
    task_inj := fun w x hw hx => h.task_inj w x (hkept w hw) (hkept x hx)
    pop := fun l d hl => ?_
    pop_inj := fun l m d hl hm => h.pop_inj l m d (hpops l d hl).2 (hpops m d hm).2
    begun := fun l hl => ?_
    walks := fun l => ?_
    remaining := fun l => ?_
    lawful := ⟨⟨rest.map s.task, hremaining.symm⟩, h.lawful⟩
    entering := fun d w hw => ?_
    entered := fun j hj => h.entered j (by simpa using hj)
    started := fun l hl => h.started l (by simpa using hl)
    attacher := fun j l hl => ?_
    inputs := fun w hw => ?_
    received := fun j x hx => ?_
    given := fun l hl => by
      rw [goto_input]
      exact h.given l hl
    delivered := fun j l hl => ?_
    results := fun l => ?_ }⟩
  · by_cases hwv : w = v
    · subst hwv
      have hnot := h.busy w
      simpa [hplace] using hnot
    · simpa [hwv] using h.busy w
  · by_cases hl : l = k
    · subst hl
      by_cases hwv : w = v
      · subst hwv
        simpa using hrest
      · have hold := h.mem_lists l w
        simpa [hlist, hwv] using hold
    · rw [Function.update_of_ne hl]
      by_cases hwv : w = v
      · subst hwv
        simp [h.mem_lists l, hplace, Ne.symm hl]
      · rw [Function.update_of_ne hwv]
        exact h.mem_lists l w
  · by_cases hwv : w = v
    · subst hwv
      simp [State.goto]
    · simpa [State.goto, hwv] using h.attached w
  · by_cases hwv : w = v
    · subst hwv
      simpa [State.goto, hplace] using h.used w
    · simpa [State.goto, hwv] using h.used w
  · by_cases hl : l = k
    · subst hl
      simpa using hrest_nodup
    · simpa [hl] using h.lists_nodup l
  · refine List.nodup_cons.mpr ⟨fun hmem => ?_, h.attached_nodup⟩
    cases hplace.symm.trans ((h.attached v).mp hmem)
  · obtain ⟨hcall, hnot⟩ := h.pop l d (hpops l d hl).2
    exact ⟨hcall, by simpa using hnot⟩
  · have hlk : l ≠ k := by
      rintro rfl
      exact hk.not_ge hl
    rw [goto_of_ne hlk]
    exact h.begun l hl
  · by_cases hl : l = k
    · subst hl
      rw [goto_self, Function.update_self]
      exact hlinked
    · rw [goto_of_ne hl, Function.update_of_ne hl]
      exact h.walks l
  · by_cases hl : l = k
    · subst hl
      simp [waiters.remaining, ← hremaining, State.goto]
    · simpa [waiters.remaining, hl, Ne.symm hl, State.goto] using h.remaining l
  · simpa [State.goto] using h.entering d w hw
  · rcases List.mem_cons.mp hl with heq | hl
    · cases heq
      exact hk
    · exact h.attacher j l hl
  · rcases List.mem_cons.mp hw with rfl | hw
    · exact ⟨k, List.mem_cons_self .., hinput.trans (goto_input k _).symm⟩
    · obtain ⟨l, hl, hold⟩ := h.inputs w hw
      exact ⟨l, List.mem_cons_of_mem _ hl, hold.trans (goto_input l _).symm⟩
  · obtain ⟨l, hl, hold⟩ := h.received j x hx
    exact ⟨l, List.mem_cons_of_mem _ hl, (goto_input l _).trans hold⟩
  · rw [goto_input]
    rcases List.mem_cons.mp hl with heq | hl
    · cases heq
      exact Or.inl ⟨v, List.mem_cons_self .., rfl⟩
    · rcases h.delivered j l hl with ⟨w, hw, heq⟩ | hreceived
      · exact Or.inl ⟨w, List.mem_cons_of_mem _ hw, heq⟩
      · exact Or.inr hreceived
  · by_cases hl : l = k
    · subst hl
      obtain ⟨later, earlier, hsplit, hne⟩ := hbusy
      refine ⟨fun _ => ⟨.attaches (s.task v) l :: later, earlier, ?_, hne⟩, fun result hr => ?_⟩
      · rw [goto_log, hsplit]
        rfl
      · simp at hr
    · rw [goto_of_ne hl]
      exact h.results_cons _ l

/-- A call of `notify_all` does its next step. -/
theorem run (h : Inv s place lists) (hstep : event.run s k = some s') :
    ∃ place' lists', Inv s' place' lists' := by
  have hwalks := h.walks k
  unfold event.run at hstep
  cases hpc : (s.notifies k).pc with
  | idle => simp [hpc] at hstep
  | pop c =>
    simp only [hpc, Option.map_eq_some_iff] at hstep
    obtain ⟨t, ht, rfl⟩ := hstep
    have hlinked := h.stack.linked h.opened
    cases htop : s.subscribers.stack.top with
    | none =>
      rw [htop] at hlinked
      have hnone : content s.subscribers.log = [] := by
        cases hcontent : content s.subscribers.log with
        | nil => rfl
        | cons v rest =>
          rw [hcontent] at hlinked
          cases hlinked.1
      exact ⟨_, _, h.pops hpc ht hnone (by simp) False.elim fun result hr => by cases hr; simp [hnone]⟩
    | some top =>
      rw [htop] at hlinked
      have hsome : content s.subscribers.log ≠ [] := by
        intro hnone
        rw [hnone] at hlinked
        cases hlinked
      exact ⟨_, _, h.pops hpc ht hlinked (by simp) (fun _ => hsome) (by simp)⟩
  | loop top =>
    rw [hpc] at hwalks
    have hbusy : (s.notifies k).pc.Busy := by simp [hpc, NotifyPc.Busy]
    cases top with
    | none =>
      simp only [hpc, Option.some.injEq] at hstep
      subst hstep
      have hnone : lists k = [] := by
        cases hlist : lists k with
        | nil => rfl
        | cons v rest =>
          rw [hlist] at hwalks
          cases hwalks.1
      exact ⟨place, lists, h.goes hbusy hnone (by simp) (by simp)⟩
    | some node =>
      cases hlist : lists k with
      | nil =>
        rw [hlist] at hwalks
        cases hwalks
      | cons v rest =>
        rw [hlist] at hwalks
        obtain rfl : node = .of v := Option.some.inj hwalks.1
        simp only [hpc, Option.some.injEq] at hstep
        subst hstep
        have hplace : place v = .notify k := (h.mem_lists k v).mp (by simp [hlist])
        have hwritten : Inv { s with input := Function.update s.input v (s.notifies k).input } place lists := by
          apply h.writes
          · intro hmem
            cases hplace.symm.trans ((h.attached v).mp hmem)
          · intro l hl
            have heq := hplace.symm.trans ((h.mem_lists l v).mp hl)
            cases heq
            exact ⟨_, hpc⟩
        refine ⟨place, lists, hwritten.goes hbusy ?_ (by simp) (by simp)⟩
        refine ⟨v, rest, rfl, hlist, ?_, Function.update_self ..⟩
        rw [hlist]
        exact hwalks
  | next top =>
    simp only [hpc, Option.some.injEq] at hstep
    subst hstep
    rw [hpc] at hwalks
    obtain ⟨v, rest, rfl, hlist, hlinked, hinput⟩ := hwalks
    rw [hlist] at hlinked
    refine ⟨place, lists, h.goes (by simp [hpc, NotifyPc.Busy]) ?_ (by simp) (by simp)⟩
    exact ⟨v, rest, rfl, hlist, hlinked.2, hinput⟩
  | attach top next =>
    cases top with
    | closed_marker => simp [hpc] at hstep
    | of v =>
      simp only [hpc, Option.some.injEq] at hstep
      subst hstep
      obtain ⟨rest, h'⟩ := h.attaches hpc
      exact ⟨_, _, h'⟩
  | returned result => simp [hpc] at hstep

/-- A coroutine is resumed with its input; its node is free again. -/
theorem resume (h : Inv s place lists) (hstep : event.resume s v = some s') :
    Inv s' (Function.update place v .free) lists := by
  simp only [event.resume, Option.ite_none_right_eq_some, Option.some.injEq] at hstep
  obtain ⟨hattached, rfl⟩ := hstep
  have hplace : place v = .executor := (h.attached v).mp hattached
  have hkept : ∀ w, Function.update place v .free w ≠ .free → place w ≠ .free ∧ w ≠ v := by
    intro w hw
    by_cases hwv : w = v
    · simp [hwv] at hw
    · exact ⟨by rwa [Function.update_of_ne hwv] at hw, hwv⟩
  have hmem : ∀ w p, p ≠ .executor → p ≠ .free → (Function.update place v .free w = p ↔ place w = p) := by
    intro w p hp hp'
    by_cases hwv : w = v
    · subst hwv
      simp [hplace, hp.symm, hp'.symm]
    · simp [hwv]
  exact { h with
    busy := fun w => (h.busy w).trans (hmem w .stack (by simp) (by simp)).symm
    mem_lists := fun k w => (h.mem_lists k w).trans (hmem w (.notify k) (by simp) (by simp)).symm
    attached := fun w => by
      by_cases hwv : w = v
      · subst hwv
        simpa using h.attached_nodup.not_mem_erase
      · simpa [hwv, List.mem_erase_of_ne hwv] using h.attached w
    used := fun w => by
      by_cases hwv : w = v
      · subst hwv
        simp
      · simpa [hwv] using h.used w
    attached_nodup := h.attached_nodup.erase v
    task_lt := fun w hw => h.task_lt w (hkept w hw).1
    task_inj := fun w x hw hx => h.task_inj w x (hkept w hw).1 (hkept x hx).1
    inputs := fun w hw => h.inputs w (List.mem_of_mem_erase hw)
    received := fun j x hx => by
      by_cases hj : j = s.task v
      · subst hj
        obtain ⟨k, hk, hinput⟩ := h.inputs v hattached
        dsimp only at hx
        rw [Function.update_self] at hx
        exact ⟨k, hk, hinput.symm.trans hx⟩
      · exact h.received j x (by simpa [hj] using hx)
    delivered := fun j k hk => by
      dsimp only
      by_cases hj : j = s.task v
      · subst hj
        obtain ⟨l, hl, hinput⟩ := h.inputs v hattached
        have hplaced := placed_of_lawful (fun l => List.Perm.refl l) h.lawful
        have heq := ((hplaced.attached _ k).mp hk).symm.trans ((hplaced.attached _ l).mp hl)
        cases heq
        obtain ⟨x, hx⟩ := h.given k (h.attacher _ k hk)
        exact Or.inr ⟨x, by rw [Function.update_self, hinput, hx], hx⟩
      · rw [Function.update_of_ne hj]
        rcases h.delivered j k hk with ⟨w, hw, heq⟩ | hreceived
        · refine Or.inl ⟨w, (List.mem_erase_of_ne ?_).mpr hw, heq⟩
          rintro rfl
          exact hj heq.symm
        · exact Or.inr hreceived }

/-- The links of nodes that are no subscribers any more are not looked at. -/
theorem relink (h : Inv s place lists) {next : Option (Node α)} (hstep : event.relink s v next = some s') :
    Inv s' place lists := by
  simp only [event.relink, Option.ite_none_right_eq_some, Option.map_eq_some_iff] at hstep
  obtain ⟨hfree, t, ht, rfl⟩ := hstep
  have hplace : place v = .free ∨ place v = .executor := by
    rcases hfree with hfree | hattached
    · refine Or.inl ?_
      by_contra hne
      simp [(h.used v).mpr hne] at hfree
    · exact Or.inr ((h.attached v).mp hattached)
  have hbusy : s.subscribers.busy v = false := by
    by_contra hb
    simp only [Bool.not_eq_false] at hb
    have hstack := (h.busy v).mp hb
    rcases hplace with hplace | hplace <;> cases hplace.symm.trans hstack
  have hstack := stack_step h (show Allowed s.subscribers (.link v next) from hbusy) ht
  simp only [step, Option.some.injEq] at ht
  subst ht
  have hlists : ∀ k, v ∉ lists k := by
    intro k hmem
    have hnotify := (h.mem_lists k v).mp hmem
    rcases hplace with hplace | hplace <;> cases hplace.symm.trans hnotify
  exact { h with
    stack := hstack
    walks := fun k => by
      refine (h.walks k).congr (fun w hw => Function.update_of_ne ?_ ..) fun _ _ => rfl
      intro heq
      cases heq
      exact hlists k hw }

theorem overwrite (h : Inv s place lists) {x : Option I} (hstep : event.overwrite s v x = some s') :
    Inv s' place lists := by
  simp only [event.overwrite, Option.ite_none_left_eq_some, Option.some.injEq] at hstep
  obtain ⟨hfree, rfl⟩ := hstep
  have hplace : place v = .free := by
    by_contra hne
    exact hfree ((h.used v).mpr hne)
  apply h.writes
  · intro hmem
    cases hplace.symm.trans ((h.attached v).mp hmem)
  · intro k hmem
    cases hplace.symm.trans ((h.mem_lists k v).mp hmem)

theorem step (h : Inv s place lists) {a : Act α I} (hstep : Step s a s') :
    ∃ place' lists', Inv s' place' lists' := by
  cases a with
  | subscribe v => exact ⟨_, _, h.subscribe hstep⟩
  | push c => exact ⟨_, _, h.push (Or.inl rfl) hstep⟩
  | push_spurious c => exact ⟨_, _, h.push (Or.inr rfl) hstep⟩
  | notify_all input => exact ⟨_, _, h.notify_all hstep⟩
  | run k => exact h.run hstep
  | resume v => exact ⟨_, _, h.resume hstep⟩
  | relink v next => exact ⟨_, _, h.relink hstep⟩
  | overwrite v input => exact ⟨_, _, h.overwrite hstep⟩

end Inv

theorem inv_of_run {as : List (Act α I)} (hrun : Run Step construct as s) :
    ∃ place lists, Inv s place lists := by
  apply hrun.invariant fun s => ∃ place lists, Inv s place lists
  · rintro s a s' ⟨place, lists, h⟩ hstep
    exact h.step hstep
  · exact ⟨_, _, construct_inv⟩

end kelcoro.event
