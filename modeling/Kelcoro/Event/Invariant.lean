import Kelcoro.Event.Model
import Kelcoro.NonownerLockfreeStack.Delivered
import Mathlib

namespace kelcoro.event

open kelcoro.lib kelcoro.lib.waiters kelcoro.nonowner_lockfree_stack

/-- Who has a node: nobody, the stack of subscribers or a push to it, a call of
`notify_all`, or the executor. -/
inductive Place where
  | free
  | stack
  | notify (k : Nat)
  | executor
  deriving DecidableEq

/-- Where a call of `notify_all` is in the list that it has taken. -/
def NotifyPc.Walks {α I : Type} (next : Node α → Option (Node α)) (input : α → Option I) (x : Option I)
    (rest : List α) : NotifyPc α → Prop
  | .idle | .pop _ | .returned _ => rest = []
  | .loop top => Linked next top (rest.map .of)
  | .next top => ∃ v rest', top = .of v ∧ rest = v :: rest' ∧ Linked next (some top) (rest.map .of) ∧ input v = x
  | .attach top n => ∃ v rest', top = .of v ∧ rest = v :: rest' ∧ Linked next n (rest'.map .of) ∧ input v = x

/-- The call has taken a list that is not empty. -/
def NotifyPc.Busy {α : Type} : NotifyPc α → Prop
  | .loop _ | .next _ | .attach _ _ => True
  | _ => False

/-- An event only pushes single nodes on its stack and pops it. -/
def Subscribes {α : Type} : Pc α → Prop
  | .push_load _ | .push_exchange _ | .pop | .returned => True
  | _ => False

variable {α I : Type} [DecidableEq α]

/-- What holds of an event at any time, where `place` tells who has a node, and
`lists` which nodes a call of `notify_all` has still to attach. -/
structure Inv (s : State α I) (place : α → Place) (lists : Nat → List α) : Prop where
  stack : nonowner_lockfree_stack.Inv s.subscribers
  opened : s.subscribers.stack.top ≠ some .closed_marker
  calls : ∀ c, Subscribes (s.subscribers.calls c).pc
  busy : ∀ v, s.subscribers.busy v = true ↔ place v = .stack
  mem_lists : ∀ k v, v ∈ lists k ↔ place v = .notify k
  attached : ∀ v, v ∈ s.attached ↔ place v = .executor
  used : ∀ v, s.used v = true ↔ place v ≠ .free
  lists_nodup : ∀ k, (lists k).Nodup
  attached_nodup : s.attached.Nodup
  task_lt : ∀ v, place v ≠ .free → s.task v < s.entered
  task_inj : ∀ v w, place v ≠ .free → place w ≠ .free → s.task v = s.task w → v = w
  pop : ∀ k c, (s.notifies k).pc = .pop c → (s.subscribers.calls c).pc = .pop ∧ .takes k ∉ s.log
  pop_inj : ∀ k l c, (s.notifies k).pc = .pop c → (s.notifies l).pc = .pop c → k = l
  begun : ∀ k, s.taken ≤ k → (s.notifies k).pc = .idle
  walks : ∀ k, (s.notifies k).pc.Walks s.subscribers.stack.next s.input (s.notifies k).input (lists k)
  waiting : (content s.subscribers.log).map s.task = waiting s.log
  remaining : ∀ k, (lists k).map s.task = remaining id k s.log
  lawful : Lawful (Follows id) s.log
  entering : ∀ c v, v ∈ (s.subscribers.calls c).nodes → .enters (s.task v) ∉ s.log
  entered : ∀ j, .enters j ∈ s.log → j < s.entered
  started : ∀ k, .takes k ∈ s.log → k < s.taken
  attacher : ∀ j k, .attaches j k ∈ s.log → k < s.taken
  inputs : ∀ v ∈ s.attached, ∃ k, .attaches (s.task v) k ∈ s.log ∧ s.input v = (s.notifies k).input
  received : ∀ j x, s.received j = some x → ∃ k, .attaches j k ∈ s.log ∧ (s.notifies k).input = some x
  given : ∀ k, k < s.taken → ∃ x, (s.notifies k).input = some x
  delivered : ∀ j k, .attaches j k ∈ s.log →
    (∃ v ∈ s.attached, s.task v = j) ∨ ∃ x, s.received j = some x ∧ (s.notifies k).input = some x
  results : ∀ k, ((s.notifies k).pc.Busy → ∃ later earlier, s.log = later ++ .takes k :: earlier ∧
      waiters.waiting earlier ≠ []) ∧
    ∀ result, (s.notifies k).pc = .returned result → ∃ later earlier,
      s.log = later ++ .takes k :: earlier ∧ (result = false ↔ waiters.waiting earlier = [])

variable {s s' : State α I} {place : α → Place} {lists : Nat → List α} {v : α} {k c : Nat}

omit [DecidableEq α] in
theorem construct_inv : Inv (construct : State α I) (fun _ => .free) (fun _ => []) := by
  constructor <;>
    simp [construct, nonowner_lockfree_stack.construct, Stack.construct, nonowner_lockfree_stack.idle,
      Subscribes, NotifyPc.Walks, NotifyPc.Busy, content, waiters.waiting, waiters.remaining]
  exact nonowner_lockfree_stack.construct_inv false

omit [DecidableEq α] in
theorem NotifyPc.Walks.congr {next next' : Node α → Option (Node α)} {input input' : α → Option I}
    {x : Option I} {nodes : List α} {pc : NotifyPc α} (h : pc.Walks next input x nodes)
    (hnext : ∀ v ∈ nodes, next' (.of v) = next (.of v)) (hinput : ∀ v ∈ nodes, input' v = input v) :
    pc.Walks next' input' x nodes := by
  have hlinks : ∀ y ∈ nodes.map Node.of, next' y = next y := by
    intro y hy
    obtain ⟨v, hv, rfl⟩ := List.mem_map.mp hy
    exact hnext v hv
  cases pc with
  | loop top => exact Segment.congr h hlinks
  | next top =>
    obtain ⟨v, rest, rfl, rfl, hlinked, hx⟩ := h
    exact ⟨v, rest, rfl, rfl, hlinked.congr hlinks, (hinput v (by simp)).trans hx⟩
  | attach top n =>
    obtain ⟨v, rest, rfl, rfl, hlinked, hx⟩ := h
    refine ⟨v, rest, rfl, rfl, hlinked.congr fun y hy => hlinks y ?_, (hinput v (by simp)).trans hx⟩
    exact List.mem_cons_of_mem _ hy
  | _ => exact h

/-- What a step of a push does: it goes on, or the node is in the stack. -/
theorem push_moves {t t' : nonowner_lockfree_stack.State α} {a : Action α}
    (h : nonowner_lockfree_stack.Inv t) (hcalls : Subscribes (t.calls c).pc)
    (hnodes : (t.calls c).nodes = [v]) (ha : a = .run c ∨ a = .spurious c) (hstep : step t a = some t') :
    t'.busy = t.busy ∧ t'.begun = t.begun ∧ (∀ d, d ≠ c → t'.calls d = t.calls d) ∧
      (t'.log = t.log ∧ (t'.calls c).nodes = [v] ∧ (t'.calls c).pc = .push_exchange v ∨
        t'.log = .pushed [v] :: t.log ∧ t'.calls c = nonowner_lockfree_stack.idle) := by
  have hcarries := h.carries c
  have hgoto : ∀ pc d, d ≠ c → Function.update t.calls c { t.calls c with pc := pc } d = t.calls d :=
    fun pc d hd => Function.update_of_ne hd ..
  cases hpc : (t.calls c).pc with
  | push_load w =>
    rw [hpc] at hcarries
    obtain rfl : v = w := by
      cases hnodes.symm.trans hcarries
      rfl
    rcases ha with rfl | rfl
    · simp only [step, nonowner_lockfree_stack.run, hpc, Option.some.injEq] at hstep
      subst hstep
      refine ⟨rfl, rfl, hgoto _, Or.inl ⟨rfl, ?_, ?_⟩⟩
      · simp [nonowner_lockfree_stack.State.goto, hnodes]
      · simp [nonowner_lockfree_stack.State.goto]
    · simp [step, spurious, hpc] at hstep
  | push_exchange w =>
    rw [hpc] at hcarries
    obtain rfl : v = w := by
      cases hnodes.symm.trans hcarries
      rfl
    rcases ha with rfl | rfl
    · simp only [step, nonowner_lockfree_stack.run, hpc, Stack.compare_exchange] at hstep
      by_cases htop : t.stack.top = t.stack.next (.of v)
      · simp only [if_pos htop, Option.some.injEq] at hstep
        subst hstep
        refine ⟨rfl, rfl, fun d hd => Function.update_of_ne hd .., Or.inr ⟨?_, ?_⟩⟩
        · simp [nonowner_lockfree_stack.State.pushed, hnodes]
        · simp [nonowner_lockfree_stack.State.pushed]
      · simp only [if_neg htop, Option.some.injEq] at hstep
        subst hstep
        exact ⟨rfl, rfl, fun _ _ => rfl, Or.inl ⟨rfl, hnodes, hpc⟩⟩
    · simp only [step, spurious, hpc, Option.some.injEq] at hstep
      subst hstep
      exact ⟨rfl, rfl, fun _ _ => rfl, Or.inl ⟨rfl, hnodes, hpc⟩⟩
  | pop =>
    rw [hpc] at hcarries
    cases hnodes.symm.trans hcarries
  | returned =>
    rw [hpc] at hcarries
    cases hnodes.symm.trans hcarries
  | _ => simp [Subscribes, hpc] at hcalls

/-- The stack of an event stays open: what is done to it needs it open. -/
theorem stack_step (h : Inv s place lists) {a : Action α} {t : nonowner_lockfree_stack.State α}
    (hallowed : Allowed s.subscribers a) (hstep : step s.subscribers a = some t) :
    nonowner_lockfree_stack.Inv t :=
  h.stack.step ⟨hallowed, hstep⟩

theorem allowed_run (h : Inv s place lists) (c : Nat) : Allowed s.subscribers (.run c) := by
  intro hclose
  have hcalls := h.calls c
  simp [hclose, Subscribes] at hcalls

theorem not_closed (h : Inv s place lists) : s.subscribers.stack.closed = false := by
  simpa [Stack.closed] using h.opened

omit [DecidableEq α] in
theorem place_of_mem_content (h : Inv s place lists) (hv : v ∈ content s.subscribers.log) :
    place v = .stack :=
  (h.busy v).mp ((h.stack.busy v).mpr (Or.inl hv))

omit [DecidableEq α] in
theorem place_of_mem_nodes (h : Inv s place lists) (hv : v ∈ (s.subscribers.calls c).nodes) :
    place v = .stack :=
  (h.busy v).mp ((h.stack.busy v).mpr (Or.inr ⟨c, hv⟩))

/-- Nodes with a place that the step does not touch keep their links. -/
theorem links_kept (h : Inv s place lists) {a : Action α} {t : nonowner_lockfree_stack.State α}
    (hallowed : Allowed s.subscribers a) (hstep : step s.subscribers a = some t)
    (hlink : ∀ node next, a ≠ .link node next) (hv : v ∈ lists k) :
    t.stack.next (.of v) = s.subscribers.stack.next (.of v) := by
  apply h.stack.free_links ⟨hallowed, hstep⟩
  · have hplace := (h.mem_lists k v).mp hv
    by_contra hbusy
    simp only [Bool.not_eq_false] at hbusy
    cases hplace.symm.trans ((h.busy v).mp hbusy)
  · exact fun next => hlink v next

theorem map_task_update {task : α → Nat} {j : Nat} {nodes : List α} (hv : v ∉ nodes) :
    nodes.map (Function.update task v j) = nodes.map task := by
  apply List.map_congr_left
  intro x hx
  apply Function.update_of_ne
  rintro rfl
  exact hv hx

namespace Inv

/-- A coroutine is about to subscribe with a node that is not in use. -/
theorem subscribe (h : Inv s place lists) (hstep : event.subscribe s v = some s') :
    Inv s' (Function.update place v .stack) lists := by
  simp only [event.subscribe, Option.ite_none_left_eq_some, Option.map_eq_some_iff, Bool.not_eq_true] at hstep
  obtain ⟨hfree, t, ht, rfl⟩ := hstep
  have hplace : place v = .free := by
    by_contra hne
    simp [(h.used v).mpr hne] at hfree
  have hbusy : s.subscribers.busy v = false := by
    by_contra hb
    simp only [Bool.not_eq_false] at hb
    cases hplace.symm.trans ((h.busy v).mp hb)
  have hstack := stack_step h (show Allowed s.subscribers (.call (.push v)) from ⟨not_closed h, hbusy⟩) ht
  simp only [step, Option.some.injEq] at ht
  subst ht
  have hcontent : v ∉ content s.subscribers.log := fun hmem => by
    cases hplace.symm.trans (place_of_mem_content h hmem)
  have hlists : ∀ k, v ∉ lists k := fun k hmem => by
    cases hplace.symm.trans ((h.mem_lists k v).mp hmem)
  have hattached : v ∉ s.attached := fun hmem => by
    cases hplace.symm.trans ((h.attached v).mp hmem)
  have hnew : .enters s.entered ∉ s.log := fun hmem => lt_irrefl _ (h.entered _ hmem)
  have htask : ∀ w, w ≠ v → Function.update s.task v s.entered w = s.task w := fun w hw =>
    Function.update_of_ne hw ..
  have hmem : ∀ w p, p ≠ .stack → p ≠ .free → (Function.update place v .stack w = p ↔ place w = p) := by
    intro w p hp hp'
    by_cases hw : w = v
    · subst hw
      simp [hplace, hp.symm, hp'.symm]
    · simp [hw]
  exact { h with
    stack := hstack
    calls := fun c => by
      by_cases hc : c = s.subscribers.begun
      · subst hc
        simp [Op.start, Subscribes]
      · simpa [hc] using h.calls c
    busy := fun w => by
      by_cases hw : w = v
      · subst hw
        simp [Op.start]
      · simpa [Op.start, hw] using h.busy w
    mem_lists := fun k w => by
      rw [hmem w (.notify k) (by simp) (by simp)]
      exact h.mem_lists k w
    attached := fun w => by
      rw [hmem w .executor (by simp) (by simp)]
      exact h.attached w
    used := fun w => by
      by_cases hw : w = v
      · subst hw
        simp
      · simpa [hw] using h.used w
    task_lt := fun w hw => by
      by_cases hwv : w = v
      · subst hwv
        simp
      · rw [Function.update_of_ne hwv] at hw
        dsimp only
        rw [htask w hwv]
        exact Nat.lt_succ_of_lt (h.task_lt w hw)
    task_inj := fun w x hw hx heq => by
      dsimp only at heq
      by_cases hwv : w = v
      · by_cases hxv : x = v
        · rw [hwv, hxv]
        · rw [Function.update_of_ne hxv] at hx
          rw [hwv, Function.update_self, htask x hxv] at heq
          exact absurd (h.task_lt x hx) (by omega)
      · rw [Function.update_of_ne hwv] at hw
        by_cases hxv : x = v
        · rw [hxv, Function.update_self, htask w hwv] at heq
          exact absurd (h.task_lt w hw) (by omega)
        · rw [Function.update_of_ne hxv] at hx
          rw [htask w hwv, htask x hxv] at heq
          exact h.task_inj w x hw hx heq
    pop := fun k c hc => by
      obtain ⟨hpop, hnot⟩ := h.pop k c hc
      have hne : c ≠ s.subscribers.begun := by
        rintro rfl
        simp [h.stack.not_begun _ le_rfl, nonowner_lockfree_stack.idle] at hpop
      exact ⟨by simpa [hne] using hpop, hnot⟩
    waiting := (map_task_update hcontent).trans h.waiting
    remaining := fun k => (map_task_update (hlists k)).trans (h.remaining k)
    entering := fun c w hw => by
      by_cases hc : c = s.subscribers.begun
      · subst hc
        obtain rfl : w = v := by simpa [Op.start] using hw
        simpa using hnew
      · have hold : w ∈ (s.subscribers.calls c).nodes := by simpa [hc] using hw
        have hwv : w ≠ v := by
          rintro rfl
          cases hplace.symm.trans (place_of_mem_nodes h hold)
        dsimp only
        rw [htask w hwv]
        exact h.entering c w hold
    entered := fun j hj => Nat.lt_succ_of_lt (h.entered j hj)
    inputs := fun w hw => by
      dsimp only
      rw [htask w (by rintro rfl; exact hattached hw)]
      exact h.inputs w hw
    delivered := fun j k hk => by
      rcases h.delivered j k hk with ⟨w, hw, heq⟩ | hreceived
      · refine Or.inl ⟨w, hw, (htask w ?_).trans heq⟩
        rintro rfl
        exact hattached hw
      · exact Or.inr hreceived }

omit [DecidableEq α] in
/-- More is logged; the calls of `notify_all` are where they were. -/
theorem results_cons (h : Inv s place lists) (e : waiters.Event) (k : Nat) :
    ((s.notifies k).pc.Busy → ∃ later earlier, e :: s.log = later ++ .takes k :: earlier ∧
        waiters.waiting earlier ≠ []) ∧
      ∀ result, (s.notifies k).pc = .returned result → ∃ later earlier,
        e :: s.log = later ++ .takes k :: earlier ∧ (result = false ↔ waiters.waiting earlier = []) := by
  obtain ⟨hbusy, hresult⟩ := h.results k
  refine ⟨fun hk => ?_, fun result hk => ?_⟩
  · obtain ⟨later, earlier, hsplit, hne⟩ := hbusy hk
    exact ⟨e :: later, earlier, by rw [hsplit]; rfl, hne⟩
  · obtain ⟨later, earlier, hsplit, hiff⟩ := hresult result hk
    exact ⟨e :: later, earlier, by rw [hsplit]; rfl, hiff⟩

/-- A push goes on, or ends with a new subscriber. -/
theorem push (h : Inv s place lists) {a : Action α} (ha : a = .run c ∨ a = .spurious c)
    (hstep : event.push s c a = some s') : Inv s' place lists := by
  unfold event.push at hstep
  split at hstep
  · rename_i v hnodes
    simp only [Option.map_eq_some_iff] at hstep
    obtain ⟨t, ht, rfl⟩ := hstep
    have hallowed : Allowed s.subscribers a := by
      rcases ha with rfl | rfl
      · exact allowed_run h c
      · trivial
    have hstack := stack_step h hallowed ht
    obtain ⟨hbusy, hbegun, hcalls, hmoves⟩ := push_moves h.stack (h.calls c) hnodes ha ht
    have hlink : ∀ node next, a ≠ .link node next := by
      rcases ha with rfl | rfl <;> nofun
    have hnext : ∀ k, ∀ v ∈ lists k, t.stack.next (.of v) = s.subscribers.stack.next (.of v) :=
      fun k v hv => links_kept h hallowed ht hlink hv
    have hwalks : ∀ k, (s.notifies k).pc.Walks t.stack.next s.input (s.notifies k).input (lists k) :=
      fun k => (h.walks k).congr (hnext k) fun _ _ => rfl
    have hpop : ∀ k d, (s.notifies k).pc = .pop d → d ≠ c := by
      rintro k d hd rfl
      have hcarries := h.stack.carries d
      rw [(h.pop k d hd).1] at hcarries
      cases hnodes.symm.trans hcarries
    rcases hmoves with ⟨hlog, hnodes', hpc⟩ | ⟨hlog, hidle⟩
    · simp only [hpc, reduceCtorEq, if_false]
      exact { h with
        stack := hstack
        opened := fun hclosed => by
          have hnone := (hstack.closed hclosed).2 c
          simp [hpc, Pc.NeedsOpen] at hnone
        calls := fun d => by
          by_cases hd : d = c
          · simp [hd, hpc, Subscribes]
          · simpa [hcalls d hd] using h.calls d
        busy := fun w => by simpa [hbusy] using h.busy w
        pop := fun k d hd => by simpa [hcalls d (hpop k d hd)] using h.pop k d hd
        walks := hwalks
        waiting := by simpa [hlog] using h.waiting
        entering := fun d w hw => by
          by_cases hd : d = c
          · subst hd
            have hold : w ∈ (t.calls d).nodes := hw
            rw [hnodes', ← hnodes] at hold
            exact h.entering d w hold
          · exact h.entering d w (by simpa [hcalls d hd] using hw) }
    · simp only [hidle, nonowner_lockfree_stack.idle, if_true]
      have hplace : place v = .stack := place_of_mem_nodes h (c := c) (by simp [hnodes])
      have hnew : .enters (s.task v) ∉ s.log := h.entering c v (by simp [hnodes])
      exact { h with
        stack := hstack
        opened := fun hclosed => by
          have hnone := (hstack.closed hclosed).1
          simp [hlog, content] at hnone
        calls := fun d => by
          by_cases hd : d = c
          · simp [hd, hidle, nonowner_lockfree_stack.idle, Subscribes]
          · simpa [hcalls d hd] using h.calls d
        busy := fun w => by simpa [hbusy] using h.busy w
        pop := fun k d hd => by simpa [hcalls d (hpop k d hd)] using h.pop k d hd
        walks := hwalks
        waiting := by simp [hlog, content, waiters.waiting, h.waiting]
        remaining := h.remaining
        lawful := ⟨hnew, h.lawful⟩
        entering := fun d w hw => by
          have hd : d ≠ c := by
            rintro rfl
            simp [hidle, nonowner_lockfree_stack.idle] at hw
          have hold : w ∈ (s.subscribers.calls d).nodes := by simpa [hcalls d hd] using hw
          have hwv : w ≠ v := by
            rintro rfl
            exact h.stack.apart d c hd hold (by simp [hnodes])
          have htask : s.task w ≠ s.task v := fun heq =>
            hwv (h.task_inj w v (by simp [place_of_mem_nodes h hold]) (by simp [hplace]) heq)
          simpa [htask] using h.entering d w hold
        entered := fun j hj => by
          rcases List.mem_cons.mp hj with heq | hj
          · cases heq
            exact h.task_lt v (by simp [hplace])
          · exact h.entered j hj
        started := fun k hk => h.started k (by simpa using hk)
        attacher := fun j k hk => h.attacher j k (by simpa using hk)
        inputs := fun w hw => by simpa using h.inputs w hw
        received := fun j x hx => by simpa using h.received j x hx
        delivered := fun j k hk => h.delivered j k (by simpa using hk)
        results := h.results_cons _ }
  · cases hstep

/-- A call of `notify_all` begins. -/
theorem notify_all (h : Inv s place lists) {x : I} (hstep : event.notify_all s x = some s') :
    Inv s' place lists := by
  simp only [event.notify_all, Option.map_eq_some_iff] at hstep
  obtain ⟨t, ht, rfl⟩ := hstep
  have hstack := stack_step h (show Allowed s.subscribers (.call .try_pop_all) from not_closed h) ht
  simp only [step, Option.some.injEq] at ht
  subst ht
  have hidle : (s.notifies s.taken).pc = .idle := h.begun _ le_rfl
  have hother : ∀ k, k ≠ s.taken → Function.update s.notifies s.taken
      { pc := .pop s.subscribers.begun, input := some x } k = s.notifies k := fun k hk =>
    Function.update_of_ne hk ..
  have hfresh : (s.subscribers.calls s.subscribers.begun).pc = .returned := by
    rw [h.stack.not_begun _ le_rfl]
    rfl
  have hpop : ∀ k d, (s.notifies k).pc = .pop d → d ≠ s.subscribers.begun := by
    rintro k d hd rfl
    cases hfresh.symm.trans (h.pop k _ hd).1
  have hempty : lists s.taken = [] := by
    have hwalks := h.walks s.taken
    rw [hidle] at hwalks
    exact hwalks
  exact { h with
    stack := hstack
    calls := fun c => by
      by_cases hc : c = s.subscribers.begun
      · subst hc
        simp [Op.start, Subscribes]
      · simpa [hc] using h.calls c
    busy := fun w => by simpa [Op.start] using h.busy w
    pop := fun k c hc => by
      by_cases hk : k = s.taken
      · subst hk
        obtain rfl : s.subscribers.begun = c := by simpa using hc
        exact ⟨by simp [Op.start], fun hmem => lt_irrefl _ (h.started _ hmem)⟩
      · have hold : (s.notifies k).pc = .pop c := by simpa [hother k hk] using hc
        exact ⟨by simpa [hpop k c hold] using (h.pop k c hold).1, (h.pop k c hold).2⟩
    pop_inj := fun k l c hk hl => by
      dsimp only at hk hl
      by_cases hkt : k = s.taken
      · by_cases hlt : l = s.taken
        · rw [hkt, hlt]
        · rw [hother l hlt] at hl
          obtain rfl : s.subscribers.begun = c := by simpa [hkt] using hk
          exact absurd rfl (hpop l _ hl)
      · rw [hother k hkt] at hk
        by_cases hlt : l = s.taken
        · obtain rfl : s.subscribers.begun = c := by simpa [hlt] using hl
          exact absurd rfl (hpop k _ hk)
        · rw [hother l hlt] at hl
          exact h.pop_inj k l c hk hl
    begun := fun k hk => by
      dsimp only at hk ⊢
      rw [hother k (by omega)]
      exact h.begun k (by omega)
    walks := fun k => by
      by_cases hk : k = s.taken
      · subst hk
        simpa [NotifyPc.Walks] using hempty
      · simpa [hother k hk] using h.walks k
    entering := fun c w hw => by
      by_cases hc : c = s.subscribers.begun
      · subst hc
        simp [Op.start] at hw
      · exact h.entering c w (by simpa [hc] using hw)
    started := fun k hk => Nat.lt_succ_of_lt (h.started k hk)
    attacher := fun j k hk => Nat.lt_succ_of_lt (h.attacher j k hk)
    inputs := fun w hw => by
      obtain ⟨k, hk, hinput⟩ := h.inputs w hw
      refine ⟨k, hk, ?_⟩
      dsimp only
      rw [hother k (h.attacher _ k hk).ne]
      exact hinput
    received := fun j y hy => by
      obtain ⟨k, hk, hinput⟩ := h.received j y hy
      refine ⟨k, hk, ?_⟩
      dsimp only
      rw [hother k (h.attacher _ k hk).ne]
      exact hinput
    given := fun k hk => by
      by_cases hkt : k = s.taken
      · subst hkt
        exact ⟨x, by simp⟩
      · dsimp only at hk ⊢
        rw [hother k hkt]
        exact h.given k (by omega)
    delivered := fun j k hk => by
      dsimp only
      rw [hother k (h.attacher j k hk).ne]
      exact h.delivered j k hk
    results := fun k => by
      by_cases hk : k = s.taken
      · subst hk
        simp [NotifyPc.Busy]
      · simpa [hother k hk] using h.results k }

end Inv

end kelcoro.event
