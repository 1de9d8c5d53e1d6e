import Kelcoro.ThreadPool.Order
import Mathlib

namespace kelcoro.thread_pool.attach_list

open kelcoro.lib

/-- `operation_hash_t`. -/
abbrev Hash := BitVec 64

def fnv_offset_basis : Hash := 14695981039346656037#64

def fnv_prime : Hash := 1099511628211#64

/-- `do_hash` of a pointer with these bytes. -/
def do_hash (bytes : List (BitVec 8)) : Hash :=
  bytes.foldl (fun val byte => (val ^^^ byte.setWidth 64) * fnv_prime) fnv_offset_basis

/-- `select_queue` of a pool of `n` workers. -/
def select_queue (n : Nat) (op_hash : Hash) : Nat := op_hash.toNat % n

/-- A pool, and an `attach_list(pool, top)` before an iteration of its loop. -/
structure Loop (α : Type) where
  pool : State α
  top : Option α
  hash : Hash

variable {α : Type} [DecidableEq α] {n : Nat}

/-- The loop begins; a pointer is given by its bytes. -/
def begin (bytes : Option α → List (BitVec 8)) (s : State α) (top : Option α) : Loop α :=
  { pool := s, top := top, hash := do_hash (bytes top) }

/-- The loop attaches the node `v` to queue `q`, or something else happens in the
pool. -/
inductive Action (α : Type) where
  | attach (v : α) (q : Nat)
  | other (a : thread_pool.Action α)
  deriving DecidableEq, Repr

/-- The memory that becomes a node or a pill, or is used for something else. -/
def memory : thread_pool.Action α → List α
  | .attach _ v _ | .overwrite v _ _ _ | .destroy v => [v]
  | .push_deadpill _ p u _ => [p, u]
  | .run _ | .wait_stop | .stop => []

/-- What happens to the pool. -/
def Action.pool (user : User) : Action α → thread_pool.Action α
  | .attach v q => .attach user v q
  | .other a => a

def step (n : Nat) (user : User) (w : Loop α) : Action α → Option (Loop α)
  | .attach v q =>
    if w.top = some v ∧ q = select_queue n w.hash then
      (thread_pool.step n w.pool (.attach user v q)).map fun s =>
        { pool := s, top := w.pool.next v, hash := w.hash + 1 }
    else none
  | .other a => (thread_pool.step n w.pool a).map fun s => { w with pool := s }

/-- Nobody else uses the nodes that the loop has still to attach. -/
def Allowed (user : User) (w : Loop α) (a : Action α) : Prop :=
  thread_pool.Allowed w.pool (a.pool user) ∧
    ∀ b, a = .other b → ∀ nodes, Linked w.pool.next w.top nodes → ∀ v ∈ nodes, v ∉ memory b

def Step (n : Nat) (user : User) (w : Loop α) (a : Action α) (w' : Loop α) : Prop :=
  Allowed user w a ∧ step n user w a = some w'

/-- The nodes that the loop has attached, with their queues. -/
def attaches (as : List (Action α)) : List (α × Nat) :=
  as.filterMap fun
    | .attach v q => some (v, q)
    | .other _ => none

/-- What a loop over the nodes is to do. -/
def distribution (n : Nat) (hash : Hash) : List α → List (α × Nat)
  | [] => []
  | v :: nodes => (v, select_queue n hash) :: distribution n (hash + 1) nodes

variable {s s' : State α} {w w' : Loop α} {place : α → Place} {blocks : Holder → List (Block α)} {user : User}
  {vs : List α} {as : List (Action α)} {v first last : α} {q : Nat}

/-- A push writes the `next` fields of nodes in the queue only. -/
theorem push_list_next (h : Core s place blocks) (hv : life v s.log = .gone) {s₁ : State α}
    (hqueues : s₁.queues = s.queues) (hnext : ∀ x ∈ nodes (blocks (.queue q)), s₁.next x = s.next x) :
    (s₁.push_list q first last).next v = s₁.next v := by
  have hholds : (s.queues q).Holds s.next (nodes (blocks (.queue q))) :=
    ⟨h.lists.linked (.queue q), h.lists.last q⟩
  rw [← hqueues] at hholds
  exact (hholds.congr hnext).push_list_next fun hmem => h.not_gone hmem hv

/-- The pool does not link the memory at `v`, which is no node before and after. -/
def KeptGone (s s' : State α) (v : α) : Prop := life v s.log = .gone → s'.next v = s.next v ∧ life v s'.log = .gone

theorem kept_resume {u : α} {task : Task α} {worker : Option Nat} : KeptGone s (s.resume u task worker) v := by
  intro hv
  cases task <;> simp [State.resume, State.record, life_resumed, life_destroyed, hv]

theorem kept_cancel {c c' : Cancel α} (hstep : s.cancel c = some (c', s')) : KeptGone s s' v := by
  cases cancel_step hstep with
  | skip u htask => exact fun hv => ⟨rfl, hv⟩
  | take u htask => exact fun hv => ⟨rfl, hv⟩
  | resume u task top => exact kept_resume

theorem kept_run {w : Nat} (hstep : run s w = some s') : KeptGone s s' v := by
  cases run_step hstep with
  | pop top hpc htop => exact fun hv => ⟨rfl, hv⟩
  | pill u hpc htask => exact fun hv => ⟨rfl, hv⟩
  | take u hpc htask => exact fun hv => ⟨rfl, hv⟩
  | resume u task top hpc => exact kept_resume
  | last hpc => exact fun hv => ⟨rfl, hv⟩
  | next u hpc => exact fun hv => ⟨rfl, hv⟩
  | exit hpc => exact fun hv => ⟨rfl, hv⟩
  | cancel c c' s₁ hpc hcancel =>
    have hkept : KeptGone s s₁ v := kept_cancel hcancel
    exact hkept

theorem kept_cancel_queue {i : Nat} {c : Option (Cancel α)} {to_stop : Option (Cancel α) → Stop α} {done : Stop α}
    (hstep : s.cancel_queue i c to_stop done = some s') : KeptGone s s' v := by
  cases cancel_queue_step hstep with
  | pop_all => exact fun hv => ⟨rfl, hv⟩
  | done => exact fun hv => ⟨rfl, hv⟩
  | cancel c c' s₁ hcancel =>
    have hkept : KeptGone s s₁ v := kept_cancel hcancel
    exact hkept

theorem kept_stop (h : Inv n s place blocks) (hstep : stop n s = some s') : KeptGone s s' v := by
  cases stop_step hstep with
  | wait_join i hstop hi hexited => exact fun hv => ⟨rfl, hv⟩
  | wait_joined i hstop hi => exact fun hv => ⟨rfl, hv⟩
  | wait_cancel i c s' hstop hi hcancel => exact kept_cancel_queue hcancel
  | wait_end i c hstop hi => exact fun hv => ⟨rfl, hv⟩
  | push i p hstop hi =>
    intro hv
    have hstack : s.stop.pill = some p := by rw [hstop]; rfl
    have hpill : life p s.log = .pill := (h.core.owned.stack p hstack).1
    have hnowhere := h.pill_nowhere hstack (by simp [hstop, Stop.Has])
    have hvp : v ≠ p := by
      rintro rfl
      cases hv.symm.trans hpill
    refine ⟨(push_list_next h.core hv (by rfl) ?_).trans (Function.update_of_ne hvp ..), ?_⟩
    · intro x hx
      apply Function.update_of_ne
      rintro rfl
      cases hnowhere.symm.trans ((h.core.owned.listed _ _).mp hx)
    · exact (life_push_list _ i p p v).trans hv
  | pushed i p hstop hi => exact fun hv => ⟨rfl, hv⟩
  | join i p hstop hexited => exact fun hv => ⟨rfl, hv⟩
  | cancel i p c s' hstop hcancel => exact kept_cancel_queue hcancel
  | drain i p c s' hstop hi hcancel => exact kept_cancel_queue hcancel
  | finish i p c hstop hi =>
    intro hv
    simp [State.record, life_destroyed, hv]

/-- What is no node and is not made one stays as it is. -/
theorem kept_step (h : Inv n s place blocks) {a : thread_pool.Action α} (hstep : thread_pool.step n s a = some s')
    (hfree : v ∉ memory a) : KeptGone s s' v := by
  cases a with
  | attach u x q =>
    obtain ⟨⟨-, hx⟩, hstep⟩ := Option.ite_none_right_eq_some.mp hstep
    rw [← Option.some.inj hstep]
    intro hv
    have hvx : v ≠ x := by simpa [memory] using hfree
    refine ⟨(push_list_next h.core hv (by rfl) ?_).trans (Function.update_of_ne hvx ..), ?_⟩
    · intro y hy
      apply Function.update_of_ne
      rintro rfl
      exact h.core.not_gone hy hx
    · rw [State.attach, life_push_list, life_attached, if_neg hvx.symm, hv]
  | push_deadpill u p x q =>
    obtain ⟨⟨-, -, hp, hx⟩, hstep⟩ := Option.ite_none_right_eq_some.mp hstep
    rw [← Option.some.inj hstep]
    intro hv
    obtain ⟨hvp, hvx⟩ : v ≠ p ∧ v ≠ x := by simpa [memory] using hfree
    refine ⟨(push_list_next h.core hv (by rfl) ?_).trans (by simp [hvp, hvx]), ?_⟩
    · intro y hy
      have hyp : y ≠ p := by
        rintro rfl
        exact h.core.not_gone hy hp
      have hyx : y ≠ x := by
        rintro rfl
        exact h.core.not_gone hy hx
      simp [hyp, hyx]
    · rw [State.push_deadpill, life_push_list, life_attached, if_neg hvx.symm, life_pill, if_neg hvp.symm, hv]
  | overwrite x next task status =>
    obtain ⟨-, hstep⟩ := Option.ite_none_right_eq_some.mp hstep
    rw [← Option.some.inj hstep]
    have hvx : v ≠ x := by simpa [memory] using hfree
    exact fun hv => ⟨Function.update_of_ne hvx .., hv⟩
  | run w =>
    obtain ⟨-, hstep⟩ := Option.ite_none_right_eq_some.mp hstep
    exact kept_run hstep
  | wait_stop =>
    obtain ⟨-, hstep⟩ := Option.ite_none_right_eq_some.mp hstep
    rw [← Option.some.inj hstep]
    exact fun hv => ⟨rfl, hv⟩
  | destroy p =>
    obtain ⟨-, hstep⟩ := Option.ite_none_right_eq_some.mp hstep
    have hvp : v ≠ p := by simpa [memory] using hfree
    intro hv
    have hlife : life v (.pill p :: s.log) = .gone := by rw [life_pill, if_neg hvp.symm, hv]
    cases hstop : s.stop <;> simp only [hstop] at hstep <;> cases hstep <;> exact ⟨rfl, hlife⟩
  | stop => exact kept_stop h hstep

/-- The loop has the nodes still to attach. -/
structure Remains (w : Loop α) (vs : List α) : Prop where
  linked : Linked w.pool.next w.top vs
  gone : ∀ v ∈ vs, life v w.pool.log = .gone

theorem Remains.head (h : Remains w vs) (htop : w.top = some v) : ∃ rest, vs = v :: rest ∧ Linked w.pool.next (w.pool.next v) rest := by
  obtain ⟨hlinked, -⟩ := h
  rw [htop] at hlinked
  cases vs with
  | nil => cases hlinked
  | cons x rest =>
    obtain ⟨hx, hrest⟩ := hlinked
    cases hx
    exact ⟨rest, rfl, hrest⟩

theorem Step.pool {a : Action α} (hstep : Step n user w a w') : thread_pool.Step n w.pool (a.pool user) w'.pool := by
  obtain ⟨⟨hallowed, -⟩, hstep⟩ := hstep
  cases a with
  | attach v q =>
    obtain ⟨-, hstep⟩ := Option.ite_none_right_eq_some.mp hstep
    obtain ⟨s, hs, rfl⟩ := Option.map_eq_some_iff.mp hstep
    exact ⟨hallowed, hs⟩
  | other a =>
    obtain ⟨s, hs, rfl⟩ := Option.map_eq_some_iff.mp hstep
    exact ⟨hallowed, hs⟩

/-- The nodes that are left stay as they are, and the loop attaches the first one. -/
theorem Remains.step (h : Remains w vs) (hinv : Inv n w.pool place blocks) {a : Action α} (hstep : Step n user w a w') :
    ∃ rest, Remains w' rest ∧ distribution n w.hash vs = attaches [a] ++ distribution n w'.hash rest := by
  have hpool := hstep.pool.2
  have hkeeps : ∀ rest, rest ⊆ vs → (∀ v ∈ rest, v ∉ memory (a.pool user)) →
      (∀ v ∈ rest, w'.pool.next v = w.pool.next v) ∧ ∀ v ∈ rest, life v w'.pool.log = .gone := by
    intro rest hsub hfree
    have hkept : ∀ v ∈ rest, w'.pool.next v = w.pool.next v ∧ life v w'.pool.log = .gone :=
      fun v hv => kept_step hinv hpool (hfree v hv) (h.gone v (hsub hv))
    exact ⟨fun v hv => (hkept v hv).1, fun v hv => (hkept v hv).2⟩
  obtain ⟨⟨-, hfree⟩, hstep⟩ := hstep
  cases a with
  | attach v q =>
    obtain ⟨⟨htop, hq⟩, hstep⟩ := Option.ite_none_right_eq_some.mp hstep
    obtain ⟨s, hs, rfl⟩ := Option.map_eq_some_iff.mp hstep
    obtain ⟨rest, rfl, hrest⟩ := h.head htop
    have hnodup := List.nodup_cons.mp h.linked.nodup
    obtain ⟨hnext, hgone⟩ := hkeeps rest (List.subset_cons_self ..) fun x hx hmem => by
      obtain rfl : x = v := by simpa [memory, Action.pool] using hmem
      exact hnodup.1 hx
    exact ⟨rest, ⟨hrest.congr hnext, hgone⟩, by simp [attaches, distribution, hq]⟩
  | other a =>
    obtain ⟨s, hs, rfl⟩ := Option.map_eq_some_iff.mp hstep
    obtain ⟨hnext, hgone⟩ := hkeeps vs (List.Subset.refl vs) (hfree a rfl vs h.linked)
    exact ⟨vs, ⟨h.linked.congr hnext, hgone⟩, rfl⟩

omit [DecidableEq α] in
theorem attaches_cons (a : Action α) (as : List (Action α)) : attaches (a :: as) = attaches [a] ++ attaches as := by
  cases a <;> rfl

theorem Remains.run (hrun : Run (Step n user) w as w') (h : Remains w vs)
    (hinv : ∃ place blocks, Inv n w.pool place blocks) :
    ∃ rest, Remains w' rest ∧ distribution n w.hash vs = attaches as ++ distribution n w'.hash rest := by
  induction hrun generalizing vs with
  | nil w => exact ⟨vs, h, rfl⟩
  | @cons w w₁ w' a as hstep _ ih =>
    obtain ⟨place, blocks, hinv⟩ := hinv
    obtain ⟨rest, hrest, heq⟩ := h.step hinv hstep
    obtain ⟨rest', hrest', heq'⟩ := ih hrest (hinv.step hstep.pool.2)
    refine ⟨rest', hrest', ?_⟩
    rw [heq, heq', attaches_cons a as, List.append_assoc]

/-- The loop goes on until it has attached all nodes. -/
theorem Remains.enabled (h : Remains w vs) (hn : 0 < n) (huser : w.pool.MayUse user) (htop : w.top = some v) :
    ∃ q w', Step n user w (.attach v q) w' := by
  obtain ⟨rest, rfl, -⟩ := h.head htop
  have hgone := h.gone v (by simp)
  have hq : select_queue n w.hash < n := Nat.mod_lt _ hn
  refine ⟨select_queue n w.hash, { pool := w.pool.attach v (select_queue n w.hash), top := w.pool.next v, hash := w.hash + 1 },
    ⟨huser, by simp⟩, ?_⟩
  simp [attach_list.step, thread_pool.step, htop, hq, hgone]

/-- Among consecutive hashes each queue is selected equally often, but for one. -/
theorem countP_window {k h : Nat} (hn : 0 < n) (hq : q < n) :
    (List.range k).countP (fun i => (h + i) % n = q) =
      k / n + if (q + (n - h % n)) % n < k % n then 1 else 0 := by
  have hmod : ∀ i, (h + i) % n = q ↔ i ≡ q + (n - h % n) [MOD n] := by
    intro i
    have hlt : h % n < n := Nat.mod_lt _ hn
    have hsplit : h = h % n + n * (h / n) := (Nat.mod_add_div h n).symm
    have hshift : i ≡ q + (n - h % n) [MOD n] ↔ h % n + i ≡ h % n + (q + (n - h % n)) [MOD n] :=
      ⟨fun heq => heq.add_left _, fun heq => Nat.ModEq.add_left_cancel' _ heq⟩
    have hleft : (h + i) % n = (h % n + i) % n := by rw [Nat.mod_add_mod]
    have hright : h % n + (q + (n - h % n)) = q + n := by omega
    rw [hshift, hright, hleft, Nat.ModEq, Nat.add_mod_right, Nat.mod_eq_of_lt hq]
  rw [← Nat.count_modEq_card k hn, Nat.count]
  simp only [hmod]

/-- How many nodes a queue gets. -/
def share (q : Nat) (nodes : List (α × Nat)) : Nat := nodes.countP fun p => p.2 = q

omit [DecidableEq α] in
/-- The hashes are consecutive numbers, unless the counter wraps. -/
theorem share_distribution {hash : Hash} {vs : List α} (hwrap : hash.toNat + vs.length ≤ 2 ^ 64) :
    share q (distribution n hash vs) = (List.range vs.length).countP fun i => (hash.toNat + i) % n = q := by
  induction vs generalizing hash with
  | nil => rfl
  | cons v rest ih =>
    rw [List.length_cons] at hwrap
    have hrest : share q (distribution n (hash + 1) rest) =
        (List.range rest.length).countP fun i => (hash.toNat + (i + 1)) % n = q := by
      cases rest with
      | nil => rfl
      | cons x rest =>
        rw [List.length_cons] at hwrap
        have hnext : (hash + 1).toNat = hash.toNat + 1 := by
          rw [BitVec.toNat_add]
          exact Nat.mod_eq_of_lt (by simp; omega)
        rw [ih (by rw [hnext, List.length_cons]; omega), hnext]
        simp only [Nat.add_assoc, Nat.add_comm 1]
    rw [List.length_cons, List.range_succ_eq_map, List.countP_cons, List.countP_map]
    simp only [share, distribution, List.countP_cons] at hrest ⊢
    rw [hrest]
    rfl

omit [DecidableEq α] in
theorem share_le {hash : Hash} {vs : List α} {q' : Nat} (hn : 0 < n) (hq : q < n) (hq' : q' < n)
    (hwrap : hash.toNat + vs.length ≤ 2 ^ 64) :
    share q (distribution n hash vs) ≤ share q' (distribution n hash vs) + 1 := by
  rw [share_distribution hwrap, share_distribution hwrap, countP_window hn hq, countP_window hn hq']
  split <;> split <;> omega

/-- A thread attaches a list of nodes to a pool, whose workers resume some of them
meanwhile, while others do with the pool what they like: the nodes are attached in
their order, each once and to the queue after that of the node before it, until all
are, and for the pool it is a run like any other. Unless the hash wraps, the shares of
two queues differ by one at most. -/
theorem attach_list_distributes {before : List (thread_pool.Action α)} {bytes : Option α → List (BitVec 8)}
    {top : Option α} (hn : 0 < n) (hs : Run (thread_pool.Step n) construct before s) (hlinked : Linked s.next top vs)
    (hgone : ∀ v ∈ vs, life v s.log = .gone) (hrun : Run (Step n user) (begin bytes s top) as w) :
    Run (thread_pool.Step n) construct (before ++ as.map (Action.pool user)) w.pool ∧
      attaches as <+: distribution n (do_hash (bytes top)) vs ∧
      (w.top = none → attaches as = distribution n (do_hash (bytes top)) vs) ∧
      (∀ v, w.top = some v → w.pool.MayUse user → ∃ q w', Step n user w (.attach v q) w') ∧
      ∀ q q', q < n → q' < n → (do_hash (bytes top)).toNat + vs.length ≤ 2 ^ 64 →
        share q (distribution n (do_hash (bytes top)) vs) ≤ share q' (distribution n (do_hash (bytes top)) vs) + 1 := by
  have hinv := inv_of_run (hs.mono fun _ _ _ hstep => hstep.2)
  have hbegin : Remains (begin bytes s top) vs := ⟨hlinked, hgone⟩
  obtain ⟨rest, hrest, heq⟩ := hbegin.run hrun hinv
  have heq' : distribution n (do_hash (bytes top)) vs = attaches as ++ distribution n w.hash rest := heq
  refine ⟨?_, ⟨_, heq'.symm⟩, fun htop => ?_, fun v htop huser => hrest.enabled hn huser htop,
    fun q q' hq hq' hwrap => share_le hn hq hq' hwrap⟩
  · exact hs.append (hrun.project Loop.pool (Action.pool user) fun _ _ _ hstep => hstep.pool)
  · have hlinked := hrest.linked
    rw [htop] at hlinked
    rw [heq', Segment.null_iff.mp hlinked, distribution, List.append_nil]

/-- Three nodes are linked. -/
def link_three : List (thread_pool.Action Nat) :=
  [.overwrite 1 (some 2) .coroutine .ok, .overwrite 2 (some 3) .coroutine .ok, .overwrite 3 none .coroutine .ok]

def linked_three : State Nat :=
  { construct with
    next := Function.update (Function.update (Function.update (fun _ => none) 1 (some 2)) 2 (some 3)) 3 none
    task := Function.update (Function.update (Function.update (fun _ => .null) 1 .coroutine) 2 .coroutine) 3 .coroutine
    status := Function.update (Function.update (Function.update (fun _ => .ok) 1 .ok) 2 .ok) 3 .ok }

/-- They are attached to a pool of two workers, one of which resumes the first of them
meanwhile. -/
def attach_three : List (Action Nat) :=
  [.attach 1 1, .other (.run 1), .other (.run 1), .other (.run 1), .attach 2 0, .attach 3 1]

/-- The bytes of the pointer to a node: nodes are 16 bytes apart. -/
def address (v : Option Nat) : List (BitVec 8) := [.ofNat 8 (16 * v.getD 0), 0, 0, 0, 0, 0, 0, 0]

theorem attach_list_distributes_three : ∃ w : Loop Nat,
    Run (thread_pool.Step 2) construct (link_three ++ attach_three.map (Action.pool .outside)) w.pool ∧
      attaches attach_three = distribution 2 (do_hash (address (some 1))) [1, 2, 3] := by
  have hs : Run (thread_pool.Step 2) construct link_three linked_three :=
    .cons ⟨trivial, rfl⟩ <| .cons ⟨trivial, rfl⟩ <| .cons ⟨trivial, rfl⟩ <| .nil _
  have hlinked : Linked linked_three.next (some 1) [1, 2, 3] := ⟨rfl, rfl, rfl, Segment.nil_iff.mpr rfl⟩
  have hother : ∀ (a : Action Nat) (b : thread_pool.Action Nat), a = .other (.run 1) → a = .other b →
      ∀ vs : List Nat, ∀ v ∈ vs, v ∉ memory b := by
    rintro a b rfl ⟨⟩ vs v -
    simp [memory]
  have hattach : ∀ (w : Loop Nat) (v q : Nat) (b : thread_pool.Action Nat), Action.attach v q = .other b →
      ∀ vs, Linked w.pool.next w.top vs → ∀ v ∈ vs, v ∉ memory b := by
    rintro w v q b ⟨⟩
  obtain ⟨w, hrun, htop⟩ : ∃ w, Run (Step 2 .outside) (begin address linked_three (some 1)) attach_three w ∧
      w.top = none :=
    ⟨_, .cons ⟨⟨by rfl, hattach _ _ _⟩, rfl⟩ <| .cons ⟨⟨trivial, fun b hb vs _ => hother _ b rfl hb vs⟩, rfl⟩ <|
      .cons ⟨⟨trivial, fun b hb vs _ => hother _ b rfl hb vs⟩, rfl⟩ <|
      .cons ⟨⟨trivial, fun b hb vs _ => hother _ b rfl hb vs⟩, rfl⟩ <| .cons ⟨⟨by rfl, hattach _ _ _⟩, rfl⟩ <|
      .cons ⟨⟨by rfl, hattach _ _ _⟩, rfl⟩ <| .nil _, rfl⟩
  have hloop := attach_list_distributes (by decide) hs hlinked (fun _ _ => rfl) hrun
  exact ⟨w, hloop.1, hloop.2.2.1 htop⟩

end kelcoro.thread_pool.attach_list
