import Kelcoro.AwaitersQueue
import Kelcoro.Lib.Returns
import Kelcoro.Lib.Run
import Kelcoro.ThreadPool.TaskQueue
import Mathlib

namespace kelcoro.queues

open kelcoro.lib kelcoro.thread_pool

/-- The two classes of intrusive queues. Only an `awaiters_queue` can be moved. -/
inductive Kind where
  | task_queue
  | awaiters_queue
  deriving DecidableEq, Repr

variable {κ α : Type} [DecidableEq κ] [DecidableEq α]

/-- `push_list(first_, last_)` of the class. -/
def push_list (kind : Kind) (q : Queue α) (next : α → Option α) (first last : α) : (α → Option α) × Queue α :=
  match kind with
  | .task_queue => q.push_list next first last
  | .awaiters_queue =>
    let r := awaiters_queue.Queue.push_list { first := q.first, last := q.last, next } first last
    (r.next, { first := r.first, last := r.last })

def push (kind : Kind) (q : Queue α) (next : α → Option α) (node : α) : (α → Option α) × Queue α :=
  push_list kind q (Function.update next node none) node node

/-- The loop of `push_list(first_)`. -/
def find_last : Nat → (α → Option α) → α → Option α
  | 0, _, _ => none
  | fuel + 1, next, last_ =>
    match next last_ with
    | some last_ => find_last fuel next last_
    | none => some last_

/-- `pop_all()`: what it returns, and what is left. -/
def pop_all (q : Queue α) : Option α × Queue α := (q.first, { q with first := none })

/-- `awaiters_queue(awaiters_queue&& other)`, and what is left of `other`. -/
def move_construct (other : Queue α) : Queue α × Queue α := (other, { first := none, last := none })

/-- `operator=(awaiters_queue&& other)`, and what is left of `other`. -/
def move_assign (q other : Queue α) : Queue α × Queue α := (other, q)

/-- Any number of queues, and the `next` fields of all nodes. -/
structure State (κ α : Type) where
  next : α → Option α
  objects : κ → Option (Queue α)

def construct (next : α → Option α) : State κ α := { next, objects := fun _ => none }

def State.set (s : State κ α) (i : κ) (q : Queue α) : State κ α :=
  { s with objects := Function.update s.objects i (some q) }

/-- What is done with the queues. The pushed lists are named. `link` writes the
`next` field of a node outside of the queues. -/
inductive Action (κ α : Type) where
  | construct (i : κ)
  | move_construct (i j : κ)
  | move_assign (i j : κ)
  | push (i : κ) (node : α)
  | push_list (i : κ) (first last : α) (nodes : List α)
  | push_list_first (i : κ) (first : Option α) (nodes : List α)
  | pop_all (i : κ)
  | link (node : α) (next : Option α)

def step (kind : κ → Kind) (fuel : Nat) (s : State κ α) : Action κ α → Option (State κ α)
  | .construct i => some (s.set i { first := none, last := none })
  | .move_construct i j => do
    let other ← s.objects j
    let (q, other) := move_construct other
    some ((s.set j other).set i q)
  | .move_assign i j => do
    let q ← s.objects i
    let other ← s.objects j
    let (q, other) := move_assign q other
    some ((s.set i q).set j other)
  | .push i node => do
    let q ← s.objects i
    let (next, q) := push (kind i) q s.next node
    some ({ s with next }.set i q)
  | .push_list i first last _ => do
    let q ← s.objects i
    let (next, q) := push_list (kind i) q s.next first last
    some ({ s with next }.set i q)
  | .push_list_first i first _ => do
    let q ← s.objects i
    match first with
    | none => some s
    | some first => do
      let last ← find_last fuel s.next first
      let (next, q) := push_list (kind i) q s.next first last
      some ({ s with next }.set i q)
  | .pop_all i => do
    let q ← s.objects i
    some (s.set i (pop_all q).2)
  | .link node next => some { s with next := Function.update s.next node next }

/-- The node is in no queue. -/
def Outside (s : State κ α) (v : α) : Prop :=
  ∀ i q nodes, s.objects i = some q → Linked s.next q.first nodes → v ∉ nodes

/-- The preconditions: the objects exist, and no pushed node is in a queue. -/
def Allowed (kind : κ → Kind) (s : State κ α) : Action κ α → Prop
  | .construct i => s.objects i = none
  | .move_construct i j => kind i = .awaiters_queue ∧ kind j = .awaiters_queue ∧
      s.objects i = none ∧ (s.objects j).isSome
  | .move_assign i j => kind i = .awaiters_queue ∧ kind j = .awaiters_queue ∧
      (s.objects i).isSome ∧ (s.objects j).isSome
  | .push i node => (s.objects i).isSome ∧ Outside s node
  | .push_list i first last nodes => (s.objects i).isSome ∧ Linked s.next (some first) nodes ∧
      nodes.getLast? = some last ∧ ∀ v ∈ nodes, Outside s v
  | .push_list_first i first nodes => (s.objects i).isSome ∧ Linked s.next first nodes ∧ ∀ v ∈ nodes, Outside s v
  | .pop_all i => (s.objects i).isSome
  | .link node _ => Outside s node

def Step (kind : κ → Kind) (s : State κ α) (a : Action κ α) (s' : State κ α) : Prop :=
  Allowed kind s a ∧ Returns (fun n => step kind n s a) s'

/-- What the queues are for: each is a list, and it is known which nodes were
pushed and popped. -/
structure Lists (κ α : Type) where
  nodes : κ → Option (List α)
  pushed : List α
  popped : List α

namespace Lists

def construct : Lists κ α := { nodes := fun _ => none, pushed := [], popped := [] }

def set (c : Lists κ α) (i : κ) (nodes : List α) : Lists κ α :=
  { c with nodes := Function.update c.nodes i (some nodes) }

/-- The nodes go to the end of the list. -/
def append (c : Lists κ α) (i : κ) (news : List α) : Option (Lists κ α) := do
  let nodes ← c.nodes i
  some { c.set i (nodes ++ news) with pushed := c.pushed ++ news }

def step (c : Lists κ α) : Action κ α → Option (Lists κ α)
  | .construct i => some (c.set i [])
  | .move_construct i j => do
    let other ← c.nodes j
    some ((c.set j []).set i other)
  | .move_assign i j => do
    let nodes ← c.nodes i
    let other ← c.nodes j
    some ((c.set i other).set j nodes)
  | .push i node => c.append i [node]
  | .push_list i _ _ news => c.append i news
  | .push_list_first i _ news => c.append i news
  | .pop_all i => do
    let nodes ← c.nodes i
    some { c.set i [] with popped := c.popped ++ nodes }
  | .link _ _ => some c

def Step (c : Lists κ α) (a : Action κ α) (c' : Lists κ α) : Prop := c.step a = some c'

/-- The node is in this list. -/
def Held (c : Lists κ α) (i : κ) (v : α) : Prop := ∃ nodes, c.nodes i = some nodes ∧ v ∈ nodes

variable {c : Lists κ α} {i k : κ} {v : α} {nodes : List α}

omit [DecidableEq α] in
@[simp] theorem set_held_self : (c.set i nodes).Held i v ↔ v ∈ nodes := by
  simp [Held, set]

omit [DecidableEq α] in
@[simp] theorem set_held_of_ne (h : k ≠ i) : (c.set i nodes).Held k v ↔ c.Held k v := by
  simp [Held, set, Function.update_of_ne h]

omit [DecidableEq κ] [DecidableEq α] in
theorem held_iff (h : c.nodes i = some nodes) : c.Held i v ↔ v ∈ nodes := by
  simp [Held, h]

omit [DecidableEq κ] [DecidableEq α] in
theorem not_held (h : c.nodes i = none) : ¬ c.Held i v := by
  simp [Held, h]

omit [DecidableEq α] in
theorem append_nil (h : c.nodes i = some nodes) : c.append i [] = some c := by
  have hsame : Function.update c.nodes i (some nodes) = c.nodes := by rw [← h, Function.update_eq_self]
  simp [append, set, h, hsame]

end Lists

/-- An object, if there is one, holds its list. -/
def Agree (next : α → Option α) : Option (Queue α) → Option (List α) → Prop
  | none, none => True
  | some q, some nodes => q.Holds next nodes
  | _, _ => False

/-- Each queue holds its list, no node is in two of them, and all that were
pushed and not popped are there. -/
structure Represents (s : State κ α) (c : Lists κ α) : Prop where
  holds : ∀ i, Agree s.next (s.objects i) (c.nodes i)
  apart : ∀ i j v, c.Held i v → c.Held j v → i = j
  held : ∀ i v, c.Held i v → c.pushed.count v = c.popped.count v + 1
  free : ∀ v, (∀ i, ¬ c.Held i v) → c.pushed.count v = c.popped.count v

variable {kind : κ → Kind} {s s' : State κ α} {c c' : Lists κ α} {i j : κ} {v first last : α} {q : Queue α}
  {nodes news : List α} {next : α → Option α}

omit [DecidableEq κ] in
/-- The two classes do the same. -/
theorem push_list_eq (k : Kind) : push_list k q next first last = q.push_list next first last := by
  cases k with
  | task_queue => rfl
  | awaiters_queue =>
    cases hq : q.first with
    | none => simp [push_list, awaiters_queue.Queue.push_list, Queue.push_list, hq]
    | some f => cases hl : q.last <;> simp [push_list, awaiters_queue.Queue.push_list, Queue.push_list, hq, hl]

omit [DecidableEq α] in
/-- The loop ends, at the last node of the list. -/
theorem find_last_eq (h : Linked next (some v) nodes) :
    ∃ last, nodes.getLast? = some last ∧ Returns (fun n => find_last n next v) last := by
  induction nodes generalizing v with
  | nil => cases h
  | cons x xs ih =>
    obtain ⟨hv, hrest⟩ := h
    obtain rfl : v = x := Option.some.inj hv
    cases hnext : next v with
    | none =>
      rw [hnext] at hrest
      obtain rfl : xs = [] := Segment.null_iff.mp hrest
      exact ⟨v, rfl, .of_last fun n => by simp [find_last, hnext]⟩
    | some y =>
      rw [hnext] at hrest
      obtain ⟨last, hlast, hreturns⟩ := ih hrest
      refine ⟨last, ?_, .of_succ (hreturns.congr fun n => by simp [find_last, hnext])⟩
      rw [List.getLast?_cons, hlast]
      rfl

namespace Agree

omit [DecidableEq α] in
theorem none_iff {p : Option (Queue α)} {o : Option (List α)} (h : Agree next p o) : p = none ↔ o = none := by
  cases p <;> cases o <;> simp_all [Agree]

omit [DecidableEq α] in
theorem of_object {p : Option (Queue α)} {o : Option (List α)} (h : Agree next p o) (hp : p = some q) :
    ∃ nodes, o = some nodes ∧ q.Holds next nodes := by
  subst hp
  cases o with
  | none => exact h.elim
  | some nodes => exact ⟨nodes, rfl, h⟩

omit [DecidableEq α] in
theorem congr {p : Option (Queue α)} {o : Option (List α)} {next' : α → Option α} (h : Agree next p o)
    (hsame : ∀ nodes, o = some nodes → ∀ x ∈ nodes, next' x = next x) : Agree next' p o := by
  cases p <;> cases o
  · trivial
  · exact h.elim
  · exact h.elim
  · exact Queue.Holds.congr h (hsame _ rfl)

omit [DecidableEq α] in
theorem update {objects : κ → Option (Queue α)} {lists : κ → Option (List α)}
    (h : ∀ k, Agree next (objects k) (lists k)) (hholds : q.Holds next nodes) (k : κ) :
    Agree next (Function.update objects i (some q) k) (Function.update lists i (some nodes) k) := by
  by_cases hk : k = i
  · subst hk
    rw [Function.update_self, Function.update_self]
    exact hholds
  · rw [Function.update_of_ne hk, Function.update_of_ne hk]
    exact h k

end Agree

namespace Represents

omit [DecidableEq κ] in
theorem not_held (h : Represents s c) (hout : Outside s v) : ¬ c.Held i v := by
  rintro ⟨nodes, hnodes, hv⟩
  cases hq : s.objects i with
  | none =>
    cases ((h.holds i).none_iff.mp hq).symm.trans hnodes
  | some q =>
    obtain ⟨nodes', hnodes', hholds⟩ := (h.holds i).of_object hq
    cases hnodes'.symm.trans hnodes
    exact hout i q nodes hq hholds.linked hv

omit [DecidableEq κ] in
/-- The `next` field of a node outside does not matter. -/
theorem link (h : Represents s c) (hout : Outside s v) (p : Option α) :
    Represents { s with next := Function.update s.next v p } c := by
  refine ⟨fun k => (h.holds k).congr fun nodes hnodes x hx => ?_, h.apart, h.held, h.free⟩
  apply Function.update_of_ne
  rintro rfl
  exact h.not_held hout ⟨nodes, hnodes, hx⟩

/-- A list of nodes outside is pushed. -/
theorem push_list (h : Represents s c) (hq : s.objects i = some q) (hnews : Linked s.next (some first) news)
    (hlast : news.getLast? = some last) (hout : ∀ v ∈ news, ∀ k, ¬ c.Held k v) :
    ∃ c', c.append i news = some c' ∧
      Represents ({ s with next := (q.push_list s.next first last).1 }.set i (q.push_list s.next first last).2) c' := by
  obtain ⟨nodes, hnodes, hholds⟩ := (h.holds i).of_object hq
  have hdisjoint : nodes.Disjoint news := fun x hx hx' => hout x hx' i ⟨nodes, hnodes, hx⟩
  have hnodup : news.Nodup := hnews.nodup
  obtain ⟨before, hbefore⟩ := List.getLast?_eq_some_iff.mp hlast
  refine ⟨{ c.set i (nodes ++ news) with pushed := c.pushed ++ news }, by simp [Lists.append, hnodes], ?_⟩
  have hheld : ∀ k v, (c.set i (nodes ++ news)).Held k v ↔ c.Held k v ∨ (k = i ∧ v ∈ news) := by
    intro k v
    by_cases hk : k = i
    · subst hk
      simp [Lists.held_iff hnodes]
    · simp [hk]
  refine ⟨fun k => ?_, fun k k' v hv hv' => ?_, fun k v hv => ?_, fun v hv => ?_⟩
  · have hpushed := hholds.push_list hnews hbefore hdisjoint
    by_cases hk : k = i
    · subst hk
      simpa only [State.set, Lists.set, Function.update_self, Agree] using hpushed
    · have hkept : Agree (q.push_list s.next first last).1 (s.objects k) (c.nodes k) := by
        refine (h.holds k).congr fun nodes' hnodes' x hx => hholds.push_list_next fun hx' => hk ?_
        exact h.apart k i x ⟨nodes', hnodes', hx⟩ ⟨nodes, hnodes, hx'⟩
      simpa only [State.set, Lists.set, Function.update_of_ne hk] using hkept
  · rcases (hheld k v).mp hv with hold | ⟨rfl, hnew⟩ <;> rcases (hheld k' v).mp hv' with hold' | ⟨rfl, hnew'⟩
    · exact h.apart k k' v hold hold'
    · exact absurd hold (hout v hnew' k)
    · exact absurd hold' (hout v hnew k')
    · rfl
  · show (c.pushed ++ news).count v = c.popped.count v + 1
    rw [List.count_append]
    rcases (hheld k v).mp hv with hv | ⟨-, hv⟩
    · rw [List.count_eq_zero_of_not_mem fun hmem => hout v hmem k hv]
      exact h.held k v hv
    · rw [List.count_eq_one_of_mem hnodup hv, h.free v (hout v hv)]
  · show (c.pushed ++ news).count v = c.popped.count v
    rw [List.count_append, List.count_eq_zero_of_not_mem fun hmem => hv i ((hheld i v).mpr (.inr ⟨rfl, hmem⟩))]
    exact h.free v fun k hk => hv k ((hheld k v).mpr (.inl hk))

omit [DecidableEq κ] in
/-- The lists have gone to other objects. -/
theorem permuted (h : Represents s c) (σ : Equiv.Perm κ) (hholds : ∀ k, Agree s'.next (s'.objects k) (c'.nodes k))
    (hheld : ∀ k v, c'.Held k v ↔ c.Held (σ k) v) (hpushed : c'.pushed = c.pushed)
    (hpopped : c'.popped = c.popped) : Represents s' c' := by
  refine ⟨hholds, fun k k' v hv hv' => ?_, fun k v hv => ?_, fun v hv => ?_⟩
  · exact σ.injective (h.apart _ _ v ((hheld k v).mp hv) ((hheld k' v).mp hv'))
  · rw [hpushed, hpopped]
    exact h.held _ v ((hheld k v).mp hv)
  · rw [hpushed, hpopped]
    refine h.free v fun k hk => hv (σ.symm k) ((hheld _ v).mpr ?_)
    rwa [Equiv.apply_symm_apply]

omit [DecidableEq α] in
theorem holds_nil (q : Queue α) (hq : q.first = none) : q.Holds next [] :=
  ⟨hq, fun before l hsplit => by simp at hsplit⟩

theorem construct (h : Represents s c) (hi : s.objects i = none) :
    Represents (s.set i { first := none, last := none }) (c.set i []) := by
  have hnone : c.nodes i = none := (h.holds i).none_iff.mp hi
  refine h.permuted (Equiv.refl κ) (Agree.update h.holds (holds_nil _ rfl)) (fun k v => ?_) rfl rfl
  by_cases hk : k = i
  · subst hk
    simp [Lists.not_held hnone]
  · simp [hk]

theorem move_construct (h : Represents s c) (hi : s.objects i = none) (hj : s.objects j = some q)
    (hnodes : c.nodes j = some nodes) (hholds : q.Holds s.next nodes) :
    Represents ((s.set j { first := none, last := none }).set i q) ((c.set j []).set i nodes) := by
  have hnone : c.nodes i = none := (h.holds i).none_iff.mp hi
  have hij : i ≠ j := by
    rintro rfl
    cases hi.symm.trans hj
  refine h.permuted (Equiv.swap i j)
    (Agree.update (Agree.update h.holds (holds_nil _ rfl)) hholds) (fun k v => ?_) rfl rfl
  rcases eq_or_ne k i with rfl | hki
  · simp [Lists.held_iff hnodes]
  · rcases eq_or_ne k j with rfl | hkj
    · simp [hki, Lists.not_held hnone]
    · simp [hki, hkj, Equiv.swap_apply_of_ne_of_ne hki hkj]

theorem move_assign (h : Represents s c) {other : Queue α} {others : List α} (hi : c.nodes i = some nodes)
    (hj : c.nodes j = some others) (hholds : q.Holds s.next nodes) (hothers : other.Holds s.next others) :
    Represents ((s.set i other).set j q) ((c.set i others).set j nodes) := by
  refine h.permuted (Equiv.swap i j)
    (Agree.update (Agree.update h.holds hothers) hholds) (fun k v => ?_) rfl rfl
  rcases eq_or_ne k j with rfl | hkj
  · simp [Lists.held_iff hi]
  · rcases eq_or_ne k i with rfl | hki
    · simp [hkj, Lists.held_iff hj]
    · simp [hki, hkj, Equiv.swap_apply_of_ne_of_ne hki hkj]

theorem pop_all (h : Represents s c) (hnodes : c.nodes i = some nodes) (hholds : q.Holds s.next nodes) :
    Represents (s.set i (queues.pop_all q).2) { c.set i [] with popped := c.popped ++ nodes } := by
  have hheld : ∀ k v, (c.set i []).Held k v ↔ k ≠ i ∧ c.Held k v := by
    intro k v
    by_cases hk : k = i
    · subst hk
      simp
    · simp [hk]
  refine ⟨Agree.update h.holds (Queue.Holds.popped q s.next), fun k k' v hv hv' => ?_, fun k v hv => ?_,
    fun v hv => ?_⟩
  · exact h.apart k k' v ((hheld k v).mp hv).2 ((hheld k' v).mp hv').2
  · obtain ⟨hk, hv⟩ := (hheld k v).mp hv
    show c.pushed.count v = (c.popped ++ nodes).count v + 1
    rw [List.count_append, List.count_eq_zero_of_not_mem fun hmem => hk (h.apart k i v hv ⟨nodes, hnodes, hmem⟩)]
    exact h.held k v hv
  · show c.pushed.count v = (c.popped ++ nodes).count v
    rw [List.count_append]
    by_cases hmem : v ∈ nodes
    · rw [List.count_eq_one_of_mem hholds.linked.nodup hmem]
      exact h.held i v ⟨nodes, hnodes, hmem⟩
    · rw [List.count_eq_zero_of_not_mem hmem]
      refine h.free v fun k hk => ?_
      by_cases hki : k = i
      · subst hki
        exact hmem ((Lists.held_iff hnodes).mp hk)
      · exact hv k ((hheld k v).mpr ⟨hki, hk⟩)

/-- Each action that is allowed returns, and does to the lists what they are
there for. -/
theorem action (h : Represents s c) {a : Action κ α} (ha : Allowed kind s a) :
    ∃ s' c', Returns (fun n => step kind n s a) s' ∧ c.step a = some c' ∧ Represents s' c' := by
  cases a with
  | construct i => exact ⟨_, _, .const rfl, rfl, h.construct ha⟩
  | move_construct i j =>
    obtain ⟨-, -, hi, hj⟩ := ha
    obtain ⟨q, hq⟩ := Option.isSome_iff_exists.mp hj
    obtain ⟨nodes, hnodes, hholds⟩ := (h.holds j).of_object hq
    exact ⟨_, _, .const (by simp [queues.move_construct, hq]), by simp [Lists.step, hnodes],
      h.move_construct hi hq hnodes hholds⟩
  | move_assign i j =>
    obtain ⟨-, -, hi, hj⟩ := ha
    obtain ⟨q, hq⟩ := Option.isSome_iff_exists.mp hi
    obtain ⟨other, hother⟩ := Option.isSome_iff_exists.mp hj
    obtain ⟨nodes, hnodes, hholds⟩ := (h.holds i).of_object hq
    obtain ⟨others, hothers, hholds'⟩ := (h.holds j).of_object hother
    exact ⟨_, _, .const (by simp [queues.move_assign, hq, hother]), by simp [Lists.step, hnodes, hothers],
      h.move_assign hnodes hothers hholds hholds'⟩
  | push i node =>
    obtain ⟨hi, hout⟩ := ha
    obtain ⟨q, hq⟩ := Option.isSome_iff_exists.mp hi
    have hnews : Linked (Function.update s.next node none) (some node) [node] := ⟨rfl, by simp⟩
    obtain ⟨c', hc', hrep⟩ := (h.link hout none).push_list hq hnews rfl fun v hv k => by
      obtain rfl := List.mem_singleton.mp hv
      exact h.not_held hout
    exact ⟨_, c', .const (by simp [push, push_list_eq, hq]), hc', hrep⟩
  | push_list i first last nodes =>
    obtain ⟨hi, hlinked, hlast, hout⟩ := ha
    obtain ⟨q, hq⟩ := Option.isSome_iff_exists.mp hi
    obtain ⟨c', hc', hrep⟩ := h.push_list hq hlinked hlast fun v hv k => h.not_held (hout v hv)
    exact ⟨_, c', .const (by simp [push_list_eq, hq]), hc', hrep⟩
  | push_list_first i first nodes =>
    obtain ⟨hi, hlinked, hout⟩ := ha
    obtain ⟨q, hq⟩ := Option.isSome_iff_exists.mp hi
    cases first with
    | none =>
      obtain rfl : nodes = [] := Segment.null_iff.mp hlinked
      obtain ⟨others, hothers, -⟩ := (h.holds i).of_object hq
      exact ⟨s, c, ⟨0, fun n _ => by simp [step, hq]⟩, Lists.append_nil hothers, h⟩
    | some first =>
      obtain ⟨last, hlast, hreturns⟩ := find_last_eq hlinked
      obtain ⟨c', hc', hrep⟩ := h.push_list hq hlinked hlast fun v hv k => h.not_held (hout v hv)
      exact ⟨_, c', hreturns.imp fun n hn => by simp [step, push_list_eq, hq, hn], hc', hrep⟩
  | pop_all i =>
    obtain ⟨q, hq⟩ := Option.isSome_iff_exists.mp ha
    obtain ⟨nodes, hnodes, hholds⟩ := (h.holds i).of_object hq
    exact ⟨_, _, .const (by simp [hq]), by simp [Lists.step, hnodes], h.pop_all hnodes hholds⟩
  | link node p => exact ⟨_, _, .const rfl, rfl, h.link ha p⟩

omit [DecidableEq κ] in
theorem init (next : α → Option α) : Represents (queues.construct next : State κ α) Lists.construct := by
  refine ⟨fun i => trivial, ?_, ?_, fun v hv => rfl⟩
  · rintro i j v ⟨nodes, hnodes, -⟩
    cases hnodes
  · rintro i v ⟨nodes, hnodes, -⟩
    cases hnodes

theorem step (h : Represents s c) {a : Action κ α} (hstep : Step kind s a s') :
    ∃ c', Lists.Step c a c' ∧ Represents s' c' := by
  obtain ⟨s₁, c', hreturns, hc', hrep⟩ := h.action hstep.1
  obtain rfl := hreturns.unique hstep.2
  exact ⟨c', hc', hrep⟩

end Represents

/-- The queues are the lists of what was pushed: each is acyclic, ends with null
and with its last node, and its nodes are those of `pop_all`, in their order. No
node is in two lists, or twice, or lost. Everything that is allowed returns. -/
theorem represent_lists {as : List (Action κ α)} (hrun : Run (Step kind) (construct next) as s) :
    ∃ c, Run Lists.Step Lists.construct as c ∧
      (∀ i, s.objects i = none ↔ c.nodes i = none) ∧
      (∀ i q nodes, s.objects i = some q → c.nodes i = some nodes →
        (pop_all q).1 = q.first ∧ Linked s.next q.first nodes ∧ nodes.Nodup ∧
        (q.first ≠ none → ∃ l, q.last = some l ∧ nodes.getLast? = some l)) ∧
      (∀ i j v, c.Held i v → c.Held j v → i = j) ∧
      (∀ i v, c.Held i v → c.pushed.count v = c.popped.count v + 1) ∧
      (∀ v, (∀ i, ¬ c.Held i v) → c.pushed.count v = c.popped.count v) ∧
      ∀ a, Allowed kind s a → ∃ s', Step kind s a s' := by
  have hsim : ∀ (s : State κ α) a s₁ c, Represents s c → Step kind s a s₁ → ∃ c₁, Lists.Step c a c₁ ∧ Represents s₁ c₁ :=
    fun _ _ _ _ h hstep => h.step hstep
  obtain ⟨c, hc, h⟩ := hrun.simulates Represents hsim (Represents.init next)
  refine ⟨c, hc, fun i => (h.holds i).none_iff, fun i q nodes hq hnodes => ?_, h.apart, h.held, h.free,
    fun a ha => ?_⟩
  · obtain ⟨nodes', hnodes', hholds⟩ := (h.holds i).of_object hq
    cases hnodes'.symm.trans hnodes
    refine ⟨rfl, hholds.linked, hholds.linked.nodup, fun hfirst => ?_⟩
    rcases hholds.cases with ⟨-, hnull⟩ | ⟨before, l, f, rfl, -, hlast⟩
    · exact absurd hnull hfirst
    · exact ⟨l, hlast, by simp⟩
  · obtain ⟨s', -, hreturns, -, -⟩ := h.action ha
    exact ⟨s', ha, hreturns⟩

/-- A queue gets a node and is moved. -/
def moves : List (Action Bool Nat) := [.construct false, .push false 1, .move_construct true false]

theorem represent_lists_of_moves : ∃ s : State Bool Nat, s.objects true = some { first := some 1, last := some 1 } ∧
    ∃ c, Run Lists.Step Lists.construct moves c ∧
      (∀ i, s.objects i = none ↔ c.nodes i = none) ∧
      (∀ i q nodes, s.objects i = some q → c.nodes i = some nodes →
        (pop_all q).1 = q.first ∧ Linked s.next q.first nodes ∧ nodes.Nodup ∧
        (q.first ≠ none → ∃ l, q.last = some l ∧ nodes.getLast? = some l)) ∧
      (∀ i j v, c.Held i v → c.Held j v → i = j) ∧
      (∀ i v, c.Held i v → c.pushed.count v = c.popped.count v + 1) ∧
      (∀ v, (∀ i, ¬ c.Held i v) → c.pushed.count v = c.popped.count v) ∧
      ∀ a, Allowed (fun _ => .awaiters_queue) s a → ∃ s', Step (fun _ => .awaiters_queue) s a s' := by
  have hout : Outside ((construct (fun _ => none) : State Bool Nat).set false { first := none, last := none }) 1 := by
    intro i q nodes hq hlinked
    have hfirst : q.first = none := by
      cases i <;> cases hq
      rfl
    rw [hfirst] at hlinked
    simp [Segment.null_iff.mp hlinked]
  refine ⟨_, ?_, represent_lists (.cons ⟨rfl, .const rfl⟩ (.cons ⟨⟨rfl, hout⟩, .const rfl⟩
    (.cons ⟨⟨rfl, rfl, rfl, rfl⟩, .const rfl⟩ (.nil _))))⟩
  rfl

end kelcoro.queues
