import Kelcoro.ThreadPool.Model
import Mathlib

namespace kelcoro.thread_pool

/-- Who has a list of nodes: a queue, a worker, the thread that stops the pool. -/
inductive Holder where
  | queue (q : Nat)
  | worker (w : Nat)
  | stopper
  deriving DecidableEq, Repr

/-- The queue that all nodes of a holder were attached to. -/
def Holder.home : Holder → Option Nat
  | .queue q => some q
  | .worker w => some w
  | .stopper => none

/-- What follows each other in a list: the node of a task, a pill and the node of
the `push_deadpill` that pushed it, the latter without the pill, the pill of the
destructor. -/
inductive Block (α : Type) where
  | task (v : α)
  | stop (p u : α)
  | rest (p u : α)
  | pill (p : α)

namespace Block

variable {α : Type}

def nodes : Block α → List α
  | .task v => [v]
  | .stop p u => [p, u]
  | .rest _ u => [u]
  | .pill p => [p]

def Whole : Block α → Prop
  | .rest _ _ => False
  | _ => True

end Block

def nodes {α : Type} (blocks : List (Block α)) : List α := blocks.flatMap Block.nodes

/-- Where a node is: in the list of a holder, or about to be resumed by it. -/
inductive Place where
  | nowhere
  | listed (h : Holder)
  | pending (h : Holder)
  deriving DecidableEq, Repr

/-- A node about to be resumed, with the handle that was read from it and the
status that its coroutine is to see. -/
structure Pending (α : Type) where
  node : α
  task : Task α
  status : schedule_errc

/-- What a state says of the nodes, apart from the links. `stack` is the pill of
the destructor. -/
structure Nodes (α : Type) where
  life : α → Life
  task : α → Task α
  status : α → schedule_errc
  stack : Option α
  pending : Holder → Option (Pending α)

variable {α : Type} [DecidableEq α]

/-- A node with a coroutine that was attached to the queue of its holder. -/
def Nodes.At (m : Nodes α) (v : α) (h : Holder) : Prop :=
  ∃ q, m.life v = .node q ∧ ∀ q', h.home = some q' → q' = q

/-- The memory of a block is what the block says. -/
def Block.Ok (m : Nodes α) (place : α → Place) (h : Holder) : Block α → Prop
  | .task v => m.At v h ∧ m.task v = .coroutine ∧ m.status v = .ok
  | .stop p u => (m.At u h ∧ m.task u = .push_deadpill p ∧ m.status u = .ok) ∧
      m.life p = .pill ∧ m.task p = .null
  | .rest p u => (m.At u h ∧ m.task u = .push_deadpill p ∧ m.status u = .ok) ∧
      m.life p = .pill ∧ place p = .nowhere
  | .pill p => m.life p = .pill ∧ m.task p = .null ∧ m.stack = some p

/-- So is that of a node about to be resumed. -/
structure Pending.Ok (m : Nodes α) (place : α → Place) (h : Holder) (x : Pending α) : Prop where
  at_home : m.At x.node h
  task : m.task x.node = x.task
  status : m.status x.node = x.status
  not_null : x.task ≠ .null
  coroutine : x.status = .ok → x.task = .coroutine
  frame : ∀ p, x.task = .push_deadpill p → m.life p = .pill ∧ place p = .nowhere

/-- Who has which nodes. -/
structure Owned (m : Nodes α) (place : α → Place) (blocks : Holder → List (Block α)) : Prop where
  listed : ∀ h v, v ∈ nodes (blocks h) ↔ place v = .listed h
  nodup : ∀ h, (nodes (blocks h)).Nodup
  ok : ∀ h, ∀ b ∈ blocks h, b.Ok m place h
  pending : ∀ h v, place v = .pending h ↔ ∃ x, m.pending h = some x ∧ x.node = v
  pending_ok : ∀ h x, m.pending h = some x → x.Ok m place h
  kept : ∀ v q, m.life v = .node q → place v ≠ .nowhere
  frames : ∀ u u' p, place u ≠ .nowhere → place u' ≠ .nowhere →
    m.task u = .push_deadpill p → m.task u' = .push_deadpill p → u = u'
  stack : ∀ p, m.stack = some p → m.life p = .pill ∧ ∀ u, place u ≠ .nowhere → m.task u ≠ .push_deadpill p

variable {m m' : Nodes α} {place place' : α → Place} {blocks : Holder → List (Block α)} {h h' : Holder}
  {b : Block α} {v p u : α}

omit [DecidableEq α] in
@[simp] theorem nodes_nil : nodes ([] : List (Block α)) = [] := rfl

omit [DecidableEq α] in
@[simp] theorem nodes_cons (b : Block α) (bs : List (Block α)) : nodes (b :: bs) = b.nodes ++ nodes bs := rfl

omit [DecidableEq α] in
@[simp] theorem nodes_append (bs bs' : List (Block α)) : nodes (bs ++ bs') = nodes bs ++ nodes bs' :=
  List.flatMap_append

omit [DecidableEq α] in
theorem mem_nodes {bs : List (Block α)} : v ∈ nodes bs ↔ ∃ b ∈ bs, v ∈ b.nodes := List.mem_flatMap

omit [DecidableEq α] in
theorem Nodes.At.congr (hat : m.At v h) (hlife : m'.life v = m.life v)
    (hhome : ∀ q, h'.home = some q → h.home = some q) : m'.At v h' := by
  obtain ⟨q, hq, hsame⟩ := hat
  exact ⟨q, hlife.trans hq, fun q' hq' => hsame q' (hhome q' hq')⟩

omit [DecidableEq α] in
theorem Nodes.At.not_gone (hat : m.At v h) : m.life v ≠ .gone := by
  obtain ⟨q, hq, -⟩ := hat
  simp [hq]

/-- Two views of the nodes agree on a piece of memory. -/
def Nodes.Same (m m' : Nodes α) (v : α) : Prop :=
  m'.life v = m.life v ∧ m'.task v = m.task v ∧ m'.status v = m.status v

omit [DecidableEq α] in
/-- A block is not disturbed by what happens to other memory. -/
theorem Block.Ok.congr (hok : b.Ok m place h) (hsame : ∀ v ∈ b.nodes, m.Same m' v)
    (hrest : ∀ p u, b = .rest p u → m'.life p = m.life p ∧ place' p = place p)
    (hstack : ∀ p, b = .pill p → m'.stack = m.stack)
    (hhome : ∀ q, h'.home = some q → h.home = some q) : b.Ok m' place' h' := by
  cases b with
  | task v =>
    obtain ⟨hat, htask, hstatus⟩ := hok
    obtain ⟨hlife, htask', hstatus'⟩ := hsame v (by simp [nodes])
    exact ⟨hat.congr hlife hhome, htask'.trans htask, hstatus'.trans hstatus⟩
  | stop p u =>
    obtain ⟨⟨hat, htask, hstatus⟩, hpill, hnull⟩ := hok
    obtain ⟨hlife, htask', hstatus'⟩ := hsame u (by simp [nodes])
    obtain ⟨hlife', htask'', -⟩ := hsame p (by simp [nodes])
    exact ⟨⟨hat.congr hlife hhome, htask'.trans htask, hstatus'.trans hstatus⟩, hlife'.trans hpill,
      htask''.trans hnull⟩
  | rest p u =>
    obtain ⟨⟨hat, htask, hstatus⟩, hpill, hnowhere⟩ := hok
    obtain ⟨hlife, htask', hstatus'⟩ := hsame u (by simp [nodes])
    obtain ⟨hlife', hplace⟩ := hrest p u rfl
    exact ⟨⟨hat.congr hlife hhome, htask'.trans htask, hstatus'.trans hstatus⟩, hlife'.trans hpill,
      hplace.trans hnowhere⟩
  | pill p =>
    obtain ⟨hpill, hnull, hstack'⟩ := hok
    obtain ⟨hlife, htask, -⟩ := hsame p (by simp [nodes])
    exact ⟨hlife.trans hpill, htask.trans hnull, (hstack p rfl).trans hstack'⟩

omit [DecidableEq α] in
theorem Block.Ok.not_gone (hok : b.Ok m place h) (hv : v ∈ b.nodes) : m.life v ≠ .gone := by
  cases b with
  | task w =>
    obtain rfl : v = w := by simpa [nodes] using hv
    exact hok.1.not_gone
  | stop p u =>
    rcases (by simpa [nodes] using hv : v = p ∨ v = u) with rfl | rfl
    · simp [hok.2.1]
    · exact hok.1.1.not_gone
  | rest p u =>
    obtain rfl : v = u := by simpa [nodes] using hv
    exact hok.1.1.not_gone
  | pill p =>
    obtain rfl : v = p := by simpa [nodes] using hv
    simp [hok.1]

namespace Owned

omit [DecidableEq α] in
/-- Who is somewhere is no memory that is used for something else. -/
theorem not_gone (ho : Owned m place blocks) (hv : place v ≠ .nowhere) : m.life v ≠ .gone := by
  cases hplace : place v with
  | nowhere => exact absurd hplace hv
  | listed h =>
    obtain ⟨b, hb, hmem⟩ := mem_nodes.mp ((ho.listed h v).mpr hplace)
    exact (ho.ok h b hb).not_gone hmem
  | pending h =>
    obtain ⟨x, hx, rfl⟩ := (ho.pending h v).mp hplace
    exact (ho.pending_ok h x hx).at_home.not_gone

omit [DecidableEq α] in
/-- The frame of a `push_deadpill` that was not resumed has its pill. -/
theorem pill_of_frame (ho : Owned m place blocks) (hu : place u ≠ .nowhere)
    (htask : m.task u = .push_deadpill p) : m.life p = .pill := by
  cases hplace : place u with
  | nowhere => exact absurd hplace hu
  | listed h =>
    obtain ⟨b, hb, hmem⟩ := mem_nodes.mp ((ho.listed h u).mpr hplace)
    have hok := ho.ok h b hb
    cases b with
    | task w =>
      obtain rfl : u = w := by simpa [Block.nodes] using hmem
      cases hok.2.1.symm.trans htask
    | stop p' u' =>
      rcases (by simpa [Block.nodes] using hmem : u = p' ∨ u = u') with rfl | rfl
      · cases hok.2.2.symm.trans htask
      · cases hok.1.2.1.symm.trans htask
        exact hok.2.1
    | rest p' u' =>
      obtain rfl : u = u' := by simpa [Block.nodes] using hmem
      cases hok.1.2.1.symm.trans htask
      exact hok.2.1
    | pill p' =>
      obtain rfl : u = p' := by simpa [Block.nodes] using hmem
      cases hok.2.1.symm.trans htask
  | pending h =>
    obtain ⟨x, hx, rfl⟩ := (ho.pending h u).mp hplace
    have hok := ho.pending_ok h x hx
    exact (hok.frame p (hok.task.symm.trans htask)).1

omit [DecidableEq α] in
theorem not_listed (ho : Owned m place blocks) (hv : place v = .nowhere) (h : Holder) : v ∉ nodes (blocks h) := by
  intro hmem
  cases hv.symm.trans ((ho.listed h v).mp hmem)

omit [DecidableEq α] in
/-- What is no node may be used for something else. -/
theorem congr (ho : Owned m place blocks) (hsame : ∀ v, m.life v ≠ .gone → m.Same m' v)
    (hgone : ∀ v, m.life v = .gone → ∀ q, m'.life v ≠ .node q) (hpending : m'.pending = m.pending)
    (hstack : ∀ p, m'.stack = some p → m'.life p = .pill ∧ ∀ u, place u ≠ .nowhere → m.task u ≠ .push_deadpill p)
    (hpill : ∀ h p, .pill p ∈ blocks h → m'.stack = m.stack) : Owned m' place blocks := by
  have hsame' : ∀ v, place v ≠ .nowhere → m.Same m' v := fun v hv => hsame v (ho.not_gone hv)
  constructor
  · exact ho.listed
  · exact ho.nodup
  · intro h b hb
    have hok := ho.ok h b hb
    apply hok.congr (fun v hv => hsame v (hok.not_gone hv)) _ _ fun q hq => hq
    · rintro p u rfl
      exact ⟨(hsame p (by simp [hok.2.1])).1, rfl⟩
    · rintro p rfl
      exact hpill h p hb
  · rw [hpending]
    exact ho.pending
  · intro h x hx
    rw [hpending] at hx
    have hok := ho.pending_ok h x hx
    obtain ⟨hlife, htask, hstatus⟩ := hsame x.node hok.at_home.not_gone
    exact { hok with
      at_home := hok.at_home.congr hlife fun q hq => hq
      task := htask.trans hok.task
      status := hstatus.trans hok.status
      frame := fun p hp => by
        obtain ⟨hpill', hnowhere⟩ := hok.frame p hp
        exact ⟨((hsame p (by simp [hpill'])).1).trans hpill', hnowhere⟩ }
  · intro v q hv
    by_cases hgone' : m.life v = .gone
    · exact absurd hv (hgone v hgone' q)
    · exact ho.kept v q ((hsame v hgone').1.symm.trans hv)
  · intro u u' p hu hu' htask htask'
    exact ho.frames u u' p hu hu' ((hsame' u hu).2.1.symm.trans htask) ((hsame' u' hu').2.1.symm.trans htask')
  · intro p hp
    obtain ⟨hlife, hnot⟩ := hstack p hp
    exact ⟨hlife, fun u hu htask => hnot u hu ((hsame' u hu).2.1.symm.trans htask)⟩

/-- Nodes that were nowhere are put at the end of a queue. -/
theorem add (ho : Owned m place blocks) {q : Nat} (hsame : ∀ v, m.life v ≠ .gone → m.Same m' v)
    (hgone : ∀ v, m.life v = .gone → v ∉ b.nodes → ∀ k, m'.life v ≠ .node k)
    (hpending : m'.pending = m.pending) (hstack : m'.stack = m.stack)
    (hfresh : ∀ v ∈ b.nodes, place v = .nowhere) (hnodup : b.nodes.Nodup)
    (hmemory : ∀ v ∈ b.nodes, m.life v = .gone ∨ m.stack = some v) (hok : ∀ place', b.Ok m' place' (.queue q))
    (hframe : ∀ u ∈ b.nodes, ∀ p, m'.task u = .push_deadpill p → m.life p = .gone)
    (hone : ∀ u ∈ b.nodes, ∀ u' ∈ b.nodes, ∀ p, m'.task u = .push_deadpill p → m'.task u' = .push_deadpill p →
      u = u') :
    Owned m' (fun v => if v ∈ b.nodes then .listed (.queue q) else place v)
      (Function.update blocks (.queue q) (blocks (.queue q) ++ [b])) := by
  have hsame' : ∀ v, place v ≠ .nowhere → m.Same m' v := fun v hv => hsame v (ho.not_gone hv)
  have hplace : ∀ v, place v ≠ .nowhere → (if v ∈ b.nodes then Place.listed (.queue q) else place v) = place v :=
    fun v hv => if_neg fun hmem => hv (hfresh v hmem)
  -- the pill in the frame of a node that is somewhere is none of the new nodes
  have hpill : ∀ u p, place u ≠ .nowhere → m.task u = .push_deadpill p → p ∉ b.nodes := by
    intro u p hu htask hmem
    rcases hmemory p hmem with hp | hp
    · cases (ho.pill_of_frame hu htask).symm.trans hp
    · exact (ho.stack p hp).2 u hu htask
  constructor
  · intro k v
    by_cases hk : k = .queue q
    · subst hk
      by_cases hv : v ∈ b.nodes
      · simp [hv]
      · simp [hv, ho.listed _ v]
    · rw [Function.update_of_ne hk]
      by_cases hv : v ∈ b.nodes
      · simp [hv, ho.listed k v, hfresh v hv, Ne.symm hk]
      · simp [hv, ho.listed k v]
  · intro k
    by_cases hk : k = .queue q
    · subst hk
      simp only [Function.update_self, nodes_append, nodes_cons, nodes_nil, List.append_nil]
      refine List.nodup_append.mpr ⟨ho.nodup _, hnodup, ?_⟩
      rintro v hv w hw rfl
      exact ho.not_listed (hfresh v hw) _ hv
    · rw [Function.update_of_ne hk]
      exact ho.nodup k
  · intro k c hc
    by_cases hold : c ∈ blocks k
    · have hc' := ho.ok k c hold
      apply hc'.congr (fun v hv => hsame v (hc'.not_gone hv)) _ (fun _ _ => hstack) fun q hq => hq
      rintro p u rfl
      have hu : place u = .listed k := (ho.listed k u).mp (mem_nodes.mpr ⟨_, hold, by simp [Block.nodes]⟩)
      refine ⟨(hsame p (by simp [hc'.2.1])).1, if_neg (hpill u p (by simp [hu]) hc'.1.2.1)⟩
    · by_cases hk : k = .queue q
      · subst hk
        obtain rfl : c = b := by simpa [hold] using hc
        exact hok _
      · rw [Function.update_of_ne hk] at hc
        exact absurd hc hold
  · intro k v
    rw [hpending, ← ho.pending k v]
    by_cases hv : v ∈ b.nodes
    · simp [hv, hfresh v hv]
    · simp [hv]
  · intro k x hx
    rw [hpending] at hx
    have hx' := ho.pending_ok k x hx
    have hplaced : place x.node ≠ .nowhere := by
      rw [(ho.pending k x.node).mpr ⟨x, hx, rfl⟩]
      simp
    obtain ⟨hlife, htask, hstatus⟩ := hsame' x.node hplaced
    exact { hx' with
      at_home := hx'.at_home.congr hlife fun q hq => hq
      task := htask.trans hx'.task
      status := hstatus.trans hx'.status
      frame := fun p hp => by
        obtain ⟨hlife', hnowhere⟩ := hx'.frame p hp
        refine ⟨((hsame p (by simp [hlife'])).1).trans hlife', ?_⟩
        rw [if_neg (hpill x.node p hplaced (hx'.task.trans hp))]
        exact hnowhere }
  · intro v k hv
    by_cases hmem : v ∈ b.nodes
    · simp [hmem]
    · rw [if_neg hmem]
      by_cases hvgone : m.life v = .gone
      · exact absurd hv (hgone v hvgone hmem k)
      · exact ho.kept v k ((hsame v hvgone).1.symm.trans hv)
  · intro u u' p hu hu' htask htask'
    by_cases hmem : u ∈ b.nodes
    · by_cases hmem' : u' ∈ b.nodes
      · exact hone u hmem u' hmem' p htask htask'
      · rw [if_neg hmem'] at hu'
        have hold := ho.pill_of_frame hu' ((hsame' u' hu').2.1.symm.trans htask')
        cases hold.symm.trans (hframe u hmem p htask)
    · rw [if_neg hmem] at hu
      have hold := (hsame' u hu).2.1.symm.trans htask
      by_cases hmem' : u' ∈ b.nodes
      · cases (ho.pill_of_frame hu hold).symm.trans (hframe u' hmem' p htask')
      · rw [if_neg hmem'] at hu'
        exact ho.frames u u' p hu hu' hold ((hsame' u' hu').2.1.symm.trans htask')
  · intro p hp
    rw [hstack] at hp
    obtain ⟨hlife, hnot⟩ := ho.stack p hp
    refine ⟨((hsame p (by simp [hlife])).1).trans hlife, fun u hu htask => ?_⟩
    by_cases hmem : u ∈ b.nodes
    · cases hlife.symm.trans (hframe u hmem p htask)
    · rw [if_neg hmem] at hu
      exact hnot u hu ((hsame' u hu).2.1.symm.trans htask)

omit [DecidableEq α] in
/-- All nodes of a holder go to another one, which has none. -/
theorem transfer (ho : Owned m place blocks) (hne : h ≠ h') (hempty : blocks h' = [])
    (hhome : ∀ q, h'.home = some q → h.home = some q) :
    Owned m (fun v => if place v = .listed h then .listed h' else place v)
      (Function.update (Function.update blocks h' (blocks h)) h []) := by
  have hblocks : ∀ k, Function.update (Function.update blocks h' (blocks h)) h [] k =
      if k = h then [] else if k = h' then blocks h else blocks k := by
    intro k
    by_cases hk : k = h
    · simp [hk]
    · by_cases hk' : k = h'
      · simp [hk', hne.symm]
      · simp [hk, hk']
  have hplace : ∀ v, (if place v = .listed h then Place.listed h' else place v) = .nowhere ↔ place v = .nowhere := by
    intro v
    split
    · rename_i hv
      simp [hv]
    · exact Iff.rfl
  constructor
  · intro k v
    rw [hblocks]
    by_cases hk : k = h
    · subst hk
      by_cases hv : place v = .listed k
      · simp [hv, hne.symm]
      · simp [hv]
    · rw [if_neg hk]
      by_cases hk' : k = h'
      · subst hk'
        have hnot : place v ≠ .listed k := fun hv => by simpa [hempty] using (ho.listed k v).mpr hv
        by_cases hv : place v = .listed h
        · simp [hv, ho.listed h v]
        · simp [hv, hnot, ho.listed h v]
      · rw [if_neg hk']
        by_cases hv : place v = .listed h
        · simp [hv, ho.listed k v, Ne.symm hk, Ne.symm hk']
        · simp [hv, ho.listed k v]
  · intro k
    rw [hblocks]
    split
    · exact List.nodup_nil
    · split
      · exact ho.nodup h
      · exact ho.nodup k
  · intro k b hb
    rw [hblocks] at hb
    split at hb
    · cases hb
    · split at hb
      · rename_i hk
        subst hk
        have hok := ho.ok h b hb
        apply hok.congr (fun _ _ => ⟨rfl, rfl, rfl⟩) _ (fun _ _ => rfl) hhome
        rintro p u rfl
        exact ⟨rfl, by rw [(hplace p).mpr hok.2.2, hok.2.2]⟩
      · have hok := ho.ok k b hb
        apply hok.congr (fun _ _ => ⟨rfl, rfl, rfl⟩) _ (fun _ _ => rfl) fun q hq => hq
        rintro p u rfl
        exact ⟨rfl, by rw [(hplace p).mpr hok.2.2, hok.2.2]⟩
  · intro k v
    rw [← ho.pending k v]
    by_cases hv : place v = .listed h
    · simp [hv]
    · simp [hv]
  · intro k x hx
    have hok := ho.pending_ok k x hx
    exact { hok with frame := fun p hp => ⟨(hok.frame p hp).1, (hplace p).mpr (hok.frame p hp).2⟩ }
  · exact fun v q hv => (hplace v).not.mpr (ho.kept v q hv)
  · exact fun u u' p hu hu' => ho.frames u u' p ((hplace u).not.mp hu) ((hplace u').not.mp hu')
  · intro p hp
    obtain ⟨hlife, hnot⟩ := ho.stack p hp
    exact ⟨hlife, fun u hu => hnot u ((hplace u).not.mp hu)⟩

omit [DecidableEq α] in
theorem place_head (ho : Owned m place blocks) {rest : List (Block α)} (hblocks : blocks h = b :: rest)
    (hv : v ∈ b.nodes) : place v = .listed h :=
  (ho.listed h v).mp (by simp [hblocks, hv])

/-- The node at the head of a list is to be resumed. -/
theorem pick (ho : Owned m place blocks) (status : schedule_errc) {rest : List (Block α)}
    (hblocks : blocks h = b :: rest) (hv : b = .task v ∨ ∃ p, b = .rest p v) (hnone : m.pending h = none)
    (hstatus : status = .ok → b = .task v) :
    Owned { m with
        status := Function.update m.status v status
        pending := Function.update m.pending h (some ⟨v, m.task v, status⟩) }
      (Function.update place v (.pending h)) (Function.update blocks h rest) := by
  have hnodes : b.nodes = [v] := by
    rcases hv with rfl | ⟨p, rfl⟩ <;> rfl
  have hplace : place v = .listed h := ho.place_head hblocks (by simp [hnodes])
  have hnodup := ho.nodup h
  rw [hblocks, nodes_cons, hnodes] at hnodup
  obtain ⟨hrest, hrest_nodup⟩ := List.nodup_cons.mp hnodup
  have hother : ∀ w, w ≠ v → Function.update place v (.pending h) w = place w := fun w hw =>
    Function.update_of_ne hw ..
  have hnowhere : ∀ w, Function.update place v (.pending h) w = .nowhere ↔ place w = .nowhere := by
    intro w
    by_cases hw : w = v
    · subst hw
      simp [hplace]
    · rw [hother w hw]
  have hsame : ∀ w, w ≠ v → m.Same { m with
      status := Function.update m.status v status
      pending := Function.update m.pending h (some ⟨v, m.task v, status⟩) } w := fun w hw =>
    ⟨rfl, rfl, Function.update_of_ne hw ..⟩
  constructor
  · intro k w
    by_cases hk : k = h
    · subst hk
      rw [Function.update_self]
      by_cases hw : w = v
      · subst hw
        simpa using hrest
      · have hold := ho.listed k w
        rw [hblocks, nodes_cons, hnodes] at hold
        simpa [hw] using hold
    · rw [Function.update_of_ne hk]
      by_cases hw : w = v
      · subst hw
        simp [ho.listed k, hplace, Ne.symm hk]
      · rw [hother w hw]
        exact ho.listed k w
  · intro k
    by_cases hk : k = h
    · subst hk
      rw [Function.update_self]
      exact hrest_nodup
    · rw [Function.update_of_ne hk]
      exact ho.nodup k
  · intro k c hc
    have hold : c ∈ blocks k ∧ v ∉ c.nodes := by
      by_cases hk : k = h
      · subst hk
        rw [Function.update_self] at hc
        exact ⟨by simp [hblocks, hc], fun hmem => hrest (mem_nodes.mpr ⟨c, hc, hmem⟩)⟩
      · rw [Function.update_of_ne hk] at hc
        refine ⟨hc, fun hmem => ?_⟩
        have hlisted := (ho.listed k v).mp (mem_nodes.mpr ⟨c, hc, hmem⟩)
        cases hplace.symm.trans hlisted
        exact hk rfl
    have hok := ho.ok k c hold.1
    refine hok.congr (fun w hw => hsame w ?_) ?_ ?_ fun q hq => hq
    · rintro rfl
      exact hold.2 hw
    · rintro p u rfl
      exact ⟨rfl, by rw [(hnowhere p).mpr hok.2.2, hok.2.2]⟩
    · exact fun _ _ => rfl
  · intro k w
    by_cases hk : k = h
    · subst hk
      by_cases hw : w = v
      · subst hw
        simp
      · have hold := (ho.pending k w).not.mpr (by simp [hnone])
        simp [hother w hw, hold, Ne.symm hw]
    · by_cases hw : w = v
      · subst hw
        have hold : ¬ ∃ x, m.pending k = some x ∧ x.node = w := by
          rw [← ho.pending k w, hplace]
          simp
        simpa [hk, Ne.symm hk] using hold
      · rw [hother w hw]
        simpa [hk] using ho.pending k w
  · intro k x hx
    by_cases hk : k = h
    · subst hk
      obtain rfl : (⟨v, m.task v, status⟩ : Pending α) = x := by simpa using hx
      have hok := ho.ok k b (by simp [hblocks])
      rcases hv with rfl | ⟨p, rfl⟩
      · obtain ⟨hat, htask, -⟩ := hok
        exact ⟨hat, rfl, Function.update_self .., by simp [htask], fun _ => htask, fun p hp => by simp [htask] at hp⟩
      · obtain ⟨⟨hat, htask, -⟩, hpill, hp⟩ := hok
        refine ⟨hat, rfl, Function.update_self .., by simp [htask], fun heq => ?_, fun p' hp' => ?_⟩
        · cases hstatus heq
        · obtain rfl : p = p' := by simpa [htask] using hp'
          exact ⟨hpill, (hnowhere p).mpr hp⟩
    · have hx' : m.pending k = some x := by simpa [hk] using hx
      have hok := ho.pending_ok k x hx'
      have hne : x.node ≠ v := by
        intro heq
        have hpending := (ho.pending k x.node).mpr ⟨x, hx', rfl⟩
        rw [heq, hplace] at hpending
        cases hpending
      exact { hok with
        status := (hsame x.node hne).2.2.trans hok.status
        frame := fun p hp => ⟨(hok.frame p hp).1, (hnowhere p).mpr (hok.frame p hp).2⟩ }
  · exact fun w q hw => (hnowhere w).not.mpr (ho.kept w q hw)
  · exact fun u u' p hu hu' => ho.frames u u' p ((hnowhere u).not.mp hu) ((hnowhere u').not.mp hu')
  · intro p hp
    obtain ⟨hlife, hnot⟩ := ho.stack p hp
    exact ⟨hlife, fun u hu => hnot u ((hnowhere u).not.mp hu)⟩

/-- A pill at the head of a list has been read. -/
theorem consume (ho : Owned m place blocks) (status : schedule_errc) {rest keep : List (Block α)}
    (hblocks : blocks h = b :: rest)
    (hb : b = .pill p ∧ keep = [] ∨ ∃ u, b = .stop p u ∧ keep = [.rest p u]) :
    Owned { m with status := Function.update m.status p status } (Function.update place p .nowhere)
      (Function.update blocks h (keep ++ rest)) := by
  have hok := ho.ok h b (by simp [hblocks])
  have hnodes : b.nodes = p :: nodes keep := by
    rcases hb with ⟨rfl, rfl⟩ | ⟨u, rfl, rfl⟩ <;> rfl
  have hlife : m.life p = .pill := by
    rcases hb with ⟨rfl, rfl⟩ | ⟨u, rfl, rfl⟩
    · exact hok.1
    · exact hok.2.1
  have hplace : place p = .listed h := ho.place_head hblocks (by simp [hnodes])
  have hsplit : nodes (blocks h) = p :: nodes (keep ++ rest) := by simp [hblocks, hnodes]
  have hnodup := ho.nodup h
  rw [hsplit] at hnodup
  obtain ⟨hrest, hrest_nodup⟩ := List.nodup_cons.mp hnodup
  have hother : ∀ w, w ≠ p → Function.update place p .nowhere w = place w := fun w hw =>
    Function.update_of_ne hw ..
  have hplaced : ∀ w, Function.update place p .nowhere w ≠ .nowhere → place w ≠ .nowhere := by
    intro w hw
    by_cases hwp : w = p
    · simp [hwp] at hw
    · rwa [hother w hwp] at hw
  have hnowhere : ∀ w, place w = .nowhere → Function.update place p .nowhere w = .nowhere := fun w hw => by
    by_contra hne
    exact hplaced w hne hw
  have hsame : ∀ w, w ≠ p → m.Same { m with status := Function.update m.status p status } w := fun w hw =>
    ⟨rfl, rfl, Function.update_of_ne hw ..⟩
  constructor
  · intro k w
    by_cases hk : k = h
    · subst hk
      rw [Function.update_self]
      by_cases hw : w = p
      · subst hw
        simpa using hrest
      · have hold := ho.listed k w
        rw [hsplit, List.mem_cons] at hold
        rw [hother w hw]
        simpa [hw] using hold
    · rw [Function.update_of_ne hk]
      by_cases hw : w = p
      · subst hw
        simp [ho.listed k, hplace, Ne.symm hk]
      · rw [hother w hw]
        exact ho.listed k w
  · intro k
    by_cases hk : k = h
    · subst hk
      rw [Function.update_self]
      exact hrest_nodup
    · rw [Function.update_of_ne hk]
      exact ho.nodup k
  · intro k c hc
    by_cases hold : c ∈ blocks k ∧ p ∉ c.nodes
    · have hok := ho.ok k c hold.1
      refine hok.congr (fun w hw => hsame w ?_) ?_ ?_ fun q hq => hq
      · rintro rfl
        exact hold.2 hw
      · rintro p' u rfl
        exact ⟨rfl, by rw [hnowhere p' hok.2.2, hok.2.2]⟩
      · exact fun _ _ => rfl
    · by_cases hk : k = h
      · subst hk
        rw [Function.update_self] at hc
        have hc' : p ∉ c.nodes := fun hmem => hrest (mem_nodes.mpr ⟨c, hc, hmem⟩)
        rcases hb with ⟨rfl, rfl⟩ | ⟨u, rfl, rfl⟩
        · exact absurd ⟨by simpa [hblocks] using Or.inr hc, hc'⟩ hold
        · rcases List.mem_cons.mp hc with rfl | hc
          · obtain ⟨⟨hat, htask, hstatus⟩, hpill, -⟩ := hok
            have hup : u ≠ p := by
              rintro rfl
              simp [Block.nodes] at hc'
            exact ⟨⟨hat, htask, (hsame u hup).2.2.trans hstatus⟩, hpill, Function.update_self ..⟩
          · have hc'' : c ∈ rest := hc
            exact absurd ⟨by simp [hblocks, hc''], hc'⟩ hold
      · rw [Function.update_of_ne hk] at hc
        have hmem : p ∈ c.nodes := by
          by_contra hmem
          exact hold ⟨hc, hmem⟩
        have hlisted := (ho.listed k p).mp (mem_nodes.mpr ⟨c, hc, hmem⟩)
        cases hplace.symm.trans hlisted
        exact absurd rfl hk
  · intro k w
    rw [← ho.pending k w]
    by_cases hw : w = p
    · subst hw
      simp [hplace]
    · rw [hother w hw]
  · intro k x hx
    have hx' := ho.pending_ok k x hx
    have hne : x.node ≠ p := by
      intro heq
      have hpending := (ho.pending k x.node).mpr ⟨x, hx, rfl⟩
      rw [heq, hplace] at hpending
      cases hpending
    exact { hx' with
      status := (hsame x.node hne).2.2.trans hx'.status
      frame := fun p' hp => ⟨(hx'.frame p' hp).1, hnowhere p' (hx'.frame p' hp).2⟩ }
  · intro w q hw
    have hwp : w ≠ p := by
      rintro rfl
      cases hlife.symm.trans hw
    rw [hother w hwp]
    exact ho.kept w q hw
  · exact fun u u' p' hu hu' => ho.frames u u' p' (hplaced u hu) (hplaced u' hu')
  · intro p' hp
    obtain ⟨hlife', hnot⟩ := ho.stack p' hp
    exact ⟨hlife', fun u hu => hnot u (hplaced u hu)⟩

/-- A coroutine is resumed: its node is gone, and so is the pill in the frame of a
`push_deadpill`. -/
theorem resumed (ho : Owned m place blocks) {x : Pending α} (hx : m.pending h = some x) :
    Owned { m with
        life := fun v => if v = x.node ∨ x.task = .push_deadpill v then .gone else m.life v
        pending := Function.update m.pending h none }
      (Function.update place x.node .nowhere) blocks := by
  have hplace : place x.node = .pending h := (ho.pending h x.node).mpr ⟨x, hx, rfl⟩
  have hok := ho.pending_ok h x hx
  have hother : ∀ w, w ≠ x.node → Function.update place x.node .nowhere w = place w := fun w hw =>
    Function.update_of_ne hw ..
  have hplaced : ∀ w, Function.update place x.node .nowhere w ≠ .nowhere → place w ≠ .nowhere ∧ w ≠ x.node := by
    intro w hw
    by_cases hwx : w = x.node
    · simp [hwx] at hw
    · exact ⟨by rwa [hother w hwx] at hw, hwx⟩
  have hnowhere : ∀ w, place w = .nowhere → Function.update place x.node .nowhere w = .nowhere := fun w hw => by
    by_contra hne
    exact (hplaced w hne).1 hw
  -- neither a node that is somewhere else nor the pill in its frame is gone
  have halive : ∀ w, place w ≠ .nowhere → w ≠ x.node → ¬ (w = x.node ∨ x.task = .push_deadpill w) := by
    rintro w hw hwx (heq | hframe)
    · exact hwx heq
    · exact hw (hok.frame w hframe).2
  have hpill : ∀ w p, place w ≠ .nowhere → w ≠ x.node → m.task w = .push_deadpill p →
      ¬ (p = x.node ∨ x.task = .push_deadpill p) := by
    rintro w p hw hwx htask (rfl | hframe)
    · obtain ⟨q, hq, -⟩ := hok.at_home
      cases (ho.pill_of_frame hw htask).symm.trans hq
    · refine hwx (ho.frames w x.node p hw (by simp [hplace]) htask (hok.task.trans hframe))
  constructor
  · intro k w
    by_cases hw : w = x.node
    · subst hw
      simp [ho.listed k, hplace]
    · rw [hother w hw]
      exact ho.listed k w
  · exact ho.nodup
  · intro k c hc
    have hc' := ho.ok k c hc
    have hw : ∀ w ∈ c.nodes, place w ≠ .nowhere ∧ w ≠ x.node := by
      intro w hw
      have hlisted := (ho.listed k w).mp (mem_nodes.mpr ⟨c, hc, hw⟩)
      refine ⟨by simp [hlisted], ?_⟩
      rintro rfl
      cases hlisted.symm.trans hplace
    refine hc'.congr (fun w hmem => ⟨if_neg (halive w (hw w hmem).1 (hw w hmem).2), rfl, rfl⟩) ?_ (fun _ _ => rfl)
      fun q hq => hq
    rintro p u rfl
    obtain ⟨hu, hux⟩ := hw u (by simp [Block.nodes])
    exact ⟨if_neg (hpill u p hu hux hc'.1.2.1), by rw [hnowhere p hc'.2.2, hc'.2.2]⟩
  · intro k w
    by_cases hk : k = h
    · subst hk
      by_cases hw : w = x.node
      · simp [hw]
      · have hold : ¬ ∃ y, m.pending k = some y ∧ y.node = w := by
          rintro ⟨y, hy, rfl⟩
          rw [hx] at hy
          exact hw (congrArg Pending.node (Option.some.inj hy)).symm
        rw [← ho.pending k w] at hold
        simp [hother w hw, hold]
    · by_cases hw : w = x.node
      · subst hw
        have hold : ¬ ∃ y, m.pending k = some y ∧ y.node = x.node := by
          rw [← ho.pending k, hplace]
          simpa using Ne.symm hk
        simpa [hk] using hold
      · rw [hother w hw]
        simpa [hk] using ho.pending k w
  · intro k y hy
    have hk : k ≠ h := by
      rintro rfl
      simp at hy
    have hy' : m.pending k = some y := by simpa [hk] using hy
    have hyok := ho.pending_ok k y hy'
    have hyplace := (ho.pending k y.node).mpr ⟨y, hy', rfl⟩
    have hne : y.node ≠ x.node := by
      intro heq
      rw [heq, hplace] at hyplace
      cases hyplace
      exact hk rfl
    have hyplaced : place y.node ≠ .nowhere := by simp [hyplace]
    exact { hyok with
      at_home := hyok.at_home.congr (if_neg (halive y.node hyplaced hne)) fun q hq => hq
      frame := fun p hp => by
        obtain ⟨hlife, hp'⟩ := hyok.frame p hp
        exact ⟨(if_neg (hpill y.node p hyplaced hne (hyok.task.trans hp))).trans hlife, hnowhere p hp'⟩ }
  · intro w q hw
    dsimp only at hw
    split at hw
    · cases hw
    · rename_i hnot
      rw [hother w fun heq => hnot (Or.inl heq)]
      exact ho.kept w q hw
  · exact fun u u' p hu hu' => ho.frames u u' p (hplaced u hu).1 (hplaced u' hu').1
  · intro p hp
    obtain ⟨hlife, hnot⟩ := ho.stack p hp
    refine ⟨(if_neg ?_).trans hlife, fun u hu => hnot u (hplaced u hu).1⟩
    rintro (rfl | hframe)
    · obtain ⟨q, hq, -⟩ := hok.at_home
      cases hlife.symm.trans hq
    · exact hnot x.node (by simp [hplace]) (hok.task.trans hframe)

omit [DecidableEq α] in
/-- The memory of the pill of the destructor is gone when the pill was read. -/
theorem destroyed (ho : Owned m place blocks) (hp : m.stack = some p) (hnowhere : place p = .nowhere)
    (hother : ∀ v, v ≠ p → m'.life v = m.life v) (hlife : m'.life p = .gone) (htask : m'.task = m.task)
    (hstatus : m'.status = m.status) (hstack : m'.stack = none) (hpending : m'.pending = m.pending) :
    Owned m' place blocks := by
  obtain ⟨hpill, hframe⟩ := ho.stack p hp
  have hsame : ∀ v, place v ≠ .nowhere → m.Same m' v := by
    intro v hv
    refine ⟨hother v ?_, by rw [htask], by rw [hstatus]⟩
    rintro rfl
    exact hv hnowhere
  constructor
  · exact ho.listed
  · exact ho.nodup
  · intro h b hb
    have hok := ho.ok h b hb
    have hplaced : ∀ v ∈ b.nodes, place v = .listed h := fun v hv =>
      (ho.listed h v).mp (mem_nodes.mpr ⟨b, hb, hv⟩)
    refine hok.congr (fun v hv => hsame v (by simp [hplaced v hv])) ?_ ?_ fun q hq => hq
    · rintro p' u rfl
      refine ⟨hother p' ?_, rfl⟩
      rintro rfl
      exact hframe u (by simp [hplaced u (by simp [Block.nodes])]) hok.1.2.1
    · rintro p' rfl
      have hlisted := hplaced p' (by simp [Block.nodes])
      cases hok.2.2.symm.trans hp
      cases hlisted.symm.trans hnowhere
  · rw [hpending]
    exact ho.pending
  · intro h x hx
    rw [hpending] at hx
    have hok := ho.pending_ok h x hx
    have hplaced : place x.node ≠ .nowhere := by
      rw [(ho.pending h x.node).mpr ⟨x, hx, rfl⟩]
      simp
    obtain ⟨hlife', -, -⟩ := hsame x.node hplaced
    exact { hok with
      at_home := hok.at_home.congr hlife' fun q hq => hq
      task := by rw [htask, hok.task]
      status := by rw [hstatus, hok.status]
      frame := fun p' hp' => by
        refine ⟨(hother p' ?_).trans (hok.frame p' hp').1, (hok.frame p' hp').2⟩
        rintro rfl
        exact hframe x.node hplaced (hok.task.trans hp') }
  · intro v q hv
    by_cases hvp : v = p
    · rw [hvp, hlife] at hv
      cases hv
    · exact ho.kept v q ((hother v hvp).symm.trans hv)
  · rw [htask]
    exact ho.frames
  · intro p' hp'
    cases hstack.symm.trans hp'

omit [DecidableEq α] in
/-- What a handle at the head of a list says of its block. -/
theorem head_cases (ho : Owned m place blocks) {rest : List (Block α)} {vs : List α} (hblocks : blocks h = b :: rest)
    (hnodes : b.nodes = v :: vs) :
    (m.task v = .null ∧ ((b = .pill v ∧ vs = []) ∨ ∃ u, b = .stop v u ∧ vs = [u])) ∨
      (m.task v ≠ .null ∧ vs = [] ∧ ((b = .task v ∧ m.task v = .coroutine) ∨ ∃ p, b = .rest p v)) := by
  have hok := ho.ok h b (by simp [hblocks])
  cases b with
  | task w =>
    obtain ⟨rfl, rfl⟩ : w = v ∧ vs = [] := by simpa [Block.nodes, eq_comm] using hnodes
    exact Or.inr ⟨by simp [hok.2.1], rfl, Or.inl ⟨rfl, hok.2.1⟩⟩
  | stop p u =>
    obtain ⟨rfl, rfl⟩ : p = v ∧ vs = [u] := by simpa [Block.nodes, eq_comm] using hnodes
    exact Or.inl ⟨hok.2.2, Or.inr ⟨u, rfl, rfl⟩⟩
  | rest p u =>
    obtain ⟨rfl, rfl⟩ : u = v ∧ vs = [] := by simpa [Block.nodes, eq_comm] using hnodes
    exact Or.inr ⟨by simp [hok.1.2.1], rfl, Or.inr ⟨p, rfl⟩⟩
  | pill p =>
    obtain ⟨rfl, rfl⟩ : p = v ∧ vs = [] := by simpa [Block.nodes, eq_comm] using hnodes
    exact Or.inl ⟨hok.2.1, Or.inl ⟨rfl, rfl⟩⟩

end Owned

end kelcoro.thread_pool
