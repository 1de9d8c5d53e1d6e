import Kelcoro.MemorySupport.NewDelete
import Kelcoro.StackResource.System
import Kelcoro.Task.Calls.Evaluated
import Kelcoro.Task.Calls.Frames
import Mathlib

namespace kelcoro.task.calls.with_stack_resource

open kelcoro.lib kelcoro.return_block kelcoro.memory_support

variable {C V E A R : Type}

theorem pointer_sizeof_pos : 0 < (8 : overload_new_delete.Word).toNat := by decide

theorem pointer_alignof : size_t.has_single_bit (8 : overload_new_delete.Word) = true := by decide

theorem pointer_alignof_le : (8 : overload_new_delete.Word).toNat ≤ 16 := by decide

/-- `chunk_from<stack_resource>`, a pointer to the resource. -/
def chunk_from : overload_new_delete.ResourceType where
  sizeof := 8
  alignof := 8
  is_trivially_destructible := true
  sizeof_pos := pointer_sizeof_pos
  has_single_bit_alignof := pointer_alignof
  alignof_le := pointer_alignof_le

/-- What is requested for a frame, with the pointer to the resource behind it. -/
def requested (frame_sz : overload_new_delete.Word) : Nat :=
  (size_t.aligned chunk_from.alignof frame_sz + chunk_from.sizeof).toNat

/-- Coroutines whose frames are allocated with stack resources. `resource` is the
pointer behind a frame, `block` what was allocated for it. -/
structure State (C V E A R : Type) where
  coroutines : System C V E A R
  memory : stack_resource.Memory
  resources : stack_resource.ObjId → Option stack_resource.StackResource
  resource : Nat → stack_resource.ObjId
  block : Nat → stack_resource.Block

def construct : State C V E A R where
  coroutines := calls.construct
  memory := stack_resource.World.empty.memory
  resources := stack_resource.World.empty.resources
  resource := fun _ => 0
  block := fun _ => { ptr := 0, len := 0 }

section Frames

variable (n : Nat) (new : Nat → Option Nat) (s : State C V E A R)

/-- The frame of coroutine `f` is allocated. That it cannot be is left out. -/
def operator_new (f : Nat) (this : stack_resource.ObjId) (frame_sz : overload_new_delete.Word) :
    Option (State C V E A R) := do
  let r ← s.resources this
  let (memory, r, ptr) ← stack_resource.allocate n new s.memory r (requested frame_sz)
  let ptr ← ptr
  some { s with
    memory := memory
    resources := Function.update s.resources this (some r)
    resource := Function.update s.resource f this
    block := Function.update s.block f { ptr := ptr, len := requested frame_sz } }

/-- It is given back to the resource that it is from. -/
def operator_delete (f : Nat) : Option (State C V E A R) := do
  let r ← s.resources (s.resource f)
  let (memory, r) ← stack_resource.deallocate n s.memory r (s.block f).ptr (s.block f).len
  some { s with
    memory := memory
    resources := Function.update s.resources (s.resource f) (some r) }

variable (frame_sz : C → overload_new_delete.Word)

/-- A step of coroutine `f` may create a frame, which is allocated with `this`, or
destroy that of the coroutine. -/
def frames (coroutines : System C V E A R) (f : Nat) (this : stack_resource.ObjId) : Option (State C V E A R) :=
  if s.coroutines.tasks.created < coroutines.tasks.created then
    match coroutines.points s.coroutines.tasks.created with
    | .goes_on c => operator_new n new { s with coroutines := coroutines } s.coroutines.tasks.created this (frame_sz c)
    | _ => none
  else if (s.coroutines.tasks.frames f).pc ≠ .destroyed ∧ (coroutines.tasks.frames f).pc = .destroyed then
    operator_delete n { s with coroutines := coroutines } f
  else some { s with coroutines := coroutines }

end Frames

/-- A resource is made or destroyed; a coroutine is called with a resource; and what
else happens to coroutines, with what `new[]` does if a frame is allocated. -/
inductive Action (C V E R : Type) where
  | construct (this : stack_resource.ObjId) (bytes : stack_resource.Span)
  | destroy (this : stack_resource.ObjId)
  | spawn (c : C) (this : stack_resource.ObjId) (new : Nat → Option Nat)
  | caller (r : Nat) (op : Op V E)
  | go (f : Nat) (new : Nat → Option Nat)
  | resume (f : Nat) (x : R)

/-- What happens to the coroutines. -/
def Action.coroutines : Action C V E R → Option (calls.Action C V E R)
  | .construct _ _ | .destroy _ => none
  | .spawn c _ _ => some (.spawn c)
  | .caller r op => some (.caller r op)
  | .go f _ => some (.go f)
  | .resume f x => some (.resume f x)

section Step

variable (P : Program C V E A R) (frame_sz : C → overload_new_delete.Word) (left : E → Option E) (moved : V → V)
  (s : State C V E A R)

/-- A coroutine passes its resource on to the ones that it calls. -/
def step (n : Nat) : Action C V E R → Option (State C V E A R)
  | .construct this bytes =>
    some { s with resources := Function.update s.resources this (some (stack_resource.construct bytes)) }
  | .destroy this => do
    let r ← s.resources this
    let memory ← stack_resource.destroy n s.memory r
    some { s with
      memory := memory
      resources := Function.update s.resources this none }
  | .spawn c this new => do
    let coroutines ← calls.step P left moved s.coroutines (.spawn c)
    frames n new s frame_sz coroutines s.coroutines.tasks.created this
  | .caller r op => do
    let coroutines ← calls.step P left moved s.coroutines (.caller r op)
    frames n (fun _ => none) s frame_sz coroutines r (s.resource r)
  | .go f new => do
    let coroutines ← calls.step P left moved s.coroutines (.go f)
    frames n new s frame_sz coroutines f (s.resource f)
  | .resume f x => do
    let coroutines ← calls.step P left moved s.coroutines (.resume f x)
    frames n (fun _ => none) s frame_sz coroutines f (s.resource f)

/-- No frame that is not destroyed was allocated with it. -/
def Unused (this : stack_resource.ObjId) : Prop :=
  ∀ f, f < s.coroutines.tasks.created → s.resource f = this → (s.coroutines.tasks.frames f).pc = .destroyed

/-- A frame can be allocated: no sum wraps, `new[]` does what it promises, and does not
throw when it is called. -/
def Provides (this : stack_resource.ObjId) (c : C) (new : Nat → Option Nat) : Prop :=
  ∀ r, s.resources this = some r →
    stack_resource.NoWrap s.memory r (requested (frame_sz c)) ∧
    stack_resource.NewContract s.memory r.initial_buffer new ∧
    ∀ n memory r', stack_resource.allocate n new s.memory r (requested (frame_sz c)) ≠ some (memory, r', none)

/-- A resource is not destroyed as long as frames are in it, and is not passed to
coroutines with different callers at the same time. -/
def Allowed : Action C V E R → Prop
  | .construct this bytes => s.resources this = none ∧ bytes.data + bytes.size < 2 ^ 64
  | .destroy this => (s.resources this).isSome ∧ Unused s this
  | .spawn c this new => (s.resources this).isSome ∧ Unused s this ∧ Provides frame_sz s this c new
  | .caller r op => calls.Allowed s.coroutines (.caller r op : calls.Action C V E R)
  | .go f new =>
    calls.Allowed s.coroutines (.go f : calls.Action C V E R) ∧
    ∀ c c' kind k, s.coroutines.points f = .goes_on c → P.command c = .co_await c' kind k →
      Provides frame_sz s (s.resource f) c' new
  | .resume f x => calls.Allowed s.coroutines (.resume f x : calls.Action C V E R)

def Step (s : State C V E A R) (a : Action C V E R) (s' : State C V E A R) : Prop :=
  Allowed P frame_sz s a ∧ Returns (step P frame_sz left moved s · a) s'

end Step

section World

variable (s : State C V E A R) (this : stack_resource.ObjId)

/-- The frames in a resource that are not destroyed, in the order in which they were
allocated. -/
def placed : List Nat :=
  (List.range s.coroutines.tasks.created).filter fun f =>
    s.resource f = this ∧ (s.coroutines.tasks.frames f).pc ≠ .destroyed

/-- The memory, with the blocks of these frames as the ones that are live. -/
def world : stack_resource.World where
  memory := s.memory
  resources := s.resources
  live := fun this => ((placed s this).map s.block).reverse

end World

/-- What is known between two steps. -/
structure Inv (P : Program C V E A R) (left : E → Option E) (s : State C V E A R) : Prop where
  coroutines : calls.Inv P left s.coroutines
  memory : ∃ as, Run stack_resource.Step .empty as (world s)
  resource : ∀ f this, f ∈ placed s this → (s.resources this).isSome
  nested : ∀ f g this, f ∈ placed s this → g ∈ placed s this → s.coroutines.root f = s.coroutines.root g

variable {P : Program C V E A R} {frame_sz : C → overload_new_delete.Word} {left : E → Option E} {moved : V → V}
  {s s' : State C V E A R} {this : stack_resource.ObjId} {f g : Nat} {c : C} {new : Nat → Option Nat}

@[simp] theorem mem_placed : f ∈ placed s this ↔
    f < s.coroutines.tasks.created ∧ s.resource f = this ∧ (s.coroutines.tasks.frames f).pc ≠ .destroyed := by
  simp [placed]

theorem placed_eq_nil (h : Unused s this) : placed s this = [] := by
  rw [List.eq_nil_iff_forall_not_mem]
  intro f hf
  obtain ⟨hlt, hresource, hlive⟩ := mem_placed.mp hf
  exact hlive (h f hlt hresource)

/-- `allocate` gives a block when it does not throw. -/
theorem allocates {w : stack_resource.World} {as : List stack_resource.Action} {r : stack_resource.StackResource} {len : Nat}
    (hrun : Run stack_resource.Step .empty as w) (hr : w.resources this = some r)
    (hwraps : stack_resource.NoWrap w.memory r len) (hcontract : stack_resource.NewContract w.memory r.initial_buffer new)
    (hthrows : ∀ n memory r', stack_resource.allocate n new w.memory r len ≠ some (memory, r', none)) :
    ∃ memory r' ptr, Returns (fun n => stack_resource.allocate n new w.memory r len) (memory, r', some ptr) ∧
      stack_resource.Step w (.allocate this len new)
        (w.set this memory (some r') ({ ptr := ptr, len := len } :: w.live this)) := by
  obtain ⟨chain, free, howned⟩ := stack_resource.Owned.of_run hrun
  obtain ⟨bound, hnone⟩ | ⟨memory, r', ptr, -, -, hreturns, -⟩ := stack_resource.allocate_spec howned.layout howned.accounts
    (howned.resource hr) (hwraps.sized new howned.layout) hcontract
  · exact absurd (hnone bound le_rfl) (hthrows _ _ _)
  · refine ⟨memory, r', ptr, hreturns, ⟨r, hr, hwraps, hcontract⟩, hreturns.imp fun n hn => ?_⟩
    simp [stack_resource.step, hr, hn]

/-- `deallocate` of the block that was allocated last. -/
theorem deallocates {w : stack_resource.World} {as : List stack_resource.Action} {r : stack_resource.StackResource}
    {block : stack_resource.Block} {live : List stack_resource.Block} (hrun : Run stack_resource.Step .empty as w)
    (hr : w.resources this = some r) (hlive : w.live this = block :: live) :
    ∃ memory r', Returns (fun n => stack_resource.deallocate n w.memory r block.ptr block.len) (memory, r') ∧
      stack_resource.Step w (.deallocate this) (w.set this memory (some r') live) := by
  obtain ⟨chain, free, howned⟩ := stack_resource.Owned.of_run hrun
  have hholds := howned.resource hr
  rw [hlive] at hholds
  obtain ⟨memory, r', -, -, hreturns, -⟩ := stack_resource.deallocate_spec howned.layout hholds
  refine ⟨memory, r', hreturns, ⟨by simp [hr], by simp [hlive]⟩, hreturns.imp fun n hn => ?_⟩
  simp [stack_resource.step, hr, hlive, hn]

/-- Among the numbers with a property, the last one comes last. -/
theorem filter_range_last {n : Nat} {p : Nat → Bool} (hf : f < n) (hp : p f) (hlast : ∀ g, g < n → p g → g ≤ f) :
    (List.range n).filter p = (List.range n).filter (fun g => p g ∧ g ≠ f) ++ [f] := by
  induction n with
  | zero => exact absurd hf (Nat.not_lt_zero _)
  | succ n ih =>
    rw [List.range_succ, List.filter_append, List.filter_append]
    by_cases hfn : f = n
    · subst hfn
      have hsame : (List.range f).filter p = (List.range f).filter fun g => p g ∧ g ≠ f := by
        apply List.filter_congr
        intro g hg
        have hne : g ≠ f := (List.mem_range.mp hg).ne
        simp [hne]
      rw [hsame]
      simp [hp]
    · have hlt : f < n := by omega
      have hnot : p n = false := by
        by_contra hpn
        have hle := hlast n (Nat.lt_succ_self n) (by simpa using hpn)
        omega
      rw [ih hlt fun g hg => hlast g (Nat.lt_succ_of_lt hg)]
      simp [hnot]

/-- Something happens to one resource, and to the frames in it. -/
theorem world_set {memory : stack_resource.Memory} {r : Option stack_resource.StackResource} {live : List stack_resource.Block}
    (hmemory : s'.memory = memory) (hresources : s'.resources = Function.update s.resources this r)
    (hlive : ((placed s' this).map s'.block).reverse = live)
    (hothers : ∀ x, x ≠ this → (placed s' x).map s'.block = (placed s x).map s.block) :
    world s' = (world s).set this memory r live := by
  subst hmemory hlive
  simp only [world, hresources, stack_resource.World.set, stack_resource.World.mk.injEq, true_and]
  funext x
  by_cases hx : x = this
  · subst hx
    rw [Function.update_self]
  · rw [Function.update_of_ne hx, hothers x hx]

namespace Inv

/-- The coroutine with the last frame in a resource is the one that calls nobody. -/
theorem placed_last (h : Inv P left s) (hf : f ∈ placed s this) (hcalls : ∀ g k, s.coroutines.points f ≠ .calls g k)
    (hg : g ∈ placed s this) : g ≤ f := by
  obtain ⟨hlt, -, hlive⟩ := mem_placed.mp hf
  obtain ⟨hlt', -, hlive'⟩ := mem_placed.mp hg
  exact h.coroutines.last hlt hlive hcalls hlt' hlive' (h.nested g f this hg hf)

/-- A resource in which there are no frames is made or destroyed. -/
theorem set_unused (h : Inv P left s) (hunused : placed s this = []) {memory : stack_resource.Memory}
    {r : Option stack_resource.StackResource} {a : stack_resource.Action}
    (hstep : stack_resource.Step (world s) a ((world s).set this memory r [])) :
    Inv P left { s with memory := memory, resources := Function.update s.resources this r } := by
  have hworld : world { s with memory := memory, resources := Function.update s.resources this r } =
      (world s).set this memory r [] := by
    refine world_set rfl rfl ?_ fun x _ => rfl
    have hnil : placed { s with memory := memory, resources := Function.update s.resources this r } this = [] := hunused
    rw [hnil]
    rfl
  obtain ⟨as, hrun⟩ := h.memory
  refine ⟨h.coroutines, ⟨as ++ [a], hrun.append (.cons (hworld ▸ hstep) (.nil _))⟩, ?_, h.nested⟩
  intro f x hf
  have hf' : f ∈ placed s x := hf
  by_cases hx : x = this
  · subst hx
    simp [hunused] at hf'
  · simpa [hx] using h.resource f x hf'

/-- The frames in a resource are those that stay there when the last one is destroyed,
and then that one; nothing happens to those in other resources. -/
theorem placed_destroys (h : Inv P left s) (hf : f ∈ placed s this) (hcalls : ∀ g k, s.coroutines.points f ≠ .calls g k)
    (hcreated : s'.coroutines.tasks.created = s.coroutines.tasks.created) (hresource : s'.resource = s.resource)
    (hdestroyed : ∀ g, g < s.coroutines.tasks.created → ((s'.coroutines.tasks.frames g).pc = .destroyed ↔
      g = f ∨ (s.coroutines.tasks.frames g).pc = .destroyed)) :
    placed s this = placed s' this ++ [f] ∧ ∀ x, x ≠ this → placed s' x = placed s x := by
  obtain ⟨hlt, rfl, hlive⟩ := mem_placed.mp hf
  have hsame : ∀ x, placed s' x = (List.range s.coroutines.tasks.created).filter fun g =>
      decide (s.resource g = x ∧ (s.coroutines.tasks.frames g).pc ≠ .destroyed) ∧ g ≠ f := by
    intro x
    simp only [placed, hcreated, hresource]
    apply List.filter_congr
    intro g hg
    simp [hdestroyed g (List.mem_range.mp hg), Bool.and_assoc, Bool.and_comm]
  constructor
  · rw [hsame]
    apply filter_range_last hlt
    · simpa using hlive
    · intro g hg hp
      exact h.placed_last hf hcalls (mem_placed.mpr ⟨hg, by simpa using hp⟩)
  · intro x hx
    rw [hsame]
    apply List.filter_congr
    intro g hg
    by_cases hgf : g = f
    · simp [hgf, Ne.symm hx]
    · simp [hgf]

/-- A step that creates no frame, and gives back the one that it destroys. -/
theorem frames_effect (h : Inv P left s) {t : System C V E A R} (ht : calls.Inv P left t)
    (heffect : Effect s.coroutines t f) (frame_sz : C → overload_new_delete.Word) (new : Nat → Option Nat)
    (this : stack_resource.ObjId) :
    ∃ s', Returns (fun n => frames n new s frame_sz t f this) s' ∧ s'.coroutines = t ∧ Inv P left s' := by
  cases heffect with
  | stays hcreated hroot hf hdestroyed =>
    have hplaced : ∀ x, placed { s with coroutines := t } x = placed s x := by
      intro x
      simp only [placed, hcreated]
      apply List.filter_congr
      intro g hg
      simp [hdestroyed g (List.mem_range.mp hg)]
    have hworld : world { s with coroutines := t } = world s := by
      simp only [world, hplaced]
    refine ⟨{ s with coroutines := t }, Returns.of_last fun n => ?_, rfl, ht, hworld ▸ h.memory, ?_, ?_⟩
    · have hnot : ¬ s.coroutines.tasks.created < t.tasks.created := by omega
      have hkept : ¬ ((s.coroutines.tasks.frames f).pc ≠ .destroyed ∧ (t.tasks.frames f).pc = .destroyed) :=
        fun hpc => hpc.1 ((hdestroyed f hf).mp hpc.2)
      simp only [frames, if_neg hnot, if_neg hkept]
    · exact fun g x hg => h.resource g x (hplaced x ▸ hg)
    · intro f g x hf hg
      rw [hplaced] at hf hg
      rw [hroot f (mem_placed.mp hf).1, hroot g (mem_placed.mp hg).1]
      exact h.nested f g x hf hg
  | destroys hcreated hroot hf hlive hcalls hdestroyed =>
    have hlast : f ∈ placed s (s.resource f) := mem_placed.mpr ⟨hf, rfl, hlive⟩
    obtain ⟨r, hr⟩ := Option.isSome_iff_exists.mp (h.resource f _ hlast)
    obtain ⟨as, hrun⟩ := h.memory
    have hplaced : ∀ s' : State C V E A R, s'.coroutines = t → s'.resource = s.resource →
        placed s (s.resource f) = placed s' (s.resource f) ++ [f] ∧ ∀ x, x ≠ s.resource f → placed s' x = placed s x := by
      rintro s' rfl hresource
      exact h.placed_destroys hlast hcalls hcreated hresource hdestroyed
    obtain ⟨hthis, -⟩ := hplaced { s with coroutines := t } rfl rfl
    have hlive' : (world s).live (s.resource f) =
        s.block f :: ((placed { s with coroutines := t } (s.resource f)).map s.block).reverse := by
      simp [world, hthis]
    obtain ⟨memory, r', hreturns, hstep⟩ := deallocates hrun hr hlive'
    let s' : State C V E A R := { s with
      coroutines := t
      memory := memory
      resources := Function.update s.resources (s.resource f) (some r') }
    obtain ⟨hthis', hothers⟩ := hplaced s' rfl rfl
    have hworld : world s' = (world s).set (s.resource f) memory (some r')
        ((placed { s with coroutines := t } (s.resource f)).map s.block).reverse :=
      world_set rfl rfl rfl fun x hx => by rw [hothers x hx]
    have hkept : ∀ g x, g ∈ placed s' x → g ∈ placed s x := by
      intro g x hg
      by_cases hx : x = s.resource f
      · rw [hx] at hg ⊢
        rw [hthis']
        exact List.mem_append_left _ hg
      · rwa [← hothers x hx]
    refine ⟨s', hreturns.imp fun n hn => ?_, rfl, ht, ⟨_, hrun.append (.cons (hworld ▸ hstep) (.nil _))⟩, ?_, ?_⟩
    · have hnot : ¬ s.coroutines.tasks.created < t.tasks.created := by omega
      have hgone : (t.tasks.frames f).pc = .destroyed := (hdestroyed f hf).mpr (.inl rfl)
      have hn' : stack_resource.deallocate n s.memory r (s.block f).ptr (s.block f).len = some (memory, r') := hn
      simp only [frames, if_neg hnot, if_pos (And.intro hlive hgone), operator_delete, hr, hn', Option.bind_eq_bind,
        Option.bind_some, s']
    · intro g x hg
      have hsome := h.resource g x (hkept g x hg)
      by_cases hx : x = s.resource f
      · simp [s', hx]
      · simpa [s', hx] using hsome
    · intro g g' x hg hg'
      have hroots := h.nested g g' x (hkept g x hg) (hkept g' x hg')
      have hg₁ := (mem_placed.mp (hkept g x hg)).1
      have hg₂ := (mem_placed.mp (hkept g' x hg')).1
      exact (hroot g hg₁).trans (hroots.trans (hroot g' hg₂).symm)

/-- A frame that is created comes last in its resource. -/
theorem placed_created {root : Nat} (hcreated : Created s.coroutines s'.coroutines c root)
    (hresource : s'.resource = Function.update s.resource s.coroutines.tasks.created this) :
    placed s' this = placed s this ++ [s.coroutines.tasks.created] ∧ ∀ x, x ≠ this → placed s' x = placed s x := by
  have hsame : ∀ x, (List.range s.coroutines.tasks.created).filter (fun g =>
      decide (s'.resource g = x ∧ (s'.coroutines.tasks.frames g).pc ≠ .destroyed)) = placed s x := by
    intro x
    apply List.filter_congr
    intro g hg
    have hlt := List.mem_range.mp hg
    simp [hresource, hlt.ne, hcreated.destroyed g hlt]
  have hsplit : ∀ x, placed s' x = placed s x ++ [s.coroutines.tasks.created].filter fun g =>
      decide (s'.resource g = x ∧ (s'.coroutines.tasks.frames g).pc ≠ .destroyed) := by
    intro x
    rw [← hsame x, placed, hcreated.created, List.range_succ, List.filter_append]
  constructor
  · rw [hsplit]
    simp [hresource, hcreated.live]
  · intro x hx
    rw [hsplit]
    simp [hresource, Ne.symm hx]

/-- A step that creates a frame, in a resource with frames of the same root. -/
theorem frames_created (h : Inv P left s) {t : System C V E A R} (ht : calls.Inv P left t) {root : Nat}
    (hcreated : Created s.coroutines t c root) (hroot : ∀ g, g ∈ placed s this → s.coroutines.root g = root)
    (hthis : (s.resources this).isSome) (hprovides : Provides frame_sz s this c new) (f : Nat) :
    ∃ s', Returns (fun n => frames n new s frame_sz t f this) s' ∧ s'.coroutines = t ∧ Inv P left s' := by
  obtain ⟨r, hr⟩ := Option.isSome_iff_exists.mp hthis
  obtain ⟨hwraps, hcontract, hthrows⟩ := hprovides r hr
  obtain ⟨as, hrun⟩ := h.memory
  obtain ⟨memory, r', ptr, hreturns, hstep⟩ := allocates hrun hr hwraps hcontract hthrows
  let s' : State C V E A R := {
    coroutines := t
    memory := memory
    resources := Function.update s.resources this (some r')
    resource := Function.update s.resource s.coroutines.tasks.created this
    block := Function.update s.block s.coroutines.tasks.created { ptr := ptr, len := requested (frame_sz c) } }
  obtain ⟨hlast, hothers⟩ : placed s' this = placed s this ++ [s.coroutines.tasks.created] ∧
      ∀ x, x ≠ this → placed s' x = placed s x := placed_created hcreated rfl
  have hblocks : ∀ x, (placed s x).map s'.block = (placed s x).map s.block := by
    intro x
    apply List.map_congr_left
    intro g hg
    exact Function.update_of_ne (mem_placed.mp hg).1.ne ..
  have hworld : world s' = (world s).set this memory (some r')
      ({ ptr := ptr, len := requested (frame_sz c) } :: (world s).live this) := by
    refine world_set rfl rfl ?_ fun x hx => by rw [hothers x hx, hblocks]
    rw [hlast, List.map_append, hblocks]
    simp [world, s']
  have hmem : ∀ g x, g ∈ placed s' x → g ∈ placed s x ∨ x = this ∧ g = s.coroutines.tasks.created := by
    intro g x hg
    by_cases hx : x = this
    · rw [hx, hlast, List.mem_append, List.mem_singleton] at hg
      exact hg.imp (fun hg => hx ▸ hg) fun hg => ⟨hx, hg⟩
    · exact .inl (hothers x hx ▸ hg)
  have hroots : ∀ g, g ∈ placed s' this → t.root g = root := by
    intro g hg
    obtain hold | ⟨-, rfl⟩ := hmem g this hg
    · rw [hcreated.roots g (mem_placed.mp hold).1, hroot g hold]
    · exact hcreated.root
  refine ⟨s', hreturns.imp fun n hn => ?_, rfl, ht, ⟨_, hrun.append (.cons (hworld ▸ hstep) (.nil _))⟩, ?_, ?_⟩
  · have hlt : s.coroutines.tasks.created < t.tasks.created := by rw [hcreated.created]; omega
    have hn' : stack_resource.allocate n new s.memory r (requested (frame_sz c)) = some (memory, r', some ptr) := hn
    simp only [frames, if_pos hlt, hcreated.point, operator_new, hr, hn', Option.bind_eq_bind, Option.bind_some, s']
  · intro g x hg
    by_cases hx : x = this
    · simp [s', hx]
    · obtain hold | ⟨hx', -⟩ := hmem g x hg
      · simpa [s', hx] using h.resource g x hold
      · exact absurd hx' hx
  · intro g g' x hg hg'
    by_cases hx : x = this
    · subst hx
      exact (hroots g hg).trans (hroots g' hg').symm
    · rw [hothers x hx] at hg hg'
      have hsame := h.nested g g' x hg hg'
      exact (hcreated.roots g (mem_placed.mp hg).1).trans (hsame.trans (hcreated.roots g' (mem_placed.mp hg').1).symm)

end Inv

/-- What a step is for the coroutines. -/
def OfCoroutines (P : Program C V E A R) (left : E → Option E) (moved : V → V) (s s' : State C V E A R)
    (a : Action C V E R) : Prop :=
  match a.coroutines with
  | some b => calls.Step P left moved s.coroutines b s'.coroutines
  | none => s'.coroutines = s.coroutines

/-- The memory keeps no coroutine from going on: what is allocated and given back on the
way is so without a failed assertion. -/
theorem step_spec (h : Inv P left s) {a : Action C V E R} (hallowed : Allowed P frame_sz s a)
    (henabled : ∀ b, a.coroutines = some b → (calls.step P left moved s.coroutines b).isSome) :
    ∃ s', Returns (step P frame_sz left moved s · a) s' ∧ OfCoroutines P left moved s s' a ∧ Inv P left s' := by
  cases a with
  | construct this bytes =>
    obtain ⟨hnone, hlt⟩ := hallowed
    have hunused : placed s this = [] := by
      rw [List.eq_nil_iff_forall_not_mem]
      intro f hf
      have hsome := h.resource f this hf
      simp [hnone] at hsome
    have hstep : stack_resource.Step (world s) (.construct this bytes)
        ((world s).set this s.memory (some (stack_resource.construct bytes)) []) := ⟨⟨hnone, hlt⟩, Returns.const rfl⟩
    exact ⟨_, Returns.const rfl, rfl, h.set_unused hunused hstep⟩
  | destroy this =>
    obtain ⟨hsome, hunused⟩ := hallowed
    obtain ⟨r, hr⟩ := Option.isSome_iff_exists.mp hsome
    obtain ⟨as, hrun⟩ := h.memory
    obtain ⟨chain, free, howned⟩ := stack_resource.Owned.of_run hrun
    obtain ⟨memory, hreturns, -⟩ := stack_resource.destroy_spec howned.layout howned.accounts (howned.resource hr)
    have hstep : stack_resource.Step (world s) (.destroy this) ((world s).set this memory none []) := by
      refine ⟨hsome, hreturns.imp fun n hn => ?_⟩
      have hr' : (world s).resources this = some r := hr
      simp [stack_resource.step, stack_resource.step.destroy, hr', hn]
    refine ⟨{ s with memory := memory, resources := Function.update s.resources this none }, hreturns.imp fun n hn => ?_, rfl,
      h.set_unused (placed_eq_nil hunused) hstep⟩
    have hn' : stack_resource.destroy n s.memory r = some memory := hn
    simp [step, hr, hn']
  | spawn c this new =>
    obtain ⟨hsome, hunused, hprovides⟩ := hallowed
    obtain ⟨t, ht⟩ := Option.isSome_iff_exists.mp (henabled _ rfl)
    have hcalls : calls.Step P left moved s.coroutines (.spawn c) t := ⟨trivial, ht⟩
    have hempty : ∀ g, g ∈ placed s this → s.coroutines.root g = s.coroutines.tasks.created := by
      simp [placed_eq_nil hunused]
    obtain ⟨s', hreturns, rfl, h'⟩ := h.frames_created (step_kept h.coroutines hcalls).1
      (spawn_created h.coroutines hcalls) hempty hsome hprovides s.coroutines.tasks.created
    exact ⟨s', hreturns.imp fun n hn => by simp [step, ht, hn], hcalls, h'⟩
  | caller r op =>
    obtain ⟨t, ht⟩ := Option.isSome_iff_exists.mp (henabled _ rfl)
    have hcalls : calls.Step P left moved s.coroutines (.caller r op) t := ⟨hallowed, ht⟩
    obtain ⟨s', hreturns, rfl, h'⟩ := h.frames_effect (step_kept h.coroutines hcalls).1
      (caller_effect h.coroutines hcalls) frame_sz (fun _ => none) (s.resource r)
    exact ⟨s', hreturns.imp fun n hn => by simp [step, ht, hn], hcalls, h'⟩
  | resume f x =>
    obtain ⟨t, ht⟩ := Option.isSome_iff_exists.mp (henabled _ rfl)
    have hcalls : calls.Step P left moved s.coroutines (.resume f x) t := ⟨hallowed, ht⟩
    obtain ⟨s', hreturns, rfl, h'⟩ := h.frames_effect (step_kept h.coroutines hcalls).1
      (resume_effect h.coroutines hcalls) frame_sz (fun _ => none) (s.resource f)
    exact ⟨s', hreturns.imp fun n hn => by simp [step, ht, hn], hcalls, h'⟩
  | go f new =>
    obtain ⟨hf, hprovides⟩ := hallowed
    obtain ⟨t, ht⟩ := Option.isSome_iff_exists.mp (henabled _ rfl)
    have hcalls : calls.Step P left moved s.coroutines (.go f) t := ⟨hf, ht⟩
    have ht' := (step_kept h.coroutines hcalls).1
    obtain heffect | ⟨c, c', kind, k, hpoint, hcommand, hcreated, hlive⟩ := go_effect h.coroutines hcalls
    · obtain ⟨s', hreturns, rfl, h'⟩ := h.frames_effect ht' heffect frame_sz new (s.resource f)
      exact ⟨s', hreturns.imp fun n hn => by simp [step, ht, hn], hcalls, h'⟩
    · have hself : f ∈ placed s (s.resource f) := mem_placed.mpr ⟨hf, rfl, hlive⟩
      obtain ⟨s', hreturns, rfl, h'⟩ := h.frames_created ht' hcreated (fun g hg => h.nested g f _ hg hself)
        (h.resource f _ hself) (hprovides c c' kind k hpoint hcommand) f
      exact ⟨s', hreturns.imp fun n hn => by simp [step, ht, hn], hcalls, h'⟩

theorem enabled_of_step {a : Action C V E R} {b : calls.Action C V E R} (hstep : Step P frame_sz left moved s a s')
    (hb : a.coroutines = some b) : (calls.step P left moved s.coroutines b).isSome := by
  obtain ⟨bound, hreturns⟩ := hstep.2
  have hn : step P frame_sz left moved s bound a = some s' := hreturns bound le_rfl
  cases a with
  | construct this bytes | destroy this => cases hb
  | spawn c this new | caller r op | go f new | resume f x =>
    cases hb
    simp only [step, Option.bind_eq_bind, Option.bind_eq_some_iff] at hn
    obtain ⟨t, ht, -⟩ := hn
    simp [ht]

theorem construct_inv : Inv P left (construct : State C V E A R) where
  coroutines := calls.construct_inv
  memory := ⟨[], .nil _⟩
  resource _ _ hf := absurd (mem_placed.mp hf).1 (Nat.not_lt_zero _)
  nested _ _ _ hf := absurd (mem_placed.mp hf).1 (Nat.not_lt_zero _)

theorem step_kept (h : Inv P left s) {a : Action C V E R} (hstep : Step P frame_sz left moved s a s') :
    OfCoroutines P left moved s s' a ∧ Inv P left s' := by
  obtain ⟨s₁, hreturns, hcoroutines, h'⟩ := step_spec h hstep.1 fun b hb => enabled_of_step hstep hb
  cases hreturns.unique hstep.2
  exact ⟨hcoroutines, h'⟩

theorem kept_of_run {as : List (Action C V E R)} (hrun : Run (Step P frame_sz left moved) s as s') (h : Inv P left s) :
    Inv P left s' ∧ Run (calls.Step P left moved) s.coroutines (as.filterMap Action.coroutines) s'.coroutines := by
  induction hrun with
  | nil => exact ⟨h, .nil _⟩
  | @cons s s₁ s' a as hstep _ ih =>
    obtain ⟨hcoroutines, h₁⟩ := step_kept h hstep
    obtain ⟨h', hrest⟩ := ih h₁
    refine ⟨h', ?_⟩
    unfold OfCoroutines at hcoroutines
    split at hcoroutines
    case h_1 b hb =>
      rw [List.filterMap_cons_some hb]
      exact .cons hcoroutines hrest
    case h_2 hb =>
      rw [List.filterMap_cons_none hb, ← hcoroutines]
      exact hrest

/-- The frames in a resource do not overlap. -/
theorem Inv.apart (h : Inv P left s) (hf : f ∈ placed s this) :
    stack_resource.coroframe_align ∣ (s.block f).ptr ∧ ∀ g, g ∈ placed s this → g ≠ f →
      stack_resource.Apart (s.block f).ptr (s.block f).len (s.block g).ptr (s.block g).len := by
  obtain ⟨r, hr⟩ := Option.isSome_iff_exists.mp (h.resource f this hf)
  obtain ⟨as, hrun⟩ := h.memory
  obtain ⟨chain, free, howned⟩ := stack_resource.Owned.of_run hrun
  have hholds := howned.resource hr
  have hmem : ∀ g, g ∈ placed s this → s.block g ∈ (world s).live this :=
    fun g hg => List.mem_reverse.mpr (List.mem_map_of_mem hg)
  obtain ⟨hptr, -⟩ := hholds.chain.mem_live (hmem f hf)
  refine ⟨hptr, fun g hg hgf => ?_⟩
  have hpairwise := hholds.chain.pairwise howned.layout (List.nodup_append.mp hholds.nodup).1
    fun c hc => hholds.apart c (List.mem_append_left _ hc)
  let Apart (f g : Nat) : Prop := stack_resource.Apart (s.block f).ptr (s.block f).len (s.block g).ptr (s.block g).len
  have hsymm : Std.Symm Apart := ⟨fun _ _ => stack_resource.Apart.symm⟩
  have hframes : (placed s this).Pairwise Apart := by
    have hreversed := List.pairwise_map.mp (List.pairwise_reverse.mp hpairwise)
    exact hreversed.imp stack_resource.Apart.symm
  exact hframes.forall hf hg (Ne.symm hgf)

/-- `new[]` where it is not called. -/
def no_new (_ : Nat) : Option Nat := none

theorem provides_of_room {r : stack_resource.StackResource} {len : Nat} (hr : s.resources this = some r)
    (hlen : requested (frame_sz c) = len) (hpadded : len + padding_len stack_resource.coroframe_align len < 2 ^ 64)
    (hroom : stack_resource.aligned len ≤ stack_resource.sub r.e r.m) : Provides frame_sz s this c no_new := by
  intro r' hr'
  rw [hlen]
  cases hr.symm.trans hr'
  refine ⟨⟨hpadded, fun hfull => absurd hroom (not_le.mpr hfull)⟩, ?_, ?_⟩
  · intro size c hc
    cases hc
  · intro n memory r' hallocate
    simp [stack_resource.allocate, hroom] at hallocate

theorem frames_of_room {t : System C V E A R} {root : Nat} (hcreated : Created s.coroutines t c root)
    {r : stack_resource.StackResource} {len m : Nat} (hr : s.resources this = some r)
    (hlen : requested (frame_sz c) = len) (hroom : stack_resource.aligned len ≤ stack_resource.sub r.e r.m)
    (hm : stack_resource.wrap (r.m + stack_resource.aligned len) = m) (n f : Nat) :
    frames n new s frame_sz t f this = some {
      coroutines := t
      memory := s.memory
      resources := Function.update s.resources this (some { r with m := m })
      resource := Function.update s.resource s.coroutines.tasks.created this
      block := Function.update s.block s.coroutines.tasks.created { ptr := r.m, len := len } } := by
  have hlt : s.coroutines.tasks.created < t.tasks.created := by rw [hcreated.created]; omega
  simp [frames, hlt, hcreated.point, operator_new, hr, stack_resource.allocate, hlen, hroom, hm]

/-- Coroutines that pass their stack resource on to the ones that they call, and wait for
them, preserve the order of allocations. The blocks that are live in a resource are those of
the frames in it that are not destroyed, the last one first; these belong to the calls in
progress on behalf of one coroutine, are aligned and do not overlap; and every step that
the coroutines can do without the resources they can do with them: a frame is given back
without a failed assertion. -/
theorem frames_are_stacked {as : List (Action C V E R)} (hrun : Run (Step P frame_sz left moved) construct as s) :
    Run (calls.Step P left moved) calls.construct (as.filterMap Action.coroutines) s.coroutines ∧
      (∃ bs w, Run stack_resource.Step .empty bs w ∧ w.memory = s.memory ∧ w.resources = s.resources ∧
        ∀ this, w.live this = ((placed s this).map s.block).reverse) ∧
      (∀ this f, f ∈ placed s this → stack_resource.coroframe_align ∣ (s.block f).ptr ∧
        ∀ g, g ∈ placed s this → g ≠ f → s.coroutines.root g = s.coroutines.root f ∧
          stack_resource.Apart (s.block f).ptr (s.block f).len (s.block g).ptr (s.block g).len) ∧
      ∀ a, Allowed P frame_sz s a → (∀ b, a.coroutines = some b → (calls.step P left moved s.coroutines b).isSome) →
        ∃ s', Step P frame_sz left moved s a s' := by
  obtain ⟨h, hcalls⟩ := kept_of_run hrun construct_inv
  obtain ⟨bs, hbs⟩ := h.memory
  refine ⟨hcalls, ⟨bs, world s, hbs, rfl, rfl, fun _ => rfl⟩, fun this f hf => ?_, fun a ha henabled => ?_⟩
  · obtain ⟨haligned, hapart⟩ := h.apart hf
    exact ⟨haligned, fun g hg hgf => ⟨h.nested g f this hg hf, hapart g hg hgf⟩⟩
  · obtain ⟨s', hreturns, -⟩ := step_spec h ha henabled
    exact ⟨s', ha, hreturns⟩

/-- A body calls another one, and both frames are in the buffer of the resource. -/
theorem frames_are_stacked_of_two : ∃ s : State Place Nat Nat Nat Nat, placed s 0 = [0, 1] ∧
    s.coroutines.root 1 = s.coroutines.root 0 ∧
    stack_resource.Apart (s.block 0).ptr (s.block 0).len (s.block 1).ptr (s.block 1).len := by
  let frame_sz (_ : Place) : overload_new_delete.Word := 100
  let r (m : Nat) : stack_resource.StackResource :=
    { initial_buffer := { data := 16, size := 1000 }, b := 16, m := m, e := 1016, top := none }
  obtain ⟨t₂, t₃, t₄, ht₂, ht₃, ht₄, hcreated₂, hcreated₃, hcreated₄, hpc₃, hpoint₃, hpc₄⟩ :
      ∃ t₂ t₃ t₄ : System Place Nat Nat Nat Nat, calls.Step adds_one (fun _ => none) id calls.construct (.spawn .adds_one) t₂ ∧
      calls.Step adds_one (fun _ => none) id t₂ (.caller 0 (.start_and_detach true)) t₃ ∧
      calls.Step adds_one (fun _ => none) id t₃ (.go 0) t₄ ∧ t₂.tasks.created = 1 ∧ t₃.tasks.created = 1 ∧
      t₄.tasks.created = 2 ∧ (t₃.tasks.frames 0).pc = .running ∧ t₃.points 0 = .goes_on .adds_one ∧
      (t₄.tasks.frames 0).pc = .suspended :=
    ⟨_, _, _, ⟨trivial, rfl⟩, ⟨by decide, rfl⟩, ⟨by decide, rfl⟩, rfl, rfl, rfl, rfl, rfl, rfl⟩
  have hinv₂ := (calls.step_kept calls.construct_inv ht₂).1
  have hinv₃ := (calls.step_kept hinv₂ ht₃).1
  have hnew₂ := spawn_created calls.construct_inv ht₂
  have hnew₄ : Created t₃ t₄ Place.asks (t₃.root 0) := by
    obtain heffect | ⟨c, c', kind, k, hpoint, hcommand, hnew, -⟩ := go_effect hinv₃ ht₄
    · cases heffect with
      | stays hcreated | destroys hcreated => omega
    · cases hpoint₃.symm.trans hpoint
      cases hcommand
      exact hnew
  let s₁ : State Place Nat Nat Nat Nat :=
    { construct with resources := Function.update (fun _ => none) 0 (some (r 16)) }
  let s₂ : State Place Nat Nat Nat Nat := {
    coroutines := t₂
    memory := s₁.memory
    resources := Function.update s₁.resources 0 (some (r 128))
    resource := Function.update s₁.resource 0 0
    block := Function.update s₁.block 0 { ptr := 16, len := 112 } }
  let s₃ : State Place Nat Nat Nat Nat := { s₂ with coroutines := t₃ }
  let s₄ : State Place Nat Nat Nat Nat := {
    coroutines := t₄
    memory := s₃.memory
    resources := Function.update s₃.resources 0 (some (r 240))
    resource := Function.update s₃.resource 1 0
    block := Function.update s₃.block 1 { ptr := 128, len := 112 } }
  have hrequested : ∀ c, requested (frame_sz c) = 112 := fun _ => by decide +kernel
  have h₁ : Step adds_one frame_sz (fun _ => none) id construct (.construct 0 { data := 16, size := 1000 }) s₁ := by
    have hconstruct : stack_resource.construct { data := 16, size := 1000 } = r 16 := rfl
    refine ⟨⟨rfl, by decide⟩, Returns.const ?_⟩
    rw [hconstruct]
    rfl
  have hr₁ : s₁.resources 0 = some (r 16) := by simp [s₁]
  have h₂ : Step adds_one frame_sz (fun _ => none) id s₁ (.spawn .adds_one 0 no_new) s₂ := by
    have hprovides := provides_of_room hr₁ (hrequested .adds_one) (by decide) (by decide)
    refine ⟨⟨by simp [hr₁], fun f hf => absurd hf (Nat.not_lt_zero f), hprovides⟩, Returns.of_last fun n => ?_⟩
    have hframes : frames (n + 1) no_new s₁ frame_sz t₂ 0 0 = some s₂ :=
      frames_of_room hnew₂ hr₁ (hrequested _) (by decide) (by decide) (n + 1) 0
    simp only [step, Option.bind_eq_bind]
    exact Option.bind_eq_some_iff.mpr ⟨t₂, ht₂.2, hframes⟩
  have h₃ : Step adds_one frame_sz (fun _ => none) id s₂ (.caller 0 (.start_and_detach true)) s₃ := by
    refine ⟨ht₃.1, Returns.of_last fun n => Option.bind_eq_some_iff.mpr ⟨t₃, ht₃.2, ?_⟩⟩
    simp [frames, s₂, s₃, hcreated₂, hcreated₃, hpc₃]
  have hr₃ : s₃.resources 0 = some (r 128) := by simp [s₃, s₂]
  have hresource₃ : s₃.resource 0 = 0 := by simp [s₃, s₂]
  have h₄ : Step adds_one frame_sz (fun _ => none) id s₃ (.go 0 no_new) s₄ := by
    refine ⟨⟨ht₄.1, fun c c' kind k _ _ => ?_⟩, Returns.of_last fun n => Option.bind_eq_some_iff.mpr ⟨t₄, ht₄.2, ?_⟩⟩
    · rw [hresource₃]
      exact provides_of_room hr₃ (hrequested c') (by decide) (by decide)
    · have hframes : frames (n + 1) no_new s₃ frame_sz t₄ 0 0 = some { s₄ with
          resource := Function.update s₃.resource t₃.tasks.created 0
          block := Function.update s₃.block t₃.tasks.created { ptr := 128, len := 112 } } :=
        frames_of_room hnew₄ hr₃ (hrequested _) (by decide) (by decide) (n + 1) 0
      rw [hresource₃, hframes, hcreated₃]
  have hplaced : placed s₄ 0 = [0, 1] := by
    have hlive := hnew₄.live
    rw [hcreated₃] at hlive
    have hrange : List.range 2 = [0, 1] := rfl
    simp [placed, s₄, s₃, s₂, hcreated₄, hrange, hpc₄, hlive]
  obtain ⟨-, -, hapart, -⟩ := frames_are_stacked (.cons h₁ (.cons h₂ (.cons h₃ (.cons h₄ (.nil _)))))
  obtain ⟨-, hothers⟩ := hapart 0 0 (by simp [hplaced])
  obtain ⟨hroot, hblocks⟩ := hothers 1 (by simp [hplaced]) (by decide)
  exact ⟨s₄, hplaced, hroot, hblocks⟩

end kelcoro.task.calls.with_stack_resource
