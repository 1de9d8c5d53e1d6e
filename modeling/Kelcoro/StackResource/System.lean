import Kelcoro.StackResource.Operations
import Mathlib

namespace kelcoro.stack_resource

open kelcoro.memory_support kelcoro.lib

/-- A resource object, or none, with its chunks and its blocks. -/
def HoldsObject (mem : Memory) (r : Option StackResource) (chunks free : List Nat)
    (live : List Block) : Prop :=
  match r with
  | none => chunks = [] ∧ free = [] ∧ live = []
  | some r => Holds mem r chunks free live

/-- The state of the program between two operations. -/
structure Owned (w : World) (chain free : ObjId → List Nat) : Prop where
  layout : w.memory.Layout
  accounts : w.memory.Accounts
  holds : ∀ x, HoldsObject w.memory (w.resources x) (chain x) (free x) (w.live x)
  disjoint : ∀ x y, x ≠ y → (chain x ++ free x).Disjoint (chain y ++ free y)
  covered : ∀ c, (w.memory.regions c).isSome → ∃ x, c ∈ chain x ++ free x

variable {mem mem' : Memory} {w w' : World} {chain free : ObjId → List Nat} {this other : ObjId}

theorem HoldsObject.congr {r : Option StackResource} {chunks free : List Nat} {live : List Block}
    (h : HoldsObject mem r chunks free live)
    (hregions : ∀ c ∈ chunks ++ free, mem'.regions c = mem.regions c)
    (hheaders : ∀ c ∈ chunks ++ free, mem'.headers c = mem.headers c) :
    HoldsObject mem' r chunks free live := by
  cases r with
  | none => exact h
  | some r => exact Holds.congr h hregions hheaders

theorem HoldsObject.region {r : Option StackResource} {chunks free : List Nat} {live : List Block}
    (h : HoldsObject mem r chunks free live) {c : Nat} (hc : c ∈ chunks ++ free) :
    (mem.regions c).isSome := by
  cases r with
  | none =>
    obtain ⟨rfl, rfl, -⟩ := h
    cases hc
  | some r =>
    obtain ⟨region, hregion⟩ := Holds.region h hc
    simp [hregion]

namespace Owned

theorem resource (h : Owned w chain free) {r : StackResource} (hr : w.resources this = some r) :
    Holds w.memory r (chain this) (free this) (w.live this) := by
  have hholds := h.holds this
  rwa [hr] at hholds

/-- One object does an operation on its own chunks. -/
theorem set (h : Owned w chain free) (this : ObjId) (r : Option StackResource)
    {chunks' free' : List Nat} {live : List Block} (hlayout : mem.Layout) (haccounts : mem.Accounts)
    (hframe : Frame w.memory mem (chain this ++ free this) (chunks' ++ free'))
    (hholds : HoldsObject mem r chunks' free' live) :
    Owned (w.set this mem r live) (Function.update chain this chunks')
      (Function.update free this free') := by
  have hother : ∀ y, y ≠ this → ∀ c ∈ chain y ++ free y,
      (w.memory.regions c).isSome ∧ c ∉ chain this ++ free this := fun y hy c hc =>
    ⟨(h.holds y).region hc, h.disjoint y this hy hc⟩
  have hfresh : ∀ y, y ≠ this → (chunks' ++ free').Disjoint (chain y ++ free y) := by
    intro y hy c hc hcy
    obtain ⟨hlive, hnot⟩ := hother y hy c hcy
    rcases hframe.fresh c hc with hown | hnone
    · exact hnot hown
    · simp [hnone] at hlive
  constructor
  · exact hlayout
  · exact haccounts
  · intro y
    by_cases hy : y = this
    · subst hy
      simpa [World.set] using hholds
    · have hold : HoldsObject mem (w.resources y) (chain y) (free y) (w.live y) := (h.holds y).congr
        (fun c hc => (hframe.same c (hother y hy c hc).1 (hother y hy c hc).2).1)
        (fun c hc => (hframe.same c (hother y hy c hc).1 (hother y hy c hc).2).2)
      simpa [World.set, hy] using hold
  · intro x y hxy
    by_cases hx : x = this
    · subst hx
      simpa [Ne.symm hxy] using hfresh y (Ne.symm hxy)
    · by_cases hy : y = this
      · subst hy
        simpa [hx] using (hfresh x hx).symm
      · simpa [hx, hy] using h.disjoint x y hxy
  · intro c hc
    rcases hframe.covered c hc with hown | ⟨hlive, hnot⟩
    · exact ⟨this, by simpa using hown⟩
    · obtain ⟨x, hx⟩ := h.covered c hlive
      have hne : x ≠ this := by
        rintro rfl
        exact hnot hx
      exact ⟨x, by simpa [hne] using hx⟩

end Owned

theorem Owned.empty : Owned World.empty (fun _ => []) fun _ => [] := by
  constructor
  · constructor <;> simp [World.empty]
  · constructor <;> simp [World.empty]
  · exact fun _ => ⟨rfl, rfl, rfl⟩
  · simp
  · simp [World.empty]

section Construct

theorem construct_spec (mem : Memory) {bytes : Span} (hlt : bytes.data + bytes.size < 2 ^ 64) :
    Holds mem (construct bytes) [] [] [] := by
  have hspan : 16 ∣ (align_span bytes).data ∧
      (align_span bytes).data + (align_span bytes).size < 2 ^ 64 := by
    have hdvd := dvd_add_padding_len bytes.data
    unfold align_span
    by_cases hfits : padding_len coroframe_align bytes.data ≤ bytes.size ∧
        wrap (bytes.data + padding_len coroframe_align bytes.data) ≠ 0
    · simp only [if_pos hfits]
      have hle := hfits.1
      rw [wrap_of_lt (by omega)]
      exact ⟨hdvd, by omega⟩
    · simp only [if_neg hfits]
      omega
  obtain ⟨hdvd, hend⟩ := hspan
  constructor
  · exact hdvd
  · exact hend
  · unfold construct
    simp only [wrap_of_lt hend]
    have hempty : Tiles (align_span bytes).data [] (align_span bytes).data := rfl
    exact .buffer le_rfl hdvd hempty (by omega)
  · exact FreeList.nil mem
  · exact List.nodup_nil
  · simp

theorem moved_from_spec (mem : Memory) : Holds mem moved_from [] [] [] := by
  have hempty : Tiles 0 [] 0 := rfl
  constructor
  · exact dvd_zero 16
  · decide
  · exact .buffer le_rfl (dvd_zero 16) hempty le_rfl
  · exact FreeList.nil mem
  · exact List.nodup_nil
  · simp

end Construct

namespace Owned

theorem unused (h : Owned w chain free) (hr : w.resources this = none) :
    chain this = [] ∧ free this = [] := by
  have hholds := h.holds this
  rw [hr] at hholds
  exact ⟨hholds.1, hholds.2.1⟩

/-- Which object is called what does not matter. -/
theorem permute (h : Owned w chain free) (σ : Equiv.Perm ObjId) :
    Owned { w with resources := w.resources ∘ σ, live := w.live ∘ σ } (chain ∘ σ) (free ∘ σ) where
  layout := h.layout
  accounts := h.accounts
  holds x := h.holds (σ x)
  disjoint x y hxy := h.disjoint (σ x) (σ y) (σ.injective.ne hxy)
  covered c hc := by
    obtain ⟨x, hx⟩ := h.covered c hc
    exact ⟨σ.symm x, by simpa using hx⟩

/-- An object that is not there yet takes over what `other` has. -/
theorem move (h : Owned w chain free) (hthis : w.resources this = none) {r : StackResource}
    (hother : w.resources other = some r) :
    ∃ w' chain' free', step.move_construct w this other = some w' ∧ Owned w' chain' free' := by
  obtain ⟨hchain, hfree⟩ := h.unused hthis
  let σ := Equiv.swap this other
  have hset := (h.permute σ).set other (some moved_from) h.layout h.accounts
    ((Memory.Rewritten.refl _ []).frame (by simp) (by simp [σ, hchain, hfree])) (moved_from_spec _)
  refine ⟨_, _, _, ?_, hset⟩
  have hne : other ≠ this := by
    rintro rfl
    cases hthis.symm.trans hother
  have hupdate : ∀ {α : Type} (f : ObjId → α) (x : α),
      Function.update (Function.update f other x) this (f other) = Function.update (f ∘ σ) other x := by
    intro α f x
    funext y
    by_cases hy : y = this
    · subst hy
      simp [σ, hne.symm]
    · by_cases hyo : y = other
      · subst hyo
        simp [hy]
      · simp [σ, hy, hyo, Equiv.swap_apply_of_ne_of_ne]
  simp [step.move_construct, hother, World.set, ← hupdate]

/-- The destructor. -/
theorem destroyed (h : Owned w chain free) {r : StackResource} (hr : w.resources this = some r) :
    ∃ mem, Returns (fun n => step.destroy n w this) (w.set this mem none []) ∧
      Owned (w.set this mem none []) (Function.update chain this []) (Function.update free this []) := by
  have hholds := h.resource hr
  obtain ⟨mem, hreturns, hlayout, haccounts, hheaders, hregions⟩ :=
    destroy_spec h.layout h.accounts hholds
  refine ⟨mem, ?_, h.set this none hlayout haccounts ?_ ⟨rfl, rfl, rfl⟩⟩
  · apply hreturns.imp
    intro n hn
    simp [step.destroy, hr, hn]
  · constructor
    · intro c _ hc
      exact ⟨by rw [hregions, if_neg hc], hheaders c fun hmem => hc (List.mem_append_left _ hmem)⟩
    · intro c hc
      cases hc
    · intro c hc
      rw [hregions] at hc
      split at hc
      · cases hc
      · exact Or.inr ⟨hc, by assumption⟩

end Owned

/-- `Allowed` for calls of `allocate` whose sizes are large enough, even where
one of them wraps. -/
def Sound (w : World) : Action → Prop
  | .allocate this len new => ∃ r, w.resources this = some r ∧ Sized new w.memory r len ∧
      NewContract w.memory r.initial_buffer new
  | a => Allowed w a

theorem Allowed.sound {a : Action} (hallowed : Allowed w a) (hlayout : w.memory.Layout) :
    Sound w a := by
  cases a with
  | allocate this len new =>
    obtain ⟨r, hr, hwrap, hnew⟩ := hallowed
    exact ⟨r, hr, hwrap.sized new hlayout, hnew⟩
  | _ => exact hallowed

/-- Every allowed operation ends, and none of its assertions fails. -/
theorem sound_step_spec (h : Owned w chain free) {a : Action} (hallowed : Sound w a) :
    ∃ w' chain' free', Returns (fun n => step n w a) w' ∧ Owned w' chain' free' := by
  cases a with
  | construct this bytes =>
    obtain ⟨hthis, hlt⟩ := hallowed
    obtain ⟨hchain, hfree⟩ := h.unused hthis
    have hset := h.set this (some (construct bytes)) h.layout h.accounts
      ((Memory.Rewritten.refl _ []).frame (by simp) (by simp [hchain, hfree])) (construct_spec _ hlt)
    exact ⟨_, _, _, Returns.const rfl, hset⟩
  | move_construct this other =>
    obtain ⟨hthis, hother⟩ := hallowed
    obtain ⟨r, hother⟩ := Option.isSome_iff_exists.mp hother
    obtain ⟨w', chain', free', hmove, howned⟩ := h.move hthis hother
    exact ⟨w', chain', free', Returns.const hmove, howned⟩
  | move_assign this other =>
    obtain ⟨hthis, hother⟩ := hallowed
    by_cases hself : other = this
    · exact ⟨w, chain, free, Returns.of_last fun n => by simp [step, hself], h⟩
    · obtain ⟨r, hr⟩ := Option.isSome_iff_exists.mp hthis
      obtain ⟨r', hother⟩ := Option.isSome_iff_exists.mp hother
      obtain ⟨mem, hdestroy, howned⟩ := h.destroyed hr
      have hthis' : (w.set this mem none []).resources this = none := w.set_resources ..
      have hother' : (w.set this mem none []).resources other = some r' :=
        (w.set_resources_of_ne _ _ _ _ hself).trans hother
      obtain ⟨w', chain', free', hmove, howned'⟩ := howned.move hthis' hother'
      refine ⟨w', chain', free', ?_, howned'⟩
      apply hdestroy.imp
      intro n hn
      simp [step, hself, hn, hmove]
  | destroy this =>
    obtain ⟨r, hr⟩ := Option.isSome_iff_exists.mp hallowed
    obtain ⟨mem, hdestroy, howned⟩ := h.destroyed hr
    exact ⟨_, _, _, hdestroy, howned⟩
  | allocate this len new =>
    obtain ⟨r, hr, hsized, hnew⟩ := hallowed
    rcases allocate_spec h.layout h.accounts (h.resource hr) hsized hnew with
      hthrown | ⟨mem', r', ptr, chunks', free', hreturns, hallocated⟩
    · have hsame : w.set this w.memory (some r) (w.live this) = w := by
        rw [← hr]
        simp [World.set]
      refine ⟨w, chain, free, ?_, h⟩
      apply hthrown.imp
      intro n hn
      simp [step, hr, hn, hsame]
    · refine ⟨_, _, _, ?_, h.set this (some r') hallocated.layout hallocated.accounts hallocated.frame
        hallocated.holds⟩
      apply hreturns.imp
      intro n hn
      simp [step, hr, hn]
  | deallocate this =>
    obtain ⟨hthis, hlive⟩ := hallowed
    obtain ⟨r, hr⟩ := Option.isSome_iff_exists.mp hthis
    obtain ⟨block, live, hlive⟩ := List.exists_cons_of_ne_nil hlive
    have hholds := h.resource hr
    rw [hlive] at hholds
    obtain ⟨mem', r', dropped, kept, hreturns, hchain, hrewritten, -, -, hholds', -⟩ :=
      deallocate_spec h.layout hholds
    have hperm : (chain this ++ free this).Perm (kept ++ (dropped.reverse ++ free this)) := by
      rw [hchain, List.append_assoc]
      have hmiddle : (dropped ++ (kept ++ free this)).Perm (kept ++ (dropped ++ free this)) :=
        List.perm_append_comm_assoc ..
      exact hmiddle.trans (((List.reverse_perm dropped).symm.append_right _).append_left _)
    refine ⟨_, _, _, ?_, h.set this (some r') (hrewritten.layout h.layout)
      (hrewritten.accounts h.accounts) (hrewritten.frame (by simp [hchain]) hperm) hholds'⟩
    apply hreturns.imp
    intro n hn
    simp [step, hr, hlive, hn]
  | reuse_memory this =>
    obtain ⟨r, hr⟩ := Option.isSome_iff_exists.mp hallowed
    obtain ⟨mem', r', hreturns, hrewritten, -, -, hholds'⟩ := reuse_memory_spec h.layout (h.resource hr)
    have hperm : (chain this ++ free this).Perm ([] ++ ((chain this).reverse ++ free this)) :=
      (List.reverse_perm (chain this)).symm.append_right _
    refine ⟨_, _, _, ?_, h.set this (some r') (hrewritten.layout h.layout)
      (hrewritten.accounts h.accounts) (hrewritten.frame (by simp) hperm) hholds'⟩
    apply hreturns.imp
    intro n hn
    simp [step, hr, hn]

theorem step_spec (h : Owned w chain free) {a : Action} (hallowed : Allowed w a) :
    ∃ w' chain' free', Returns (fun n => step n w a) w' ∧ Owned w' chain' free' :=
  sound_step_spec h (hallowed.sound h.layout)

theorem destroy_moved_from (mem : Memory) : Returns (fun n => destroy n mem moved_from) mem :=
  Returns.of_last fun _ => rfl

/-- Assigning to an object that was moved from. -/
theorem step_move_assign {this other : ObjId} {r : StackResource} (hne : other ≠ this)
    (hthis : w.resources this = some moved_from) (hother : w.resources other = some r) :
    Step w (.move_assign this other)
      ((w.set other w.memory (some moved_from) []).set this w.memory (some r) (w.live other)) := by
  refine ⟨⟨by simp [hthis], by simp [hother]⟩, ?_⟩
  apply (destroy_moved_from w.memory).imp
  intro n hn
  have hlive : (w.set this w.memory none []).live other = w.live other := by simp [World.set, hne]
  have hresource := (w.set_resources_of_ne this w.memory none [] hne).trans hother
  have hdestroy : step.destroy n w this = some (w.set this w.memory none []) := by
    simp [step.destroy, hthis, hn]
  simp only [step, if_pos hne, hdestroy, step.move_construct, hresource, hlive, Option.bind_eq_bind,
    Option.bind_some]
  simp [World.set, Function.update_comm hne]

/-- `std::swap` exchanges the states and the blocks of two resources. -/
theorem swap_spec {a b tmp : ObjId} {r r' : StackResource} (hab : a ≠ b)
    (ha : w.resources a = some r) (hb : w.resources b = some r') (htmp : w.resources tmp = none)
    (hlive : w.live tmp = []) :
    Run Step w (swap a b tmp)
      ((w.set a w.memory (some r') (w.live b)).set b w.memory (some r) (w.live a)) := by
  have hat : a ≠ tmp := by
    rintro rfl
    cases htmp.symm.trans ha
  have hbt : b ≠ tmp := by
    rintro rfl
    cases htmp.symm.trans hb
  let w₁ := (w.set a w.memory (some moved_from) []).set tmp w.memory (some r) (w.live a)
  let w₂ := (w₁.set b w.memory (some moved_from) []).set a w.memory (some r') (w.live b)
  let w₃ := (w₂.set tmp w.memory (some moved_from) []).set b w.memory (some r) (w.live a)
  have h₁ : Step w (.move_construct tmp a) w₁ := by
    refine ⟨⟨htmp, by simp [ha]⟩, Returns.const ?_⟩
    simp [ha, w₁]
  have h₂ : Step w₁ (.move_assign a b) w₂ := by
    have hthis : w₁.resources a = some moved_from := by simp [w₁, World.set, hat]
    have hother : w₁.resources b = some r' := by simp [w₁, World.set, hbt, hab.symm, hb]
    have hstep := step_move_assign hab.symm hthis hother
    have hblocks : w₁.live b = w.live b := by simp [w₁, World.set, hbt, hab.symm]
    rwa [hblocks] at hstep
  have h₃ : Step w₂ (.move_assign b tmp) w₃ := by
    have hthis : w₂.resources b = some moved_from := by simp [w₂, World.set, hab.symm]
    have hother : w₂.resources tmp = some r := by simp [w₂, w₁, World.set, hbt.symm, hat.symm]
    have hstep := step_move_assign hbt.symm hthis hother
    have hblocks : w₂.live tmp = w.live a := by simp [w₂, w₁, World.set, hbt.symm, hat.symm]
    rwa [hblocks] at hstep
  have htmp' : w₃.resources tmp = some moved_from := by simp [w₃, World.set, hbt.symm]
  have h₄ : Step w₃ (.destroy tmp) (w₃.set tmp w.memory none []) := by
    have hallowed : (w₃.resources tmp).isSome := by simp [htmp']
    refine ⟨hallowed, ?_⟩
    apply (destroy_moved_from w.memory).imp
    intro n hn
    have hmem : w₃.memory = w.memory := rfl
    simp [step, step.destroy, htmp', hmem, hn]
  have hend : w₃.set tmp w.memory none [] =
      (w.set a w.memory (some r') (w.live b)).set b w.memory (some r) (w.live a) := by
    simp only [World.set, w₃, w₂, w₁, World.mk.injEq, true_and]
    constructor <;> funext x <;> by_cases hx : x = tmp <;> by_cases hxa : x = a <;>
      by_cases hxb : x = b <;> simp_all
  exact .cons h₁ (.cons h₂ (.cons h₃ (.cons h₄ (hend ▸ .nil _))))

theorem Owned.step (h : Owned w chain free) {a : Action} (hstep : Step w a w') :
    ∃ chain' free', Owned w' chain' free' := by
  obtain ⟨hallowed, hreturns⟩ := hstep
  obtain ⟨w'', chain', free', hreturns', howned⟩ := step_spec h hallowed
  cases hreturns.unique hreturns'
  exact ⟨chain', free', howned⟩

theorem Owned.of_run {as : List Action} (hrun : Run Step World.empty as w) :
    ∃ chain free, Owned w chain free := by
  apply hrun.invariant fun w => ∃ chain free, Owned w chain free
  · rintro w a w' ⟨chain, free, h⟩ hstep
    exact h.step hstep
  · exact ⟨_, _, Owned.empty⟩

/-- A heap that serves requests of up to 1000 bytes at one address. -/
def new_at (c size : Nat) : Option Nat := if size ≤ 1000 then some c else none

theorem new_at_contract {mem : Memory} (hmem : ∀ c, mem.regions c = none) :
    NewContract mem { data := 16, size := 32 } (new_at 1024) := by
  intro size c hc
  unfold new_at at hc
  split at hc
  · cases hc
    simp [hmem, Apart, coroframe_align]
    omega
  · cases hc

/-- A block in the initial buffer, one in a chunk, and then a swap. -/
theorem run_with_chunk : ∃ w r, Run Step World.empty
    ([.construct 0 { data := 8, size := 40 }, .allocate 0 20 (new_at 1024),
      .allocate 0 1 (new_at 1024), .construct 1 { data := 0, size := 0 }] ++ swap 0 1 2) w ∧
    w.resources 1 = some r ∧ w.live 1 = [⟨1056, 1⟩, ⟨16, 20⟩] ∧
    w.memory.regions 1024 = some { size := 192, serial := 0 } := by
  let empty : StackResource :=
    { initial_buffer := { data := 16, size := 32 }, b := 16, m := 16, e := 48, top := none }
  let full : StackResource := { empty with m := 48 }
  let chunk : StackResource := { empty with b := 1056, m := 1072, e := 1216 }
  let mem := World.empty.memory
  let mem' := (mem.new_chunk 1024 192).rewrite 1024 { b := 16, m := 48, e := 48, freelist_next := none }
  let w₁ := World.empty.set 0 mem (some empty) []
  let w₂ := w₁.set 0 mem (some full) [⟨16, 20⟩]
  let w₃ := w₂.set 0 mem' (some chunk) [⟨1056, 1⟩, ⟨16, 20⟩]
  have hcontract : NewContract mem { data := 16, size := 32 } (new_at 1024) :=
    new_at_contract fun _ => rfl
  have h₁ : Step World.empty (.construct 0 { data := 8, size := 40 }) w₁ := by
    have hconstruct : construct { data := 8, size := 40 } = empty := by decide
    refine ⟨⟨rfl, by decide⟩, Returns.const ?_⟩
    rw [hconstruct]
  have h₂ : Step w₁ (.allocate 0 20 (new_at 1024)) w₂ := by
    have hfits : ∀ n, allocate n (new_at 1024) mem empty 20 = some (mem, full, some 16) := by
      intro n
      simp [allocate, aligned, padding_len, coroframe_align, sub, wrap, empty, full]
    refine ⟨⟨empty, by simp [w₁], ⟨by decide, fun h => absurd h (by decide)⟩, hcontract⟩,
      Returns.of_last fun n => ?_⟩
    simp [step, w₁, w₂, hfits]
  have h₃ : Step w₂ (.allocate 0 1 (new_at 1024)) w₃ := by
    have hnew : allocate.new_chunk (new_at 1024) mem { full with top := none } 16 =
        some (mem', chunk, some 1056) := by
      simp [allocate.new_chunk, alloc_bytes, sub, wrap, sizeof_chunk_header, new_at,
        Memory.set_header, Memory.new_chunk, Memory.rewrite, empty, full, chunk, mem']
    have hgrow : ∀ n, allocate (n + 1) (new_at 1024) mem full 1 = some (mem', chunk, some 1056) := by
      intro n
      have hfull : ¬ aligned 1 ≤ sub full.e full.m := by decide
      have haligned : aligned 1 = 16 := by decide
      have htake : freelist_t.take_atleast (n + 1) mem full.top 16 = some (mem, none, none) := rfl
      rw [haligned] at hfull
      simp only [allocate, haligned, if_neg hfull, htake, Option.bind_eq_bind, Option.bind_some, hnew]
    refine ⟨⟨full, by simp [w₂], ⟨by decide, fun _ _ => by decide⟩, hcontract⟩,
      Returns.of_last fun n => ?_⟩
    simp [step, w₂, w₃, hgrow]
  have h₄ : Step w₃ (.construct 1 { data := 0, size := 0 }) (w₃.set 1 mem' (some moved_from) []) := by
    have hconstruct : construct { data := 0, size := 0 } = moved_from := by decide
    refine ⟨⟨rfl, by decide⟩, Returns.const ?_⟩
    rw [hconstruct]
    rfl
  let w₄ := w₃.set 1 mem' (some moved_from) []
  have hswap : Run Step w₄ (swap 0 1 2)
      ((w₄.set 0 mem' (some moved_from) []).set 1 mem' (some chunk) [⟨1056, 1⟩, ⟨16, 20⟩]) :=
    swap_spec (by decide) rfl rfl rfl rfl
  have hrun := (Run.cons h₁ (.cons h₂ (.cons h₃ (.cons h₄ (.nil _))))).append hswap
  exact ⟨_, chunk, hrun, by simp, rfl, rfl⟩

/-- In every run the live blocks of a resource are aligned, lie inside its
initial buffer or behind the header of one of its chunks, and overlap neither
each other nor a header; and `deallocate` of the last of them drops only chunks
that hold no live block, stays above the initial buffer and ends at the block. -/
theorem live_blocks_stay_intact {as : List Action} {r : StackResource}
    (hrun : Run Step World.empty as w) (hr : w.resources this = some r) :
    ∃ chunks free,
      Chain w.memory r.initial_buffer r.b r.m r.e chunks (w.live this) ∧
      FreeList w.memory r.top free ∧
      (∀ x ∈ w.live this, coroframe_align ∣ x.ptr ∧ x.len ≤ aligned x.len ∧
        Inside w.memory r.initial_buffer chunks x ∧
        ∀ c ∈ chunks ++ free, Apart x.ptr x.len c sizeof_chunk_header) ∧
      (w.live this).Pairwise (fun x y => Apart x.ptr x.len y.ptr y.len) ∧
      ∀ block rest, w.live this = block :: rest →
        ∃ mem' r' dropped kept,
          Returns (fun n => deallocate n w.memory r block.ptr block.len) (mem', r') ∧
          r'.m = block.ptr ∧ chunks = dropped ++ kept ∧
          Chain mem' r.initial_buffer r'.b r'.m r'.e kept rest ∧
          ∀ c ∈ dropped, ∀ region, w.memory.regions c = some region →
            ∀ x ∈ w.live this, Apart x.ptr x.len c region.size := by
  obtain ⟨chain, free, howned⟩ := Owned.of_run hrun
  have hholds := howned.resource hr
  have hlayout := howned.layout
  refine ⟨chain this, free this, hholds.chain, hholds.freelist, ?_, ?_, ?_⟩
  · intro x hx
    obtain ⟨hptr, hlen, hinside⟩ := hholds.chain.mem_live hx
    refine ⟨hptr, hlen, hinside, fun c hc => ?_⟩
    obtain ⟨region, hregion⟩ := hholds.region hc
    have hapart := hinside.apart_header hlayout hregion (hholds.apart c hc region hregion)
    exact hapart.shrink le_rfl (by omega) le_rfl le_rfl
  · exact hholds.chain.pairwise hlayout (List.nodup_append.mp hholds.nodup).1
      fun c hc => hholds.apart c (List.mem_append_left _ hc)
  · intro block rest hlive
    rw [hlive] at hholds ⊢
    obtain ⟨mem', r', dropped, kept, hreturns, hchunks, -, hsame, hm, hholds', hdropped⟩ :=
      deallocate_spec hlayout hholds
    refine ⟨mem', r', dropped, kept, hreturns, hm, hchunks, hsame ▸ hholds'.chain, ?_⟩
    intro c hc region hregion x hx
    obtain ⟨-, hlen, -⟩ := hholds.chain.mem_live hx
    exact (hdropped c hc region hregion x hx).shrink le_rfl (by omega) le_rfl le_rfl

theorem live_blocks_stay_intact_after_swap : ∃ (w : World) (r : StackResource) (mem' : Memory)
    (r' : StackResource), w.live 1 = [⟨1056, 1⟩, ⟨16, 20⟩] ∧
    w.resources 1 = some r ∧ Returns (fun n => deallocate n w.memory r 1056 1) (mem', r') ∧
    r'.m = 1056 := by
  obtain ⟨w, r, hrun, hr, hlive, -⟩ := run_with_chunk
  obtain ⟨_, _, -, -, -, -, hlast⟩ := live_blocks_stay_intact hrun hr
  obtain ⟨mem', r', _, _, hreturns, hm, -⟩ := hlast ⟨1056, 1⟩ [⟨16, 20⟩] hlive
  exact ⟨w, r, mem', r', hlive, hr, hreturns, hm⟩

/-- In every run each chunk that was obtained and not deleted is in one place,
the chain in use or the freelist of one resource; nothing is deleted twice, no
operation is stuck, and without resources every chunk was deleted once. -/
theorem chunks_have_one_owner {as : List Action} (hrun : Run Step World.empty as w) :
    (∃ chain free : ObjId → List Nat,
      (∀ x r, w.resources x = some r →
        Chain w.memory r.initial_buffer r.b r.m r.e (chain x) (w.live x) ∧
        FreeList w.memory r.top (free x)) ∧
      (∀ x, w.resources x = none → chain x = [] ∧ free x = []) ∧
      (∀ x, (chain x ++ free x).Nodup) ∧
      ∀ c, (w.memory.regions c).isSome ↔ ∃! x, c ∈ chain x ++ free x) ∧
    w.memory.Accounts ∧
    (∀ a, Allowed w a → ∃ w', Step w a w') ∧
    ((∀ x, w.resources x = none) →
      (∀ c, w.memory.regions c = none) ∧
      w.memory.deleted.Perm (List.range w.memory.obtained)) := by
  obtain ⟨chain, free, howned⟩ := Owned.of_run hrun
  refine ⟨⟨chain, free, ?_, ?_, ?_, ?_⟩, howned.accounts, ?_, ?_⟩
  · intro x r hr
    have hholds := howned.resource hr
    exact ⟨hholds.chain, hholds.freelist⟩
  · exact fun x hx => howned.unused hx
  · intro x
    cases hr : w.resources x with
    | none =>
      obtain ⟨hchain, hfree⟩ := howned.unused hr
      simp [hchain, hfree]
    | some r => exact (howned.resource hr).nodup
  · intro c
    constructor
    · intro hc
      obtain ⟨x, hx⟩ := howned.covered c hc
      refine ⟨x, hx, fun y hy => ?_⟩
      by_contra hne
      exact howned.disjoint y x hne hy hx
    · rintro ⟨x, hx, -⟩
      exact (howned.holds x).region hx
  · intro a hallowed
    obtain ⟨w', -, -, hreturns, -⟩ := step_spec howned hallowed
    exact ⟨w', hallowed, hreturns⟩
  · intro hnone
    have hdead : ∀ c, w.memory.regions c = none := by
      intro c
      by_contra hlive
      obtain ⟨x, hx⟩ := howned.covered c (Option.isSome_iff_ne_none.mpr hlive)
      obtain ⟨hchain, hfree⟩ := howned.unused (hnone x)
      simp [hchain, hfree] at hx
    refine ⟨hdead, ?_⟩
    apply (List.perm_ext_iff_of_nodup howned.accounts.deleted_nodup List.nodup_range).mpr
    intro s
    rw [List.mem_range, howned.accounts.obtained_iff s]
    simp [hdead]

theorem chunks_have_one_owner_after_swap : ∃ (w : World) (r : StackResource)
    (chain free : ObjId → List Nat), w.resources 1 = some r ∧
    Chain w.memory r.initial_buffer r.b r.m r.e (chain 1) (w.live 1) ∧
    FreeList w.memory r.top (free 1) ∧ ∃! x, 1024 ∈ chain x ++ free x := by
  obtain ⟨w, r, hrun, hr, -, hregion⟩ := run_with_chunk
  obtain ⟨⟨chain, free, hlists, -, -, hone⟩, -⟩ := chunks_have_one_owner hrun
  obtain ⟨hchain, hfree⟩ := hlists 1 r hr
  exact ⟨w, r, chain, free, hr, hchain, hfree, (hone 1024).mp (by simp [hregion])⟩

end kelcoro.stack_resource
