import Kelcoro.Generator.Programs
import Kelcoro.GeneratorsCommon.Alike

namespace kelcoro.generator

open kelcoro.generators_common kelcoro.lib

variable {V E : Type}

/-- A program with an ordinary `Yield` and the one with `nothing_t`, where nobody
points a coroutine at its object. -/
def likeness (V : Type) : Likeness (Generator V) (Generator V) where
  link l l' := ∀ o, l = .owner o → l' = .owner o
  object x x' := x'.top = x.top
  refl _ _ ho := ho
  owner_eq hlink ho := hlink _ ho
  default := rfl
  top hx := hx
  set_top _ _ := rfl

/-- The two programs run the same coroutines. -/
abbrev Alike (h g : GeneratorHeap V E) : Prop :=
  generators_common.Alike (likeness V) (fun _ => Eq) (fun _ => False) h g

/-- The same with whatever else an operation returns. -/
abbrev AlikeWith {α : Type} (x y : GeneratorHeap V E × α) : Prop :=
  generators_common.AlikeWith (likeness V) (fun _ => Eq) (fun _ => False) x y

abbrev FrameAlike (p q : Frame V E (Generator V)) : Prop :=
  generators_common.FrameAlike (likeness V) Eq False p q

namespace Alike

variable {h g : GeneratorHeap V E} {f : FrameId} {p q : Frame V E (Generator V)}

theorem tops (ha : Alike h g) (i : Nat) : (g.objects i).top = (h.objects i).top :=
  ha.objects i

theorem top (ha : Alike h g) (place : Place) :
    Simulates (fun o o' => o'.top = o.top) (h.object place) (g.object place) :=
  fun o ho =>
    let ⟨o', ho', htop, _⟩ := ha.object place o ho
    ⟨o', ho', htop⟩

theorem set_top (ha : Alike h g) (place : Place) {o o' : Generator V} (ho : o'.top = o.top) :
    Simulates Alike (h.set_object place o) (g.set_object place o') :=
  ha.set_object place ho fun _ _ => id

/-- Only the program with an ordinary `Yield` writes. -/
theorem put_left (ha : Alike h g) (hq : g.frames f = some q) (hpq : FrameAlike p q) : Alike (h.put f p) g := by
  refine ⟨fun x => ?_, ha.objects, ha.next_frame, ha.next_object⟩
  by_cases hx : x = f
  · rw [hx, h.put_frames_self, hq]
    exact .some hpq
  · rw [h.put_frames_of_ne p hx]
    exact ha.frames x

theorem put_object_left (ha : Alike h g) {i : Nat} {o : Generator V} (ho : o.top = (h.objects i).top) :
    Alike (h.put_object i o) g := by
  refine ⟨ha.frames, fun k => ?_, ha.next_frame, ha.next_object⟩
  by_cases hk : k = i
  · rw [hk, h.put_object_objects_self]
    exact (ha.tops i).trans ho.symm
  · rw [h.put_object_objects_of_ne o hk]
    exact ha.objects k

theorem set_result (ha : Alike h g) (f : FrameId) (r : Option V) :
    Simulates Alike (set_result false h f r) (set_result true g f r) := by
  simp only [generator.set_result, Bool.false_eq_true, ↓reduceIte]
  refine .bind_left fun p _ => .bind_left fun root _ => ?_
  cases root.link with
  | uninit | owner _ => exact .none _
  | consumer place =>
    refine .bind_left fun c hc => ?_
    cases place with
    | object i =>
      obtain rfl := Option.some.inj hc
      exact .some (ha.put_object_left rfl)
    | awaiter o =>
      obtain ⟨po, hpo, hleaf⟩ := Option.bind_eq_some_iff.mp hc
      obtain ⟨qo, hqo, hpq⟩ := ha.frame o po hpo
      rw [Heap.set_object, Heap.modify_eq hpo]
      have hrel := hpq.leaf
      rw [hleaf] at hrel
      refine .some (ha.put_left hqo { hpq with leaf := ?_, still := False.elim })
      generalize qo.leaf = y at hrel ⊢
      cases hrel with
      | some htop => exact .some htop

theorem prepare_to_start (ha : Alike h g) (place : Place) :
    Simulates Alike (prepare_to_start false h place) (prepare_to_start true g place) := by
  refine (ha.top place).bind fun o o' ho => ?_
  rw [ho]
  cases o.top with
  | none => exact .none _
  | some t =>
    intro h' hh'
    obtain ⟨p, hp, rfl⟩ := Option.map_eq_some_iff.mp hh'
    obtain ⟨q, hq, hpq⟩ := ha.frame t p hp
    exact ⟨g, rfl, ha.put_left hq { hpq with link := fun o heq => by cases heq }⟩

theorem create (ha : Alike h g) (body : Body V E) (place : Place) :
    Simulates Alike (create false h body place) (create true g body place) := by
  obtain ⟨ha₁, hf⟩ := ha.allocate (fun _ _ _ _ hb => hb) (fun _ _ hx => hx) (rfl : body = body)
  simp only [generator.create, hf]
  exact (Alike.set_top ha₁ place rfl).bind fun h₂ g₂ ha₂ => Alike.prepare_to_start ha₂ place

theorem swap (ha : Alike h g) (this other : Place) :
    Simulates Alike (swap false h this other) (swap true g this other) := by
  refine (ha.top this).bind fun x x' hx => (ha.top other).bind fun y y' hy => ?_
  refine (ha.set_top this hy).bind fun h₁ g₁ ha₁ => (ha₁.set_top other hx).bind fun h₂ g₂ ha₂ => ?_
  rw [hx, hy]
  have hother : ∀ {h g : GeneratorHeap V E}, Alike h g → Simulates Alike
      (if x.top.isSome then generator.prepare_to_start false h other else some h)
      (if x.top.isSome then generator.prepare_to_start true g other else some g) := fun ha =>
    .ite (fun _ => ha.prepare_to_start other) fun _ => .some ha
  cases y.top.isSome with
  | true => exact (ha₂.prepare_to_start this).bind fun h₃ g₃ ha₃ => hother ha₃
  | false => exact hother ha₂

theorem move_construct (ha : Alike h g) (this other : Place) :
    Simulates Alike (move_construct false h this other) (move_construct true g this other) :=
  (ha.set_top this rfl).bind fun _ _ ha₁ => ha₁.swap this other

theorem final_awaiter (ha : Alike h g) (f : FrameId) :
    Simulates AlikeWith (final_awaiter.await_suspend false h f) (final_awaiter.await_suspend true g f) := by
  refine (ha.frame f).bind fun p q hpq => ?_
  rw [hpq.root]
  refine .ite (fun _ => ?_) fun _ => ?_
  · refine (ha.skip_this_leaf f).bind fun h₁ g₁ ha₁ => (ha₁.owner f).bind fun o o' ho => ?_
    exact .some ⟨ha₁, congrArg some ho⟩
  · exact (ha.set_result f none).bind fun h₁ g₁ ha₁ => .some ⟨ha₁, rfl⟩

theorem unhandled_exception (ha : Alike h g) (f : FrameId) :
    Simulates Alike (unhandled_exception false h f) (unhandled_exception true g f) := by
  refine (ha.frame f).bind fun p q hpq => ?_
  rw [hpq.root]
  by_cases hroot : p.root = f
  · simp only [hroot, ne_eq, not_true_eq_false, ↓reduceIte]
    exact ha.set_result f none
  · simp only [hroot, ne_eq, not_false_eq_true, ↓reduceIte]
    exact (ha.skip_this_leaf f).bind fun h₁ g₁ ha₁ => Alike.set_result ha₁ f none

end Alike

section resumes

/-- What is known of the coroutines that control is passed to. -/
def ResumesAlike (res res' : GeneratorHeap V E → FrameId → Option (GeneratorHeap V E × Outcome E)) : Prop :=
  ∀ {h g : GeneratorHeap V E}, Alike h g → ∀ f, Simulates AlikeWith (res h f) (res' g f)

variable {h g : GeneratorHeap V E} {res res' : GeneratorHeap V E → FrameId → Option (GeneratorHeap V E × Outcome E)}

theorem Alike.increment_with (ha : Alike h g) (hres : ResumesAlike res res') (i : Nat) :
    Simulates AlikeWith (increment_with res h i) (increment_with res' g i) := by
  refine (ha.empty (.object i)).bind fun b c hbc => ?_
  subst hbc
  cases c with
  | true => exact .none _
  | false =>
    simp only [Bool.false_eq_true, ↓reduceIte, ha.tops i]
    cases (h.objects i).top with
    | none => exact .none _
    | some t =>
      refine (ha.frame t).bind fun p q hpq => ?_
      rw [hpq.current_worker]
      refine (hres ha p.current_worker).bind fun x y hxy => ?_
      obtain ⟨h₁, out⟩ := x
      obtain ⟨g₁, out'⟩ := y
      obtain ⟨ha₁, rfl⟩ : Alike h₁ g₁ ∧ out' = out := hxy
      cases out' with
      | threw ex => exact .some ⟨ha₁, rfl⟩
      | returned =>
        dsimp only
        rw [ha₁.tops i]
        exact .ite (fun _ => .some ⟨ha₁, rfl⟩) fun _ => .none _

theorem Alike.begin_with (ha : Alike h g) (hres : ResumesAlike res res') (i : Nat) :
    Simulates AlikeWith (begin_with res h i) (begin_with res' g i) := by
  refine (ha.empty (.object i)).bind fun b c hbc => ?_
  subst hbc
  exact .ite (fun _ => .some ⟨ha, rfl⟩) fun _ => ha.increment_with hres i

theorem Alike.pull_with (hres : ResumesAlike res res') (i pulls : Nat) {h g : GeneratorHeap V E} (ha : Alike h g) :
    Simulates Alike (pull_with res i pulls h) (pull_with res' i pulls g) := by
  induction pulls generalizing h g with
  | zero => exact .some ha
  | succ pulls ih => exact (ha.begin_with hres i).bind fun x y hxy => ih hxy.1

/-- The worker has put a leaf into its awaiter and awaits it. -/
theorem Alike.go_on_leaf (ha : Alike h g) (hres : ResumesAlike res res') (f : FrameId) :
    Simulates AlikeWith (generators_common.co_await_leaf h f >>= fun x => res x.1 x.2)
      (generators_common.co_await_leaf g f >>= fun y => res' y.1 y.2) := by
  refine (ha.co_await_leaf f).bind fun x y hxy => ?_
  obtain ⟨ha₁, hnext⟩ := hxy
  rw [hnext]
  exact hres ha₁ x.2

theorem Alike.run_with (ha : Alike h g) (hres : ResumesAlike res res') (f : FrameId) (b : Body V E) :
    Simulates AlikeWith (run_with false res h f b) (run_with true res' g f b) := by
  cases b with
  | co_return =>
    refine (ha.put_done f).bind fun h₁ g₁ ha₁ => (Alike.final_awaiter ha₁ f).bind fun x y hxy => ?_
    obtain ⟨h₂, next⟩ := x
    obtain ⟨g₂, next'⟩ := y
    obtain ⟨ha₂, rfl⟩ : Alike h₂ g₂ ∧ next' = next := hxy
    cases next' with
    | none => exact .some ⟨ha₂, rfl⟩
    | some o => exact hres ha₂ o
  | throw ex =>
    refine (ha.put_done f).bind fun h₁ g₁ ha₁ => (Alike.unhandled_exception ha₁ f).bind fun h₂ g₂ ha₂ => ?_
    exact .some ⟨ha₂, rfl⟩
  | co_yield value rest =>
    refine (ha.put_body f rfl).bind fun h₁ g₁ ha₁ => (Alike.set_result ha₁ f (some value)).bind fun h₂ g₂ ha₂ => ?_
    exact .some ⟨ha₂, rfl⟩
  | co_await rest => exact (ha.put_body f rfl).bind fun h₁ g₁ ha₁ => hres ha₁ f
  | elements_of_empty rest =>
    refine (ha.put_body f rfl).bind fun h₁ g₁ ha₁ => ?_
    obtain ⟨h₂, g₂, i, hnew, hnew', ha₂, -⟩ := ha₁.exists_new_object
    rw [hnew, hnew']
    exact (Alike.move_construct ha₂ _ _).bind fun h₃ g₃ ha₃ => ha₃.go_on_leaf hres f
  | elements_of leaf pulls rest =>
    refine (ha.put_body f rfl).bind fun h₁ g₁ ha₁ => ?_
    obtain ⟨h₂, g₂, i, hnew, hnew', ha₂, -⟩ := ha₁.exists_new_object
    rw [hnew, hnew']
    refine (Alike.create ha₂ leaf _).bind fun h₃ g₃ ha₃ => (ha₃.pull_with hres _ pulls).bind fun h₄ g₄ ha₄ => ?_
    exact (ha₄.move_construct _ _).bind fun h₅ g₅ ha₅ => ha₅.go_on_leaf hres f
  | elements_of_range rng rest =>
    refine (ha.put_body f rfl).bind fun h₁ g₁ ha₁ => (Alike.create ha₁ _ _).bind fun h₂ g₂ ha₂ => ?_
    exact ha₂.go_on_leaf hres f

/-- Resuming a coroutine comes to the same in both programs. -/
theorem resume_alike (n : Nat) : ResumesAlike (resume false n : GeneratorHeap V E → _) (resume true n) := by
  induction n with
  | zero => exact fun _ _ => .none _
  | succ n ih =>
    intro h g ha f
    refine (ha.frame f).bind fun p q hpq => ?_
    rw [hpq.done, hpq.body]
    refine .ite (fun _ => .none _) fun _ => ?_
    exact (ha.leave_elements_of n f).bind fun h₁ g₁ ha₁ => Alike.run_with ha₁ ih f _

theorem Alike.request (ha : Alike h g) (n i : Nat) (r : Request) :
    Simulates AlikeWith (request false n h i r) (request true n g i r) := by
  cases r with
  | begin => exact ha.begin_with (resume_alike n) i
  | increment => exact ha.increment_with (resume_alike n) i

end resumes

end kelcoro.generator
