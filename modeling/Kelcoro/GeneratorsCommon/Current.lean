import Kelcoro.GeneratorsCommon.Programs

namespace kelcoro.generators_common

open LeafObject Remaining

/-- The `current_result` of generators and channels, or another part of an object
that is handed over like it. -/
structure CurrentResult (V O : Type) [LeafObject O] where
  get : O → Option V
  default : get LeafObject.default = none
  set_top : ∀ o t, get (LeafObject.set_top o t) = get o

section holds

variable {V W E O : Type} [LeafObject O] (cur : CurrentResult W O)

/-- Where the coroutine and the `current_result` that an object has after an
action come from. -/
inductive Holds (p : Program V E O) : Action V E → Nat → Option FrameId → Option W → Prop
  | kept {a : Action V E} {k j : Nat} (hj : j ∈ p.objects) : Holds p a k (p.top j) (cur.get (p.heap.objects j))
  | fresh {a : Action V E} {k : Nat} : Holds p a k none none
  | called {body : Body V E} {k : Nat} : Holds p (.call body) k (some p.heap.next_frame) none
  | cleared {k : Nat} (hk : k ∈ p.objects) : Holds p (.clear k) k none (cur.get (p.heap.objects k))
  | released {k : Nat} (hk : k ∈ p.objects) : Holds p (.release k) k none (cur.get (p.heap.objects k))
  | reset {k : Nat} {handle : Option FrameId} (hk : k ∈ p.objects) :
      Holds p (.reset k handle) k handle (cur.get (p.heap.objects k))

variable {cur} {ops : Operations V E O} {p p' : Program V E O} {h' : Heap V E O} {a : Action V E}
  {own : FrameId → Set FrameId} {st st' : FrameId → Remaining V E} {i j k : Nat}

theorem Holds.of_eq {o : O} {j : Nat} (hj : j ∈ p.objects) (ho : o = p.heap.objects j) :
    Holds cur p a k (top o) (cur.get o) :=
  ho ▸ .kept hj

theorem Holds.construct (ho : Owned p own st) (hj : j ∈ insert p.heap.next_object p.objects) :
    Holds cur p a k (top (p.heap.new_object.1.objects j)) (cur.get (p.heap.new_object.1.objects j)) := by
  rcases Finset.mem_insert.mp hj with rfl | hj
  · have hobject : p.heap.new_object.1.objects p.heap.next_object = LeafObject.default :=
      p.heap.put_object_objects_self _ _
    rw [hobject, top_default, cur.default]
    exact .fresh
  · exact .of_eq hj (p.heap.put_object_objects_of_ne _ (ne_of_lt (ho.bounded j hj)))

theorem Holds.swapped (hs : Swapped ops.relink p.heap h' i j) (hi : i ∈ p.objects) (hj : j ∈ p.objects)
    (hk : k ∈ p.objects) : Holds cur p a k (top (h'.objects k)) (cur.get (h'.objects k)) :=
  .of_eq (Holders.swap_mem hi hj hk) (congrFun hs.objects k)

theorem Emptied.current_eq {ts : Set FrameId} (he : Emptied p.heap h' i ts) :
    cur.get (h'.objects i) = cur.get (p.heap.objects i) := by
  rcases he.object with heq | heq
  · rw [heq]
  · rw [heq, cur.set_top]

/-- Every object has what another one had, or has it from a call or a handle. -/
theorem Performed.holds (hp : Performed ops p a p') (ho : Owned p own st) (ha : a.Allowed p) (hk : k ∈ p'.objects) :
    Holds cur p a k (p'.top k) (cur.get (p'.heap.objects k)) := by
  cases hp with
  | construct => exact .construct ho hk
  | @call body h' hc =>
    by_cases hne : k = p.heap.next_object
    · subst hne
      have hobject : h'.objects p.heap.next_object = set_top LeafObject.default (some p.heap.next_frame) :=
        (congrFun hc.objects _).trans (Function.update_self ..)
      simp only [Program.top, hobject, top_set_top, cur.set_top, cur.default]
      exact .called
    · have hobject : h'.objects k = p.heap.new_object.1.objects k :=
        (congrFun hc.objects k).trans (Function.update_of_ne hne ..)
      simp only [Program.top, hobject]
      exact .construct ho hk
  | @move_construct source h' hs =>
    let p₁ : Program V E O := { p with heap := p.heap.new_object.1, objects := insert p.heap.next_object p.objects }
    have hl : Equiv.swap p.heap.next_object source k ∈ p₁.objects :=
      Holders.swap_mem (Finset.mem_insert_self ..) (Finset.mem_insert_of_mem ha) hk
    have hobject : h'.objects k = p.heap.new_object.1.objects (Equiv.swap p.heap.next_object source k) :=
      congrFun hs.objects k
    simp only [Program.top, hobject]
    exact .construct ho hl
  | move_assign hs => exact .swapped hs ha.1 ha.2 hk
  | swap hs => exact .swapped hs ha.1 ha.2 hk
  | @clear this h' he =>
    by_cases hne : k = this
    · subst hne
      simp only [Program.top, he.top, he.current_eq]
      exact .cleared hk
    · exact .of_eq hk (he.objects k hne)
  | @release this =>
    by_cases hne : k = this
    · subst hne
      simp only [Program.top, Heap.put_object_objects_self, top_set_top, cur.set_top]
      exact .released hk
    · exact .of_eq hk (Heap.put_object_objects_of_ne _ _ hne)
  | @reset this handle h' he =>
    by_cases hne : k = this
    · subst hne
      simp only [Program.top, Heap.put_object_objects_self, top_set_top, cur.set_top, he.current_eq]
      exact .reset hk
    · refine .of_eq hk ?_
      rw [Heap.put_object_objects_of_ne _ _ hne, he.objects k hne]

theorem Performed.next_frame_le (hp : Performed ops p a p') : p.heap.next_frame ≤ p'.heap.next_frame := by
  cases hp with
  | construct | release => exact le_rfl
  | call hc => exact (Nat.le_succ _).trans_eq hc.next_frame.symm
  | move_construct hs | move_assign hs | swap hs => exact hs.next_frame.ge
  | clear he | reset he => exact he.next_frame.ge

/-- An object whose stream is over has no value to show. -/
def ShowsEnd (cur : CurrentResult W O) (p : Program V E O) (st : FrameId → Remaining V E) : Prop :=
  ∀ i ∈ p.objects, (∀ t, p.top i = some t → st t = none) → cur.get (p.heap.objects i) = none

/-- `clear`, `release` and `reset` leave `current_result` as it is, so there must
be none unless the object gets a coroutine that goes on. -/
def Action.KeepsEnd (cur : CurrentResult W O) (p : Program V E O) : Action V E → Prop
  | .clear this | .release this => cur.get (p.heap.objects this) = none
  | .reset this handle =>
    cur.get (p.heap.objects this) = none ∨ ∃ t ∈ handle, (p.streams t).ended = false
  | _ => True

theorem ShowsEnd.performed (hs : ShowsEnd cur p st) (hp : Performed ops p a p') (ho : Owned p own st)
    (ha : a.Allowed p) (hkeeps : a.KeepsEnd cur p) (ht : Traced ops p p' st st') : ShowsEnd cur p' st' := by
  intro k hk hover
  have hholds : Holds cur p a k (p'.top k) (cur.get (p'.heap.objects k)) := hp.holds ho ha hk
  generalize p'.top k = x at hholds hover
  generalize cur.get (p'.heap.objects k) = c at hholds ⊢
  cases hholds with
  | kept hj => exact hs _ hj fun t htop => (ht.same t (p.mem_held hj htop)).symm.trans (hover t htop)
  | fresh | called => rfl
  | cleared | released => exact hkeeps
  | reset =>
    refine hkeeps.resolve_right fun ⟨t, hhandle, hended⟩ => ?_
    have hin : t ∈ p.held := .inr (ha.2 t hhandle)
    have hnone : st t = none := (ht.same t hin).symm.trans (hover t hhandle)
    rw [ho.streams t hin, hnone] at hended
    cases hended

theorem ShowsEnd.of_empty (hs : ShowsEnd cur p st) (ho : Owned p own st) (hi : i ∈ p.objects)
    (hempty : empty p.heap (.object i) = some true) : cur.get (p.heap.objects i) = none := by
  refine hs i hi fun t htop => ?_
  rw [ho.empty_of_top hi htop, Option.some.injEq, Option.isNone_iff_eq_none] at hempty
  exact hempty

/-- The value that the next request shows, if it is answered with one. -/
def Stream.shown (s : Stream V E) : Option V :=
  match s.events.head? with
  | some (.value v) => some v
  | _ => none

/-- A coroutine that is over has shown no value last. -/
theorem Remaining.Took.shown_eq_none {r : Remaining V E} (ht : Took r none) : (stream r).shown = none := by
  rcases ht.ended.mp rfl with hnil | ⟨hone, hthrows⟩
  · simp only [Stream.shown, stream, hnil, List.head?_nil]
  · obtain ⟨e, he⟩ := List.length_eq_one_iff.mp hone
    obtain ⟨ex, hlast⟩ := pending_getLast_of_top_throws hthrows
    rw [he, List.getLast?_singleton] at hlast
    cases hlast
    simp only [Stream.shown, stream, he, List.head?_cons]

/-- Object `i` is asked, and its coroutine delivers to `d`. Where these differ,
`d` must not get a value when it is over, nor `i` keep one when it comes to its
end. -/
def KeepsEndAsked (cur : CurrentResult V O) (p : Program V E O) (i d : Nat) : Prop :=
  d = i ∨ ∀ t, p.top i = some t →
    ((p.streams t).shown = none ∨ ∃ t', p.top d = some t' ∧ (p.streams t').ended = false) ∧
    (cur.get (p.heap.objects i) = none ∨ (p.streams t).rest.ended = false)

theorem ShowsEnd.asked {cur : CurrentResult V O} {t : FrameId} {d : Nat} {r : Remaining V E}
    (hs : ShowsEnd cur p st) (ho : Owned p own st) (hi : i ∈ p.objects) (htop : p.top i = some t)
    (htook : Took (st t) r) (htops : ∀ k ∈ p.objects, top (h'.objects k) = p.top k)
    (hcur : cur.get (h'.objects d) = (p.streams t).shown)
    (hothers : ∀ k ∈ p.objects, k ≠ d → cur.get (h'.objects k) = cur.get (p.heap.objects k))
    (hkeeps : KeepsEndAsked cur p i d) : ShowsEnd cur (p.asked i h') (Function.update st t r) := by
  rw [Program.asked_of_top htop]
  intro k hk hover
  have hstream := ho.streams t (p.mem_held hi htop)
  have hover' : ∀ t', p.top k = some t' → Function.update st t r t' = none := fun t' ht' =>
    hover t' ((htops k hk).trans ht')
  have helse : k ≠ i → ∀ t', p.top k = some t' → st t' = none := by
    intro hki t' ht'
    have hne : t' ≠ t := fun heq => hki (ho.holders.unique k hk i hi t (heq ▸ ht') htop)
    have hnone := hover' t' ht'
    rwa [Function.update_of_ne hne] at hnone
  change cur.get (h'.objects k) = none
  by_cases hki : k = i
  · subst hki
    have hr := hover' t htop
    rw [Function.update_self] at hr
    subst hr
    by_cases hkd : k = d
    · rw [hkd, hcur, hstream, htook.shown_eq_none]
    · rw [hothers k hk hkd]
      refine ((hkeeps.resolve_left (Ne.symm hkd)) t htop).2.resolve_right fun hended => ?_
      rw [hstream, ← htook.stream_eq] at hended
      cases hended
  · by_cases hkd : k = d
    · subst hkd
      rw [hcur]
      refine ((hkeeps.resolve_left hki) t htop).1.resolve_right fun ⟨t', ht', hended⟩ => ?_
      rw [ho.streams t' (p.mem_held hk ht'), helse hki t' ht'] at hended
      cases hended
    · rw [hothers k hk hkd]
      exact hs k hk (helse hki)

end holds

end kelcoro.generators_common
