import Kelcoro.GeneratorsCommon.Heap

namespace kelcoro.generators_common

open LeafObject

variable {V E O : Type}

/-- No coroutine is called, and those that are left iterate what they did. -/
structure KeepsPulling (h h' : Heap V E O) : Prop where
  next_frame : h'.next_frame = h.next_frame
  pulling : ∀ f p', h'.frames f = some p' → ∃ p, h.frames f = some p ∧ p'.pulling = p.pulling

namespace KeepsPulling

variable {h h₁ h' : Heap V E O} {f : FrameId}

theorem refl (h : Heap V E O) : KeepsPulling h h :=
  ⟨rfl, fun _ p hp => ⟨p, hp, rfl⟩⟩

theorem trans (hc : KeepsPulling h h₁) (hc' : KeepsPulling h₁ h') : KeepsPulling h h' := by
  refine ⟨hc'.next_frame.trans hc.next_frame, fun f p' hp' => ?_⟩
  obtain ⟨p₁, hp₁, hpull₁⟩ := hc'.pulling f p' hp'
  obtain ⟨p, hp, hpull⟩ := hc.pulling f p₁ hp₁
  exact ⟨p, hp, hpull₁.trans hpull⟩

theorem modify {k : Frame V E O → Frame V E O} (hmodify : h.modify f k = some h')
    (hk : ∀ p, (k p).pulling = p.pulling) : KeepsPulling h h' := by
  obtain ⟨p, hp, rfl⟩ := Option.map_eq_some_iff.mp hmodify
  refine ⟨rfl, fun x q hq => ?_⟩
  by_cases hx : x = f
  · rw [hx, h.put_frames_self] at hq
    obtain rfl := Option.some.inj hq
    exact ⟨p, hx ▸ hp, hk p⟩
  · rw [h.put_frames_of_ne _ hx] at hq
    exact ⟨q, hq, rfl⟩

theorem set_object {place : Place} {o : O} (hset : h.set_object place o = some h') : KeepsPulling h h' := by
  cases place with
  | object i =>
    cases hset
    exact ⟨rfl, fun _ p hp => ⟨p, hp, rfl⟩⟩
  | awaiter f => exact .modify hset fun _ => rfl

theorem free (h : Heap V E O) (f : FrameId) : KeepsPulling h (h.free f) := by
  refine ⟨rfl, fun x p hp => ?_⟩
  by_cases hx : x = f
  · simp [hx, Heap.free] at hp
  · rw [h.free_frames_of_ne hx] at hp
    exact ⟨p, hp, rfl⟩

section destroying

variable [LeafObject O]

theorem clear_destroy (n : Nat) :
    (∀ (h h' : Heap V E O) (place : Place), clear n h place = some h' → KeepsPulling h h') ∧
    ∀ (h h' : Heap V E O) (t : FrameId), destroy n h t = some h' → KeepsPulling h h' := by
  induction n with
  | zero => exact ⟨fun _ _ _ hclear => (nomatch hclear), fun _ _ _ hdestroy => (nomatch hdestroy)⟩
  | succ n ih =>
    obtain ⟨ihclear, ihdestroy⟩ := ih
    constructor
    · intro h h' place hclear
      simp only [clear, Option.bind_eq_bind] at hclear
      obtain ⟨self, -, hclear⟩ := Option.bind_eq_some_iff.mp hclear
      cases htop : top self with
      | none =>
        rw [htop] at hclear
        cases hclear
        exact .refl h
      | some t =>
        rw [htop] at hclear
        obtain ⟨h₁, hset, hclear⟩ := Option.bind_eq_some_iff.mp hclear
        obtain ⟨h₂, hdestroy, hclear⟩ := Option.bind_eq_some_iff.mp hclear
        exact ((set_object hset).trans (ihdestroy h₁ h₂ t hdestroy)).trans (ihclear h₂ h' place hclear)
    · intro h h' t hdestroy
      simp only [destroy, Option.bind_eq_bind] at hdestroy
      obtain ⟨p, -, hdestroy⟩ := Option.bind_eq_some_iff.mp hdestroy
      split at hdestroy
      · obtain ⟨h₁, hclear, heq⟩ := Option.bind_eq_some_iff.mp hdestroy
        cases heq
        exact (ihclear h h₁ _ hclear).trans (.free h₁ t)
      · cases hdestroy
        exact .free h t

/-- The end of the full expression leaves the awaiter of `f` without a leaf. -/
theorem leave_elements_of {n : Nat} (hleave : leave_elements_of n h f = some h') :
    KeepsPulling h h' ∧ ∃ p', h'.frames f = some p' ∧ p'.leaf = none := by
  obtain ⟨p, hp, hleave⟩ := Option.bind_eq_some_iff.mp hleave
  split at hleave
  · obtain ⟨h₁, hclear, hmodify⟩ := Option.bind_eq_some_iff.mp hleave
    refine ⟨((clear_destroy n).1 h h₁ _ hclear).trans (.modify hmodify fun _ => rfl), ?_⟩
    obtain ⟨p₁, -, rfl⟩ := Option.map_eq_some_iff.mp hmodify
    exact ⟨_, h₁.put_frames_self f _, rfl⟩
  · rename_i hleaf
    cases hleave
    exact ⟨.refl h, p, hp, by simpa using hleaf⟩

theorem co_await_leaf {w : FrameId} (hawait : co_await_leaf h f = some (h', w)) : KeepsPulling h h' := by
  obtain ⟨b, -, hawait⟩ := Option.bind_eq_some_iff.mp hawait
  split at hawait
  · cases hawait
    exact .refl h
  · obtain ⟨leaf, -, hawait⟩ := Option.bind_eq_some_iff.mp hawait
    obtain ⟨t, -, hawait⟩ := Option.bind_eq_some_iff.mp hawait
    split at hawait
    · cases hawait
    · obtain ⟨p, -, hawait⟩ := Option.bind_eq_some_iff.mp hawait
      obtain ⟨q, -, hawait⟩ := Option.bind_eq_some_iff.mp hawait
      obtain ⟨h₁, hroot, hawait⟩ := Option.bind_eq_some_iff.mp hawait
      obtain ⟨h₂, howner, hawait⟩ := Option.bind_eq_some_iff.mp hawait
      obtain ⟨q₂, -, hawait⟩ := Option.bind_eq_some_iff.mp hawait
      obtain ⟨h₃, hworker, hawait⟩ := Option.bind_eq_some_iff.mp hawait
      obtain ⟨q₃, -, heq⟩ := Option.bind_eq_some_iff.mp hawait
      cases heq
      exact ((modify hroot fun _ => rfl).trans (.modify howner fun _ => rfl)).trans (.modify hworker fun _ => rfl)

end destroying

end KeepsPulling

theorem put_eq_self {h : Heap V E O} {f : FrameId} {p : Frame V E O} (hp : h.frames f = some p) : h.put f p = h := by
  simp only [Heap.put, ← hp, Function.update_eq_self]

variable [LeafObject O]

theorem leave_eq_self {h : Heap V E O} {f : FrameId} {p : Frame V E O} (hp : h.frames f = some p)
    (hleaf : p.leaf = none) (n : Nat) : leave_elements_of n h f = some h := by
  simp [leave_elements_of, hp, hleaf]

/-- More fuel destroys the same. -/
theorem clear_destroy_succ (n : Nat) :
    (∀ (h h' : Heap V E O) (place : Place), clear n h place = some h' → clear (n + 1) h place = some h') ∧
    ∀ (h h' : Heap V E O) (t : FrameId), destroy n h t = some h' → destroy (n + 1) h t = some h' := by
  induction n with
  | zero => exact ⟨fun _ _ _ hclear => (nomatch hclear), fun _ _ _ hdestroy => (nomatch hdestroy)⟩
  | succ n ih =>
    obtain ⟨ihclear, ihdestroy⟩ := ih
    constructor
    · intro h h' place hclear
      rw [clear, Option.bind_eq_bind] at hclear ⊢
      obtain ⟨self, hself, hclear⟩ := Option.bind_eq_some_iff.mp hclear
      refine Option.bind_eq_some_iff.mpr ⟨self, hself, ?_⟩
      cases htop : top self with
      | none =>
        rw [htop] at hclear
        exact hclear
      | some t =>
        rw [htop] at hclear
        obtain ⟨h₁, hset, hclear⟩ := Option.bind_eq_some_iff.mp hclear
        obtain ⟨h₂, hdestroy, hclear⟩ := Option.bind_eq_some_iff.mp hclear
        exact Option.bind_eq_some_iff.mpr ⟨h₁, hset,
          Option.bind_eq_some_iff.mpr ⟨h₂, ihdestroy h₁ h₂ t hdestroy, ihclear h₂ h' place hclear⟩⟩
    · intro h h' t hdestroy
      rw [destroy, Option.bind_eq_bind] at hdestroy ⊢
      obtain ⟨p, hp, hdestroy⟩ := Option.bind_eq_some_iff.mp hdestroy
      refine Option.bind_eq_some_iff.mpr ⟨p, hp, ?_⟩
      by_cases hleaf : p.leaf.isSome
      · rw [if_pos hleaf] at hdestroy ⊢
        obtain ⟨h₁, hclear, heq⟩ := Option.bind_eq_some_iff.mp hdestroy
        exact Option.bind_eq_some_iff.mpr ⟨h₁, ihclear h h₁ _ hclear, heq⟩
      · rw [if_neg hleaf] at hdestroy ⊢
        exact hdestroy

theorem leave_elements_of_succ {h h' : Heap V E O} {n : Nat} {f : FrameId} (hleave : leave_elements_of n h f = some h') :
    leave_elements_of (n + 1) h f = some h' := by
  obtain ⟨p, hp, hleave⟩ := Option.bind_eq_some_iff.mp hleave
  refine Option.bind_eq_some_iff.mpr ⟨p, hp, ?_⟩
  by_cases hleaf : p.leaf.isSome
  · rw [if_pos hleaf] at hleave ⊢
    obtain ⟨h₁, hclear, hmodify⟩ := Option.bind_eq_some_iff.mp hleave
    exact Option.bind_eq_some_iff.mpr ⟨h₁, (clear_destroy_succ n).1 h h₁ _ hclear, hmodify⟩
  · rw [if_neg hleaf] at hleave ⊢
    exact hleave

end kelcoro.generators_common
