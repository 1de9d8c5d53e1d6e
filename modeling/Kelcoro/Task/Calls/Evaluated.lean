import Kelcoro.Task.Calls.Steps
import Mathlib

namespace kelcoro.task.calls

open kelcoro.lib kelcoro.return_block

variable {C V E A R : Type}

variable {P : Program C V E A R} {left : E → Option E} {moved : V → V} {s s' : System C V E A R} {f g p r : Nat} {c : C}
  {a : Action C V E R}

/-- Somebody in the chain of coroutines that one waits for can go on. -/
theorem Inv.leaf (h : Inv P left s) (hf : f < s.tasks.created)
    (hpc : (s.tasks.frames f).pc = .running ∨ (s.tasks.frames f).pc = .suspended ∨ (s.tasks.frames f).pc = .ending) :
    ∃ g, g < s.tasks.created ∧ s.root g = s.root f ∧
      (((s.tasks.frames g).pc = .running ∨ (s.tasks.frames g).pc = .ending) ∨ ∃ a k, s.points g = .asks a k) := by
  induction hn : s.tasks.created - f using Nat.strong_induction_on generalizing f with
  | _ n ih =>
    obtain hpc | hpc | hpc := hpc
    · exact ⟨f, hf, rfl, .inl (.inl hpc)⟩
    · cases hpoint : s.points f with
      | asks a k => exact ⟨f, hf, rfl, .inr ⟨a, k, hpoint⟩⟩
      | calls g k =>
        obtain ⟨-, -, hawaits⟩ := (h.sound f hf).of_calls hpoint
        have hlt := hawaits.lt
        have hg := hawaits.created
        obtain ⟨g', hg', hroot, hgoes⟩ := ih (s.tasks.created - g) (by omega) hg hawaits.pc rfl
        exact ⟨g', hg', hroot.trans hawaits.root, hgoes⟩
      | goes_on c =>
        obtain ⟨hpc', -⟩ := (h.sound f hf).of_goes_on hpoint
        simp [hpc] at hpc'
      | done o =>
        have hpc' := (h.sound f hf).of_done hpoint
        simp [hpc] at hpc'
    · exact ⟨f, hf, rfl, .inl (.inr hpc)⟩

/-- When a body is over, so is every one that was called on behalf of it. -/
theorem Inv.destroyed (h : Inv P left s) (hf : f < s.tasks.created) (hbody : s.bodies f = none) {o : Read V E}
    (hroot : s.points (s.root f) = .done o) : (s.tasks.frames f).pc = .destroyed := by
  by_contra hlive
  obtain ⟨hwithin, hr⟩ := h.within_root hf (.inr hlive)
  generalize s.root f = r at hroot hwithin hr
  cases hwithin with
  | self => exact hr hbody
  | calls hg _ => cases hroot.symm.trans hg

/-- Tasks that await tasks are functions that call functions. In whatever order the
coroutines go on, what the caller of one finds in its promise is what the function
evaluates to with the answers that it got; the frames of the calls are destroyed then,
each once; until then a coroutine can go on or waits for an answer; and the tasks are
used as they are meant to be. -/
theorem awaiting_is_calling {as : List (Action C V E R)} (hrun : Run (Step P left moved) construct as s) :
    (∃ bs, Run (fun s a s' => task.Step left moved s a s' ∧ Meets Ignored s a) (task.construct V E) bs s.tasks) ∧
      (∀ r c, s.bodies r = some c → (s.tasks.frames r).pc = .ending →
        Evaluates P.function c (s.trace r) (result_or_rethrow left (s.tasks.frames r).promise.block).1) ∧
      (∀ r c, s.bodies r = some c → (s.tasks.frames r).pc = .ending → ∀ f, f < s.tasks.created → f ≠ r → s.root f = r →
        (s.tasks.frames f).log.count .destroyed = 1) ∧
      ∀ r c, s.bodies r = some c →
        (s.tasks.frames r).pc = .running ∨ (s.tasks.frames r).pc = .suspended ∨ (s.tasks.frames r).pc = .ending →
        ∃ f, s.root f = r ∧ ((∃ s', Step P left moved s (.go f) s') ∨ ∀ x, ∃ s', Step P left moved s (.resume f x) s') := by
  obtain ⟨h, bs, hbs⟩ := inv_of_run hrun
  have hdone : ∀ r, r < s.tasks.created → (s.tasks.frames r).pc = .ending → ∃ o, s.points r = .done o ∧
      (result_or_rethrow left (s.tasks.frames r).promise.block).1 = o := by
    intro r hr hpc
    have hsound := h.sound r hr
    cases hpoint : s.points r with
    | goes_on c =>
      obtain ⟨hpc', -⟩ := hsound.of_goes_on hpoint
      simp [hpc] at hpc'
    | asks a k => cases hpc.symm.trans (hsound.of_asks hpoint).1
    | calls g k => cases hpc.symm.trans (hsound.of_calls hpoint).1
    | done o =>
      obtain ⟨-, -, hresult⟩ := (hsound.of_done hpoint).resolve_right (by simp [hpc])
      exact ⟨o, rfl, hresult⟩
  refine ⟨⟨bs, hbs⟩, fun r c hr hpc => ?_, fun r c hr hpc f hf hfr hroot => ?_, fun r c hr hpc => ?_⟩
  · obtain ⟨o, hpoint, hresult⟩ := hdone r (h.body r c hr).1 hpc
    have heval := h.result r c hr [] o (.done hpoint)
    rwa [List.append_nil, ← hresult] at heval
  · obtain ⟨o, hpoint, -⟩ := hdone r (h.body r c hr).1 hpc
    have hbody : s.bodies f = none := by
      cases hbody : s.bodies f with
      | none => rfl
      | some c' => exact absurd ((h.body f c' hbody).2.1.symm.trans hroot) hfr
    have hdestroyed := h.destroyed hf hbody (hroot.symm ▸ hpoint)
    obtain ⟨hheld, hdisposed⟩ := (disposed_kept left moved).of_run hbs hf
    have honce := (Settled.of_disposed hheld hdisposed).destroyed_once
    simp only [Disposed, hdestroyed] at hdisposed
    obtain ⟨-, log, hlog, -⟩ := hdisposed
    have hpositive : 0 < (s.tasks.frames f).log.count .destroyed := List.count_pos_iff.mpr (by simp [hlog])
    omega
  · obtain ⟨hlt, hroot, -⟩ := h.body r c hr
    obtain ⟨f, hf, hrootf, hgoes | ⟨a, k, hasks⟩⟩ := h.leaf hlt hpc
    · obtain ⟨s', hgo, -⟩ := go_spec moved h hf hgoes
      exact ⟨f, hrootf.trans hroot, .inl ⟨s', hf, hgo⟩⟩
    · refine ⟨f, hrootf.trans hroot, .inr fun x => ?_⟩
      obtain ⟨s', hresume, -⟩ := resume_spec moved h hf hasks x
      exact ⟨s', hf, hresume⟩

theorem Same.own (h : Same s s' f) : Own s s' f where
  object := h.object
  who := h.who
  root := h.root
  body := h.body
  who_waits := by rw [h.frame]

/-- What coroutine `f` has done until it is at `s'`: the calls that it made are over,
the others are not concerned, and it asked what is in `t`. -/
structure Evolves (s s' : System C V E A R) (f : Nat) (t : List (A × R)) : Prop where
  created : s.tasks.created ≤ s'.tasks.created
  same : ∀ g, g < s.tasks.created → g ≠ f → Same s s' g
  own : Own s s' f
  trace : s'.trace = Function.update s.trace (s.root f) (s.trace (s.root f) ++ t)

theorem Same.trans {s'' : System C V E A R} (h : Same s s' g) (h' : Same s' s'' g) : Same s s'' g where
  frame := h'.frame.trans h.frame
  object := h'.object.trans h.object
  point := h'.point.trans h.point
  who := h'.who.trans h.who
  root := h'.root.trans h.root
  body := h'.body.trans h.body

theorem Own.trans {s'' : System C V E A R} (h : Own s s' f) (h' : Own s' s'' f) : Own s s'' f where
  object := h'.object.trans h.object
  who := h'.who.trans h.who
  root := h'.root.trans h.root
  body := h'.body.trans h.body
  who_waits := h'.who_waits.trans h.who_waits

theorem Evolves.trans {s'' : System C V E A R} {t t' : List (A × R)} (h : Evolves s s' f t) (h' : Evolves s' s'' f t') :
    Evolves s s'' f (t ++ t') where
  created := h.created.trans h'.created
  same g hg hgf := (h.same g hg hgf).trans (h'.same g (hg.trans_le h.created) hgf)
  own := h.own.trans h'.own
  trace := by
    rw [h'.trace, h.own.root, h.trace, Function.update_self, Function.update_idem, List.append_assoc]

/-- A step that asks nothing. -/
theorem Steps.evolves {X : Nat → Prop} (h : Steps P left moved X s s') (hown : Own s s' f)
    (hx : ∀ g, X g → g < s.tasks.created → g = f) : Evolves s s' f [] where
  created := h.le
  same g hg hgf := h.same g (fun hxg => hgf (hx g hxg hg)) hg
  own := hown
  trace := by rw [h.trace, List.append_nil, Function.update_eq_self]

/-- A coroutine that goes on evaluates what is left of its body. -/
theorem run_of_evaluates (moved : V → V) {t : List (A × R)} {o : Read V E} (heval : Evaluates P.function c t o) (h : Inv P left s)
    (hf : f < s.tasks.created) (hpc : (s.tasks.frames f).pc = .running) (hpoint : s.points f = .goes_on c) :
    ∃ bs s', Run (Step P left moved) s bs s' ∧ Inv P left s' ∧ Evolves s s' f t ∧ s'.points f = .done o ∧
      (s'.tasks.frames f).pc = .running := by
  induction heval generalizing s f with
  | returns hc =>
    obtain ⟨s', hgo, hsteps, hown, hdone, hpc'⟩ := go_ends moved h hf hpc hpoint hc
    exact ⟨[.go f], s', .cons ⟨hf, hgo⟩ (.nil _), hsteps.inv, hsteps.evolves hown fun _ hg _ => hg, hdone, hpc'⟩
  | @asks c a k x t o hc _ ih =>
    obtain ⟨s₁, hgo, hsteps, hown, hasks, -⟩ := go_asks moved h hf hpc hpoint hc
    have hf₁ : f < s₁.tasks.created := hf.trans_le hsteps.le
    obtain ⟨s₂, hresume, h₂, -, hsame₂, hown₂, hcreated₂, hgoes, hpc₂, htrace₂⟩ := resume_spec moved hsteps.inv hf₁ hasks x
    have hevolves₂ : Evolves s₁ s₂ f [(a, x)] := ⟨hcreated₂.ge, fun g _ hg => hsame₂ g hg, hown₂, htrace₂⟩
    obtain ⟨bs, s', hrun, h', hevolves, hdone, hpc'⟩ := ih h₂ (hcreated₂ ▸ hf₁) hpc₂ hgoes
    refine ⟨.go f :: .resume f x :: bs, s', .cons ⟨hf, hgo⟩ (.cons ⟨hf₁, hresume⟩ hrun), h', ?_, hdone, hpc'⟩
    exact ((hsteps.evolves hown fun _ hg _ => hg).trans hevolves₂).trans hevolves
  | @calls c c' k t t' o' o hc _ _ ihcall ih =>
    -- The new coroutine evaluates its body, ends and transfers control back.
    obtain ⟨s₁, hgo₁, hsteps₁, hown₁, hcreated₁, hcalls₁, hchild₁, hpc₁, hawaits₁⟩ := go_co_await moved h hf hpc hpoint hc
    obtain ⟨bs, s₂, hrun₂, h₂, hevolves₂, hdone₂, hpc₂⟩ := ihcall hsteps₁.inv hawaits₁.created hpc₁ hchild₁
    have hchild₂ : s.tasks.created < s₂.tasks.created := hawaits₁.created.trans_le hevolves₂.created
    obtain ⟨s₃, hgo₃, hsteps₃, hown₃, hpoints₃, hpc₃⟩ := go_final_suspend moved h₂ hchild₂ hpc₂ hdone₂
    have hchild₃ : s.tasks.created < s₃.tasks.created := hchild₂.trans_le hsteps₃.le
    have hbody₃ : s₃.bodies s.tasks.created = none := by rw [hown₃.body, hevolves₂.own.body, hawaits₁.body]
    obtain ⟨s₄, p, k', hp, hawaits₃, hgo₄, hsteps₄, hown₄, hgoes₄, hpc₄, -, -⟩ :=
      go_transfer moved hsteps₃.inv hchild₃ hbody₃ hpc₃ (by rw [hpoints₃, hdone₂])
    have hsame₂ : Same s₁ s₂ f := hevolves₂.same f (hf.trans_le hsteps₁.le) hf.ne
    have hsame₃ : Same s₂ s₃ f := hsteps₃.same f hf.ne ((hf.trans_le hsteps₁.le).trans_le hevolves₂.created)
    -- The coroutine that it was called by is the one that takes the outcome.
    have hwho₃ : s₃.who s.tasks.created = some f := by rw [hown₃.who, hevolves₂.own.who, hawaits₁.who]
    cases hawaits₃.who.symm.trans hwho₃
    have hpoint₃ : s₃.points f = .calls s.tasks.created k := by rw [hpoints₃, hsame₂.point, hcalls₁]
    cases hp.symm.trans hpoint₃
    have hevolves₄ : Evolves s s₄ f t := by
      refine ⟨((hsteps₁.le.trans hevolves₂.created).trans hsteps₃.le).trans hsteps₄.le, fun g hg hgf => ?_,
        ((hown₁.trans hsame₂.own).trans hsame₃.own).trans hown₄, ?_⟩
      · have hgc : g ≠ s.tasks.created := hg.ne
        have hg₁ := hg.trans_le hsteps₁.le
        have hg₂ := hg₁.trans_le hevolves₂.created
        have hboth : ¬ (g = f ∨ g = s.tasks.created) := not_or.mpr ⟨hgf, hgc⟩
        exact (((hsteps₁.same g hboth hg).trans (hevolves₂.same g hg₁ hgc)).trans (hsteps₃.same g hgc hg₂)).trans
          (hsteps₄.same g (not_or.mpr ⟨hgc, hgf⟩) (hg₂.trans_le hsteps₃.le))
      · rw [hsteps₄.trace, hsteps₃.trace, hevolves₂.trace, hawaits₁.root, hown₁.root, hsteps₁.trace]
    have hf₄ : f < s₄.tasks.created := hf.trans_le hevolves₄.created
    obtain ⟨bs', s', hrun, h', hevolves, hdone, hpc'⟩ := ih hsteps₄.inv hf₄ hpc₄ hgoes₄
    refine ⟨.go f :: (bs ++ .go s.tasks.created :: .go s.tasks.created :: bs'), s', ?_, h', hevolves₄.trans hevolves, hdone,
      hpc'⟩
    exact .cons ⟨hf, hgo₁⟩ (hrun₂.append (.cons ⟨hchild₂, hgo₃⟩ (.cons ⟨hchild₃, hgo₄⟩ hrun)))

/-- The places in two bodies: one awaits the other one and adds one to its result. -/
inductive Place where
  | adds_one
  | got (o : Option (Read Nat Nat))
  | asks
  | answered (x : Nat)
  deriving DecidableEq

def adds_one : Program Place Nat Nat Nat Nat where
  spec _ := .object
  command
    | .adds_one => .co_await .asks .value .got
    | .got (some (.returned (some v))) => .co_return (.value (v + 1))
    | .got _ => .throw 0
    | .asks => .await 7 .answered
    | .answered x => .co_return (.value x)
  fits c how hc := by
    cases c with
    | adds_one | asks => cases hc
    | answered x =>
      cases hc
      trivial
    | got o => split at hc <;> cases hc <;> trivial
  after_co_await _ _ _ _ _ _ := rfl
  after_await _ _ _ _ _ := rfl

/-- It is called and detached, and the other one is answered. -/
def detach_adds_one : List (Action Place Nat Nat Nat) :=
  [.spawn .adds_one, .caller 0 (.start_and_detach true), .go 0, .go 1, .resume 1 5, .go 1, .go 1, .go 1, .go 0, .go 0]

theorem awaiting_is_calling_of_one : ∃ s : System Place Nat Nat Nat Nat, (s.tasks.frames 1).log.count .destroyed = 1 ∧
    Evaluates adds_one.function .adds_one (s.trace 0) (result_or_rethrow (fun _ => none) (s.tasks.frames 0).promise.block).1 ∧
    s.trace 0 = [(7, 5)] := by
  let take (s : System Place Nat Nat Nat Nat) (a : Action Place Nat Nat Nat) :=
    if Allowed s a then step adds_one (fun _ => none) id s a else none
  have htaken : (detach_adds_one.foldlM take construct).any (fun s => s.bodies 0 = some .adds_one ∧
      (s.tasks.frames 0).pc = .ending ∧ 1 < s.tasks.created ∧ s.root 1 = 0 ∧ s.trace 0 = [(7, 5)]) = true := by
    decide +kernel
  obtain ⟨s, hs, hend⟩ := (Option.any_eq_true ..).mp htaken
  obtain ⟨hbody, hpc, hcreated, hroot, htrace⟩ := of_decide_eq_true hend
  have hrun : Run (Step adds_one (fun _ => none) id) construct detach_adds_one s :=
    Run.of_foldlM (fun s a s' htake => Option.ite_none_right_eq_some.mp htake) hs
  obtain ⟨-, hresult, hdestroyed, -⟩ := awaiting_is_calling hrun
  exact ⟨s, hdestroyed 0 _ hbody hpc 1 hcreated (by simp) hroot, hresult 0 _ hbody hpc, htrace⟩

/-- And functions that call functions are tasks that await tasks: what the body of a
coroutine that goes on evaluates to, and with what answers, there is a run in which it
does. The other coroutines need not do anything, and are left as they were. -/
theorem calling_is_awaiting {as : List (Action C V E R)} (hrun : Run (Step P left moved) construct as s)
    (hf : f < s.tasks.created) (hpc : (s.tasks.frames f).pc = .running) (hpoint : s.points f = .goes_on c) {t : List (A × R)}
    {o : Read V E} (heval : Evaluates P.function c t o) :
    ∃ bs s', Run (Step P left moved) s bs s' ∧ (s'.tasks.frames f).pc = .ending ∧
      (result_or_rethrow left (s'.tasks.frames f).promise.block).1 = o ∧
      s'.trace = Function.update s.trace (s.root f) (s.trace (s.root f) ++ t) ∧
      ∀ g, g < s.tasks.created → g ≠ f → s'.tasks.frames g = s.tasks.frames g ∧ s'.points g = s.points g := by
  obtain ⟨h, -⟩ := inv_of_run hrun
  obtain ⟨bs, s₁, hrun₁, h₁, hevolves₁, hdone₁, hpc₁⟩ := run_of_evaluates moved heval h hf hpc hpoint
  have hf₁ := hf.trans_le hevolves₁.created
  obtain ⟨s', hgo, hsteps, hown, hpoints, hpc'⟩ := go_final_suspend moved h₁ hf₁ hpc₁ hdone₁
  have hf' := hf₁.trans_le hsteps.le
  obtain ⟨-, -, hresult⟩ := ((hsteps.inv.sound f hf').of_done (by rw [hpoints, hdone₁])).resolve_right (by simp [hpc'])
  have hstep : Step P left moved s₁ (.go f) s' := ⟨hf₁, hgo⟩
  refine ⟨bs ++ [.go f], s', hrun₁.append (.cons hstep (.nil _)), hpc', hresult, ?_, fun g hg hgf => ?_⟩
  · rw [hsteps.trace, hevolves₁.trace]
  · have hsame := (hevolves₁.same g hg hgf).trans (hsteps.same g hgf (hg.trans_le hevolves₁.created))
    exact ⟨hsame.frame, hsame.point⟩

/-- The other way round: the body is called and detached, and goes on as it is evaluated. -/
theorem calling_is_awaiting_of_one : ∃ s : System Place Nat Nat Nat Nat, (s.tasks.frames 0).pc = .ending ∧
    (result_or_rethrow (fun _ => none) (s.tasks.frames 0).promise.block).1 = .returned (some 6) ∧ s.trace 0 = [(7, 5)] := by
  have hstart : ∃ s, Run (Step adds_one (fun _ => none) id) construct [.spawn .adds_one, .caller 0 (.start_and_detach true)] s ∧
      0 < s.tasks.created ∧ (s.tasks.frames 0).pc = .running ∧ s.points 0 = .goes_on .adds_one ∧ s.root 0 = 0 ∧ s.trace 0 = [] :=
    ⟨_, .cons ⟨trivial, rfl⟩ <| .cons ⟨by decide, rfl⟩ <| .nil _, by decide, rfl, rfl, rfl, rfl⟩
  obtain ⟨s, hrun, hcreated, hpc, hpoint, hroot, htrace⟩ := hstart
  have hasks : Evaluates adds_one.function .asks [(7, 5)] (.returned (some 5)) := .asks rfl (.returns rfl)
  have heval : Evaluates adds_one.function .adds_one ([(7, 5)] ++ []) (.returned (some 6)) :=
    .calls rfl hasks (.returns rfl)
  obtain ⟨bs, s', -, hpc', hresult, htrace', -⟩ := calling_is_awaiting hrun hcreated hpc hpoint heval
  exact ⟨s', hpc', hresult, by simp [htrace', hroot, htrace]⟩

end kelcoro.task.calls
