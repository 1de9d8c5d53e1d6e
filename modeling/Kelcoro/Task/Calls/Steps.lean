import Kelcoro.Task.Calls.Invariant
import Mathlib

namespace kelcoro.task.calls

open kelcoro.lib kelcoro.return_block

variable {C V E A R : Type}

variable {P : Program C V E A R} {left : E → Option E} {moved : V → V} {s s' : System C V E A R} {f g p r : Nat} {c : C}
  {a : Action C V E R}

/-- The steps of the tasks, whose `on_ignored_exception` does not throw. -/
def TaskStep (left : E → Option E) (moved : V → V) (s : State V E) (a : task.Action V E) (s' : State V E) : Prop :=
  task.Step left moved s a s' ∧ Meets Ignored s a

theorem foldlM_of_run {as : List (task.Action V E)} {u t : State V E} (hrun : Run (TaskStep left moved) u as t) :
    as.foldlM (task.step left moved) u = some t := by
  induction hrun with
  | nil => rfl
  | cons hstep _ ih => rw [List.foldlM_cons, hstep.1.2, Option.bind_eq_bind, Option.bind_some, ih]

theorem take_of_run {as : List (task.Action V E)} {t : State V E} (hrun : Run (TaskStep left moved) s.tasks as t) :
    s.take left moved as = some { s with tasks := t } := by
  rw [System.take, foldlM_of_run hrun]
  rfl

namespace TaskStep

variable {u : State V E} {op : Op V E} {frame' : Frame V E}

theorem frame (hf : f < u.created) (hof : ¬ op.OfTask) (hallows : (u.frames f).Allows op) (hignored : Ignored (u.frames f) op)
    (hstep : (u.frames f).step left moved op = some frame') : TaskStep left moved u (.frame f op) (u.put f frame') :=
  ⟨⟨hallows, by simp [task.step, hf, hof, hstep]⟩, hignored⟩

theorem call (ha : u.objects f = some (some f)) (hof : op.OfTask) (hallows : (u.frames f).Allows op)
    (hignored : Ignored (u.frames f) op) (hstep : (u.frames f).step left moved op = some frame') :
    TaskStep left moved u (.call f op) { u.put f frame' with objects := release u f op } := by
  have hholds : ∀ g, u.objects.Holds f g → g = f := by
    intro g hg
    cases ha.symm.trans hg
    rfl
  refine ⟨⟨⟨by simp [ha], fun g hg => ?_, fun hnone => absurd ha (hnone f)⟩, ?_⟩, fun g hg => ?_⟩
  · rw [hholds g hg]
    exact hallows
  · simp [task.step, hof, ha, hstep]
  · rw [hholds g hg]
    exact hignored

theorem create (ha : u.objects f = none) (spec : Specialization) :
    TaskStep left moved u (.create f spec) (u.start f (Frame.construct spec)) :=
  ⟨⟨ha, rfl⟩, trivial⟩

end TaskStep

/-- The promise of a body that ended. -/
theorem completed_of_co_return {how : Return V E} {spec : Specialization} (hfits : Fits how spec) (left : E → Option E) :
    ∃ promise, (Promise.construct spec : Promise V E).use (.co_return how) = some promise ∧ promise.completed ≠ none ∧
      (result_or_rethrow left promise.block).1 = outcome how := by
  cases how <;> cases spec <;> first
    | exact absurd hfits id
    | exact ⟨_, rfl, by simp, rfl⟩

theorem completed_of_throw (e : E) (spec : Specialization) (left : E → Option E) :
    ∃ promise, (Promise.construct spec : Promise V E).use (.throw e) = some promise ∧ promise.completed ≠ none ∧
      (result_or_rethrow left promise.block).1 = .threw e := by
  cases spec <;> exact ⟨_, rfl, by simp, rfl⟩

/-- What happens to a frame that no other coroutine awaits: its coroutine stays where it
is, is started or given up, or is over where it was at `last`. -/
inductive Moves (last : Pc) (frame frame' : Frame V E) : Prop
  | stays (hpc : frame'.pc = frame.pc) (hpromise : frame'.promise = frame.promise)
  | begins (hpc : frame.pc = .initial_suspend) (hpc' : frame'.pc = .running ∨ frame'.pc = .destroyed)
      (hpromise : frame'.promise = frame.promise)
  | ended (hpc : frame.pc = last) (hpc' : frame'.pc = .final_suspend ∨ frame'.pc = .destroyed)

theorem moves_of_caller {frame frame' : Frame V E} {op : Op V E} (hop : OfCaller op) (hallows : frame.Allows op)
    (hstep : frame.step left moved op = some frame') : Moves .final_suspend frame frame' := by
  cases op with
  | destruct =>
    cases hstep
    obtain hpc | hdone | hpc := hallows
    · exact .begins hpc (.inr rfl) rfl
    · exact .ended hdone (.inr rfl)
    · exact .stays hpc.symm rfl
  | co_await c =>
    cases hstep
    unfold Frame.co_await
    split
    case isTrue hdone => exact .ended hdone (.inl hdone)
    case isFalse hdone => exact .begins (hallows.resolve_right hdone) (.inl rfl) rfl
  | get =>
    cases hstep
    unfold Frame.get
    split
    case isTrue hdone => exact .ended hdone (.inl hdone)
    case isFalse hdone => exact .begins (hallows.resolve_right hdone) (.inl rfl) rfl
  | start =>
    cases hstep
    exact .begins hallows (.inl rfl) rfl
  | start_and_detach stop_at_end =>
    cases hstep
    unfold Frame.start_and_detach
    dsimp only
    split
    case isTrue hdone =>
      split
      · exact .ended hdone (.inl hdone)
      · exact .ended hdone (.inr rfl)
    case isFalse hdone => exact .begins (hallows.resolve_right hdone) (.inl rfl) rfl
  | co_await_result c =>
    cases hstep
    unfold Frame.co_await_result
    dsimp only
    split
    case isTrue hdone => exact .ended hdone (.inl hdone)
    case isFalse hdone => exact .stays rfl rfl
  | drop_result =>
    cases hstep
    unfold Frame.drop_result
    dsimp only
    split
    case isTrue hdone => exact .ended hdone (.inr rfl)
    case isFalse hdone => exact .stays rfl rfl
  | destroy =>
    cases hstep
    obtain ⟨-, hdone | hpc⟩ := hallows
    · exact .ended hdone (.inr rfl)
    · exact .stays hpc.symm rfl
  | resume | suspend | use _ | unhandled_exception _ _ | final_suspend | transfer_control => exact absurd hop id

/-- A step of coroutines in `X`. -/
structure Steps (P : Program C V E A R) (left : E → Option E) (moved : V → V) (X : Nat → Prop)
    (s s' : System C V E A R) : Prop where
  inv : Inv P left s'
  run : ∃ as, Run (TaskStep left moved) s.tasks as s'.tasks
  created : s'.tasks.created = s.tasks.created ∨ X s.tasks.created ∧ s'.tasks.created = s.tasks.created + 1
  same : ∀ g, ¬ X g → g < s.tasks.created → Same s s' g
  trace : s'.trace = s.trace

namespace Steps

variable {X : Nat → Prop}

theorem le (h : Steps P left moved X s s') : s.tasks.created ≤ s'.tasks.created := by
  obtain heq | ⟨-, heq⟩ := h.created
  · exact heq.ge
  · omega

/-- Coroutines that are there already do not create one. -/
theorem created_eq (h : Steps P left moved X s s') (hx : ∀ g, X g → g < s.tasks.created) :
    s'.tasks.created = s.tasks.created := by
  obtain heq | ⟨hnew, -⟩ := h.created
  · exact heq
  · exact absurd (hx _ hnew) (lt_irrefl _)

end Steps

/-- What a coroutine does not change about itself. -/
structure Own (s s' : System C V E A R) (f : Nat) : Prop where
  object : s'.tasks.objects f = s.tasks.objects f
  who : s'.who f = s.who f
  root : s'.root f = s.root f
  body : s'.bodies f = s.bodies f
  who_waits : (s'.tasks.frames f).who_waits = (s.tasks.frames f).who_waits

/-- The coroutine does something with its own frame and goes to `point`. -/
theorem goes (h : Inv P left s) (hf : f < s.tasks.created) (hlive : (s.tasks.frames f).pc ≠ .destroyed) {op : Op V E}
    {frame : Frame V E} {point : Point C A R (Read V E)} (hof : ¬ op.OfTask) (hallows : (s.tasks.frames f).Allows op)
    (hignored : Ignored (s.tasks.frames f) op) (hstep : (s.tasks.frames f).step left moved op = some frame)
    (hwaits : frame.who_waits = (s.tasks.frames f).who_waits)
    (hpc : frame.pc = .running ∨ frame.pc = .suspended ∨ frame.pc = .ending) (hcalls : ∀ g k, s.points f ≠ .calls g k)
    (hsound : Sound P left (s.put f frame point) f)
    (hrest : ∀ g t o, Rest P.function (Function.update s.points f point) g t o → Rest P.function s.points g t o) :
    s.take left moved [.frame f op] = some { s with tasks := s.tasks.put f frame } ∧
      Steps P left moved (fun g => g = f) s (s.put f frame point) ∧ Own s (s.put f frame point) f := by
  have hrun : Run (TaskStep left moved) s.tasks [.frame f op] (s.tasks.put f frame) :=
    .cons (.frame hf hof hallows hignored hstep) (.nil _)
  have hself : ((s.put f frame point).tasks.frames f) = frame := Function.update_self ..
  have hsame : ∀ g, g ≠ f → Same s (s.put f frame point) g :=
    fun g hg => ⟨Function.update_of_ne hg .., rfl, Function.update_of_ne hg .., rfl, rfl, rfl⟩
  have hinv : Inv P left (s.put f frame point) := by
    apply h.one hf (by rfl) hsame
    · exact fun g hg => h.own f g hg
    · rfl
    · rfl
    · rfl
    · exact fun _ => hlive
    · rw [hself]
      exact fun _ => ⟨rfl, hpc, hwaits⟩
    · exact fun g k hpoint => absurd hpoint (hcalls g k)
    · exact hsound
    · exact fun r c hr t o hr' => h.result r c hr t o (hrest _ _ _ hr')
  refine ⟨take_of_run hrun, ⟨hinv, ⟨_, hrun⟩, .inl rfl, fun g hg _ => hsame g hg, rfl⟩, rfl, rfl, rfl, rfl, ?_⟩
  rw [hself, hwaits]

/-- The coroutine awaits something that is no task, and is suspended. -/
theorem go_asks (moved : V → V) (h : Inv P left s) (hf : f < s.tasks.created) (hpc : (s.tasks.frames f).pc = .running)
    (hpoint : s.points f = .goes_on c) {a : A} {k : R → C} (hc : P.function c = .asks a k) :
    ∃ s', go P left moved s f = some s' ∧ Steps P left moved (fun g => g = f) s s' ∧ Own s s' f ∧
      s'.points f = .asks a k ∧ (s'.tasks.frames f).pc = .suspended := by
  obtain ⟨-, hpromise⟩ := (h.sound f hf).of_goes_on hpoint
  have hcompleted : (s.tasks.frames f).promise.completed = none := by rw [hpromise]; rfl
  have hcommand : P.command c = .await a k := by
    unfold Program.function at hc
    cases hcommand : P.command c <;> simp [hcommand] at hc ⊢
    exact hc
  have hsound : Sound P left (s.put f { s.tasks.frames f with pc := .suspended } (.asks a k)) f := by
    simp only [Sound, System.put, Owned.put, Function.update_self, hpromise]
    exact ⟨trivial, fun x => by rw [P.after_await c a k hcommand x]⟩
  have hstep : (s.tasks.frames f).step left moved .suspend = some { s.tasks.frames f with pc := .suspended } :=
    if_pos ⟨hpc, hcompleted⟩
  have hallows : (s.tasks.frames f).Allows .suspend := trivial
  obtain ⟨htake, hsteps, hown⟩ := goes h hf (by simp [hpc]) id hallows trivial hstep rfl (by simp) (by simp [hpoint]) hsound
    fun _ _ _ => Rest.of_asks hpoint hc
  refine ⟨_, ?_, hsteps, hown, Function.update_self .., by simp [System.put, Owned.put]⟩
  simp [go, hpc, hpoint, hcommand, htake, System.put, System.goto]

/-- The body is over. -/
theorem go_ends (moved : V → V) (h : Inv P left s) (hf : f < s.tasks.created) (hpc : (s.tasks.frames f).pc = .running)
    (hpoint : s.points f = .goes_on c) {o : Read V E} (hc : P.function c = .returns o) :
    ∃ s', go P left moved s f = some s' ∧ Steps P left moved (fun g => g = f) s s' ∧ Own s s' f ∧
      s'.points f = .done o ∧ (s'.tasks.frames f).pc = .running := by
  obtain ⟨-, hpromise⟩ := (h.sound f hf).of_goes_on hpoint
  -- However it ends, the promise has the outcome then.
  have hends : ∀ (op : Op V E) (promise : Promise V E) (frame : Frame V E), ¬ op.OfTask → (s.tasks.frames f).Allows op →
      Ignored (s.tasks.frames f) op → (s.tasks.frames f).step left moved op = some frame → frame.pc = .running →
      frame.who_waits = (s.tasks.frames f).who_waits → frame.promise = promise → promise.completed ≠ none →
      (result_or_rethrow left promise.block).1 = o →
      (go P left moved s f = (s.take left moved [.frame f op]).map fun s' => s'.goto f (.done o)) →
      ∃ s', go P left moved s f = some s' ∧ Steps P left moved (fun g => g = f) s s' ∧ Own s s' f ∧
        s'.points f = .done o ∧ (s'.tasks.frames f).pc = .running := by
    rintro op _ frame hof hallows hignored hstep hrunning hwaits rfl hcompleted hresult hgo
    have hsound : Sound P left (s.put f frame (.done o)) f := by
      simp only [Sound, System.put, Owned.put, Function.update_self]
      exact .inl ⟨.inl hrunning, hcompleted, hresult⟩
    obtain ⟨htake, hsteps, hown⟩ := goes h hf (by simp [hpc]) hof hallows hignored hstep hwaits (.inl hrunning)
      (by simp [hpoint]) hsound fun _ _ _ => Rest.of_returns hpoint hc
    refine ⟨_, ?_, hsteps, hown, Function.update_self .., by simpa [System.put, Owned.put] using hrunning⟩
    rw [hgo, htake]
    rfl
  unfold Program.function at hc
  cases hcommand : P.command c with
  | co_await c kind k => simp [hcommand] at hc
  | await a k => simp [hcommand] at hc
  | co_return how =>
    simp only [hcommand, Instr.returns.injEq] at hc
    obtain ⟨promise, huse, hcompleted, hresult⟩ := completed_of_co_return (E := E) (P.fits c how hcommand) left
    refine hends (.use (.co_return how)) promise { s.tasks.frames f with promise := promise } id trivial trivial ?_ hpc rfl rfl
      hcompleted (hresult.trans hc) ?_
    · simp [Frame.step, hpc, hpromise, huse]
    · simp [go, hpc, hpoint, hcommand, hc]
  | throw e =>
    simp only [hcommand, Instr.returns.injEq] at hc
    obtain ⟨promise, huse, hcompleted, hresult⟩ := completed_of_throw (V := V) e (P.spec c) left
    have hgo : go P left moved s f =
        (s.take left moved [.frame f (.unhandled_exception e false)]).map fun s' => s'.goto f (.done o) := by
      simp [go, hpc, hpoint, hcommand, hc]
    by_cases hnull : (s.tasks.frames f).who_waits = .null
    · refine hends (.unhandled_exception e false) promise
        { (s.tasks.frames f).access .on_ignored_exception with promise := promise } id trivial (fun _ => rfl) ?_ hpc rfl rfl
        hcompleted (hresult.trans hc) hgo
      simp [Frame.step, hpc, Frame.unhandled_exception, hnull, Frame.access, hpromise, huse]
    · refine hends (.unhandled_exception e false) promise { s.tasks.frames f with promise := promise } id trivial
        (fun _ => rfl) ?_ hpc rfl rfl hcompleted (hresult.trans hc) hgo
      simp [Frame.step, hpc, Frame.unhandled_exception, hnull, hpromise, huse]

/-- `final_suspend()`. -/
theorem go_final_suspend (moved : V → V) (h : Inv P left s) (hf : f < s.tasks.created) (hpc : (s.tasks.frames f).pc = .running)
    {o : Read V E} (hpoint : s.points f = .done o) :
    ∃ s', go P left moved s f = some s' ∧ Steps P left moved (fun g => g = f) s s' ∧ Own s s' f ∧
      s'.points = s.points ∧ (s'.tasks.frames f).pc = .ending := by
  have hdone := ((h.sound f hf).of_done hpoint).resolve_right (by simp [hpc])
  obtain ⟨-, hcompleted, hresult⟩ := hdone
  have hsame : Function.update s.points f (.done o) = s.points := by rw [← hpoint, Function.update_eq_self]
  have hsound : Sound P left (s.put f (s.tasks.frames f).final_suspend (.done o)) f := by
    simp only [Sound, System.put, Owned.put, Function.update_self]
    exact .inl ⟨.inr rfl, hcompleted, hresult⟩
  have hstep : (s.tasks.frames f).step left moved .final_suspend = some (s.tasks.frames f).final_suspend :=
    if_pos ⟨hpc, hcompleted⟩
  have hallows : (s.tasks.frames f).Allows .final_suspend := trivial
  obtain ⟨htake, hsteps, hown⟩ := goes h hf (by simp [hpc]) id hallows trivial hstep rfl (.inr (.inr rfl)) (by simp [hpoint])
    hsound fun g t o hrest => by rwa [hsame] at hrest
  refine ⟨_, ?_, hsteps, hown, hsame, by simp [System.put, Owned.put, Frame.final_suspend, Frame.access]⟩
  simp only [go, hpc, hpoint, htake, System.put, hsame]

section CoAwait

variable (moved : V → V) (s : System C V E A R) (f : Nat) (spec : Specialization) (c : Call)

/-- The frame of a task that is awaited for the first time. -/
def awaited_frame : Frame V E := ((Frame.construct spec).access .accessed).await_suspend c

/-- The tasks after `co_await` of a new one. -/
def co_awaited : State V E :=
  ((s.tasks.start s.tasks.created (Frame.construct spec)).put f { s.tasks.frames f with pc := .suspended }).put
    s.tasks.created (awaited_frame spec c)

variable {moved s f spec c}

theorem co_awaited_run (h : Inv P left s) (hf : f < s.tasks.created) (hpc : (s.tasks.frames f).pc = .running)
    (hcompleted : (s.tasks.frames f).promise.completed = none) :
    Run (TaskStep left moved) s.tasks [.create s.tasks.created spec, .frame f .suspend, .call s.tasks.created (.co_await c)]
      (co_awaited s f spec c) := by
  have hne : f ≠ s.tasks.created := hf.ne
  have hcreate : TaskStep left moved s.tasks (.create s.tasks.created spec)
      (s.tasks.start s.tasks.created (Frame.construct spec)) := .create (h.fresh _ le_rfl) spec
  have hsuspend : TaskStep left moved (s.tasks.start s.tasks.created (Frame.construct spec)) (.frame f .suspend)
      ((s.tasks.start s.tasks.created (Frame.construct spec)).put f { s.tasks.frames f with pc := .suspended }) := by
    apply TaskStep.frame
    · exact hf.trans (Nat.lt_succ_self _)
    · exact id
    · trivial
    · trivial
    · simp [Owned.start, Owned.put, hne, Frame.step, hpc, hcompleted]
  refine .cons hcreate (.cons hsuspend (.cons (.call ?_ trivial ?_ trivial ?_) (.nil _)))
  · simp [Owned.start, Owned.put, Objects.give]
  · exact .inl (by simp [Owned.start, Owned.put, Ne.symm hne, Frame.construct])
  · have hnot : ¬ (Frame.construct spec : Frame V E).done := by simp [Frame.done, Frame.construct]
    simp [Owned.start, Owned.put, Ne.symm hne, Frame.step, Frame.co_await, hnot, awaited_frame]

@[simp] theorem co_awaited_created : (co_awaited s f spec c).created = s.tasks.created + 1 := rfl

@[simp] theorem co_awaited_child : (co_awaited s f spec c).frames s.tasks.created = awaited_frame spec c :=
  Function.update_self ..

theorem co_awaited_self (hf : f ≠ s.tasks.created) :
    (co_awaited s f spec c).frames f = { s.tasks.frames f with pc := .suspended } := by
  simp [co_awaited, Owned.put, hf]

theorem co_awaited_of_ne (hgf : g ≠ f) (hg : g ≠ s.tasks.created) :
    (co_awaited s f spec c).frames g = s.tasks.frames g := by
  simp [co_awaited, Owned.put, Owned.start, hgf, hg]

@[simp] theorem co_awaited_holds : (co_awaited s f spec c).objects s.tasks.created = some (some s.tasks.created) :=
  Function.update_self ..

theorem co_awaited_objects (hg : g ≠ s.tasks.created) : (co_awaited s f spec c).objects g = s.tasks.objects g :=
  Function.update_of_ne hg ..

end CoAwait

/-- The state after `co_await` of a new task. -/
def after_co_await (s : System C V E A R) (f : Nat) (c : C) (k : Read V E → C) (spec : Specialization) (call : Call) :
    System C V E A R :=
  { s with
    tasks := co_awaited s f spec call
    points := Function.update (Function.update s.points s.tasks.created (.goes_on c)) f (.calls s.tasks.created k)
    who := Function.update s.who s.tasks.created (some f)
    root := Function.update s.root s.tasks.created (s.root f) }

/-- Nobody awaits a coroutine that is not there yet. -/
theorem Inv.not_calls_created (h : Inv P left s) (p : Nat) (k : Read V E → C) : s.points p ≠ .calls s.tasks.created k := by
  intro hp
  exact absurd ((h.sound p (h.calling p _ k hp)).of_calls hp).2.2.created (lt_irrefl _)

theorem Inv.after_co_await (h : Inv P left s) (hf : f < s.tasks.created) (hpc : (s.tasks.frames f).pc = .running)
    (hpoint : s.points f = .goes_on c) {c' : C} {k : Read V E → C} (hc : P.function c = .calls c' k) {call : Call}
    (hpromise : ∀ o, (s.tasks.frames f).promise = .construct (P.spec (k o))) :
    Inv P left (after_co_await s f c' k (P.spec c') call) ∧
      Awaits (calls.after_co_await s f c' k (P.spec c') call) f s.tasks.created := by
  have hne : f ≠ s.tasks.created := hf.ne
  have hfresh : s.bodies s.tasks.created = none := by
    cases hbody : s.bodies s.tasks.created with
    | none => rfl
    | some c => exact absurd (h.body _ c hbody).1 (lt_irrefl _)
  have hnew := h.not_calls_created
  have hawaits : Awaits (calls.after_co_await s f c' k (P.spec c') call) f s.tasks.created := {
    lt := hf
    created := Nat.lt_succ_self _
    body := hfresh
    who := Function.update_self ..
    root := by simp [calls.after_co_await, hne]
    holds := co_awaited_holds
    pc := .inl (by simp [calls.after_co_await, awaited_frame, Frame.await_suspend, Frame.resume, Frame.access])
    who_waits := ⟨call, by simp [calls.after_co_await, awaited_frame, Frame.await_suspend, Frame.resume,
      Frame.prepare_task_to_start, Frame.access]⟩ }
  have hself : (calls.after_co_await s f c' k (P.spec c') call).points f = .calls s.tasks.created k := Function.update_self ..
  have hchild : (calls.after_co_await s f c' k (P.spec c') call).points s.tasks.created = .goes_on c' := by
    simp [calls.after_co_await, Ne.symm hne]
  refine ⟨h.update (fun g => g = f ∨ g = s.tasks.created) ?_ (Nat.le_succ _) ?_ ?_ ?_ ?_ ?_ ?_ ?_ ?_ ?_, hawaits⟩
  · intro g hg
    obtain ⟨hgf, hgc⟩ := not_or.mp hg
    exact ⟨co_awaited_of_ne hgf hgc, co_awaited_objects hgc, by simp [calls.after_co_await, hgf, hgc],
      Function.update_of_ne hgc .., Function.update_of_ne hgc .., rfl⟩
  · rintro g (rfl | rfl)
    · exact Nat.lt_succ_of_lt hf
    · exact Nat.lt_succ_self _
  · intro g hg hnot
    exact Nat.lt_of_le_of_ne (Nat.le_of_lt_succ hg) (not_or.mp hnot).2
  · rintro g f' (rfl | rfl) hf'
    · exact h.own g f' ((co_awaited_objects hne).symm.trans hf')
    · have hsome : some (some s.tasks.created) = some (some f') := co_awaited_holds.symm.trans hf'
      cases hsome
      rfl
  · rintro g (rfl | rfl)
    · simp only [Sound, hself]
      refine ⟨?_, fun o => ?_, hawaits⟩
      · simp [calls.after_co_await, co_awaited_self hne]
      · simp [calls.after_co_await, co_awaited_self hne, ← hpromise o]
    · simp only [Sound, hchild]
      exact ⟨.inl (by simp [calls.after_co_await, awaited_frame, Frame.await_suspend, Frame.resume, Frame.access]),
        by simp [calls.after_co_await, awaited_frame, Frame.await_suspend, Frame.resume, Frame.prepare_task_to_start,
          Frame.access, Frame.construct]⟩
  · rintro g (rfl | rfl)
    · obtain hbody | hdestroyed | ⟨p, k', hlt, hp⟩ := h.alive g hf
      · exact .inl hbody
      · cases hpc.symm.trans hdestroyed
      · refine .inr (.inr ⟨p, k', hlt, ?_⟩)
        simp [calls.after_co_await, hlt.ne, (hlt.trans hf).ne, hp]
    · exact .inr (.inr ⟨f, k, hf, hself⟩)
  · rintro p g hp (rfl | rfl) hawaited
    · obtain ⟨hpf, hpc'⟩ := not_or.mp hp
      exact {
        lt := hawaited.lt
        created := Nat.lt_succ_of_lt hf
        body := hawaited.body
        who := (Function.update_of_ne hne ..).trans hawaited.who
        root := by simp [calls.after_co_await, hne, hpc', hawaited.root]
        holds := (co_awaited_objects hne).trans hawaited.holds
        pc := by simp [calls.after_co_await, co_awaited_self hne]
        who_waits := by simpa [calls.after_co_await, co_awaited_self hne] using hawaited.who_waits }
    · exact absurd hawaited.created (lt_irrefl _)
  · rintro p g k' (rfl | rfl) - hcalls
    · cases hpoint.symm.trans hcalls
    · exact absurd (h.calling _ g k' hcalls) (lt_irrefl _)
  · rintro r c'' (rfl | rfl) hr
    · obtain ⟨-, hroot, hwho⟩ := h.body r c'' hr
      simp [calls.after_co_await, hne, hroot, hwho]
    · cases hfresh.symm.trans hr
  · intro r c'' hr t o hrest
    exact h.result r c'' hr t o (hrest.of_calls hpoint hc hne hnew (h.body r c'' hr).1.ne)

/-- The coroutine calls another one and awaits it. -/
theorem go_co_await (moved : V → V) (h : Inv P left s) (hf : f < s.tasks.created) (hpc : (s.tasks.frames f).pc = .running)
    (hpoint : s.points f = .goes_on c) {c' : C} {k : Read V E → C} (hc : P.function c = .calls c' k) :
    ∃ s', go P left moved s f = some s' ∧ Steps P left moved (fun g => g = f ∨ g = s.tasks.created) s s' ∧ Own s s' f ∧
      s'.tasks.created = s.tasks.created + 1 ∧ s'.points f = .calls s.tasks.created k ∧
      s'.points s.tasks.created = .goes_on c' ∧ (s'.tasks.frames s.tasks.created).pc = .running ∧
      Awaits s' f s.tasks.created := by
  obtain ⟨-, hpromise⟩ := (h.sound f hf).of_goes_on hpoint
  have hcompleted : (s.tasks.frames f).promise.completed = none := by rw [hpromise]; rfl
  obtain ⟨kind, k', hcommand, rfl⟩ : ∃ kind k', P.command c = .co_await c' kind k' ∧ k = fun o => k' (kind.answer o) := by
    unfold Program.function at hc
    cases hcommand : P.command c with
    | co_await c'' kind k' =>
      simp only [hcommand, Instr.calls.injEq] at hc
      obtain ⟨rfl, rfl⟩ := hc
      exact ⟨kind, k', rfl, rfl⟩
    | co_return how | throw e | await a k => simp [hcommand] at hc
  have hrun : Run (TaskStep left moved) s.tasks [.create s.tasks.created (P.spec c'), .frame f .suspend,
      .call s.tasks.created (.co_await kind.call)] (co_awaited s f (P.spec c') kind.call) := co_awaited_run h hf hpc hcompleted
  obtain ⟨hinv, hawaits⟩ : Inv P left (after_co_await s f c' _ (P.spec c') kind.call) ∧
      Awaits (after_co_await s f c' _ (P.spec c') kind.call) f s.tasks.created :=
    h.after_co_await hf hpc hpoint hc fun o => by rw [hpromise, P.after_co_await c c' kind k' hcommand]
  have hne : f ≠ s.tasks.created := hf.ne
  refine ⟨_, ?_, ⟨hinv, ⟨_, hrun⟩, .inr ⟨.inr rfl, rfl⟩, ?_, rfl⟩, ?_, rfl, Function.update_self .., ?_, ?_, hawaits⟩
  · simp [go, hpc, hpoint, hcommand, co_await, take_of_run hrun, after_co_await]
  · intro g hg _
    obtain ⟨hgf, hgc⟩ := not_or.mp hg
    exact ⟨co_awaited_of_ne hgf hgc, co_awaited_objects hgc, by simp [after_co_await, hgf, hgc],
      Function.update_of_ne hgc .., Function.update_of_ne hgc .., rfl⟩
  · exact ⟨co_awaited_objects hne, Function.update_of_ne hne .., Function.update_of_ne hne .., rfl,
      by simp [after_co_await, co_awaited_self hne]⟩
  · simp [after_co_await, Ne.symm hne]
  · simp [after_co_await, awaited_frame, Frame.await_suspend, Frame.resume, Frame.access]

/-- The tasks after coroutine `f` resumed `p`, which destroyed it. -/
def transferred (s : System C V E A R) (f p : Nat) (frame : Frame V E) : State V E :=
  { ((s.tasks.put f frame).put p (s.tasks.frames p).resume).put f { frame with holder := .nobody }.destroy with
    objects := s.tasks.objects.drop f none }

section Transfer

variable {frame : Frame V E}

theorem transferred_self : (transferred s f p frame).frames f = { frame with holder := .nobody }.destroy :=
  Function.update_self ..

theorem transferred_owner (hpf : p ≠ f) : (transferred s f p frame).frames p = (s.tasks.frames p).resume := by
  simp [transferred, Owned.put, hpf]

theorem transferred_of_ne (hgf : g ≠ f) (hgp : g ≠ p) : (transferred s f p frame).frames g = s.tasks.frames g := by
  simp [transferred, Owned.put, hgf, hgp]

theorem transferred_objects (hg : g ≠ f) : (transferred s f p frame).objects g = s.tasks.objects g :=
  Function.update_of_ne hg ..

theorem transferred_run (hawaits : Awaits s p f) (hpc : (s.tasks.frames f).pc = .ending)
    (hpc' : (s.tasks.frames p).pc = .suspended) :
    ∃ frame, Run (TaskStep left moved) s.tasks [.frame f .transfer_control, .frame p .resume, .call f .destruct]
      (transferred s f p frame) := by
  have hpf : p ≠ f := hawaits.lt.ne
  obtain ⟨c, hwaits⟩ := hawaits.who_waits
  let frame := (s.tasks.frames f).transfer_control left moved
  have hfinal : frame.pc = .final_suspend := by
    simp [frame, Frame.transfer_control, hwaits, Frame.read, Frame.access]
  have htransfer : TaskStep left moved s.tasks (.frame f .transfer_control) (s.tasks.put f frame) :=
    .frame hawaits.created id trivial trivial (if_pos hpc)
  have hresume : TaskStep left moved (s.tasks.put f frame) (.frame p .resume)
      ((s.tasks.put f frame).put p (s.tasks.frames p).resume) := by
    apply TaskStep.frame
    · exact hawaits.lt.trans hawaits.created
    · exact id
    · trivial
    · trivial
    · simp [Owned.put, hpf, Frame.step, hpc']
  refine ⟨frame, .cons htransfer (.cons hresume (.cons (.call ?_ trivial ?_ trivial ?_) (.nil _)))⟩
  · exact hawaits.holds
  · exact .inr (.inl (by simpa [Owned.put, Ne.symm hpf, Frame.done] using hfinal))
  · simp [Owned.put, Ne.symm hpf, Frame.step]

end Transfer

/-- The state after that. -/
def after_transfer (s : System C V E A R) (f p : Nat) (frame : Frame V E) (c : C) : System C V E A R :=
  { s with
    tasks := transferred s f p frame
    points := Function.update s.points p (.goes_on c) }

theorem after_transfer_same {frame : Frame V E} (hg : ¬ (g = f ∨ g = p)) : Same s (after_transfer s f p frame c) g := by
  obtain ⟨hgf, hgp⟩ := not_or.mp hg
  exact ⟨transferred_of_ne hgf hgp, transferred_objects hgf, Function.update_of_ne hgp .., rfl, rfl, rfl⟩

theorem Inv.after_transfer (h : Inv P left s) {k : Read V E → C} {o : Read V E} {frame : Frame V E}
    (hp : s.points p = .calls f k) (hpoint : s.points f = .done o) :
    Inv P left (after_transfer s f p frame (k o)) := by
  obtain ⟨hpc, hpromise, hawaits⟩ := (h.sound p (h.calling p f k hp)).of_calls hp
  have hpf : p ≠ f := hawaits.lt.ne
  have hcreated : p < s.tasks.created := h.calling p f k hp
  apply h.update (fun g => g = f ∨ g = p) (fun g hg => after_transfer_same hg) le_rfl
  · rintro g (rfl | rfl)
    · exact hawaits.created
    · exact hcreated
  · exact fun g hg _ => hg
  · rintro g f' (rfl | rfl) hf'
    · exact absurd rfl (Objects.holds_drop.mp hf').1
    · exact h.own g f' ((transferred_objects hpf).symm.trans hf')
  · rintro g (rfl | rfl)
    · have hdone : (calls.after_transfer s g p frame (k o)).points g = .done o :=
        (Function.update_of_ne (Ne.symm hpf) ..).trans hpoint
      simp only [Sound, hdone]
      exact .inr (.inr (by simp [calls.after_transfer, transferred_self, Frame.destroy, Frame.access]))
    · have hgoes : (calls.after_transfer s f g frame (k o)).points g = .goes_on (k o) := Function.update_self ..
      simp only [Sound, hgoes]
      refine ⟨.inl ?_, ?_⟩
      · simp [calls.after_transfer, transferred_owner hpf, Frame.resume, Frame.access]
      · simpa [calls.after_transfer, transferred_owner hpf, Frame.resume, Frame.access] using hpromise o
  · rintro g (rfl | rfl)
    · exact .inr (.inl (by simp [calls.after_transfer, transferred_self, Frame.destroy, Frame.access]))
    · obtain hbody | hdestroyed | ⟨q, k', hlt, hq⟩ := h.alive g hcreated
      · exact .inl hbody
      · cases hpc.symm.trans hdestroyed
      · exact .inr (.inr ⟨q, k', hlt, (Function.update_of_ne hlt.ne ..).trans hq⟩)
  · rintro q g hq (rfl | rfl) hawaited
    · cases hawaits.who.symm.trans hawaited.who
      exact absurd (.inr rfl) hq
    · exact {
        lt := hawaited.lt
        created := hcreated
        body := hawaited.body
        who := hawaited.who
        root := hawaited.root
        holds := (transferred_objects hpf).trans hawaited.holds
        pc := by simp [calls.after_transfer, transferred_owner hpf, Frame.resume, Frame.access]
        who_waits := by
          simpa [calls.after_transfer, transferred_owner hpf, Frame.resume, Frame.access] using hawaited.who_waits }
  · rintro q g k' (rfl | rfl) hg hcalls
    · cases hpoint.symm.trans hcalls
    · cases hp.symm.trans hcalls
      exact absurd (.inl rfl) hg
  · exact fun r c _ hr => (h.body r c hr).2
  · exact fun r c hr t o hrest => h.result r c hr t o (hrest.of_outcome hp hpoint)

/-- A coroutine that ends transfers control to the one that called it, which takes the
outcome and destroys it. -/
theorem go_transfer (moved : V → V) (h : Inv P left s) (hf : f < s.tasks.created) (hbody : s.bodies f = none)
    (hpc : (s.tasks.frames f).pc = .ending) {o : Read V E} (hpoint : s.points f = .done o) :
    ∃ s' p k, s.points p = .calls f k ∧ Awaits s p f ∧ go P left moved s f = some s' ∧
      Steps P left moved (fun g => g = f ∨ g = p) s s' ∧ Own s s' p ∧ s'.points p = .goes_on (k o) ∧
      (s'.tasks.frames p).pc = .running ∧ s'.root = s.root ∧ s'.points f = .done o := by
  obtain ⟨p, k, hp, hawaits⟩ := h.awaits hf hbody (by simp [hpc])
  obtain ⟨hpc', -, -⟩ := (h.sound p (hawaits.lt.trans hf)).of_calls hp
  obtain ⟨-, -, hresult⟩ := ((h.sound f hf).of_done hpoint).resolve_right (by simp [hpc, hbody])
  obtain ⟨frame, hrun⟩ : ∃ frame, Run (TaskStep left moved) s.tasks
    [.frame f .transfer_control, .frame p .resume, .call f .destruct] (transferred s f p frame) :=
      transferred_run hawaits hpc hpc'
  have hpf : p ≠ f := hawaits.lt.ne
  refine ⟨after_transfer s f p frame (k o), p, k, hp, hawaits, ?_, ⟨h.after_transfer hp hpoint, ⟨_, hrun⟩, .inl rfl,
    fun g hg _ => after_transfer_same hg, rfl⟩, ⟨transferred_objects hpf, rfl, rfl, rfl, ?_⟩, Function.update_self .., ?_, rfl,
    (Function.update_of_ne (Ne.symm hpf) ..).trans hpoint⟩
  · simp [go, hpc, hpoint, transfer_control, hawaits.who, hp, take_of_run hrun, hresult, System.goto, after_transfer]
  · simp [after_transfer, transferred_owner hpf, Frame.resume, Frame.access]
  · simp [after_transfer, transferred_owner hpf, Frame.resume, Frame.access]

/-- What a caller does with the frame `r` changes that frame, and its own handle. -/
theorem caller_cases {u t : State V E} {op : Op V E} (hop : OfCaller op) (hown : ∀ f, u.objects.Holds r f → f = r)
    (hstep : task.Step left moved u (caller_action r op) t) :
    t.created = u.created ∧ (∀ g, g ≠ r → t.frames g = u.frames g ∧ t.objects g = u.objects g) ∧
      (∀ f, t.objects.Holds r f → f = r) ∧ Moves .final_suspend (u.frames r) (t.frames r) := by
  have hrelease : (∀ g, g ≠ r → release u r op g = u.objects g) ∧ ∀ f, (release u r op).Holds r f → f = r := by
    unfold release
    split
    case h_4 => exact ⟨fun g _ => rfl, hown⟩
    all_goals exact ⟨fun g hg => Function.update_of_ne hg .., fun f hf => absurd rfl (Objects.holds_drop.mp hf).1⟩
  obtain ⟨hallowed, hstep⟩ := hstep
  by_cases hof : op.OfTask
  · rw [caller_action, if_pos hof] at hallowed hstep
    obtain ⟨-, hallows, -⟩ := hallowed
    simp only [task.step, if_pos hof] at hstep
    split at hstep
    case h_1 f hf =>
      obtain rfl := hown f hf
      obtain ⟨frame, hframe, rfl⟩ := Option.map_eq_some_iff.mp hstep
      refine ⟨rfl, fun g hg => ⟨Function.update_of_ne hg .., hrelease.1 g hg⟩, hrelease.2, ?_⟩
      simpa [Owned.put] using moves_of_caller hop (hallows f hf) hframe
    case h_2 =>
      cases hstep
      exact ⟨rfl, fun g hg => ⟨rfl, hrelease.1 g hg⟩, hrelease.2, .stays rfl rfl⟩
  · rw [caller_action, if_neg hof] at hallowed hstep
    simp only [task.step, Option.ite_none_right_eq_some, Option.map_eq_some_iff] at hstep
    obtain ⟨-, frame, hframe, rfl⟩ := hstep
    refine ⟨rfl, fun g hg => ⟨Function.update_of_ne hg .., rfl⟩, hown, ?_⟩
    simpa [Owned.put] using moves_of_caller hop hallowed hframe

/-- A coroutine that no other one awaits is where it was, started, ended or given up. -/
theorem Inv.of_moves (h : Inv P left s) (hr : s.bodies r ≠ none) {t : State V E} (hcreated : t.created = s.tasks.created)
    (hsame : ∀ g, g ≠ r → t.frames g = s.tasks.frames g ∧ t.objects g = s.tasks.objects g)
    (hobject : ∀ f, t.objects.Holds r f → f = r) {last : Pc} (hlast : last = .ending ∨ last = .final_suspend)
    (hmoves : Moves last (s.tasks.frames r) (t.frames r)) : Inv P left { s with tasks := t } := by
  obtain ⟨c, hc⟩ := Option.ne_none_iff_exists'.mp hr
  obtain ⟨hlt, -, -⟩ := h.body r c hc
  have hothers : ∀ g, g ≠ r → Same s { s with tasks := t } g :=
    fun g hg => ⟨(hsame g hg).1, (hsame g hg).2, rfl, rfl, rfl, rfl⟩
  apply h.one hlt hcreated hothers hobject rfl rfl rfl (fun hnone => absurd hnone hr) (fun hnone => absurd hnone hr)
    (fun g k hg => ⟨k, hg⟩) _ h.result
  have hsound := h.sound r hlt
  cases hpoint : s.points r with
  | goes_on c =>
    obtain ⟨hpc, hpromise⟩ := hsound.of_goes_on hpoint
    simp only [Sound, hpoint]
    cases hmoves with
    | stays hpc' hpromise' => rw [hpc', hpromise']; exact ⟨hpc, hpromise⟩
    | begins hinitial hpc' hpromise' => exact ⟨hpc'.imp_right fun hpc' => ⟨hr, .inr hpc'⟩, hpromise'.trans hpromise⟩
    | ended hfinal hpc' =>
      rw [hfinal] at hpc
      obtain rfl | rfl := hlast <;> simp at hpc
  | asks a k =>
    obtain ⟨hpc, hpromise⟩ := hsound.of_asks hpoint
    simp only [Sound, hpoint]
    cases hmoves with
    | stays hpc' hpromise' => rw [hpc', hpromise']; exact ⟨hpc, hpromise⟩
    | begins hinitial hpc' hpromise' => cases hpc.symm.trans hinitial
    | ended hfinal hpc' =>
      rw [hfinal] at hpc
      obtain rfl | rfl := hlast <;> cases hpc
  | calls g k =>
    obtain ⟨hpc, hpromise, hawaits⟩ := hsound.of_calls hpoint
    simp only [Sound, hpoint]
    cases hmoves with
    | stays hpc' hpromise' =>
      rw [hpc', hpromise']
      exact ⟨hpc, hpromise, hawaits.congr (hothers g hawaits.lt.ne') rfl hcreated.ge⟩
    | begins hinitial hpc' hpromise' => cases hpc.symm.trans hinitial
    | ended hfinal hpc' =>
      rw [hfinal] at hpc
      obtain rfl | rfl := hlast <;> cases hpc
  | done o =>
    have hdone := hsound.of_done hpoint
    simp only [Sound, hpoint]
    cases hmoves with
    | stays hpc' hpromise' => rw [hpc', hpromise']; exact hdone
    | begins hinitial hpc' hpromise' => simp [hinitial] at hdone
    | ended hfinal hpc' => exact .inr (hpc'.imp_left fun hpc' => ⟨hr, hpc'⟩)

/-- A coroutine that no other one of these called transfers control. -/
theorem go_transfer_root (moved : V → V) (h : Inv P left s) (hr : s.bodies r ≠ none) (hpc : (s.tasks.frames r).pc = .ending)
    {o : Read V E} (hpoint : s.points r = .done o) :
    ∃ s', go P left moved s r = some s' ∧ Steps P left moved (fun g => g = r) s s' ∧ s'.root r = s.root r ∧
      s'.points r = .done o := by
  obtain ⟨c, hc⟩ := Option.ne_none_iff_exists'.mp hr
  obtain ⟨hlt, -, hwho⟩ := h.body r c hc
  have hrun : Run (TaskStep left moved) s.tasks [.frame r .transfer_control]
      (s.tasks.put r ((s.tasks.frames r).transfer_control left moved)) :=
    .cons (.frame hlt id trivial trivial (if_pos hpc)) (.nil _)
  have hends : ((s.tasks.frames r).transfer_control left moved).pc = .final_suspend ∨
      ((s.tasks.frames r).transfer_control left moved).pc = .destroyed := by
    unfold Frame.transfer_control
    split <;> simp [Frame.destroy, Frame.read, Frame.access]
  have hgo : go P left moved s r =
      some { s with tasks := s.tasks.put r ((s.tasks.frames r).transfer_control left moved) } := by
    simp only [go, hpc, hpoint, transfer_control, hwho, take_of_run hrun]
  have hsame : ∀ g, g ≠ r → Same s { s with tasks := s.tasks.put r ((s.tasks.frames r).transfer_control left moved) } g :=
    fun g hg => ⟨Function.update_of_ne hg .., rfl, rfl, rfl, rfl, rfl⟩
  refine ⟨_, hgo, ⟨?_, ⟨_, hrun⟩, .inl rfl, fun g hg _ => hsame g hg, rfl⟩, rfl, hpoint⟩
  refine h.of_moves hr rfl (fun g hg => ⟨Function.update_of_ne hg .., rfl⟩) (h.own r) (.inl rfl) ?_
  exact .ended hpc (by simpa [Owned.put] using hends)

/-- A coroutine is resumed with the answer to what it awaited. -/
theorem resume_spec (moved : V → V) (h : Inv P left s) (hf : f < s.tasks.created) {a : A} {k : R → C}
    (hpoint : s.points f = .asks a k) (x : R) :
    ∃ s', step P left moved s (.resume f x) = some s' ∧ Inv P left s' ∧
      (∃ as, Run (TaskStep left moved) s.tasks as s'.tasks) ∧ (∀ g, g ≠ f → Same s s' g) ∧ Own s s' f ∧
      s'.tasks.created = s.tasks.created ∧ s'.points f = .goes_on (k x) ∧ (s'.tasks.frames f).pc = .running ∧
      s'.trace = Function.update s.trace (s.root f) (s.trace (s.root f) ++ [(a, x)]) := by
  obtain ⟨hpc, hpromise⟩ := (h.sound f hf).of_asks hpoint
  have hrun : Run (TaskStep left moved) s.tasks [.frame f .resume] (s.tasks.put f (s.tasks.frames f).resume) :=
    .cons (.frame hf id trivial trivial (if_pos hpc)) (.nil _)
  let s' : System C V E A R := { s.put f (s.tasks.frames f).resume (.goes_on (k x)) with
    trace := Function.update s.trace (s.root f) (s.trace (s.root f) ++ [(a, x)]) }
  have hself : s'.tasks.frames f = (s.tasks.frames f).resume := Function.update_self ..
  have hgoes : s'.points f = .goes_on (k x) := Function.update_self ..
  have hsame : ∀ g, g ≠ f → Same s s' g :=
    fun g hg => ⟨Function.update_of_ne hg .., rfl, Function.update_of_ne hg .., rfl, rfl, rfl⟩
  refine ⟨s', ?_, ?_, ⟨_, hrun⟩, hsame, ⟨rfl, rfl, rfl, rfl, by rw [hself]; rfl⟩, rfl, hgoes, by rw [hself]; rfl, rfl⟩
  · simp [step, hpoint, take_of_run hrun, s', System.put, System.goto]
  · apply h.one hf (by rfl) hsame
    · exact fun g hg => h.own f g hg
    · rfl
    · rfl
    · rfl
    · simp [hpc]
    · rw [hself]
      exact fun _ => ⟨rfl, .inl rfl, rfl⟩
    · simp [hpoint]
    · simp only [Sound, hgoes, hself]
      exact ⟨.inl rfl, hpromise x⟩
    · intro r c hr t o hrest
      obtain ⟨hr', hroot, -⟩ := h.body r c hr
      obtain ⟨hwithin, -⟩ := h.within_root hf (.inr (by simp [hpc]))
      by_cases heq : s.root f = r
      · subst heq
        have htrace : s'.trace (s.root f) = s.trace (s.root f) ++ [(a, x)] := Function.update_self ..
        rw [htrace, List.append_assoc]
        exact h.result _ c hr _ o (hrest.of_answer hpoint hwithin)
      · have htrace : s'.trace r = s.trace r := Function.update_of_ne (Ne.symm heq) ..
        rw [htrace]
        refine h.result r c hr t o (hrest.of_elsewhere (P := fun g => s.root g = r) ?_ heq hroot)
        intro g g' k' hg hcalls
        rw [((h.sound g (h.calling g g' k' hcalls)).of_calls hcalls).2.2.root, hg]

/-- A coroutine is called by a caller. -/
theorem spawn_spec (moved : V → V) (h : Inv P left s) (c : C) :
    ∃ s', step P left moved s (.spawn c) = some s' ∧ Inv P left s' ∧
      (∃ as, Run (TaskStep left moved) s.tasks as s'.tasks) ∧ (∀ g, g ≠ s.tasks.created → Same s s' g) ∧
      s'.tasks.created = s.tasks.created + 1 ∧ s'.points s.tasks.created = .goes_on c ∧
      s'.root s.tasks.created = s.tasks.created ∧ (s'.tasks.frames s.tasks.created).pc = .initial_suspend := by
  have hrun : Run (TaskStep left moved) s.tasks [.create s.tasks.created (P.spec c)]
      (s.tasks.start s.tasks.created (Frame.construct (P.spec c))) := .cons (.create (h.fresh _ le_rfl) _) (.nil _)
  let s' : System C V E A R :=
    { s with
      tasks := s.tasks.start s.tasks.created (Frame.construct (P.spec c))
      points := Function.update s.points s.tasks.created (.goes_on c)
      who := Function.update s.who s.tasks.created none
      root := Function.update s.root s.tasks.created s.tasks.created
      bodies := Function.update s.bodies s.tasks.created (some c)
      trace := Function.update s.trace s.tasks.created [] }
  have hself : s'.tasks.frames s.tasks.created = Frame.construct (P.spec c) := Function.update_self ..
  have hgoes : s'.points s.tasks.created = .goes_on c := Function.update_self ..
  have hbody : s'.bodies s.tasks.created = some c := Function.update_self ..
  have hsame : ∀ g, g ≠ s.tasks.created → Same s s' g := by
    intro g hg
    exact ⟨Function.update_of_ne hg .., Function.update_of_ne hg .., Function.update_of_ne hg .., Function.update_of_ne hg ..,
      Function.update_of_ne hg .., Function.update_of_ne hg ..⟩
  refine ⟨s', by simp [step, take_of_run hrun, s'], ?_, ⟨_, hrun⟩, hsame, rfl, hgoes, Function.update_self .., by
    rw [hself]; rfl⟩
  apply h.update (fun g => g = s.tasks.created) hsame
  · exact Nat.le_succ _
  · rintro g rfl
    exact Nat.lt_succ_self _
  · exact fun g hg hnot => Nat.lt_of_le_of_ne (Nat.le_of_lt_succ hg) hnot
  · rintro g f rfl hf
    have hgive : (s.tasks.objects.give s.tasks.created s.tasks.created).Holds s.tasks.created f := hf
    rw [Objects.holds_give, if_pos rfl] at hgive
    exact hgive.symm
  · rintro g rfl
    simp only [Sound, hgoes, hself, hbody]
    exact ⟨.inr ⟨by simp, .inl rfl⟩, rfl⟩
  · rintro g rfl
    exact .inl (by simp [hbody])
  · rintro p g - rfl hawaits
    exact absurd hawaits.created (lt_irrefl _)
  · rintro p g k rfl - hcalls
    exact absurd (h.calling _ g k hcalls) (lt_irrefl _)
  · rintro r c' rfl -
    exact ⟨Function.update_self .., Function.update_self ..⟩
  · intro r c' hr t o hrest
    by_cases heq : r = s.tasks.created
    · subst heq
      cases hbody.symm.trans hr
      have htrace : s'.trace s.tasks.created = [] := Function.update_self ..
      rw [htrace]
      exact (Rest.goes_on_iff hgoes).mp hrest
    · have htrace : s'.trace r = s.trace r := Function.update_of_ne heq ..
      rw [htrace]
      refine h.result r c' ((Function.update_of_ne heq ..).symm.trans hr) t o
        (hrest.of_elsewhere (P := fun g => g ≠ s.tasks.created) ?_ (fun hne => hne rfl) heq)
      rintro g _ k - hg rfl
      exact h.not_calls_created g k hg

/-- A coroutine that goes on can do so, and keeps what is known. -/
theorem go_spec (moved : V → V) (h : Inv P left s) (hf : f < s.tasks.created)
    (hpc : (s.tasks.frames f).pc = .running ∨ (s.tasks.frames f).pc = .ending) :
    ∃ s', go P left moved s f = some s' ∧ Inv P left s' ∧ ∃ as, Run (TaskStep left moved) s.tasks as s'.tasks := by
  have hsound := h.sound f hf
  cases hpoint : s.points f with
  | goes_on c =>
    have hrunning : (s.tasks.frames f).pc = .running := by
      obtain ⟨hpc', -⟩ := hsound.of_goes_on hpoint
      obtain hpc | hpc := hpc
      · exact hpc
      · simp [hpc] at hpc'
    cases hc : P.function c with
    | returns o =>
      obtain ⟨s', hgo, hsteps, -⟩ := go_ends moved h hf hrunning hpoint hc
      exact ⟨s', hgo, hsteps.inv, hsteps.run⟩
    | calls c' k =>
      obtain ⟨s', hgo, hsteps, -⟩ := go_co_await moved h hf hrunning hpoint hc
      exact ⟨s', hgo, hsteps.inv, hsteps.run⟩
    | asks a k =>
      obtain ⟨s', hgo, hsteps, -⟩ := go_asks moved h hf hrunning hpoint hc
      exact ⟨s', hgo, hsteps.inv, hsteps.run⟩
  | asks a k =>
    obtain ⟨hsuspended, -⟩ := hsound.of_asks hpoint
    simp [hsuspended] at hpc
  | calls g k =>
    obtain ⟨hsuspended, -⟩ := hsound.of_calls hpoint
    simp [hsuspended] at hpc
  | done o =>
    obtain hpc | hpc := hpc
    · obtain ⟨s', hgo, hsteps, -⟩ := go_final_suspend moved h hf hpc hpoint
      exact ⟨s', hgo, hsteps.inv, hsteps.run⟩
    · by_cases hbody : s.bodies f = none
      · obtain ⟨s', p, k, -, -, hgo, hsteps, -⟩ := go_transfer moved h hf hbody hpc hpoint
        exact ⟨s', hgo, hsteps.inv, hsteps.run⟩
      · obtain ⟨s', hgo, hsteps, -⟩ := go_transfer_root moved h hbody hpc hpoint
        exact ⟨s', hgo, hsteps.inv, hsteps.run⟩

theorem pc_of_go (hgo : go P left moved s f = some s') :
    (s.tasks.frames f).pc = .running ∨ (s.tasks.frames f).pc = .ending := by
  unfold go at hgo
  split at hgo
  case h_1 hpc _ => exact .inl hpc
  case h_2 hpc _ => exact .inl hpc
  case h_3 hpc _ => exact .inr hpc
  case h_4 => cases hgo

/-- What a coroutine does that goes on: its body ends, asks or calls, it comes to its final
suspend point, or transfers control, to the coroutine that called it or to another one. -/
inductive GoStep (P : Program C V E A R) (left : E → Option E) (moved : V → V) (s s' : System C V E A R) (f : Nat) : Prop
  | ends {c : C} {o : Read V E} (hpc : (s.tasks.frames f).pc = .running) (hpoint : s.points f = .goes_on c)
      (hc : P.function c = .returns o) (hsteps : Steps P left moved (fun g => g = f) s s') (hown : Own s s' f)
      (hpoint' : s'.points f = .done o)
  | asks {c : C} {a : A} {k : R → C} (hpc : (s.tasks.frames f).pc = .running) (hpoint : s.points f = .goes_on c)
      (hc : P.command c = .await a k) (hsteps : Steps P left moved (fun g => g = f) s s') (hown : Own s s' f)
      (hpoint' : s'.points f = .asks a k)
  | co_awaits {c c' : C} {kind : Awaited} {k : Option (Read V E) → C} {k' : Read V E → C}
      (hpc : (s.tasks.frames f).pc = .running) (hpoint : s.points f = .goes_on c) (hc : P.command c = .co_await c' kind k)
      (hsteps : Steps P left moved (fun g => g = f ∨ g = s.tasks.created) s s') (hown : Own s s' f)
      (hcreated : s'.tasks.created = s.tasks.created + 1) (hpoint' : s'.points f = .calls s.tasks.created k')
      (hchild : s'.points s.tasks.created = .goes_on c') (hpc' : (s'.tasks.frames s.tasks.created).pc = .running)
      (hawaits : Awaits s' f s.tasks.created)
  | final_suspend {o : Read V E} (hpc : (s.tasks.frames f).pc = .running) (hpoint : s.points f = .done o)
      (hsteps : Steps P left moved (fun g => g = f) s s') (hown : Own s s' f) (hpoint' : s'.points f = .done o)
  | transfers {p : Nat} {k : Read V E → C} {o : Read V E} (hpc : (s.tasks.frames f).pc = .ending)
      (hpoint : s.points f = .done o) (hp : s.points p = .calls f k) (hawaits : Awaits s p f)
      (hsteps : Steps P left moved (fun g => g = f ∨ g = p) s s') (hpc' : (s'.tasks.frames p).pc = .running)
      (hgoes : s'.points p = .goes_on (k o)) (hroot : s'.root = s.root) (hpoint' : s'.points f = .done o)
  | leaves {o : Read V E} (hpc : (s.tasks.frames f).pc = .ending) (hpoint : s.points f = .done o)
      (hsteps : Steps P left moved (fun g => g = f) s s') (hroot : s'.root f = s.root f) (hpoint' : s'.points f = .done o)

theorem go_cases (h : Inv P left s) (hf : f < s.tasks.created) (hgo : go P left moved s f = some s') :
    GoStep P left moved s s' f := by
  have hsound := h.sound f hf
  have hgoes := pc_of_go hgo
  cases hpoint : s.points f with
  | goes_on c =>
    obtain ⟨hpc, -⟩ := hsound.of_goes_on hpoint
    have hrunning : (s.tasks.frames f).pc = .running := by
      obtain hgoes | hgoes := hgoes
      · exact hgoes
      · simp [hgoes] at hpc
    cases hc : P.function c with
    | returns o =>
      obtain ⟨s₁, hs₁, hsteps, hown, hpoint', -⟩ := go_ends moved h hf hrunning hpoint hc
      cases hs₁.symm.trans hgo
      exact .ends hrunning hpoint hc hsteps hown hpoint'
    | calls c' k =>
      obtain ⟨s₁, hs₁, hsteps, hown, hcreated, hcalls, hchild, hpc', hawaits⟩ := go_co_await moved h hf hrunning hpoint hc
      cases hs₁.symm.trans hgo
      obtain ⟨kind, k', hcommand⟩ : ∃ kind k', P.command c = .co_await c' kind k' := by
        unfold Program.function at hc
        cases hcommand : P.command c <;> simp [hcommand] at hc ⊢
        exact hc.1
      exact .co_awaits hrunning hpoint hcommand hsteps hown hcreated hcalls hchild hpc' hawaits
    | asks a k =>
      obtain ⟨s₁, hs₁, hsteps, hown, hpoint', -⟩ := go_asks moved h hf hrunning hpoint hc
      cases hs₁.symm.trans hgo
      have hcommand : P.command c = .await a k := by
        unfold Program.function at hc
        cases hcommand : P.command c <;> simp [hcommand] at hc ⊢
        exact hc
      exact .asks hrunning hpoint hcommand hsteps hown hpoint'
  | asks a k => simp [go, hpoint] at hgo
  | calls g k => simp [go, hpoint] at hgo
  | done o =>
    obtain hrunning | hending := hgoes
    · obtain ⟨s₁, hs₁, hsteps, hown, hpoints, -⟩ := go_final_suspend moved h hf hrunning hpoint
      cases hs₁.symm.trans hgo
      exact .final_suspend hrunning hpoint hsteps hown (by rw [hpoints, hpoint])
    · by_cases hbody : s.bodies f = none
      · obtain ⟨s₁, p, k, hp, hawaits, hs₁, hsteps, -, hgoes, hpc, hroot, hpoint'⟩ :=
          go_transfer moved h hf hbody hending hpoint
        cases hs₁.symm.trans hgo
        exact .transfers hending hpoint hp hawaits hsteps hpc hgoes hroot hpoint'
      · obtain ⟨s₁, hs₁, hsteps, hroot, hpoint'⟩ := go_transfer_root moved h hbody hending hpoint
        cases hs₁.symm.trans hgo
        exact .leaves hending hpoint hsteps hroot hpoint'

/-- Every step keeps what is known, and is a step of the tasks whose preconditions hold. -/
theorem step_kept (h : Inv P left s) (hstep : Step P left moved s a s') :
    Inv P left s' ∧ ∃ as, Run (TaskStep left moved) s.tasks as s'.tasks := by
  obtain ⟨hallowed, hstep⟩ := hstep
  cases a with
  | spawn c =>
    obtain ⟨s₁, hs₁, hinv, hrun, -⟩ := spawn_spec moved h c
    cases hs₁.symm.trans hstep
    exact ⟨hinv, hrun⟩
  | caller r op =>
    obtain ⟨⟨hr, hop⟩, htake⟩ := Option.ite_none_right_eq_some.mp hstep
    obtain ⟨t, ht, rfl⟩ := Option.map_eq_some_iff.mp htake
    have ht' : task.step left moved s.tasks (caller_action r op) = some t := by simpa using ht
    have hignored : Meets Ignored s.tasks (caller_action r op) := by
      have hop' : ∀ frame : Frame V E, Ignored frame op := by
        intro frame
        cases op with
        | unhandled_exception e rethrows => exact absurd hop id
        | _ => trivial
      unfold caller_action
      split
      · exact fun f _ => hop' _
      · exact hop' _
    obtain ⟨hcreated, hsame, hobject, hmoves⟩ := caller_cases hop (h.own r) ⟨hallowed, ht'⟩
    exact ⟨h.of_moves hr hcreated hsame hobject (.inr rfl) hmoves, _, .cons ⟨⟨hallowed, ht'⟩, hignored⟩ (.nil _)⟩
  | resume f x =>
    cases hpoint : s.points f with
    | asks a k =>
      obtain ⟨s₁, hs₁, hinv, hrun, -⟩ := resume_spec moved h hallowed hpoint x
      cases hs₁.symm.trans hstep
      exact ⟨hinv, hrun⟩
    | goes_on c | calls g k | done o => simp [step, hpoint] at hstep
  | go f =>
    obtain ⟨s₁, hs₁, hkept⟩ := go_spec moved h hallowed (pc_of_go hstep)
    cases hs₁.symm.trans hstep
    exact hkept

theorem construct_inv : Inv P left (construct : System C V E A R) where
  fresh _ _ := rfl
  own _ _ hf := by cases hf
  sound _ hf := absurd hf (Nat.not_lt_zero _)
  alive _ hf := absurd hf (Nat.not_lt_zero _)
  calling _ _ _ hf := by cases hf
  body _ _ hr := by cases hr
  result _ _ hr := by cases hr

theorem inv_of_run {as : List (Action C V E R)} (hrun : Run (Step P left moved) construct as s) :
    Inv P left s ∧ ∃ bs, Run (TaskStep left moved) (task.construct V E) bs s.tasks := by
  refine hrun.invariant (fun s => Inv P left s ∧ ∃ bs, Run (TaskStep left moved) (task.construct V E) bs s.tasks) ?_
    ⟨construct_inv, [], .nil _⟩
  rintro s a s' ⟨h, bs, hbs⟩ hstep
  obtain ⟨h', cs, hcs⟩ := step_kept h hstep
  exact ⟨h', bs ++ cs, hbs.append hcs⟩

end kelcoro.task.calls
