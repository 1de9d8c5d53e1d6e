import Kelcoro.ReturnBlock.Model
import Mathlib

namespace kelcoro.return_block

open kelcoro.lib

variable {V E C : Type}

/-- What a sequence of calls on a finished coroutine reports. -/
def calls (call : ReturnBlock V E → C → Option (Read V E) × ReturnBlock V E) : List C → ReturnBlock V E → List (Read V E)
  | [], _ => []
  | c :: cs, b =>
    match call b c with
    | (some read, b) => read :: calls call cs b
    | (none, b) => calls call cs b

/-- What was reported is what the coroutine completed with. -/
def Reports (completed : Option E) (reads : List (Read V E)) : Prop :=
  match completed with
  | none => ∀ read ∈ reads, ∃ v, read = .returned v
  | some e => ∀ read ∈ reads, read = .threw e

namespace ReturnBlock

/-- The block has a value, or is of a `void` coroutine without an exception. -/
def Valued (b : ReturnBlock V E) : Prop := b.has_exception = false ∧ ∃ v, b.result = some v

/-- The block has the exception `e`. -/
def Raised (e : E) : ReturnBlock V E → Prop
  | .object data => data = .EX e
  | .reference _ ex => ex = some e
  | .void ex => ex = some e

variable {b b' : ReturnBlock V E} {e : E} {left : E → Option E} {moved : V → V} {how : Return V E}

theorem set_exception_raised (h : b.set_exception e = some b') :
    b'.Raised e ∧ b'.specialization = b.specialization := by
  cases b with
  | object data =>
    cases data with
    | EX e' => cases h
    | EMPTY | VAL v =>
      cases h
      exact ⟨rfl, rfl⟩
  | reference storage ex | void ex =>
    cases h
    exact ⟨rfl, rfl⟩

theorem return_place_keeps {v : Option V} (h : b.return_place v = some b') (hb : b.has_exception = false) :
    b'.has_exception = false ∧ b'.specialization = b.specialization := by
  cases b with
  | object data =>
    cases data with
    | EMPTY =>
      obtain ⟨w, -, rfl⟩ := Option.map_eq_some_iff.mp h
      exact ⟨rfl, rfl⟩
    | VAL w | EX e' => cases h
  | reference storage ex | void ex =>
    cases h
    exact ⟨hb, rfl⟩

/-- A `co_return` of anything but an exception leaves a value. -/
theorem return_value_valued (h : b.return_value how = some b') (hb : b.has_exception = false)
    (hhow : ∀ e, how ≠ .return_exception e) : b'.Valued ∧ b'.specialization = b.specialization := by
  cases how with
  | value v =>
    cases b with
    | object data =>
      cases data with
      | EMPTY =>
        cases h
        exact ⟨⟨rfl, some v, rfl⟩, rfl⟩
      | VAL w | EX e => cases h
    | reference storage ex =>
      cases storage with
      | none =>
        cases h
        exact ⟨⟨hb, some v, rfl⟩, rfl⟩
      | some w => cases h
    | void ex => cases h
  | rvo =>
    cases b with
    | object data =>
      cases data with
      | EMPTY => cases h
      | VAL w =>
        cases h
        exact ⟨⟨rfl, some w, rfl⟩, rfl⟩
      | EX e => cases hb
    | reference storage ex =>
      cases storage with
      | none => cases h
      | some w =>
        cases h
        exact ⟨⟨hb, some w, rfl⟩, rfl⟩
    | void ex => cases h
  | return_exception e => exact absurd rfl (hhow e)
  | void =>
    cases b with
    | object data => cases data <;> cases h
    | reference storage ex => cases storage <;> cases h
    | void ex =>
      cases h
      exact ⟨⟨hb, none, rfl⟩, rfl⟩

theorem return_exception_raised (h : b.return_value (.return_exception e) = some b') :
    b'.Raised e ∧ b'.specialization = b.specialization := by
  cases b with
  | object data => exact set_exception_raised h
  | reference storage ex => exact set_exception_raised h
  | void ex => cases h

theorem Valued.move_result (h : b.Valued) : (b.move_result moved).Valued := by
  obtain ⟨hex, v, hresult⟩ := h
  cases b with
  | object data =>
    cases data with
    | EMPTY => cases hresult
    | VAL w => exact ⟨rfl, some (moved w), rfl⟩
    | EX e => cases hex
  | reference storage ex | void ex => exact ⟨hex, v, hresult⟩

theorem Valued.read (left : E → Option E) (h : b.Valued) :
    ∃ v, task.result_or_rethrow left b = (.returned v, b) := by
  obtain ⟨hex, v, hresult⟩ := h
  exact ⟨v, by simp [task.result_or_rethrow, hex, hresult]⟩

/-- The exception is thrown, and stays in the block when it is not of an object and
moving an `exception_ptr` leaves it. -/
theorem Raised.read (left : E → Option E) (moved : V → V) (h : b.Raised e) : ∃ b', task.result_or_rethrow left b = (.threw e, b') ∧
    b'.move_result moved = b' ∧
    (b.specialization ≠ .object ∧ left e = some e → b'.Raised e ∧ b'.specialization = b.specialization) ∧
    (¬ (b.specialization ≠ .object ∧ left e = some e) → (task.result_or_rethrow left b').1 ≠ .threw e) := by
  cases b with
  | object data =>
    cases h
    exact ⟨.object .EMPTY, rfl, rfl, fun hkeeps => absurd rfl hkeeps.1, fun _ => nofun⟩
  | reference storage ex =>
    cases h
    refine ⟨.reference storage (left e), rfl, rfl, fun hkeeps => ⟨hkeeps.2, rfl⟩, fun hlost hread => ?_⟩
    apply hlost
    refine ⟨by simp [specialization], ?_⟩
    cases hleft : left e with
    | none => cases storage <;> simp [task.result_or_rethrow, has_exception, result, hleft] at hread
    | some e' => simpa [task.result_or_rethrow, has_exception, take_exception, hleft] using hread
  | void ex =>
    cases h
    refine ⟨.void (left e), rfl, rfl, fun hkeeps => ⟨hkeeps.2, rfl⟩, fun hlost hread => ?_⟩
    apply hlost
    refine ⟨by simp [specialization], ?_⟩
    cases hleft : left e with
    | none => simp [task.result_or_rethrow, has_exception, result, hleft] at hread
    | some e' => simpa [task.result_or_rethrow, has_exception, take_exception, hleft] using hread

end ReturnBlock

namespace Promise

/-- The block has what the coroutine has completed with. -/
def Sound (spec : Specialization) (p : Promise V E) : Prop :=
  p.block.specialization = spec ∧
    match p.completed with
    | none => p.block.has_exception = false
    | some none => p.block.Valued
    | some (some e) => p.block.Raised e

variable {spec : Specialization} {p p' : Promise V E} {u : Use V E}

theorem construct_sound : (Promise.construct spec : Promise V E).Sound spec := by
  cases spec <;> exact ⟨rfl, rfl⟩

theorem Sound.use (h : p.Sound spec) (hstep : p.use u = some p') : p'.Sound spec := by
  obtain ⟨hspec, hblock⟩ := h
  cases u with
  | return_place v =>
    simp only [Promise.use, Option.ite_none_right_eq_some, Option.map_eq_some_iff] at hstep
    obtain ⟨hrunning, b, hb, rfl⟩ := hstep
    rw [hrunning] at hblock
    obtain ⟨hex, hsame⟩ := ReturnBlock.return_place_keeps hb hblock
    refine ⟨hsame.trans hspec, ?_⟩
    show match p.completed with | none => _ | some none => _ | some (some e) => _
    rw [hrunning]
    exact hex
  | co_return how =>
    simp only [Promise.use, Option.ite_none_right_eq_some, Option.map_eq_some_iff] at hstep
    obtain ⟨hrunning, b, hb, rfl⟩ := hstep
    rw [hrunning] at hblock
    cases how with
    | return_exception e =>
      obtain ⟨hraised, hsame⟩ := ReturnBlock.return_exception_raised hb
      exact ⟨hsame.trans hspec, hraised⟩
    | value v =>
      obtain ⟨hvalued, hsame⟩ := ReturnBlock.return_value_valued hb hblock (by simp)
      exact ⟨hsame.trans hspec, hvalued⟩
    | rvo =>
      obtain ⟨hvalued, hsame⟩ := ReturnBlock.return_value_valued hb hblock (by simp)
      exact ⟨hsame.trans hspec, hvalued⟩
    | void =>
      obtain ⟨hvalued, hsame⟩ := ReturnBlock.return_value_valued hb hblock (by simp)
      exact ⟨hsame.trans hspec, hvalued⟩
  | throw e =>
    obtain ⟨b, hb, rfl⟩ := Option.map_eq_some_iff.mp hstep
    obtain ⟨hraised, hsame⟩ := ReturnBlock.set_exception_raised hb
    exact ⟨hsame.trans hspec, hraised⟩

end Promise

/-- A call returns the result of the block, if it returns one. -/
structure Reader (left : E → Option E) (moved : V → V) (reads : C → Bool)
    (call : ReturnBlock V E → C → Option (Read V E) × ReturnBlock V E) : Prop where
  silent : ∀ b c, reads c = false → call b c = (none, b)
  reads : ∀ b c, reads c = true → ∃ b', (call b c) = (some (task.result_or_rethrow left b).1, b') ∧
    (b' = (task.result_or_rethrow left b).2 ∨ b' = (task.result_or_rethrow left b).2.move_result moved)

namespace Reader

variable {left : E → Option E} {moved : V → V} {reads : C → Bool}
  {call : ReturnBlock V E → C → Option (Read V E) × ReturnBlock V E} {b : ReturnBlock V E} {e : E} {cs : List C} {c : C}

theorem calls_silent (h : Reader left moved reads call) (hc : reads c = false) :
    calls call (c :: cs) b = calls call cs b := by
  rw [calls, h.silent b c hc]

theorem calls_reads (cs : List C) (b : ReturnBlock V E) (h : Reader left moved reads call) (hc : reads c = true) :
    ∃ b', calls call (c :: cs) b = (task.result_or_rethrow left b).1 :: calls call cs b' ∧
      (b' = (task.result_or_rethrow left b).2 ∨ b' = (task.result_or_rethrow left b).2.move_result moved) := by
  obtain ⟨b', hcall, hb'⟩ := h.reads b c hc
  exact ⟨b', by rw [calls, hcall], hb'⟩

theorem valued (h : Reader left moved reads call) (hb : b.Valued) : Reports none (calls call cs b) := by
  induction cs generalizing b with
  | nil => simp [calls, Reports]
  | cons c cs ih =>
    cases hc : reads c with
    | false =>
      rw [h.calls_silent hc]
      exact ih hb
    | true =>
      obtain ⟨b', hcalls, hb'⟩ := h.calls_reads cs b hc
      obtain ⟨v, hread⟩ := hb.read left
      rw [hread] at hb' hcalls
      have hvalued : b'.Valued := by
        rcases hb' with rfl | rfl
        · exact hb
        · exact hb.move_result
      rw [hcalls]
      exact List.forall_mem_cons.mpr ⟨⟨v, rfl⟩, ih hvalued⟩

theorem kept (h : Reader left moved reads call) (hb : b.Raised e)
    (hkeeps : b.specialization ≠ .object ∧ left e = some e) : Reports (some e) (calls call cs b) := by
  induction cs generalizing b with
  | nil => simp [calls, Reports]
  | cons c cs ih =>
    cases hc : reads c with
    | false =>
      rw [h.calls_silent hc]
      exact ih hb hkeeps
    | true =>
      obtain ⟨b', hcalls, hb'⟩ := h.calls_reads cs b hc
      obtain ⟨b₁, hread, hmoved, hkept, -⟩ := hb.read left moved
      rw [hread] at hb' hcalls
      have heq : b' = b₁ := by
        rcases hb' with rfl | rfl
        · rfl
        · exact hmoved
      subst heq
      obtain ⟨hraised, hspec⟩ := hkept hkeeps
      rw [hcalls]
      exact List.forall_mem_cons.mpr ⟨rfl, ih hraised (by rwa [hspec])⟩

theorem length_calls (h : Reader left moved reads call) : (calls call cs b).length = (cs.filter reads).length := by
  induction cs generalizing b with
  | nil => rfl
  | cons c cs ih =>
    cases hc : reads c with
    | false =>
      rw [h.calls_silent hc, ih]
      simp [hc]
    | true =>
      obtain ⟨b', hcalls, -⟩ := h.calls_reads cs b hc
      rw [hcalls, List.length_cons, ih]
      simp [hc]

theorem calls_head (h : Reader left moved reads call) {read : Read V E} {later : List (Read V E)}
    (hcalls : calls call cs b = read :: later) : read = (task.result_or_rethrow left b).1 := by
  induction cs with
  | nil => cases hcalls
  | cons c cs ih =>
    cases hc : reads c with
    | false =>
      rw [h.calls_silent hc] at hcalls
      exact ih hcalls
    | true =>
      obtain ⟨b', hfirst, -⟩ := h.calls_reads cs b hc
      exact (List.cons.inj (hfirst.symm.trans hcalls)).1.symm

/-- An exception that does not stay in the block is thrown by the first call only. -/
theorem reports_raised_iff (h : Reader left moved reads call) (hb : b.Raised e) :
    Reports (some e) (calls call cs b) ↔
      (cs.filter reads).length ≤ 1 ∨ b.specialization ≠ .object ∧ left e = some e := by
  by_cases hkeeps : b.specialization ≠ .object ∧ left e = some e
  · exact ⟨fun _ => Or.inr hkeeps, fun _ => h.kept hb hkeeps⟩
  rw [or_iff_left hkeeps]
  induction cs with
  | nil => simp [calls, Reports]
  | cons c cs ih =>
    cases hc : reads c with
    | false =>
      rw [h.calls_silent hc, ih]
      simp [hc]
    | true =>
      obtain ⟨b', hcalls, hb'⟩ := h.calls_reads cs b hc
      obtain ⟨b₁, hread, hmoved, -, hlost⟩ := hb.read left moved
      rw [hread] at hb' hcalls
      have heq : b' = b₁ := by
        rcases hb' with rfl | rfl
        · rfl
        · exact hmoved
      subst heq
      have hfilter : ((c :: cs).filter reads).length ≤ 1 ↔ (cs.filter reads).length = 0 := by
        simp [hc]
      rw [hcalls, hfilter, ← h.length_calls (b := b')]
      refine ⟨fun hreports => ?_, fun hlength => ?_⟩
      · -- a second call would report something else
        by_contra hne
        obtain ⟨read, reads', hsecond⟩ := List.exists_cons_of_length_pos (Nat.pos_of_ne_zero hne)
        have hall := (List.forall_mem_cons.mp hreports).2
        rw [hsecond] at hall
        have hfirst : read = .threw e := hall read (by simp)
        exact hlost hkeeps ((h.calls_head hsecond).symm.trans hfirst)
      · rw [List.length_eq_zero_iff.mp hlength]
        simp [Reports]

end Reader

theorem task_reader (left : E → Option E) (moved : V → V) :
    Reader left moved task.Call.reads (task.call left moved) := by
  refine ⟨fun b c hc => ?_, fun b c hc => ?_⟩
  · cases c with
    | wait => rfl
    | co_await_ref | co_await_value | get => cases hc
  · cases c with
    | co_await_ref => exact ⟨_, rfl, Or.inl rfl⟩
    | co_await_value | get => exact ⟨_, rfl, Or.inr rfl⟩
    | wait => cases hc

theorem async_task_reader (left : E → Option E) (moved : V → V) :
    Reader left moved async_task.Call.reads (async_task.call_ready left moved) := by
  refine ⟨fun b c hc => ?_, fun b c hc => ?_⟩
  · cases c with
    | wait | ready => rfl
    | get_ref | get_value => cases hc
  · cases c with
    | get_ref => exact ⟨_, rfl, Or.inl rfl⟩
    | get_value => exact ⟨_, rfl, Or.inr rfl⟩
    | wait | ready => cases hc

variable {spec : Specialization} {promise : Promise V E} {completed : Option E}

theorem sound_of_run {uses : List (Use V E)}
    (hrun : Run (fun p u p' => Promise.use p u = some p') (Promise.construct spec) uses promise) :
    promise.Sound spec :=
  hrun.invariant (fun p => p.Sound spec) (fun _ _ _ h hstep => h.use hstep) Promise.construct_sound

theorem reader_reports_iff {uses : List (Use V E)}
    (hrun : Run (fun p u p' => Promise.use p u = some p') (Promise.construct spec) uses promise)
    (hcompleted : promise.completed = some completed) {left : E → Option E} {moved : V → V} {reads : C → Bool}
    {call : ReturnBlock V E → C → Option (Read V E) × ReturnBlock V E} (h : Reader left moved reads call)
    (cs : List C) :
    Reports completed (calls call cs promise.block) ↔ completed = none ∨ (cs.filter reads).length ≤ 1 ∨
      spec ≠ .object ∧ ∃ e, completed = some e ∧ left e = some e := by
  obtain ⟨hspec, hblock⟩ := sound_of_run hrun
  rw [hcompleted] at hblock
  cases completed with
  | none => exact ⟨fun _ => Or.inl rfl, fun _ => h.valued hblock⟩
  | some e =>
    rw [h.reports_raised_iff hblock, hspec]
    simp

/-- A coroutine of any result kind that has completed, and any calls on its `task` or
`async_task` after that: all of them report what the coroutine has completed with if
and only if that is a value, or at most one of them returns the result, or the result
is no object and moving from an `exception_ptr` leaves it as it was. -/
theorem outcome_is_reported_iff {uses : List (Use V E)}
    (hrun : Run (fun p u p' => Promise.use p u = some p') (Promise.construct spec) uses promise)
    (hcompleted : promise.completed = some completed) (left : E → Option E) (moved : V → V) :
    (∀ cs, Reports completed (calls (task.call left moved) cs promise.block) ↔
      completed = none ∨ (cs.filter task.Call.reads).length ≤ 1 ∨
        spec ≠ .object ∧ ∃ e, completed = some e ∧ left e = some e) ∧
      ∀ cs, Reports completed (calls (async_task.call_ready left moved) cs promise.block) ↔
        completed = none ∨ (cs.filter async_task.Call.reads).length ≤ 1 ∨
          spec ≠ .object ∧ ∃ e, completed = some e ∧ left e = some e :=
  ⟨reader_reports_iff hrun hcompleted (task_reader left moved),
    reader_reports_iff hrun hcompleted (async_task_reader left moved)⟩

/-- A body that throws, and one `get()`. -/
theorem outcome_is_reported_once : Reports (some "err") (calls (task.call (fun _ => none) id) [.wait, .get]
    (.object (.EX "err") : ReturnBlock Nat String)) := by
  have hrun : Run (fun p u p' => Promise.use p u = some p') (Promise.construct .object) [.throw "err"]
      (⟨.object (.EX "err"), some (some "err")⟩ : Promise Nat String) := .cons rfl (.nil _)
  exact ((outcome_is_reported_iff hrun rfl _ _).1 _).mpr (Or.inr (Or.inl (by decide)))

/-- The second `co_await` of a task that threw comes to `result()`. -/
theorem not_reported : ¬ ∀ (promise : Promise Nat String) (uses : List (Use Nat String)) (cs : List task.Call),
    Run (fun p u p' => Promise.use p u = some p') (Promise.construct .object) uses promise →
      ∀ completed, promise.completed = some completed →
        Reports completed (calls (task.call (fun _ => none) id) cs promise.block) := by
  intro hall
  have hreports := hall ⟨.object (.EX "err"), some (some "err")⟩ [.throw "err"] [.co_await_ref, .co_await_ref]
    (.cons rfl (.nil _)) (some "err") rfl
  have hsecond : (.undefined : Read Nat String) = .threw "err" := hreports .undefined (by decide)
  cases hsecond

end kelcoro.return_block
