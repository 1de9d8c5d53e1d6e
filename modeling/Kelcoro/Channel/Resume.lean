import Kelcoro.Channel.Levels

namespace kelcoro.channel

open kelcoro.generators_common kelcoro.lib Remaining Backlog

variable {V E : Type}

section delivery

variable {h : ChannelHeap V E} {N : Nat} {c : Receiver E} {own : Set FrameId} {i : Nat} {t w f : FrameId}
  {fs : List FrameId} {bs : List (Body V E)}

theorem Level.consumer_eq (hl : Level h N c own i t w fs bs) : consumer h w = some (.object i) := by
  obtain ⟨p, hp, hroot⟩ := hl.tree.root
  obtain ⟨pt, hpt, -, hlink⟩ := hl.tree.worker
  simp only [consumer, hp, Option.bind_eq_bind, Option.bind_some, hroot, hpt, hlink]

/-- The same for a worker that has just stopped. -/
theorem Level.consumer_put {p q : Frame V E (Channel V E)} (hl : Level h N c own i t w fs bs)
    (hp : h.frames w = some p) (hroot : q.root = p.root) (hlink : q.link = p.link) :
    consumer (h.put w q) w = some (.object i) := by
  obtain ⟨pw, hpw, hpwroot⟩ := hl.tree.root
  obtain rfl := Option.some.inj (hpw.symm.trans hp)
  obtain ⟨pt, hpt, -, hptlink⟩ := hl.tree.worker
  have hqt : ∃ qt, (h.put w q).frames t = some qt ∧ qt.link = .consumer (.object i) := by
    by_cases heq : t = w
    · subst heq
      obtain rfl := Option.some.inj (hpt.symm.trans hp)
      exact ⟨q, h.put_frames_self t q, hlink.trans hptlink⟩
    · exact ⟨pt, (h.put_frames_of_ne q heq).trans hpt, hptlink⟩
  obtain ⟨qt, hqt, hqtlink⟩ := hqt
  simp only [consumer, h.put_frames_self, Option.bind_eq_bind, Option.bind_some, hroot.trans hpwroot, hqt, hqtlink]

@[simp] theorem consumer_put_object (h : ChannelHeap V E) (j : Nat) (x : Channel V E) (f : FrameId) :
    consumer (h.put_object j x) f = consumer h f := rfl

theorem set_result_eq (hc : consumer h f = some (.object i)) (v : Option V) :
    set_result h f v = some (h.put_object i { h.objects i with current_result := v }) := by
  simp only [set_result, hc, Option.bind_eq_bind, Option.bind_some, Heap.object, Heap.set_object]

theorem set_exception_eq (hc : consumer h f = some (.object i)) (ex : Option E) :
    set_exception h f ex = some (h.put_object i { h.objects i with exception := ex }) := by
  simp only [set_exception, hc, Option.bind_eq_bind, Option.bind_some, Heap.object, Heap.set_object]

theorem consumer_handle_eq (hc : consumer h f = some (.object i)) :
    consumer_handle h f = (h.objects i).handle := by
  simp only [consumer_handle, hc, Option.bind_eq_bind, Option.bind_some, Heap.object]

theorem exception_eq (hc : consumer h f = some (.object i)) : exception h f = some (h.objects i).exception := by
  simp only [exception, hc, Option.bind_eq_bind, Option.bind_some, Heap.object]

theorem final_awaiter.await_suspend_top {p : Frame V E (Channel V E)} (hp : h.frames f = some p)
    (hroot : p.root = f) (hc : consumer h f = some (.object i)) (hhandle : (h.objects i).handle = some c.handle) :
    final_awaiter.await_suspend h f =
      some (h.put_object i { h.objects i with current_result := none }, c.handle) := by
  have hset := set_result_eq hc none
  have hhandle' : consumer_handle (h.put_object i { h.objects i with current_result := none }) f = some c.handle := by
    rw [consumer_handle_eq (show consumer (h.put_object i _) f = _ from hc), h.put_object_objects_self, hhandle]
  simp only [final_awaiter.await_suspend, hp, Option.bind_eq_bind, Option.bind_some, hroot, ne_eq,
    not_true_eq_false, ↓reduceIte, hset, hhandle']

theorem final_awaiter.await_suspend_leaf {h₁ : ChannelHeap V E} {o : FrameId} {p : Frame V E (Channel V E)}
    (hp : h.frames f = some p) (hroot : p.root ≠ f) (hskip : skip_this_leaf h f = some h₁)
    (howner : owner h₁ f = some o) : final_awaiter.await_suspend h f = some (h₁, .coroutine o) := by
  simp [final_awaiter.await_suspend, hp, hroot, hskip, howner]

/-- A promise that became a root of its own to report its exception. -/
def failed (h : ChannelHeap V E) (f : FrameId) (p : Frame V E (Channel V E)) (i : Nat) (ex : E) :
    ChannelHeap V E :=
  (h.put_object i { h.objects i with exception := some ex }).put f
    { p with link := .consumer (.object i), root := f }

theorem consumer_failed (h : ChannelHeap V E) (f : FrameId) (p : Frame V E (Channel V E)) (i : Nat) (ex : E) :
    consumer (failed h f p i ex) f = some (.object i) := by
  simp [consumer, failed]

theorem failed_objects_self (h : ChannelHeap V E) (f : FrameId) (p : Frame V E (Channel V E)) (i : Nat) (ex : E) :
    (failed h f p i ex).objects i = { h.objects i with exception := some ex } :=
  h.put_object_objects_self i _

theorem unhandled_exception_eq {h₁ : ChannelHeap V E} {p q : Frame V E (Channel V E)} {ex : E}
    (hex : exception h f = some none) (hp : h.frames f = some p)
    (hskip : (if p.root ≠ f then skip_this_leaf h f else some h) = some h₁) (hq : h₁.frames f = some q)
    (hc : consumer h₁ f = some (.object i)) :
    unhandled_exception h f ex = some (some (failed h₁ f q i ex)) := by
  let h₂ := h₁.put_object i { h₁.objects i with exception := some ex }
  let q₂ : Frame V E (Channel V E) := { q with link := .consumer (.object i) }
  have hset : set_exception h₁ f (some ex) = some h₂ := set_exception_eq hc _
  have hc₂ : consumer h₂ f = some (.object i) := hc
  have hlink : h₂.modify f ({ · with link := .consumer (.object i) }) = some (h₂.put f q₂) :=
    Heap.modify_eq (show h₂.frames f = some q from hq) _
  have hroot : (h₂.put f q₂).modify f ({ · with root := f }) = some (failed h₁ f q i ex) := by
    rw [Heap.modify_eq (h₂.put_frames_self f q₂), Heap.put_put]
    rfl
  simp only [unhandled_exception, hex, Option.bind_eq_bind, Option.bind_some, Option.isSome_none,
    Bool.false_eq_true, ↓reduceIte, hp, hskip, hset, hc₂, hlink, hroot]

end delivery

section working

variable {h : ChannelHeap V E} {N : Nat} {c : Receiver E} {own : Set FrameId} {i : Nat} {t w o : FrameId}
  {fs : List FrameId} {b rest : Body V E} {bs : List (Body V E)} {p : Frame V E (Channel V E)}

/-- The worker runs on: its body and awaiter change. -/
theorem Level.put_worker {q : Frame V E (Channel V E)} (hl : Level h N c own i t w fs (b :: bs))
    (hp : h.frames w = some p) (hroot : q.root = p.root) (hcw : q.current_worker = p.current_worker)
    (hlink : q.link = p.link) (hdone : q.done = false) : Level (h.put w q) N c own i t w fs (q.body :: bs) :=
  ⟨hl.tree.put_worker hp hroot hcw hlink hdone, hl.object, hl.older, hl.room⟩

/-- `co_yield value`. -/
theorem run_co_yield (value : V) (hl : Level h N c own i t w fs (.co_yield value rest :: bs))
    (hp : h.frames w = some p) (hleaf : p.leaf = none) (hpull : p.pulling = none) (ready : Bool) :
    ∃ h', run ready h w (.co_yield value rest) = some (h', .transfer c.handle) ∧
      Stepped h h' N c own i t w (.of_bodies (.co_yield value rest :: bs)) (.transfer c.handle) := by
  obtain ⟨hdone, -⟩ := hl.tree.chain.head hp
  let p₁ : Frame V E (Channel V E) := { p with body := rest }
  let h₁ := h.put w p₁
  have hl₁ : Level h₁ N c own i t w fs (rest :: bs) := hl.put_worker (q := p₁) hp rfl rfl rfl hdone
  obtain ⟨cur, hobject⟩ := hl₁.object
  let h₂ := h₁.put_object i { h₁.objects i with current_result := some value }
  have hset : set_result h₁ w (some value) = some h₂ := set_result_eq hl₁.consumer_eq _
  have hhandle : consumer_handle h₂ w = some c.handle := by
    rw [consumer_handle_eq (show consumer h₂ w = _ from hl₁.consumer_eq), h₁.put_object_objects_self, hobject]
  obtain ⟨pt, hpt, -, hlink⟩ := hl₁.tree.worker
  have htold : Told h₂ c own i t (some (rest :: bs)) (some (.value value)) := by
    refine ⟨⟨_, w, fs, hl₁.tree.of_frames rfl rfl, .of_none (h.put_frames_self w p₁) hleaf hpull⟩, ?_,
      ⟨pt, hpt, hlink⟩, fun hnone => absurd hnone (Option.some_ne_none _), (fun _ hex => by cases hex), hl.bounded⟩
    rw [h₁.put_object_objects_self, hobject]
    rfl
  refine ⟨h₂, ?_, ?_, ?_, fun j _ hj => h₁.put_object_objects_of_ne _ hj⟩
  · simp only [run, Heap.modify_eq hp, Option.bind_eq_bind, Option.bind_some, yield_value]
    rw [hset, Option.bind_some, hhandle, Option.bind_some, Option.bind_some]
  · rw [grown_of_eq own (show h₂.next_frame = h.next_frame from rfl)]
    exact .answered htold (.of_took (.co_yield value rest bs))
  · exact ((Framed.refl h own).put p₁ (hl.tree.owned w (List.mem_cons_self ..))).of_frames rfl rfl rfl

/-- A leaf is over: its owner, which learns the root now, is the worker. -/
theorem Level.skip {q : Frame V E (Channel V E)} (hl : Level h N c own i t w (o :: fs) (b :: bs))
    (hp : h.frames w = some p) (hroot : q.root = p.root) (hlink : q.link = p.link) (hdone : q.done = true)
    (hleaf : q.leaf = none) :
    ∃ h', q.root ≠ w ∧ skip_this_leaf (h.put w q) w = some h' ∧ owner h' w = some o ∧ h'.frames w = some q ∧
      Level h' N c own i t o fs bs ∧ Resumable h' own o ∧ consumer h' w = some (.object i) ∧ Framed h h' own ∧
      h'.objects = h.objects ∧ h'.next_frame = h.next_frame ∧ h'.next_object = h.next_object := by
  obtain ⟨h', hskip, howner, hq, ht', hres, hframed, hobjects, hnf, hno⟩ := hl.tree.skip hp hroot hlink hdone hleaf
  obtain ⟨pw, hpw, hpwroot⟩ := hl.tree.root
  obtain rfl := Option.some.inj (hpw.symm.trans hp)
  obtain ⟨pt, hpt, -, hptlink⟩ := ht'.worker
  have hne : q.root ≠ w := by
    intro heq
    have ht : t = w := (hroot.trans hpwroot).symm.trans heq
    exact (List.nodup_cons.mp hl.tree.nodup).1 (ht ▸ ht'.top_mem)
  refine ⟨h', hne, hskip, howner, hq, ⟨ht', by rw [hobjects]; exact hl.object, hl.older, hl.room.trans_eq hno.symm⟩, hres,
    ?_, hframed, hobjects, hnf, hno⟩
  simp only [consumer, hq, Option.bind_eq_bind, Option.bind_some, hroot.trans hpwroot, hpt, hptlink]

/-- The top coroutine is over. -/
theorem Level.told_end {h' : ChannelHeap V E} {q : Frame V E (Channel V E)} {e : Option (Event V E)}
    (hl : Level h N c own i t w [] [b]) (hq : h'.frames w = some q) (hdone : q.done = true) (hleaf : q.leaf = none)
    (hlink : q.link = .consumer (.object i))
    (hobject : h'.objects i =
      { current_result := none, handle := some c.handle, top := c.top, exception := (raised e).or c.exception })
    (he : current e = none) (htaken : ∀ ex, e = some (.exception ex) → c.exception = none)
    (hnf : h'.next_frame = h.next_frame) (hno : h'.next_object = h.next_object) :
    Told h' c own i t none e := by
  obtain rfl : t = w := List.mem_singleton.mp hl.tree.top_mem
  exact ⟨⟨hl.tree.owned t hl.tree.top_mem, fun x hx => (hl.tree.bounded x hx).trans_eq hnf.symm, q, hq, hdone, hleaf⟩,
    by rw [hobject, he], ⟨q, hq, hlink⟩, fun _ => he, htaken, hl.bounded.trans_eq hno.symm⟩

/-- A body returns: a leaf continues with its owner, the top coroutine reports
the end. -/
theorem run_co_return (hl : Level h N c own i t w fs (.co_return :: bs)) (hp : h.frames w = some p)
    (hleaf : p.leaf = none) (ready : Bool) :
    ∃ h' next, run ready h w .co_return = some (h', next) ∧
      Stepped h h' N c own i t w (.of_bodies (.co_return :: bs)) next := by
  let q : Frame V E (Channel V E) := { p with done := true }
  have hq := h.put_frames_self w q
  have hlength := hl.tree.chain.length_eq
  have hw := hl.tree.owned w (List.mem_cons_self ..)
  cases fs with
  | nil =>
    obtain rfl : bs = [] := List.length_eq_zero_iff.mp (by simpa using hlength)
    obtain ⟨cur, hobject⟩ := hl.object
    obtain ⟨pw, hpw, hroot⟩ := hl.tree.root
    obtain rfl := Option.some.inj (hpw.symm.trans hp)
    obtain rfl : t = w := List.mem_singleton.mp hl.tree.top_mem
    let h' := (h.put t q).put_object i { h.objects i with current_result := none }
    have hfinal : final_awaiter.await_suspend (h.put t q) t = some (h', c.handle) :=
      final_awaiter.await_suspend_top hq hroot (hl.consumer_put hp rfl rfl) (by rw [h.put_objects, hobject])
    obtain ⟨pt, hpt, -, hlink⟩ := hl.tree.worker
    obtain rfl := Option.some.inj (hpt.symm.trans hpw)
    have htold : Told h' c own i t none none :=
      hl.told_end hq rfl hleaf hlink (by rw [Heap.put_object_objects_self, hobject]; rfl) rfl
        (fun _ hex => by cases hex) rfl rfl
    refine ⟨h', .transfer c.handle, ?_, ?_, ?_, fun j _ hj => Heap.put_object_objects_of_ne _ _ hj⟩
    · simp only [run, Heap.modify_eq hp, Option.bind_eq_bind, Option.bind_some]
      rw [hfinal, Option.bind_some]
    · rw [grown_of_eq own (show h'.next_frame = h.next_frame from rfl)]
      exact .answered htold (.of_took .top_return)
    · exact ((Framed.refl h own).put q hw).of_frames rfl rfl rfl
  | cons o fs =>
    obtain ⟨h', hroot, hskip, howner, -, hl', hres, -, hframed, hobjects, hnf, -⟩ :=
      hl.skip (q := q) hp rfl rfl rfl hleaf
    have hbs : bs ≠ [] := List.ne_nil_of_length_eq_add_one (by simpa using hlength)
    refine ⟨h', .transfer (.coroutine o), ?_, ?_, hframed, fun j _ _ => congrFun hobjects j⟩
    · simp only [run, Heap.modify_eq hp, Option.bind_eq_bind, Option.bind_some]
      rw [final_awaiter.await_suspend_leaf hq hroot hskip howner, Option.bind_some]
    · rw [grown_of_eq own hnf]
      exact .transfer (.working hl' hres) (.of_silent (.leaf_return hbs))

/-- `unhandled_exception` and `final_suspend`, once the failed leaf is skipped. -/
theorem run_throw_eq {h₁ : ChannelHeap V E} {q : Frame V E (Channel V E)} {ex : E}
    (hl : Level h N c own i t w fs (b :: bs)) (htaken : c.exception = none) (hp : h.frames w = some p)
    (hqdef : q = { p with done := true })
    (hskip : (if q.root ≠ w then skip_this_leaf (h.put w q) w else some (h.put w q)) = some h₁)
    (hq : h₁.frames w = some q) (hc : consumer h₁ w = some (.object i)) (hobjects : h₁.objects = h.objects)
    (ready : Bool) :
    ∃ h' q', run ready h w (.throw ex) = some (h', .transfer c.handle) ∧ q'.done = true ∧ q'.leaf = q.leaf ∧
      q'.link = .consumer (.object i) ∧
      h'.frames = (h₁.put w q').frames ∧
      h'.objects i = { current_result := none, handle := some c.handle, top := c.top, exception := some ex } ∧
      OthersKept h h' N i ∧ h'.next_frame = h₁.next_frame ∧ h'.next_object = h₁.next_object := by
  subst hqdef
  obtain ⟨cur, hobject⟩ := hl.object
  let q : Frame V E (Channel V E) := { p with done := true }
  have hex : exception (h.put w q) w = some none := by
    rw [exception_eq (hl.consumer_put (q := q) hp rfl rfl), h.put_objects, hobject, htaken]
  let h₂ := failed h₁ w q i ex
  have hobject₂ : h₂.objects i =
      { current_result := cur, handle := some c.handle, top := c.top, exception := some ex } := by
    rw [failed_objects_self, hobjects, hobject]
  let q' : Frame V E (Channel V E) := { q with link := .consumer (.object i), root := w }
  have hq' : h₂.frames w = some q' := Heap.put_frames_self _ _ _
  let h' := h₂.put_object i { h₂.objects i with current_result := none }
  have hfinal : final_awaiter.await_suspend h₂ w = some (h', c.handle) :=
    final_awaiter.await_suspend_top hq' rfl (consumer_failed ..) (by rw [hobject₂])
  refine ⟨h', q', ?_, rfl, rfl, rfl, rfl, ?_, ?_, rfl, rfl⟩
  · simp only [run, Heap.modify_eq hp, Option.bind_eq_bind, Option.bind_some]
    rw [unhandled_exception_eq hex (h.put_frames_self w q) hskip hq hc]
    simp only [Option.bind_some]
    rw [hfinal, Option.bind_some]
  · rw [h₂.put_object_objects_self, hobject₂]
  · intro j _ hj
    rw [h₂.put_object_objects_of_ne _ hj, ← congrFun hobjects j]
    exact h₁.put_object_objects_of_ne _ hj

/-- A second exception ends the program before the first one was taken. -/
theorem run_throw_untaken {ex : E} (hl : Level h N c own i t w fs (.throw ex :: bs)) (hp : h.frames w = some p)
    (huntaken : c.exception.isSome) (ready : Bool) :
    ∃ h', run ready h w (.throw ex) = some (h', .terminate) ∧
      Stepped h h' N c own i t w (.of_bodies (.throw ex :: bs)) .terminate := by
  let q : Frame V E (Channel V E) := { p with done := true }
  obtain ⟨cur, hobject⟩ := hl.object
  have hex : exception (h.put w q) w = some c.exception := by
    rw [exception_eq (hl.consumer_put (q := q) hp rfl rfl), h.put_objects, hobject]
  refine ⟨h.put w q, ?_, .terminated rfl huntaken, (Framed.refl h own).put q (hl.tree.owned w (List.mem_cons_self ..)),
    fun _ _ _ => rfl⟩
  simp only [run, Heap.modify_eq hp, Option.bind_eq_bind, Option.bind_some]
  change (unhandled_exception (h.put w q) w ex).bind _ = _
  simp only [unhandled_exception, hex, Option.bind_eq_bind, Option.bind_some, huntaken, ↓reduceIte, q]

/-- A body ends with an exception: whatever its depth, the consumer is resumed
and finds the exception in its object, if it took the one before. -/
theorem run_throw {ex : E} (hl : Level h N c own i t w fs (.throw ex :: bs)) (hp : h.frames w = some p)
    (hleaf : p.leaf = none) (ready : Bool) :
    ∃ h' next, run ready h w (.throw ex) = some (h', next) ∧
      Stepped h h' N c own i t w (.of_bodies (.throw ex :: bs)) next := by
  let q : Frame V E (Channel V E) := { p with done := true }
  have hlength := hl.tree.chain.length_eq
  have hw := hl.tree.owned w (List.mem_cons_self ..)
  cases htaken : c.exception with
  | some x =>
    obtain ⟨h', hrun⟩ := run_throw_untaken hl hp (by rw [htaken]; rfl) ready
    exact ⟨h', _, hrun⟩
  | none =>
    cases fs with
    | nil =>
      obtain rfl : bs = [] := List.length_eq_zero_iff.mp (by simpa using hlength)
      obtain ⟨pw, hpw, hroot⟩ := hl.tree.root
      obtain rfl := Option.some.inj (hpw.symm.trans hp)
      obtain rfl : t = w := List.mem_singleton.mp hl.tree.top_mem
      obtain ⟨h', q', hrun, hdone, hq'leaf, hq'link, hframes, hobject, hothers, hnf, hno⟩ :=
        run_throw_eq (q := q) hl htaken hp rfl (if_neg (not_not_intro hroot)) (h.put_frames_self t q)
          (hl.consumer_put hp rfl rfl) rfl ready
      have hq' : h'.frames t = some q' := by rw [hframes, Heap.put_frames_self]
      have htold : Told h' c own i t none (some (.exception ex)) :=
        hl.told_end hq' hdone (hq'leaf.trans hleaf) hq'link hobject rfl (fun _ _ => htaken) hnf hno
      refine ⟨h', _, hrun, ?_, ?_, hothers⟩
      · rw [grown_of_eq own (show h'.next_frame = h.next_frame from hnf)]
        exact .answered htold (.of_took (.top_throw ex))
      · exact (((Framed.refl h own).put q hw).put q' hw).of_frames hframes hnf hno
    | cons o fs =>
      obtain ⟨h₁, hroot, hskip, -, hq, hl₁, hres, hcons, hframed, hobjects, hnf₁, hno₁⟩ :=
        hl.skip (q := q) hp rfl rfl rfl hleaf
      obtain ⟨h', q', hrun, hdone, hq'leaf, hq'link, hframes, hobject, hothers, hnf, hno⟩ :=
        run_throw_eq (q := q) hl htaken hp rfl ((if_pos hroot).trans hskip) hq hcons hobjects ready
      have hbs : bs ≠ [] := List.ne_nil_of_length_eq_add_one (by simpa using hlength)
      have hout : w ∉ o :: fs := (List.nodup_cons.mp hl.tree.nodup).1
      have hwo : o ≠ w := fun heq => hout (heq ▸ List.mem_cons_self ..)
      have htree : Tree h' own t (.consumer (.object i)) o fs bs := by
        refine hl₁.tree.of_same (fun x hx => ?_) hnf.ge
        have hne : x ≠ w := fun heq => hout (heq ▸ hx)
        rw [hframes, h₁.put_frames_of_ne q' hne]
      have hres' : Resumable h' own o := (hres.put_done hwo hdone (hq'leaf.trans hleaf)).of_frames hframes
      obtain ⟨pt, hpt, -, hlink⟩ := htree.worker
      have htold : Told h' c own i t (some bs) (some (.exception ex)) :=
        ⟨⟨_, o, fs, htree, hres'⟩, hobject, ⟨pt, hpt, hlink⟩, fun _ => rfl, fun _ _ => htaken,
          hl₁.bounded.trans_eq hno.symm⟩
      refine ⟨h', _, hrun, ?_, ?_, hothers⟩
      · rw [grown_of_eq own (hnf.trans hnf₁)]
        exact .answered htold (.of_took (.leaf_throw ex hbs))
      · exact (hframed.put q' hw).of_frames hframes hnf hno

/-- The worker awaits the leaf in its awaiter. -/
theorem Level.co_await_leaf {leaf : Channel V E} {lown : Set FrameId} {lt : FrameId} {st : Remaining V E}
    (hl : Level h N c own i t w fs bs) (hlt : LeafTree h lown lt st) (hp : h.frames w = some p)
    (hpull : p.pulling = none) (hleaf : p.leaf = some leaf) (htop : leaf.top = some lt)
    (hdisj : Disjoint own lown) :
    ∃ h' w' lbs, generators_common.co_await_leaf h w = some (h', w') ∧
      Running h' N c (own ∪ lown) i t w' (.of_bodies (lbs ++ bs)) ∧ pending (some lbs) = pending st ∧
      work (some lbs) = work st ∧ Framed h h' (own ∪ lown) ∧ h'.objects = h.objects ∧
      h'.next_frame = h.next_frame := by
  obtain ⟨h', w', fs', lbs, hawait, ht', hres, hpending, hwork, hframed, hobjects, hnf, hno⟩ :=
    hlt.co_await hl.tree hp hpull hleaf htop hdisj
  exact ⟨h', w', lbs, hawait,
    .working ⟨ht', by rw [hobjects]; exact hl.object, hl.older, hl.room.trans_eq hno.symm⟩ hres, hpending, hwork,
    hframed,
    hobjects, hnf⟩

/-- `co_await`: the coroutine goes on at once, or when somebody resumes it. -/
theorem run_co_await (hl : Level h N c own i t w fs (.co_await rest :: bs)) (hp : h.frames w = some p)
    (hleaf : p.leaf = none) (hpull : p.pulling = none) (ready : Bool) :
    ∃ h' next, run ready h w (.co_await rest) = some (h', next) ∧
      Stepped h h' N c own i t w (.of_bodies (.co_await rest :: bs)) next := by
  obtain ⟨hdone, -⟩ := hl.tree.chain.head hp
  let q : Frame V E (Channel V E) := { p with body := rest }
  have hl' : Level (h.put w q) N c own i t w fs (rest :: bs) := hl.put_worker (q := q) hp rfl rfl rfl hdone
  have hrunning : Running (h.put w q) N c own i t w (.of_bodies (rest :: bs)) :=
    .working hl' (.of_none (h.put_frames_self w q) hleaf hpull)
  have hquiet : Quiet (of_bodies (.co_await rest :: bs)) (of_bodies (rest :: bs)) :=
    .of_silent (.co_await rest bs)
  have hframed : Framed h (h.put w q) own := (Framed.refl h own).put q (hl.tree.owned w (List.mem_cons_self ..))
  refine ⟨h.put w q, if ready then .transfer (.coroutine w) else .await, ?_, ?_, hframed, fun _ _ _ => rfl⟩
  · simp only [run, Heap.modify_eq hp, Option.bind_eq_bind, Option.bind_some, q]
  · rw [grown_of_eq own (show (h.put w q).next_frame = h.next_frame from rfl)]
    cases ready with
    | true => exact .transfer hrunning hquiet
    | false => exact .await hrunning hquiet

theorem move_construct_awaiter_eq {l : Nat} (hp : h.frames w = some p) :
    move_construct h (.awaiter w) (.object l) =
      some ((h.put w { p with leaf := some (h.objects l) }).put_object l LeafObject.default) := by
  simp [move_construct, swap, Heap.set_object, Heap.modify, Heap.put, Heap.put_object, Heap.object, hp,
    Function.update_idem]

/-- `co_yield elements_of` of a default constructed channel. -/
theorem run_elements_of_empty (hl : Level h N c own i t w fs (.elements_of_empty rest :: bs))
    (hp : h.frames w = some p) (hpull : p.pulling = none) (ready : Bool) :
    ∃ h' next, run ready h w (.elements_of_empty rest) = some (h', next) ∧
      Stepped h h' N c own i t w (.of_bodies (.elements_of_empty rest :: bs)) next := by
  obtain ⟨hdone, -⟩ := hl.tree.chain.head hp
  let l := h.next_object
  let p₁ : Frame V E (Channel V E) := { p with body := rest }
  let h₁ := (h.put w p₁).new_object.1
  have hp₁ : h₁.frames w = some p₁ := h.put_frames_self w p₁
  let p₂ : Frame V E (Channel V E) := { p₁ with leaf := some LeafObject.default }
  let h₂ := (h₁.put w p₂).put_object l LeafObject.default
  have hp₂ : h₂.frames w = some p₂ := h₁.put_frames_self w p₂
  have hl₂ : h₁.objects l = LeafObject.default := Heap.put_object_objects_self _ _ _
  have hmove : move_construct h₁ (.awaiter w) (.object l) = some h₂ := by
    rw [move_construct_awaiter_eq hp₁, hl₂]
  have hready : generators_common.co_await_leaf h₂ w = some (h₂, w) :=
    co_await_leaf_of_none hp₂ rfl LeafObject.top_default
  have hobjects : ∀ j, j < l → h₂.objects j = h.objects j := by
    intro j hj
    rw [Heap.put_object_objects_of_ne _ _ (ne_of_lt hj)]
    exact Heap.put_object_objects_of_ne _ _ (ne_of_lt hj)
  have hframes : h₂.frames = (h.put w p₂).frames := by
    rw [← h.put_put w p₁ p₂]
    rfl
  have hlevel : Level h₂ N c own i t w fs (rest :: bs) :=
    ⟨(hl.tree.put_worker (q := p₂) hp rfl rfl rfl hdone).of_frames hframes rfl,
      by rw [hobjects i hl.bounded]; exact hl.object, hl.older, hl.room.trans (Nat.le_succ _)⟩
  have hres : Resumable h₂ own w := .of_empty_leaf hp₂ rfl LeafObject.top_default hpull
  refine ⟨h₂, .transfer (.coroutine w), ?_, ?_, ?_, fun j hj _ => hobjects j (hj.trans_le hl.room)⟩
  · simp only [run, Heap.modify_eq hp, Option.bind_eq_bind, Option.bind_some]
    change (move_construct h₁ (.awaiter w) (.object l)).bind _ = _
    rw [hmove, Option.bind_some, hready, Option.bind_some]
  · rw [grown_of_eq own (show h₂.next_frame = h.next_frame from rfl)]
    exact .transfer (.working hlevel hres) (.of_silent (.elements_of_empty rest bs))
  · refine ⟨le_rfl, Nat.le_succ _, fun x _ hx => ?_⟩
    have hne : x ≠ w := fun heq => hx (heq ▸ hl.tree.owned w (List.mem_cons_self ..))
    rw [hframes, h.put_frames_of_ne p₂ hne]

/-- `co_yield elements_of` of an ordinary range. -/
theorem run_elements_of_range {rng : List V} (hl : Level h N c own i t w fs (.elements_of_range rng rest :: bs))
    (hp : h.frames w = some p) (hpull : p.pulling = none) (ready : Bool) :
    ∃ h' next, run ready h w (.elements_of_range rng rest) = some (h', next) ∧
      Stepped h h' N c own i t w (.of_bodies (.elements_of_range rng rest :: bs)) next := by
  obtain ⟨hdone, -⟩ := hl.tree.chain.head hp
  have hw := hl.tree.owned w (List.mem_cons_self ..)
  have hfresh : w ≠ h.next_frame := ne_of_lt (hl.tree.bounded w hw)
  let p₁ : Frame V E (Channel V E) := { p with body := rest }
  let leaf : Channel V E :=
    { current_result := none, handle := none, top := some h.next_frame, exception := none }
  let p₂ : Frame V E (Channel V E) := { p₁ with leaf := some leaf }
  let h₁ := ((h.put w p₁).allocate (Body.to_generator rng)).1
  have hp₁ : h₁.frames w = some p₁ := (Heap.put_frames_of_ne _ _ hfresh).trans (h.put_frames_self w p₁)
  let h₂ := h₁.put w p₂
  have hcreate : create (h.put w p₁) (Body.to_generator rng) (.awaiter w) = some h₂ := Heap.modify_eq hp₁ _
  have hlt : h₂.frames h.next_frame = some (.started h.next_frame (Body.to_generator rng)) :=
    (h₁.put_frames_of_ne p₂ hfresh.symm).trans (Heap.put_frames_self _ _ _)
  have hsame : ∀ x, x ≠ h.next_frame → x ≠ w → h₂.frames x = h.frames x := by
    intro x hx hxw
    rw [h₁.put_frames_of_ne p₂ hxw, ← h.put_frames_of_ne p₁ hxw]
    exact Heap.put_frames_of_ne _ _ hx
  have hlevel : Level h₂ N c own i t w fs (rest :: bs) := by
    refine ⟨hl.tree.of_worker (q := p₂) hp (h₁.put_frames_self w p₂) rfl rfl rfl hdone (fun x hx => ?_)
      (Nat.le_succ _), hl.object, hl.older, hl.room⟩
    exact hsame x (ne_of_lt (hl.tree.bounded x (hl.tree.owned x (List.mem_cons_of_mem _ hx))))
  have hleaf : LeafTree h₂ (Set.Ico h.next_frame h₂.next_frame) h.next_frame (some [Body.to_generator rng]) :=
    ⟨_, _, _, Tree.single hlt rfl rfl rfl ⟨le_rfl, Nat.lt_succ_self _⟩ fun x hx => hx.2, .of_none hlt rfl rfl⟩
  obtain ⟨h₃, w', lbs, hawait, hrunning, hpending, hwork, hframed, hobjects, hnf⟩ :=
    hlevel.co_await_leaf hleaf (h₁.put_frames_self w p₂) hpull rfl rfl (hl.tree.disjoint_fresh _)
  have hframed₂ : Framed h h₂ own := by
    refine ⟨Nat.le_succ _, le_rfl, fun x hx hout => hsame x (ne_of_lt hx) fun heq => hout (heq ▸ hw)⟩
  refine ⟨h₃, .transfer (.coroutine w'), ?_, ?_, hframed₂.trans hframed, fun j _ _ => congrFun hobjects j⟩
  · simp only [run, Heap.modify_eq hp, Option.bind_eq_bind, Option.bind_some]
    rw [hcreate, Option.bind_some, hawait, Option.bind_some]
  · rw [grown, hnf]
    refine .transfer hrunning (.of_silent (.elements_of_range (by simpa using hpending) ?_))
    exact hwork.trans_le (by simp)

/-- `co_yield elements_of` of a channel: its holder makes it, and is going to
iterate it before it hands it over. -/
theorem run_elements_of {body : Body V E} {pulls : Nat}
    (hl : Level h N c own i t w fs (.elements_of body pulls rest :: bs)) (hp : h.frames w = some p)
    (hleaf : p.leaf = none) (ready : Bool) :
    ∃ h' next, run ready h w (.elements_of body pulls rest) = some (h', next) ∧
      Stepped h h' N c own i t w (.of_bodies (.elements_of body pulls rest :: bs)) next := by
  obtain ⟨hdone, -⟩ := hl.tree.chain.head hp
  have hw := hl.tree.owned w (List.mem_cons_self ..)
  have hfresh : w ≠ h.next_frame := ne_of_lt (hl.tree.bounded w hw)
  let l := h.next_object
  let lt := h.next_frame
  let p₁ : Frame V E (Channel V E) := { p with body := rest }
  let x : Channel V E := { current_result := none, handle := none, top := some lt, exception := none }
  let h₁ := (((h.put w p₁).new_object.1).allocate body).1.put_object l x
  have hp₁ : h₁.frames w = some p₁ := (Heap.put_frames_of_ne _ _ hfresh).trans (h.put_frames_self w p₁)
  let p₂ : Frame V E (Channel V E) := { p₁ with pulling := some (l, pulls) }
  let h₂ := h₁.put w p₂
  have hp₂ : h₂.frames w = some p₂ := h₁.put_frames_self w p₂
  have hlt : h₂.frames lt = some (.started lt body) :=
    (h₁.put_frames_of_ne p₂ hfresh.symm).trans (Heap.put_frames_self _ _ _)
  have hsame : ∀ x, x ≠ lt → x ≠ w → h₂.frames x = h.frames x := by
    intro x hx hxw
    rw [h₁.put_frames_of_ne p₂ hxw, ← h.put_frames_of_ne p₁ hxw]
    exact Heap.put_frames_of_ne _ _ hx
  have hobjects : ∀ j, j < l → h₂.objects j = h.objects j := by
    intro j hj
    refine (Heap.put_object_objects_of_ne _ _ (ne_of_lt hj)).trans ?_
    exact Heap.put_object_objects_of_ne _ _ (ne_of_lt hj)
  have hlevel : Level h₂ N c own i t w fs (rest :: bs) := by
    refine ⟨hl.tree.of_worker (q := p₂) hp hp₂ rfl rfl rfl hdone (fun x hx => ?_) (Nat.le_succ _),
      by rw [hobjects i hl.bounded]; exact hl.object, hl.older, hl.room.trans (Nat.le_succ _)⟩
    exact hsame x (ne_of_lt (hl.tree.bounded x (hl.tree.owned x (List.mem_cons_of_mem _ hx))))
  have hidle : Idle h₂ (Set.Ico lt h₂.next_frame) l lt (some [body]) none := by
    refine ⟨⟨_, _, _, Tree.single hlt rfl rfl rfl ⟨le_rfl, Nat.lt_succ_self _⟩ fun x hx => hx.2,
      .of_none hlt rfl rfl⟩, ⟨none, Heap.put_object_objects_self _ _ _⟩, fun _ => rfl, Nat.lt_succ_self _⟩
  refine ⟨h₂, .transfer (.coroutine w), ?_, ?_, ⟨Nat.le_succ _, Nat.le_succ _, fun x hx hout => ?_⟩,
    fun j hj _ => hobjects j (hj.trans_le hl.room)⟩
  · simp only [run, Heap.modify_eq hp, Option.bind_eq_bind, Option.bind_some]
    change (create (h.put w p₁).new_object.1 body (.object l)).bind _ = _
    change (h₁.modify w _).bind _ = _
    rw [Heap.modify_eq hp₁, Option.bind_some]
    rfl
  · refine .transfer (.pulled hlevel ⟨p₂, hp₂, hleaf, rfl⟩ hl.room (hl.tree.disjoint_fresh _) hidle)
      ⟨?_, top_throws_head (by rfl) bs |>.symm, ?_⟩
    · simp only [holding, of_bodies, pending_cons, pending_nil, List.append_nil, Body.flatten, List.append_assoc]
    · simp only [holding, of_bodies, work_cons, work_nil, Body.size]
      omega
  · exact hsame x (ne_of_lt hx) fun heq => hout (heq ▸ hw)

/-- A step that only cleans up may come before. -/
theorem Stepped.of_step {h₁ h' : ChannelHeap V E} {r : FrameId} {s : Backlog V E} {next : Next}
    (hf : Framed h h₁ own) (hobjects : h₁.objects = h.objects) (hnf : h₁.next_frame = h.next_frame)
    (hs : Stepped h₁ h' N c own i t r s next) : Stepped h h' N c own i t r s next where
  progress := by
    have hgrown : grown own h₁ h' = grown own h h' := by rw [grown, grown, hnf]
    rw [← hgrown]
    exact hs.progress
  framed := by
    refine hf.trans ?_
    rw [grown_of_eq own hnf]
    exact hs.framed
  others j hj hne := (hs.others j hj hne).trans (congrFun hobjects j)

/-- The innermost worker runs from one suspension point to the next. -/
theorem working_spec (hl : Level h N c own i t w fs bs) (hres : Resumable h own w) (ready : Bool) :
    ∃ h' next, Returns (fun n => resume n ready h w) (h', next) ∧
      Stepped h h' N c own i t w (.of_bodies bs) next := by
  obtain ⟨p, hp, -⟩ := hl.tree.root
  obtain ⟨hdone, bs, rfl⟩ := hl.tree.chain.head hp
  have hpull := hres.pulling p hp
  obtain ⟨h₁, hleave, hp₁, ht₁, hframed, hobjects, hnf, hno⟩ := hl.tree.leave hres hp
  have hl₁ : Level h₁ N c own i t w fs (p.body :: bs) :=
    ⟨ht₁, by rw [hobjects]; exact hl.object, hl.older, hl.room.trans_eq hno.symm⟩
  have hrun : ∃ h' next, run ready h₁ w p.body = some (h', next) ∧
      Stepped h₁ h' N c own i t w (.of_bodies (p.body :: bs)) next := by
    cases hbody : p.body with
    | co_return => exact run_co_return (hbody ▸ hl₁) hp₁ rfl ready
    | co_yield value rest =>
      obtain ⟨h', hrun⟩ := run_co_yield value (hbody ▸ hl₁) hp₁ rfl hpull ready
      exact ⟨h', _, hrun⟩
    | co_await rest => exact run_co_await (hbody ▸ hl₁) hp₁ rfl hpull ready
    | throw ex => exact run_throw (hbody ▸ hl₁) hp₁ rfl ready
    | elements_of_empty rest => exact run_elements_of_empty (hbody ▸ hl₁) hp₁ hpull ready
    | elements_of leaf pulls rest => exact run_elements_of (hbody ▸ hl₁) hp₁ rfl ready
    | elements_of_range rng rest => exact run_elements_of_range (hbody ▸ hl₁) hp₁ hpull ready
  obtain ⟨h', next, hrun, hstepped⟩ := hrun
  refine ⟨h', next, ?_, hstepped.of_step hframed hobjects hnf⟩
  refine (hleave.bind (g := fun _ h => run ready h w p.body) (.const hrun)).congr fun n => ?_
  simp only [resume, hp, Option.bind_eq_bind, Option.bind_some, hdone, Bool.false_eq_true, ↓reduceIte, hpull]

end working

section iterating

variable {h : ChannelHeap V E} {N : Nat} {c : Receiver E} {own lown : Set FrameId} {i l left : Nat} {t w lt : FrameId}
  {fs : List FrameId} {bs : List (Body V E)} {st : Remaining V E} {e : Option (Event V E)}

/-- An iterated channel is not affected by steps inside a leaf it iterates. -/
theorem Level.of_framed {h' : ChannelHeap V E} (hl : Level h N c own i t w fs bs) (hf : Framed h h' lown)
    (hdisj : Disjoint own lown) (hobject : h'.objects i = h.objects i) : Level h' N c own i t w fs bs :=
  ⟨hl.tree.of_framed hf hdisj, by rw [hobject]; exact hl.object, hl.older, hl.room.trans hf.next_object⟩

theorem Holder.of_framed {h' : ChannelHeap V E} (hh : Holder h w l left) (hl : Level h N c own i t w fs bs)
    (hf : Framed h h' lown) (hdisj : Disjoint own lown) : Holder h' w l left := by
  obtain ⟨p, hp, hrest⟩ := hh
  have hw := hl.tree.owned w (List.mem_cons_self ..)
  exact ⟨p, (hf.frames w (hl.tree.bounded w hw) (Set.disjoint_left.mp hdisj hw)).trans hp, hrest⟩

theorem Idle.of_same {h' : ChannelHeap V E} (hi : Idle h own i t st e) (hsame : ∀ x ∈ own, h'.frames x = h.frames x)
    (hobject : h'.objects i = h.objects i) (hnf : h.next_frame ≤ h'.next_frame)
    (hno : h.next_object ≤ h'.next_object) : Idle h' own i t st e :=
  ⟨hi.tree.of_same hsame hnf, by rw [hobject]; exact hi.object, hi.ended, hi.bounded.trans_le hno⟩

theorem Idle.empty_eq (hi : Idle h own i t st e) : empty h (.object i) = some st.isNone := by
  obtain ⟨x, hobject⟩ := hi.object
  exact hi.tree.empty_eq (congrArg Channel.top hobject)

/-- A channel function that was just called. -/
theorem create_spec (h : ChannelHeap V E) (body : Body V E) :
    ∃ h', create h.new_object.1 body (.object h.next_object) = some h' ∧
      Idle h' {h.next_frame} h.next_object h.next_frame (some [body]) none ∧
      (h'.objects h.next_object).exception = none ∧ h'.next_frame = h.next_frame + 1 := by
  let t := h.next_frame
  let h' := (h.new_object.1.allocate body).1.put_object h.next_object
    { current_result := none, handle := none, top := some t, exception := none }
  have hobject : h'.objects h.next_object = { current_result := none, handle := none, top := some t, exception := none } :=
    Heap.put_object_objects_self _ _ _
  have hframe : h'.frames t = some (.started t body) := Heap.put_frames_self _ _ _
  refine ⟨h', rfl, ⟨⟨_, _, _, Tree.single hframe rfl rfl rfl rfl ?_, .of_none hframe rfl rfl⟩, ⟨none, hobject⟩,
    fun _ => rfl, Nat.lt_succ_self _⟩, by rw [hobject], rfl⟩
  rintro x rfl
  exact Nat.lt_succ_self _

/-- `begin()` or `next()` of a channel that is not empty. -/
theorem starter_spec {lbs : List (Body V E)} (hl : LeafTree h own t (some lbs)) (htop : (h.objects i).top = some t)
    (holder : i < N) (hroom : N ≤ h.next_object) (c : Runner) :
    ∃ h' r, starter.await_suspend h i c = some (h', .coroutine r) ∧
      Running h' N ((h.objects i).receiver c) own i t r (.of_bodies lbs) ∧ Framed h h' own ∧
      (∀ j, j ≠ i → h'.objects j = h.objects j) ∧ h'.next_frame = h.next_frame := by
  obtain ⟨link, r, fs, ht, hres⟩ := hl
  obtain ⟨q, hq, hcw, -⟩ := ht.worker
  let h₁ := h.put_object i { h.objects i with handle := some c }
  let q' : Frame V E (Channel V E) := { q with link := .consumer (.object i) }
  let h₂ := h₁.put t q'
  have hq' : h₂.frames t = some q' := h₁.put_frames_self t q'
  have hsame : ∀ x ∈ own, x ≠ t → h₂.frames x = h.frames x := fun x _ hx => h₁.put_frames_of_ne q' hx
  have hr := ht.owned r (List.mem_cons_self ..)
  refine ⟨h₂, r, ?_, .working ⟨ht.relink hq hq' hsame rfl, ⟨(h.objects i).current_result, ?_⟩, holder, hroom⟩
    (hres.relink hr hq hq' hsame), ?_, fun j hj => h.put_object_objects_of_ne _ hj, rfl⟩
  · have hlink : h₁.modify t ({ · with link := .consumer (.object i) }) = some h₂ :=
      Heap.modify_eq (show h₁.frames t = some q from hq) _
    change (h.objects i).top.bind (fun t => (h₁.modify t ({ · with link := .consumer (.object i) })).bind
      fun h => (h.frames t).bind fun p => some (h, Runner.coroutine p.current_worker)) = _
    rw [htop, Option.bind_some, hlink, Option.bind_some, hq', Option.bind_some, show q'.current_worker = r from hcw]
  · rw [h₁.put_objects, h.put_object_objects_self, Channel.receiver]
  · have hframed : Framed h h₁ own := (Framed.refl h own).of_frames rfl rfl rfl
    exact hframed.put q' (ht.owned t ht.top_mem)

/-- `++` on an iterator of a channel that is not empty. The coroutine delivers
to the object it is linked to. -/
theorem increment_spec {lbs : List (Body V E)} {d : Nat} {q : Frame V E (Channel V E)}
    (hl : LeafTree h own t (some lbs)) (htop : (h.objects i).top = some t) (hq : h.frames t = some q)
    (hlink : q.link = .consumer (.object d)) {c : Runner} (hhandle : (h.objects d).handle = some c)
    (holder : d < N) (hroom : N ≤ h.next_object) :
    ∃ r, increment h i = some (.coroutine r) ∧ Running h N ((h.objects d).receiver c) own d t r (.of_bodies lbs) := by
  have hempty := hl.empty_eq (i := i) htop
  obtain ⟨link, r, fs, ht, hres⟩ := hl
  obtain ⟨q', hq', hcw, hqlink⟩ := ht.worker
  obtain rfl := Option.some.inj (hq.symm.trans hq')
  obtain rfl : link = .consumer (.object d) := hqlink.symm.trans hlink
  refine ⟨r, ?_, .working ⟨ht, ⟨(h.objects d).current_result, ?_⟩, holder, hroom⟩ hres⟩
  · simp only [increment, hempty, Option.isNone_some, Option.bind_eq_bind, Option.bind_some, Bool.false_eq_true,
      ↓reduceIte, htop, hq, hcw]
  · rw [Channel.receiver, ← hhandle]

/-- Whatever the holder of `l` was told, no exception stays in it. -/
theorem taken_spec (hidle : Idle h lown l lt st e) :
    ∃ h' e', (if (h.objects l).current_result.isNone then (take_exception h l).1 else h) = h' ∧
      Idle h' lown l lt st e' ∧ (h'.objects l).exception = none ∧ h'.frames = h.frames ∧
      (∀ j, j ≠ l → h'.objects j = h.objects j) ∧ h'.next_frame = h.next_frame ∧
      h'.next_object = h.next_object := by
  obtain ⟨x, hobject⟩ := hidle.object
  cases hcur : current e with
  | some v =>
    obtain rfl : e = some (.value v) := by
      rcases e with _ | ⟨_ | _⟩ <;> simp_all [current]
    refine ⟨h, _, ?_, hidle, ?_, rfl, fun _ _ => rfl, rfl, rfl⟩
    · simp [hobject, current]
    · rw [hobject]
      rfl
  | none =>
    have hobject' : (take_exception h l).1.objects l =
        { current_result := none, handle := x, top := some lt, exception := none } := by
      simp [take_exception, hobject, hcur]
    refine ⟨(take_exception h l).1, none, ?_, ⟨?_, ⟨x, hobject'⟩, fun _ => rfl, hidle.bounded⟩, ?_, rfl,
      fun j hj => Heap.put_object_objects_of_ne _ _ hj, rfl, rfl⟩
    · simp [hobject, hcur]
    · exact hidle.tree.of_same (fun _ _ => rfl) le_rfl
    · rw [hobject']

/-- The holder of a leaf asks it once more, or hands it over. -/
theorem pulled_spec (hl : Level h N c own i t w fs bs) (hholder : Holder h w l left) (habove : N ≤ l)
    (hdisj : Disjoint own lown) (hidle : Idle h lown l lt st e) (ready : Bool) :
    ∃ h' next, (∀ n, resume n ready h w = some (h', next)) ∧
      Stepped h h' N c (own ∪ lown) i t w (holding ((pending st).drop left) (work st + (2 * left + 1)) bs) next := by
  obtain ⟨p, hp, hleaf, hpull⟩ := hholder
  obtain ⟨hdone, bs, rfl⟩ := hl.tree.chain.head hp
  have hw := hl.tree.owned w (List.mem_cons_self ..)
  have hwout : ∀ x ∈ lown, x ≠ w := fun x hx heq => Set.disjoint_left.mp hdisj hw (heq ▸ hx)
  have hil : i ≠ l := ne_of_lt (hl.older.trans_le habove)
  obtain ⟨h₁, e₁, htaken, hidle₁, hex₁, hframes₁, hobjects₁, hnf₁, hno₁⟩ := taken_spec hidle
  have hp₁ : h₁.frames w = some p := by rw [hframes₁, hp]
  have hl₁ : Level h₁ N c own i t w fs (p.body :: bs) :=
    ⟨hl.tree.of_frames hframes₁ hnf₁, by rw [hobjects₁ i hil]; exact hl.object, hl.older,
      hl.room.trans_eq hno₁.symm⟩
  have hframed₁ : Framed h h₁ (own ∪ lown) := (Framed.refl h _).of_frames hframes₁ hnf₁ hno₁
  have hresume : ∀ n, resume n ready h w = pull h w l left := by
    intro n
    simp only [resume, hp, Option.bind_eq_bind, Option.bind_some, hdone, Bool.false_eq_true, ↓reduceIte, hpull]
  simp only [hresume, forall_const]
  cases left with
  | zero =>
    obtain ⟨x, hobject⟩ := hidle₁.object
    let p₂ : Frame V E (Channel V E) := { p with pulling := none }
    let h₂ := h₁.put w p₂
    let p₃ : Frame V E (Channel V E) := { p₂ with leaf := some (h₂.objects l) }
    let h₃ := (h₂.put w p₃).put_object l LeafObject.default
    have hp₂ : h₂.frames w = some p₂ := h₁.put_frames_self w p₂
    have hp₃ : h₃.frames w = some p₃ := h₂.put_frames_self w p₃
    have hmove : move_construct h₂ (.awaiter w) (.object l) = some h₃ := move_construct_awaiter_eq hp₂
    have hframes₃ : ∀ x, x ≠ w → h₃.frames x = h₁.frames x := fun x hx =>
      (h₂.put_frames_of_ne p₃ hx).trans (h₁.put_frames_of_ne p₂ hx)
    have hobjects₃ : ∀ j, j ≠ l → h₃.objects j = h₁.objects j := fun j hj =>
      Heap.put_object_objects_of_ne _ _ hj
    have hl₃ : Level h₃ N c own i t w fs (p.body :: bs) := by
      refine ⟨hl₁.tree.of_worker (q := p₃) hp₁ hp₃ rfl rfl rfl hdone (fun x _ => hframes₃ x) le_rfl, ?_, hl₁.older,
        hl₁.room⟩
      rw [hobjects₃ i hil]
      exact hl₁.object
    have hleaf₃ : LeafTree h₃ lown lt st := hidle₁.tree.of_same (fun x hx => hframes₃ x (hwout x hx)) le_rfl
    have htop : (h₂.objects l).top = some lt := by rw [h₁.put_objects, hobject]
    obtain ⟨h₄, w', lbs, hawait, hrunning, hpending, hwork, hframed₄, hobjects₄, hnf₄⟩ :=
      hl₃.co_await_leaf hleaf₃ hp₃ rfl rfl htop hdisj
    refine ⟨h₄, .transfer (.coroutine w'), ?_, ?_, ?_, ?_⟩
    · simp only [pull, htaken, Heap.modify_eq hp₁, Option.bind_eq_bind, Option.bind_some]
      rw [hmove, Option.bind_some, hawait, Option.bind_some]
    · rw [grown_of_eq (own ∪ lown) (show h₄.next_frame = h.next_frame from hnf₄.trans hnf₁)]
      refine .transfer hrunning ⟨?_, top_throws_append lbs (by simp), ?_⟩
      · simp only [of_bodies, holding, pending_append, hpending, List.drop_zero]
      · simp only [of_bodies, holding, work_append, hwork]
        omega
    · have hframed₃ : Framed h h₃ (own ∪ lown) := by
        refine ⟨hnf₁.ge, hno₁.ge, fun y hy hout => ?_⟩
        have hne : y ≠ w := fun heq => hout (heq ▸ Or.inl hw)
        rw [hframes₃ y hne, hframes₁]
      have hgrown : grown (own ∪ lown) h h₃ = own ∪ lown := grown_of_eq _ hnf₁
      exact hframed₃.trans (hgrown.symm ▸ hframed₄)
    · intro j hj _
      have hne := ne_of_lt (hj.trans_le habove)
      rw [hobjects₄, hobjects₃ j hne, hobjects₁ j hne]
  | succ left =>
    let p₂ : Frame V E (Channel V E) := { p with pulling := some (l, left) }
    let h₂ := h₁.put w p₂
    have hl₂ : Level h₂ N c own i t w fs (p.body :: bs) := hl₁.put_worker (q := p₂) hp₁ rfl rfl rfl hdone
    have hidle₂ : Idle h₂ lown l lt st e₁ :=
      hidle₁.of_same (fun x hx => h₁.put_frames_of_ne p₂ (hwout x hx)) rfl le_rfl le_rfl
    have hholder₂ : Holder h₂ w l left := ⟨p₂, h₁.put_frames_self w p₂, hleaf, rfl⟩
    have hframed₂ : Framed h h₂ (own ∪ lown) := hframed₁.put p₂ (Or.inl hw)
    have hempty := hidle₂.empty_eq
    have hothers : OthersKept h h₂ N i := fun j hj _ => hobjects₁ j (ne_of_lt (hj.trans_le habove))
    cases st with
    | none =>
      refine ⟨h₂, .transfer (.coroutine w), ?_, ?_, hframed₂, hothers⟩
      · simp only [pull, htaken, Heap.modify_eq hp₁, Option.bind_eq_bind, Option.bind_some]
        rw [hempty]
        rfl
      · rw [grown_of_eq (own ∪ lown) (show h₂.next_frame = h.next_frame from hnf₁)]
        refine .transfer (.pulled hl₂ hholder₂ habove hdisj hidle₂) ⟨?_, rfl, ?_⟩
        · simp only [holding, pending, List.drop_nil]
        · simp only [holding]
          omega
    | some lbs =>
      obtain ⟨x, hobject₂⟩ := hidle₂.object
      obtain ⟨h₃, r, hstart, hrunning, hframed₃, hobjects₃, hnf₃⟩ :=
        starter_spec hidle₂.tree (by rw [hobject₂]) (Nat.lt_succ_self l) hidle₂.bounded (.coroutine w)
      rw [hidle₂.receiver_eq hex₁] at hrunning
      have hobject : h₃.objects i = h₂.objects i := hobjects₃ i hil
      refine ⟨h₃, .transfer (.coroutine r), ?_, ?_, ?_, ?_⟩
      · simp only [pull, htaken, Heap.modify_eq hp₁, Option.bind_eq_bind, Option.bind_some, next_awaiter.await_suspend]
        rw [hempty, Option.bind_some, hstart]
        rfl
      · rw [grown_of_eq (own ∪ lown) (show h₃.next_frame = h.next_frame from hnf₃.trans hnf₁)]
        refine .transfer (.pulling (hl₂.of_framed hframed₃ hdisj hobject) (hholder₂.of_framed hl₂ hframed₃ hdisj)
          habove hdisj hrunning) ⟨rfl, rfl, ?_⟩
        simp only [holding, of_bodies]
        omega
      · have hgrown : grown (own ∪ lown) h h₂ = own ∪ lown := grown_of_eq _ hnf₁
        exact hframed₂.trans (hgrown.symm ▸ hframed₃.mono Set.subset_union_right)
      · exact fun j hj hne => (hobjects₃ j (ne_of_lt (hj.trans_le habove))).trans (hothers j hj hne)

/-- One step of whichever coroutine goes on, at any depth of iterated channels. -/
theorem resume_spec {r : FrameId} {s : Backlog V E} (hr : Running h N c own i t r s) (ready : Bool) :
    ∃ h' next, Returns (fun n => resume n ready h r) (h', next) ∧ Stepped h h' N c own i t r s next := by
  induction hr with
  | working level left => exact working_spec level left ready
  | pulled level holder above disj inner =>
    obtain ⟨h', next, hresume, hstepped⟩ := pulled_spec level holder above disj inner ready
    exact ⟨h', next, ⟨0, fun n _ => hresume n⟩, hstepped⟩
  | @pulling N c own lown i l left t w lt r fs bs s level holder above disj inner ih =>
    obtain ⟨h', next, hret, hstepped⟩ := ih
    obtain ⟨hprogress, hframed, hothers⟩ := hstepped
    have hothers' : ∀ j, j < N → h'.objects j = h.objects j := fun j hj =>
      hothers j ((hj.trans_le above).trans (Nat.lt_succ_self l)) (ne_of_lt (hj.trans_le above))
    refine ⟨h', next, hret, ?_, hframed.mono Set.subset_union_right, fun j hj _ => hothers' j hj⟩
    have hlevel := level.of_framed hframed disj (hothers' i level.older)
    have hholder := holder.of_framed level hframed disj
    have hdisj : Disjoint own (grown lown h h') := disj.union_right (level.tree.disjoint_fresh _)
    have hown : grown (own ∪ lown) h h' = own ∪ grown lown h h' := Set.union_assoc ..
    rw [hown]
    cases hprogress with
    | transfer running quiet =>
      refine .transfer (.pulling hlevel hholder above hdisj running) ⟨?_, rfl, ?_⟩
      · simp only [holding, quiet.events]
      · simp only [holding]
        exact Nat.add_lt_add_right (Nat.add_lt_add_right quiet.less _) _
    | await running quiet =>
      refine .await (.pulling hlevel hholder above hdisj running) ⟨?_, rfl, ?_⟩
      · simp only [holding, quiet.events]
      · simp only [holding]
        exact Nat.add_lt_add_right (Nat.add_lt_add_right quiet.less _) _
    | answered told answered =>
      refine .transfer (.pulled hlevel hholder above hdisj told.idle) ⟨?_, rfl, ?_⟩
      · simp only [holding, answered.events, List.drop_tail]
      · have hless := answered.less
        simp only [holding]
        omega
    | terminated _ untaken => cases untaken

/-- Whoever goes on is a coroutine that was called. -/
theorem Running.lt_next_frame {r : FrameId} {s : Backlog V E} (hr : Running h N c own i t r s) : r < h.next_frame := by
  induction hr with
  | working level _ | pulled level _ _ _ _ => exact level.tree.bounded _ (level.tree.owned _ (List.mem_cons_self ..))
  | pulling _ _ _ _ _ ih => exact ih

end iterating

end kelcoro.channel
