import Kelcoro.GeneratorsCommon.Body

namespace kelcoro.generators_common

abbrev FrameId := Nat

/-- Where a generator or channel object lives: it is an object of its user, or
the `leaf` of the `attach_leaf` awaiter inside a suspended coroutine. -/
inductive Place where
  | object (id : Nat)
  | awaiter (frame : FrameId)
  deriving DecidableEq, Repr

/-- The union of `_consumer` and `_owner` in a promise. Reading the member that
was not written last is undefined. -/
inductive Link where
  | uninit
  | consumer (place : Place)
  | owner (frame : FrameId)
  deriving DecidableEq, Repr

/-- A coroutine frame: the promise fields that generators and channels share,
and the suspended body. `leaf` is the object held by the `attach_leaf` awaiter
the body is suspended on. `pulling` is used by channels only: the object the
body iterates itself, and how many requests it still makes. -/
structure Frame (V E O : Type) where
  root : FrameId
  current_worker : FrameId
  link : Link
  body : Body V E
  done : Bool
  leaf : Option O
  pulling : Option (Nat × Nat)

/-- The frame without the two pointers that are repaired lazily. -/
def Frame.core {V E O : Type} (p : Frame V E O) : Frame V E O :=
  { p with root := 0, current_worker := 0 }

/-- A new coroutine stops in `initial_suspend` with `root == this` and
`current_worker == self_handle()`. -/
def Frame.started {V E O : Type} (f : FrameId) (body : Body V E) : Frame V E O :=
  { root := f, current_worker := f, link := .uninit, body, done := false, leaf := none, pulling := none }

/-- A destroyed frame is `none`: every access to it is undefined. -/
structure Heap (V E O : Type) where
  frames : FrameId → Option (Frame V E O)
  objects : Nat → O
  next_frame : FrameId
  next_object : Nat

/-- The part of generators and channels that the shared templates rely on. -/
class LeafObject (O : Type) where
  default : O
  top : O → Option FrameId
  set_top : O → Option FrameId → O
  top_default : top default = none
  top_set_top : ∀ o t, top (set_top o t) = t

attribute [simp] LeafObject.top_default LeafObject.top_set_top

namespace Heap

variable {V E O : Type}

/-- No coroutine was called yet. -/
def initial [LeafObject O] : Heap V E O :=
  { frames := fun _ => none, objects := fun _ => LeafObject.default, next_frame := 0, next_object := 0 }

def put (h : Heap V E O) (f : FrameId) (p : Frame V E O) : Heap V E O :=
  { h with frames := Function.update h.frames f (some p) }

def free (h : Heap V E O) (f : FrameId) : Heap V E O :=
  { h with frames := Function.update h.frames f none }

def put_object (h : Heap V E O) (i : Nat) (o : O) : Heap V E O :=
  { h with objects := Function.update h.objects i o }

def modify (h : Heap V E O) (f : FrameId) (g : Frame V E O → Frame V E O) : Option (Heap V E O) :=
  (h.frames f).map fun p => h.put f (g p)

def object (h : Heap V E O) : Place → Option O
  | .object i => some (h.objects i)
  | .awaiter f => (h.frames f).bind (·.leaf)

def set_object (h : Heap V E O) (place : Place) (o : O) : Option (Heap V E O) :=
  match place with
  | .object i => some (h.put_object i o)
  | .awaiter f => h.modify f ({ · with leaf := some o })

def allocate (h : Heap V E O) (body : Body V E) : Heap V E O × FrameId :=
  let f := h.next_frame
  ({ h.put f (.started f body) with next_frame := f + 1 }, f)

/-- A default constructed object of the user. -/
def new_object [LeafObject O] (h : Heap V E O) : Heap V E O × Nat :=
  ({ h.put_object h.next_object LeafObject.default with next_object := h.next_object + 1 },
    h.next_object)

@[simp] theorem put_frames_self (h : Heap V E O) (f : FrameId) (p : Frame V E O) :
    (h.put f p).frames f = some p := by simp [put]

@[simp] theorem put_frames_of_ne (h : Heap V E O) {f x : FrameId} (p : Frame V E O) (hx : x ≠ f) :
    (h.put f p).frames x = h.frames x := by simp [put, hx]

@[simp] theorem put_put (h : Heap V E O) (f : FrameId) (p q : Frame V E O) :
    (h.put f p).put f q = h.put f q := by simp [put]

@[simp] theorem put_objects (h : Heap V E O) (f : FrameId) (p : Frame V E O) :
    (h.put f p).objects = h.objects := rfl

@[simp] theorem put_next_frame (h : Heap V E O) (f : FrameId) (p : Frame V E O) :
    (h.put f p).next_frame = h.next_frame := rfl

@[simp] theorem put_next_object (h : Heap V E O) (f : FrameId) (p : Frame V E O) :
    (h.put f p).next_object = h.next_object := rfl

@[simp] theorem free_frames_of_ne (h : Heap V E O) {f x : FrameId} (hx : x ≠ f) :
    (h.free f).frames x = h.frames x := by simp [free, hx]

@[simp] theorem free_objects (h : Heap V E O) (f : FrameId) : (h.free f).objects = h.objects := rfl

@[simp] theorem free_next_frame (h : Heap V E O) (f : FrameId) :
    (h.free f).next_frame = h.next_frame := rfl

@[simp] theorem free_next_object (h : Heap V E O) (f : FrameId) :
    (h.free f).next_object = h.next_object := rfl

@[simp] theorem put_object_frames (h : Heap V E O) (i : Nat) (o : O) :
    (h.put_object i o).frames = h.frames := rfl

@[simp] theorem put_object_objects_self (h : Heap V E O) (i : Nat) (o : O) :
    (h.put_object i o).objects i = o := by simp [put_object]

@[simp] theorem put_object_objects_of_ne (h : Heap V E O) {i j : Nat} (o : O) (hj : j ≠ i) :
    (h.put_object i o).objects j = h.objects j := by simp [put_object, hj]

@[simp] theorem put_object_next_frame (h : Heap V E O) (i : Nat) (o : O) :
    (h.put_object i o).next_frame = h.next_frame := rfl

@[simp] theorem put_object_next_object (h : Heap V E O) (i : Nat) (o : O) :
    (h.put_object i o).next_object = h.next_object := rfl

theorem modify_eq {h : Heap V E O} {f : FrameId} {p : Frame V E O} (hf : h.frames f = some p)
    (g : Frame V E O → Frame V E O) : h.modify f g = some (h.put f (g p)) := by
  simp [modify, hf]

theorem set_object_frames_none {h h' : Heap V E O} {place : Place} {o : O} {f : FrameId}
    (hset : h.set_object place o = some h') (hf : h.frames f = none) : h'.frames f = none := by
  cases place with
  | object i =>
    cases hset
    exact hf
  | awaiter g =>
    obtain ⟨p, hp, rfl⟩ := Option.map_eq_some_iff.mp hset
    have hne : f ≠ g := fun heq => by rw [heq, hp] at hf; cases hf
    rw [h.put_frames_of_ne _ hne, hf]

end Heap

section templates

variable {V E O : Type} [LeafObject O]

open LeafObject

/-- `empty()`: there is no coroutine, or it has finished. -/
def empty (h : Heap V E O) (place : Place) : Option Bool := do
  let self ← h.object place
  match top self with
  | none => some true
  | some t => (h.frames t).map (·.done)

omit [LeafObject O] in
/-- `owner()` of a promise, defined in leafs only. -/
def owner (h : Heap V E O) (this : FrameId) : Option FrameId := do
  let p ← h.frames this
  if p.root = this then none else
  match p.link with
  | .owner o => some o
  | _ => none

omit [LeafObject O] in
/-- `skip_this_leaf`: the owner learns the root the leaf had, and becomes its
current worker. -/
def skip_this_leaf (h : Heap V E O) (this : FrameId) : Option (Heap V E O) := do
  let p ← h.frames this
  if p.root = this then none else
  match p.link with
  | .owner o =>
    if o = this then none else do
    let h ← h.modify o ({ · with root := p.root })
    h.modify p.root ({ · with current_worker := o })
  | _ => none

/-- `attach_leaf::await_ready`. -/
def attach_leaf.await_ready (h : Heap V E O) (owner : FrameId) : Option Bool :=
  empty h (.awaiter owner)

/-- `attach_leaf::await_suspend`: the innermost worker of the leaf gets the root
of the owner, the owner link goes into the top of the leaf, and control passes
to that innermost worker. -/
def attach_leaf.await_suspend (h : Heap V E O) (owner : FrameId) :
    Option (Heap V E O × FrameId) := do
  let leaf ← h.object (.awaiter owner)
  let leaf_top ← top leaf
  if owner = leaf_top then none else
  let root := (← h.frames owner).root
  let h ← h.modify (← h.frames leaf_top).current_worker ({ · with root := root })
  let h ← h.modify leaf_top ({ · with link := .owner owner })
  let worker := (← h.frames leaf_top).current_worker
  let h ← h.modify root ({ · with current_worker := worker })
  some (h, (← h.frames leaf_top).current_worker)

/-- `co_await attach_leaf`: the coroutine that runs next. -/
def co_await_leaf (h : Heap V E O) (f : FrameId) : Option (Heap V E O × FrameId) := do
  if ← attach_leaf.await_ready h f then some (h, f) else attach_leaf.await_suspend h f

/- Destroying a suspended coroutine destroys the awaiter in its frame, and with
it the leaf the awaiter holds. `clear` loops because destroying a frame may put
a new coroutine into the object. -/
mutual
def clear : Nat → Heap V E O → Place → Option (Heap V E O)
  | 0, _, _ => none
  | n + 1, h, place => do
    let self ← h.object place
    match top self with
    | none => some h
    | some t => do
      let h ← h.set_object place (set_top self none)
      let h ← destroy n h t
      clear n h place

def destroy : Nat → Heap V E O → FrameId → Option (Heap V E O)
  | 0, _, _ => none
  | n + 1, h, f => do
    let p ← h.frames f
    let h ← if p.leaf.isSome then clear n h (.awaiter f) else some h
    some (h.free f)
end

/-- The end of the full expression `co_yield elements_of(..)` after its
`await_resume`: the awaiter is destroyed together with the finished leaf. -/
def leave_elements_of (n : Nat) (h : Heap V E O) (f : FrameId) : Option (Heap V E O) := do
  let p ← h.frames f
  if p.leaf.isSome then do
    let h ← clear n h (.awaiter f)
    h.modify f ({ · with leaf := none })
  else some h

end templates

end kelcoro.generators_common
