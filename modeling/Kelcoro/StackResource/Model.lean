import Kelcoro.Lib.Returns
import Kelcoro.Lib.Run
import Mathlib

namespace kelcoro.memory_support

/-- `noexport::padding_len<RequiredPadding>`. -/
def padding_len (P sz : Nat) : Nat := (P - sz % P) % P

end kelcoro.memory_support

namespace kelcoro.stack_resource

open kelcoro.memory_support kelcoro.lib

/-- size_t and addresses are 64 bits wide. -/
def wrap (n : Nat) : Nat := n % 2 ^ 64

/-- The difference of two pointers as a size_t, and a pointer moved back. -/
def sub (a b : Nat) : Nat := wrap (a + 2 ^ 64 - b)

def coroframe_align : Nat := 16

def sizeof_chunk_header : Nat := 32

structure ChunkHeader where
  b : Nat
  m : Nat
  e : Nat
  freelist_next : Option Nat
  deriving DecidableEq, Repr

def ChunkHeader.capacity (h : ChunkHeader) : Nat := sub h.e h.b

/-- What `new byte_t[size]` returned; `serial` counts the calls. -/
structure Region where
  size : Nat
  serial : Nat
  deriving DecidableEq, Repr

/-- The heap chunks. `deleted` logs the serials given to `delete[]`. -/
structure Memory where
  regions : Nat → Option Region
  headers : Nat → ChunkHeader
  obtained : Nat
  deleted : List Nat

namespace Memory

/-- Reading a header outside of a live region is undefined. -/
def header (mem : Memory) (c : Nat) : Option ChunkHeader := do
  let region ← mem.regions c
  guard (sizeof_chunk_header ≤ region.size)
  some (mem.headers c)

def set_header (mem : Memory) (c : Nat) (h : ChunkHeader) : Option Memory := do
  let region ← mem.regions c
  guard (sizeof_chunk_header ≤ region.size)
  some { mem with headers := Function.update mem.headers c h }

def new_chunk (mem : Memory) (c size : Nat) : Memory :=
  { mem with
    regions := Function.update mem.regions c (some { size := size, serial := mem.obtained })
    obtained := mem.obtained + 1 }

def delete_chunk (mem : Memory) (c : Nat) : Option Memory := do
  let region ← mem.regions c
  some { mem with
    regions := Function.update mem.regions c none
    deleted := mem.deleted ++ [region.serial] }

end Memory

namespace freelist_t

def push (mem : Memory) (top : Option Nat) (chunk : Nat) : Option (Memory × Option Nat) := do
  let h ← mem.header chunk
  let mem ← mem.set_header chunk { h with freelist_next := top }
  some (mem, some chunk)

def take_atleast.loop (bytes : Nat) :
    Nat → Memory → Option Nat → Option Nat → Option Nat → Option (Memory × Option Nat × Option Nat)
  | 0, _, _, _, _ => none
  | _ + 1, mem, top, _, none => some (mem, top, none)
  | n + 1, mem, top, prev, some c => do
    let h ← mem.header c
    guard (h.b = h.m)
    if bytes ≤ h.capacity then
      match prev with
      | some prev => do
        let p ← mem.header prev
        let mem ← mem.set_header prev { p with freelist_next := h.freelist_next }
        some (mem, top, some c)
      | none => some (mem, h.freelist_next, some c)
    else loop bytes n mem top (some c) h.freelist_next

/-- The first chunk with room for `bytes`, unlinked, and the new top. -/
def take_atleast (n : Nat) (mem : Memory) (top : Option Nat) (bytes : Nat) :
    Option (Memory × Option Nat × Option Nat) :=
  take_atleast.loop bytes n mem top none top

def drop_all : Nat → Memory → Option Nat → Option Memory
  | 0, _, _ => none
  | _ + 1, mem, none => some mem
  | n + 1, mem, some top => do
    let h ← mem.header top
    let mem ← mem.delete_chunk top
    drop_all n mem h.freelist_next

end freelist_t

structure Span where
  data : Nat
  size : Nat
  deriving DecidableEq, Repr

structure StackResource where
  initial_buffer : Span
  b : Nat
  m : Nat
  e : Nat
  top : Option Nat
  deriving DecidableEq, Repr

/-- `std::align` leaves nothing when the padding does not fit. -/
def align_span (bytes : Span) : Span :=
  let padding := padding_len coroframe_align bytes.data
  if padding ≤ bytes.size ∧ wrap (bytes.data + padding) ≠ 0 then
    { data := wrap (bytes.data + padding), size := bytes.size - padding }
  else { data := 0, size := 0 }

/-- `stack_resource(std::span<byte_t> bytes)`. -/
def construct (bytes : Span) : StackResource :=
  let initial_buffer := align_span bytes
  { initial_buffer := initial_buffer
    b := initial_buffer.data
    m := initial_buffer.data
    e := wrap (initial_buffer.data + initial_buffer.size)
    top := none }

/-- What the move constructor leaves in `other`. -/
def moved_from : StackResource :=
  { initial_buffer := { data := 0, size := 0 }, b := 0, m := 0, e := 0, top := none }

def prev_chunk (r : StackResource) : Option Nat := do
  guard (r.b ≠ r.initial_buffer.data)
  some (sub r.b sizeof_chunk_header)

def drop_cur_chunk (mem : Memory) (r : StackResource) : Option (Memory × StackResource) := do
  guard (r.b = r.m)
  guard (r.b ≠ r.initial_buffer.data)
  let chunk ← prev_chunk r
  let h ← mem.header chunk
  let mem ← mem.set_header chunk { h with b := r.b, m := r.m, e := r.e }
  let (mem, top) ← freelist_t.push mem r.top chunk
  some (mem, { r with b := h.b, m := h.m, e := h.e, top := top })

def aligned (bytes : Nat) : Nat := wrap (bytes + padding_len coroframe_align bytes)

/-- How much `allocate` asks `new[]` for behind the header when neither the
current chunk nor the freelist has room for `len` bytes. -/
def alloc_bytes (r : StackResource) (len : Nat) : Nat :=
  wrap (wrap (wrap (len + sub r.e r.b) + r.initial_buffer.size) * 2)

/-- The resource goes on in a chunk of the freelist. -/
def allocate.take_chunk (mem : Memory) (r : StackResource) (chunk len : Nat) :
    Option (Memory × StackResource × Option Nat) := do
  let h ← mem.header chunk
  guard (h.b = h.m)
  let mem ← mem.set_header chunk { h with b := r.b, m := r.m, e := r.e }
  some (mem, { r with b := h.b, m := wrap (h.m + len), e := h.e }, some h.b)

/-- `new` stands for `new byte_t[]`, which fails with an exception (`none`) or
returns an address; the pointer `allocate` returns is `none` in the first case. -/
def allocate.new_chunk (new : Nat → Option Nat) (mem : Memory) (r : StackResource) (len : Nat) :
    Option (Memory × StackResource × Option Nat) :=
  let size := wrap (sizeof_chunk_header + alloc_bytes r len)
  match new size with
  | none => some (mem, r, none)
  | some new_chunk => do
    let mem := mem.new_chunk new_chunk size
    let mem ← mem.set_header new_chunk { b := r.b, m := r.m, e := r.e, freelist_next := none }
    let b := wrap (new_chunk + sizeof_chunk_header)
    some (mem, { r with b := b, m := wrap (b + len), e := wrap (b + alloc_bytes r len) }, some b)

def allocate (n : Nat) (new : Nat → Option Nat) (mem : Memory) (r : StackResource) (len : Nat) :
    Option (Memory × StackResource × Option Nat) :=
  let len := aligned len
  if len ≤ sub r.e r.m then
    some (mem, { r with m := wrap (r.m + len) }, some r.m)
  else do
    let (mem, top, chunk) ← freelist_t.take_atleast n mem r.top len
    match chunk with
    | some chunk => allocate.take_chunk mem { r with top := top } chunk len
    | none => allocate.new_chunk new mem { r with top := top } len

def deallocate.loop (ptr len : Nat) :
    Nat → Memory → StackResource → Option (Memory × StackResource)
  | 0, _, _ => none
  | n + 1, mem, r =>
    if ptr ≠ sub r.m len then do
      guard (ptr ≤ r.b ∨ r.e ≤ ptr)
      let (mem, r) ← drop_cur_chunk mem r
      loop ptr len n mem r
    else some (mem, r)

def deallocate (n : Nat) (mem : Memory) (r : StackResource) (ptr len : Nat) :
    Option (Memory × StackResource) := do
  guard (ptr % 16 = 0)
  let len := aligned len
  let (mem, r) ← deallocate.loop ptr len n mem r
  some (mem, { r with m := sub r.m len })

def reuse_memory : Nat → Memory → StackResource → Option (Memory × StackResource)
  | 0, _, _ => none
  | n + 1, mem, r =>
    if r.b ≠ r.initial_buffer.data then do
      let (mem, r) ← drop_cur_chunk mem { r with m := r.b }
      reuse_memory n mem r
    else some (mem, r)

/-- `~stack_resource`. -/
def destroy (n : Nat) (mem : Memory) (r : StackResource) : Option Memory := do
  let (mem, r) ← reuse_memory n mem r
  freelist_t.drop_all n mem r.top

/-- A block as the caller knows it: the pointer `allocate` returned, and the
length it was asked for. -/
structure Block where
  ptr : Nat
  len : Nat
  deriving DecidableEq, Repr

abbrev ObjId := Nat

/-- The program's resources and the heap they share. `live` is what the callers
keep: the blocks of each resource that were not deallocated, last first. -/
structure World where
  memory : Memory
  resources : ObjId → Option StackResource
  live : ObjId → List Block

namespace World

def empty : World where
  memory :=
    { regions := fun _ => none
      headers := fun _ => { b := 0, m := 0, e := 0, freelist_next := none }
      obtained := 0
      deleted := [] }
  resources := fun _ => none
  live := fun _ => []

def set (w : World) (this : ObjId) (memory : Memory) (r : Option StackResource)
    (live : List Block) : World :=
  { memory := memory
    resources := Function.update w.resources this r
    live := Function.update w.live this live }

section Set

variable (w : World) (this : ObjId) (memory : Memory) (r : Option StackResource) (live : List Block)

@[simp] theorem set_memory : (w.set this memory r live).memory = memory := rfl

@[simp] theorem set_resources : (w.set this memory r live).resources this = r := by simp [set]

@[simp] theorem set_live : (w.set this memory r live).live this = live := by simp [set]

theorem set_resources_of_ne {x : ObjId} (hne : x ≠ this) :
    (w.set this memory r live).resources x = w.resources x := by
  simp [set, hne]

end Set

end World

/-- The operations on resource objects. The blocks of a resource follow it when
it is moved from; `reuse_memory`, the destructor and an assignment to it end
their lives. -/
inductive Action where
  | construct (this : ObjId) (bytes : Span)
  | move_construct (this other : ObjId)
  | move_assign (this other : ObjId)
  | destroy (this : ObjId)
  | allocate (this : ObjId) (len : Nat) (new : Nat → Option Nat)
  | deallocate (this : ObjId)
  | reuse_memory (this : ObjId)

def step.destroy (n : Nat) (w : World) (this : ObjId) : Option World := do
  let r ← w.resources this
  let mem ← stack_resource.destroy n w.memory r
  some (w.set this mem none [])

def step.move_construct (w : World) (this other : ObjId) : Option World := do
  let r ← w.resources other
  let blocks := w.live other
  let w := w.set other w.memory (some moved_from) []
  some (w.set this w.memory (some r) blocks)

def step (n : Nat) (w : World) : Action → Option World
  | .construct this bytes => some (w.set this w.memory (some (stack_resource.construct bytes)) [])
  | .move_construct this other => step.move_construct w this other
  | .move_assign this other =>
    if other ≠ this then do
      let w ← step.destroy n w this
      step.move_construct w this other
    else some w
  | .destroy this => step.destroy n w this
  | .allocate this len new => do
    let r ← w.resources this
    let (mem, r, ptr) ← stack_resource.allocate n new w.memory r len
    match ptr with
    | some ptr => some (w.set this mem (some r) ({ ptr := ptr, len := len } :: w.live this))
    | none => some (w.set this mem (some r) (w.live this))
  | .deallocate this => do
    let r ← w.resources this
    match w.live this with
    | [] => none
    | block :: live => do
      let (mem, r) ← stack_resource.deallocate n w.memory r block.ptr block.len
      some (w.set this mem (some r) live)
  | .reuse_memory this => do
    let r ← w.resources this
    let (mem, r) ← stack_resource.reuse_memory n w.memory r
    some (w.set this mem (some r) [])

/-- `std::swap` on two resources, `tmp` being its local object. -/
def swap (a b tmp : ObjId) : List Action :=
  [.move_construct tmp a, .move_assign a b, .move_assign b tmp, .destroy tmp]

/-- `len` bytes from `a` and `len'` bytes from `a'` do not overlap; an empty
piece does not lie strictly inside the other one. -/
def Apart (a len a' len' : Nat) : Prop := a + len ≤ a' ∨ a' + len' ≤ a

instance (a len a' len' : Nat) : Decidable (Apart a len a' len') := by
  unfold Apart; infer_instance

/-- No size_t sum that `allocate(len)` makes wraps. The sizes of a new chunk are
computed only when there is no room elsewhere. -/
structure NoWrap (mem : Memory) (r : StackResource) (len : Nat) : Prop where
  padded : len + padding_len coroframe_align len < 2 ^ 64
  grown : sub r.e r.m < aligned len →
    Returns (fun n => freelist_t.take_atleast n mem r.top (aligned len)) (mem, r.top, none) →
    sizeof_chunk_header + (aligned len + sub r.e r.b + r.initial_buffer.size) * 2 < 2 ^ 64

/-- What `new byte_t[]` promises: aligned storage that overlaps neither another
live chunk nor the initial buffer, which is the caller's own storage. -/
def NewContract (mem : Memory) (initial_buffer : Span) (new : Nat → Option Nat) : Prop :=
  ∀ size c, new size = some c →
    0 < c ∧ coroframe_align ∣ c ∧ c + size < 2 ^ 64 ∧
    (∀ c' region, mem.regions c' = some region → Apart c size c' region.size) ∧
    Apart initial_buffer.data initial_buffer.size c size

/-- The calls a well behaved program makes. -/
def Allowed (w : World) : Action → Prop
  | .construct this bytes => w.resources this = none ∧ bytes.data + bytes.size < 2 ^ 64
  | .move_construct this other => w.resources this = none ∧ (w.resources other).isSome
  | .move_assign this other => (w.resources this).isSome ∧ (w.resources other).isSome
  | .destroy this => (w.resources this).isSome
  | .allocate this len new => ∃ r, w.resources this = some r ∧ NoWrap w.memory r len ∧
      NewContract w.memory r.initial_buffer new
  | .deallocate this => (w.resources this).isSome ∧ w.live this ≠ []
  | .reuse_memory this => (w.resources this).isSome

def Step (w : World) (a : Action) (w' : World) : Prop :=
  Allowed w a ∧ Returns (fun n => step n w a) w'

end kelcoro.stack_resource
