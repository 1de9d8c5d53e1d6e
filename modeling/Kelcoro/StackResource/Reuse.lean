import Kelcoro.StackResource.Sizes
import Mathlib

namespace kelcoro.stack_resource

open kelcoro.memory_support kelcoro.lib

/-- All memory of the resource is unused: its chunks are on the freelist, whose
headers have `b` and `m` at the start of their data, and `m` is at the start of
the initial buffer, which is where a block that fits the buffer comes to lie. -/
structure Reused (mem : Memory) (r : StackResource) (chunks : List Nat) : Prop where
  freelist : FreeList mem r.top chunks
  start : r.b = r.initial_buffer.data
  unused : r.m = r.initial_buffer.data
  stop : r.e = r.initial_buffer.data + r.initial_buffer.size
  next : ∀ len new,
    len + padding_len coroframe_align len ≤ r.initial_buffer.size →
    ∃ mem' r', Returns (fun n => allocate n new mem r len) (mem', r', some r.initial_buffer.data)

variable {mem mem' : Memory} {w : World} {r r' : StackResource} {chunks free : List Nat}
  {live : List Block}

/-- A resource that holds nothing but a freelist is unused up to `m` of its
initial buffer. -/
theorem Holds.reused (h : Holds mem r [] free []) (hm : r.m = r.initial_buffer.data) :
    Reused mem r free := by
  obtain ⟨hb, he, -⟩ := h.chain.buffer_inv
  refine ⟨h.freelist, hb, hm, he, fun len new hfits => ?_⟩
  have hend := h.buffer_lt
  have haligned : aligned len = len + padding_len coroframe_align len := wrap_of_lt (by omega)
  have hroom : aligned len ≤ sub r.e r.m := by
    rw [sub_of_le (by omega) (by omega), he, hm]
    omega
  refine ⟨mem, { r with m := wrap (r.m + aligned len) }, Returns.of_last fun n => ?_⟩
  simp only [allocate]
  rw [if_pos hroom, hm]

/-- In every run `reuse_memory` ends with every chunk on the freelist, and with
the initial buffer unused if and only if its `m` was at its start before. -/
theorem reuse_memory_reuses_iff {as : List Action} {this : ObjId}
    (hrun : Run SoundStep World.empty as w) (hr : w.resources this = some r) :
    ∃ chunks free, Chain w.memory r.initial_buffer r.b r.m r.e chunks (w.live this) ∧
      FreeList w.memory r.top free ∧
      ((∃ mem' r', Returns (fun n => reuse_memory n w.memory r) (mem', r') ∧
          r'.initial_buffer = r.initial_buffer ∧ Reused mem' r' (chunks.reverse ++ free)) ↔
        buffer_m w.memory r.m chunks = r.initial_buffer.data) := by
  obtain ⟨chain, free, howned⟩ := Owned.of_sound_run hrun
  have hholds := howned.resource hr
  obtain ⟨mem', r', hreturns, -, hsame, hm, hholds'⟩ := reuse_memory_spec howned.layout hholds
  refine ⟨chain this, free this, hholds.chain, hholds.freelist, ?_, fun hstart => ?_⟩
  · rintro ⟨mem'', r'', hreturns', hsame', hreused⟩
    cases hreturns.unique hreturns'
    rw [← hm, hreused.unused, hsame']
  · refine ⟨mem', r', hreturns, hsame, hholds'.reused ?_⟩
    rw [hm, hstart, hsame]

/-- The small buffer with a block that fills it. -/
def full_buffer : StackResource := { small_buffer with m := 48 }

theorem run_full_buffer : Run SoundStep World.empty
    ([.construct 0 { data := 8, size := 40 }] ++ [.allocate 0 20 (new_at 1024)])
    (World.empty.set 0 World.empty.memory (some full_buffer) [⟨16, 20⟩]) := by
  let w := World.empty.set 0 World.empty.memory (some small_buffer) []
  have hr : w.resources 0 = some small_buffer := World.set_resources ..
  have hallocate : ∀ n, allocate n (new_at 1024) World.empty.memory small_buffer 20 =
      some (World.empty.memory, full_buffer, some 16) := by
    intro n
    simp [allocate, aligned, padding_len, coroframe_align, sub, wrap, small_buffer, full_buffer]
  have hsized : Sized (new_at 1024) World.empty.memory small_buffer 20 :=
    ⟨by decide, fun _ _ _ _ _ _ => by decide⟩
  refine run_small_buffer.append (.cons ⟨⟨small_buffer, hr, hsized, new_at_contract fun _ => rfl⟩, ?_⟩
    (.nil _))
  apply Returns.of_last
  intro n
  simp [step, hallocate, World.set]

/-- The small buffer with two blocks in a chunk on the heap. -/
def buffer_with_chunk : StackResource := { small_buffer with b := 1056, m := 1184, e := 1408 }

/-- The header of the chunk has the state of the small buffer, with nothing in it. -/
def memory_with_chunk : Memory :=
  (World.empty.memory.new_chunk 1024 384).rewrite 1024 { b := 16, m := 16, e := 48, freelist_next := none }

/-- A block that the buffer has no room for, and a small one that lies behind it. -/
theorem run_buffer_with_chunk : Run SoundStep World.empty
    ([.construct 0 { data := 8, size := 40 }] ++ [.allocate 0 100 (new_at 1024), .allocate 0 8 fun _ => none])
    (World.empty.set 0 memory_with_chunk (some buffer_with_chunk) [⟨1168, 8⟩, ⟨1056, 100⟩]) := by
  let mem := World.empty.memory
  let half : StackResource := { buffer_with_chunk with m := 1168 }
  let w₁ := World.empty.set 0 mem (some small_buffer) []
  let w₂ := w₁.set 0 memory_with_chunk (some half) [⟨1056, 100⟩]
  have hgrow : ∀ n, allocate (n + 1) (new_at 1024) mem small_buffer 100 = some (memory_with_chunk, half, some 1056) := by
    intro n
    have hfull : ¬ aligned 100 ≤ sub small_buffer.e small_buffer.m := by decide
    have haligned : aligned 100 = 112 := by decide
    have htake : freelist_t.take_atleast (n + 1) mem small_buffer.top 112 = some (mem, none, none) := rfl
    have hnew : allocate.new_chunk (new_at 1024) mem small_buffer 112 = some (memory_with_chunk, half, some 1056) := by
      simp [allocate.new_chunk, alloc_bytes, sub, wrap, sizeof_chunk_header, new_at, Memory.set_header, Memory.new_chunk,
        Memory.rewrite, small_buffer, buffer_with_chunk, half, memory_with_chunk, mem]
    rw [haligned] at hfull
    simp only [allocate, haligned, if_neg hfull, htake, Option.bind_eq_bind, Option.bind_some]
    exact hnew
  have hfits : ∀ n, allocate n (fun _ => none) memory_with_chunk half 8 =
      some (memory_with_chunk, buffer_with_chunk, some 1168) := by
    intro n
    simp [allocate, aligned, padding_len, coroframe_align, sub, wrap, small_buffer, buffer_with_chunk, half]
  have h₂ : SoundStep w₁ (.allocate 0 100 (new_at 1024)) w₂ := by
    have hr : w₁.resources 0 = some small_buffer := World.set_resources ..
    have hsized : Sized (new_at 1024) mem small_buffer 100 := ⟨by decide, fun _ _ _ _ _ _ => by decide⟩
    refine ⟨⟨small_buffer, hr, hsized, new_at_contract fun _ => rfl⟩, Returns.of_last fun n => ?_⟩
    simp [step, w₁, w₂, hgrow]
  have h₃ : SoundStep w₂ (.allocate 0 8 fun _ => none)
      (w₂.set 0 memory_with_chunk (some buffer_with_chunk) [⟨1168, 8⟩, ⟨1056, 100⟩]) := by
    have hr : w₂.resources 0 = some half := World.set_resources ..
    have hsized : Sized (fun _ => none) memory_with_chunk half 8 := ⟨by decide, fun _ _ _ _ _ hc => by cases hc⟩
    have hcontract : NewContract memory_with_chunk half.initial_buffer fun _ => none := fun _ _ hc => by cases hc
    refine ⟨⟨half, hr, hsized, hcontract⟩, Returns.of_last fun n => ?_⟩
    simp [step, w₂, hfits]
  have hw : w₂.set 0 memory_with_chunk (some buffer_with_chunk) [⟨1168, 8⟩, ⟨1056, 100⟩] =
      World.empty.set 0 memory_with_chunk (some buffer_with_chunk) [⟨1168, 8⟩, ⟨1056, 100⟩] := by
    simp [World.set, w₁, w₂]
  rw [hw] at h₃
  exact run_small_buffer.append (.cons h₂ (.cons h₃ (.nil _)))

/-- The chunk with the two blocks is on the freelist afterwards, and the buffer is unused. -/
theorem buffer_with_chunk_is_reused : ∃ mem r, Returns (fun n => reuse_memory n memory_with_chunk buffer_with_chunk) (mem, r) ∧
    r.initial_buffer = { data := 16, size := 32 } ∧ Reused mem r [1024] := by
  obtain ⟨chunks, free, hchain, hfree, hiff⟩ := reuse_memory_reuses_iff run_buffer_with_chunk (World.set_resources ..)
  have hheader : memory_with_chunk.headers 1024 = { b := 16, m := 16, e := 48, freelist_next := none } :=
    Memory.rewrite_headers_self ..
  have hfree : free = [] := hfree.linked.unique rfl
  have hchunks : chunks = [1024] := by
    cases chunks with
    | nil =>
      obtain ⟨hb, -⟩ := hchain.buffer_inv
      cases hb
    | cons c chunks =>
      obtain ⟨_, _, _, -, -, hb, -, -, -, -, hbelow⟩ := hchain.chunk_inv
      obtain rfl : c = 1024 := by
        have hb : 1056 = c + 32 := hb
        omega
      cases chunks with
      | nil => rfl
      | cons c' chunks =>
        obtain ⟨_, _, _, -, -, hb, -⟩ := hbelow.chunk_inv
        have hb : (memory_with_chunk.headers 1024).b = c' + 32 := hb
        rw [hheader] at hb
        exact absurd hb (by omega : (16 : Nat) ≠ c' + 32)
  subst hfree hchunks
  have hm : buffer_m memory_with_chunk buffer_with_chunk.m [1024] = buffer_with_chunk.initial_buffer.data := by
    simp only [buffer_m, hheader]
    rfl
  exact hiff.mpr hm

/-- `m` stays behind the block in the initial buffer: `reuse_memory` does
nothing, and the next block of the same length needs a new chunk. -/
theorem full_buffer_is_not_reused : ∃ w r, Run SoundStep World.empty
    ([.construct 0 { data := 8, size := 40 }] ++ [.allocate 0 20 (new_at 1024)]) w ∧
    w.resources 0 = some r ∧ r.initial_buffer = { data := 16, size := 32 } ∧
    Returns (fun n => reuse_memory n w.memory r) (w.memory, r) ∧
    ¬ ∃ mem' r' chunks, Returns (fun n => reuse_memory n w.memory r) (mem', r') ∧
      Reused mem' r' chunks := by
  have hreturns : Returns (fun n => reuse_memory n World.empty.memory full_buffer)
      (World.empty.memory, full_buffer) := Returns.of_last fun n => rfl
  refine ⟨_, full_buffer, run_full_buffer, World.set_resources .., rfl, hreturns, ?_⟩
  rintro ⟨mem', r', chunks, hreturns', hreused⟩
  cases hreturns.unique hreturns'
  exact absurd hreused.unused (by decide)

end kelcoro.stack_resource
