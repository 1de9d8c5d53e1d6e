import Kelcoro.StackResource.System
import Mathlib

namespace kelcoro.stack_resource

open kelcoro.memory_support kelcoro.lib

def SoundStep (w : World) (a : Action) (w' : World) : Prop :=
  Sound w a ∧ Returns (fun n => step n w a) w'

/-- What `allocate(len)` is to do. When `new[]` throws, nothing has changed.
Otherwise the block reaches from `ptr` to the new `m`, has at least `len` bytes
and lies inside the initial buffer or behind the header of a chunk. -/
def Served (mem mem' : Memory) (r r' : StackResource) (len : Nat) : Option Nat → Prop
  | none => mem' = mem ∧ r' = r
  | some ptr => r'.b ≤ r'.m ∧ r'.m ≤ r'.e ∧ ∃ size, len ≤ size ∧ r'.m = ptr + size ∧
      ((r.initial_buffer.data ≤ ptr ∧
          ptr + size ≤ r.initial_buffer.data + r.initial_buffer.size) ∨
        ∃ c region, mem'.regions c = some region ∧
          c + sizeof_chunk_header ≤ ptr ∧ ptr + size ≤ c + region.size)

variable {mem mem' : Memory} {w : World} {r r' : StackResource} {chunks free : List Nat}
  {live : List Block} {len : Nat} {new : Nat → Option Nat} {ptr : Option Nat}

theorem Owned.of_sound_run {as : List Action} (hrun : Run SoundStep World.empty as w) :
    ∃ chain free, Owned w chain free := by
  apply hrun.invariant fun w => ∃ chain free, Owned w chain free
  · rintro w a w' ⟨chain, free, h⟩ ⟨hsound, hreturns⟩
    obtain ⟨w'', chain', free', hreturns', howned⟩ := sound_step_spec h hsound
    cases hreturns.unique hreturns'
    exact ⟨chain', free', howned⟩
  · exact ⟨_, _, Owned.empty⟩

theorem Allocated.served {ptr : Nat} {chunks' free' : List Nat}
    (h : Allocated mem mem' r r' chunks free live len ptr chunks' free') :
    Served mem mem' r r' len (some ptr) := by
  obtain ⟨hbm, hme, -⟩ := h.holds.chain.bounds h.layout h.holds.buffer_lt
  obtain ⟨-, hlen, hinside⟩ := h.holds.chain.mem_live (List.mem_cons_self ..)
  refine ⟨hbm, hme, aligned len, hlen, h.end_eq, ?_⟩
  rw [← h.buffer]
  apply hinside.imp_right
  rintro ⟨c, -, region, hrest⟩
  exact ⟨c, region, hrest⟩

theorem wrap_lt (n : Nat) : wrap n < 2 ^ 64 := by
  unfold wrap
  omega

/-- A length that cannot be rounded up is rounded to zero. -/
theorem aligned_of_not_padded (hlen : len < 2 ^ 64)
    (hpadded : ¬ len + padding_len coroframe_align len < 2 ^ 64) : aligned len = 0 := by
  have hdvd := dvd_add_padding_len len
  have hpad : padding_len coroframe_align len < 16 := Nat.mod_lt _ (by decide)
  unfold aligned wrap
  omega

/-- Then `allocate` returns a block of no bytes. -/
theorem allocate_nothing (mem : Memory) (new : Nat → Option Nat) (hm : r.m < 2 ^ 64)
    (haligned : aligned len = 0) (n : Nat) : allocate n new mem r len = some (mem, r, some r.m) := by
  simp [allocate, haligned, wrap_of_lt hm]

theorem not_served_of_not_padded (hlayout : mem.Layout) (h : Holds mem r chunks free live)
    (hlen : len < 2 ^ 64) (hpadded : ¬ len + padding_len coroframe_align len < 2 ^ 64)
    (hreturns : Returns (fun n => allocate n new mem r len) (mem', r', ptr)) :
    ¬ Served mem mem' r r' len ptr := by
  obtain ⟨-, hme, hlt⟩ := h.chain.bounds hlayout h.buffer_lt
  have hempty : Returns (fun n => allocate n new mem r len) (mem, r, some r.m) :=
    Returns.of_last fun n =>
      allocate_nothing mem new (hme.trans_lt hlt) (aligned_of_not_padded hlen hpadded) (n + 1)
  cases hreturns.unique hempty
  rintro ⟨-, -, size, hsize, hend, -⟩
  have hpad : padding_len coroframe_align len < 16 := Nat.mod_lt _ (by decide)
  omega

/-- The new chunk has room for its header, and its bounds are computed from its size. -/
theorem new_chunk_ends {c : Nat}
    (hc : new (wrap (sizeof_chunk_header + alloc_bytes r len)) = some c)
    (hchunk : allocate.new_chunk new mem r len = some (mem', r', ptr)) :
    sizeof_chunk_header ≤ wrap (sizeof_chunk_header + alloc_bytes r len) ∧
      r'.m = wrap (wrap (c + sizeof_chunk_header) + len) ∧
      r'.e = wrap (wrap (c + sizeof_chunk_header) + alloc_bytes r len) ∧
      ptr = some (wrap (c + sizeof_chunk_header)) := by
  unfold allocate.new_chunk at hchunk
  generalize wrap (sizeof_chunk_header + alloc_bytes r len) = size at hc hchunk ⊢
  simp only [hc] at hchunk
  obtain ⟨mem₁, hset, heq⟩ := Option.bind_eq_some_iff.mp hchunk
  clear hchunk
  have hpair := Option.some.inj heq
  have hm := congrArg (fun p => p.2.1.m) hpair
  have he := congrArg (fun p => p.2.1.e) hpair
  have hptr := congrArg (fun p => p.2.2) hpair
  refine ⟨?_, hm.symm, he.symm, hptr.symm⟩
  obtain ⟨region, hregion, hset⟩ := Option.bind_eq_some_iff.mp hset
  have hsize : (mem.new_chunk c size).regions c = some { size := size, serial := mem.obtained } :=
    Function.update_self ..
  cases hsize.symm.trans hregion
  obtain ⟨_, hguard, -⟩ := Option.bind_eq_some_iff.mp hset
  by_contra hheader
  rw [guard, if_neg hheader] at hguard
  cases hguard

/-- A block at the start of a new chunk is cut short when the chunk has no room
for it, and the header of the chunk when the size of the chunk wrapped. -/
theorem room_of_served {c : Nat} (hfull : ¬ aligned len ≤ sub r.e r.m)
    (htake : Returns (fun n => freelist_t.take_atleast n mem r.top (aligned len)) (mem, r.top, none))
    (hnew : NewContract mem r.initial_buffer new)
    (hc : new (wrap (sizeof_chunk_header + alloc_bytes r (aligned len))) = some c)
    (hreturns : Returns (fun n => allocate n new mem r len) (mem', r', ptr))
    (hserved : Served mem mem' r r' len ptr) :
    aligned len ≤ alloc_bytes r (aligned len) ∧
      sizeof_chunk_header + alloc_bytes r (aligned len) < 2 ^ 64 := by
  obtain ⟨n, hallocate, hnone⟩ := hreturns.both htake
  have hchunk : allocate.new_chunk new mem r (aligned len) = some (mem', r', ptr) := by
    simpa only [allocate, if_neg hfull, hnone, Option.bind_eq_bind, Option.bind_some] using hallocate
  obtain ⟨hheader, hm, he, rfl⟩ := new_chunk_ends hc hchunk
  obtain ⟨-, hme, size, hle, heq, -⟩ := hserved
  obtain ⟨-, -, hend, -, -⟩ := hnew _ c hc
  have hbytes : alloc_bytes r (aligned len) < 2 ^ 64 := wrap_lt _
  have hlt : aligned len < 2 ^ 64 := wrap_lt _
  have hsize : sizeof_chunk_header + alloc_bytes r (aligned len) < 2 ^ 64 := by
    unfold wrap sizeof_chunk_header at hheader
    unfold sizeof_chunk_header
    omega
  rw [wrap_of_lt hsize] at hend
  rw [wrap_of_lt (n := c + sizeof_chunk_header) (by omega)] at hm he heq
  rw [wrap_of_lt (by omega)] at he
  refine ⟨?_, hsize⟩
  rw [hm] at hme heq
  rw [he] at hme
  by_cases hwrap : c + sizeof_chunk_header + aligned len < 2 ^ 64
  · rw [wrap_of_lt hwrap] at hme
    omega
  · unfold wrap at heq
    omega

/-- What `allocate(len)` does in a state of a program, and when it is right. -/
theorem Holds.serves_iff (hlayout : mem.Layout) (haccounts : mem.Accounts)
    (h : Holds mem r chunks free live) (hlen : len < 2 ^ 64)
    (hnew : NewContract mem r.initial_buffer new) :
    (∃ mem' r' ptr, Returns (fun n => allocate n new mem r len) (mem', r', ptr) ∧
      Served mem mem' r r' len ptr) ↔ Sized new mem r len := by
  constructor
  · rintro ⟨mem', r', ptr, hreturns, hserved⟩
    constructor
    · by_contra hpadded
      exact not_served_of_not_padded hlayout h hlen hpadded hreturns hserved
    · intro free' c hfree hfull hsmall hc
      exact room_of_served (not_le.mpr hfull) (take_atleast_none hlayout hfree hsmall) hnew hc hreturns
        hserved
  · intro hsized
    rcases allocate_spec hlayout haccounts h hsized hnew with
      hthrown | ⟨mem', r', ptr, chunks', free', hreturns, hallocated⟩
    · exact ⟨mem, r, none, hthrown, rfl, rfl⟩
    · exact ⟨mem', r', some ptr, hreturns, hallocated.served⟩

/-- In every run whose calls of `allocate` compute sizes that are large enough,
a further call of `allocate` throws and changes nothing or returns a block of at
least `len` bytes inside the initial buffer or a chunk, if and only if the sizes
that it computes are large enough. -/
theorem allocate_serves_iff {as : List Action} {this : ObjId}
    (hrun : Run SoundStep World.empty as w) (hr : w.resources this = some r) (hlen : len < 2 ^ 64)
    (hnew : NewContract w.memory r.initial_buffer new) :
    (∃ mem' r' ptr, Returns (fun n => allocate n new w.memory r len) (mem', r', ptr) ∧
      Served w.memory mem' r r' len ptr) ↔ Sized new w.memory r len := by
  obtain ⟨chain, free, howned⟩ := Owned.of_sound_run hrun
  exact (howned.resource hr).serves_iff howned.layout howned.accounts hlen hnew

/-- A buffer of 32 bytes at address 16. -/
def small_buffer : StackResource :=
  { initial_buffer := { data := 16, size := 32 }, b := 16, m := 16, e := 48, top := none }

theorem run_small_buffer : Run SoundStep World.empty [.construct 0 { data := 8, size := 40 }]
    (World.empty.set 0 World.empty.memory (some small_buffer) []) := by
  have hconstruct : construct { data := 8, size := 40 } = small_buffer := by decide
  refine .cons ⟨⟨rfl, by decide⟩, Returns.const ?_⟩ (.nil _)
  rw [hconstruct]

theorem allocate_serves_chunk : ∃ mem' r' ptr,
    Returns (fun n => allocate n (new_at 1024) World.empty.memory small_buffer 100) (mem', r', ptr) ∧
      Served World.empty.memory mem' small_buffer r' 100 ptr := by
  have hr : (World.empty.set 0 World.empty.memory (some small_buffer) []).resources 0 =
      some small_buffer := World.set_resources ..
  refine (allocate_serves_iff run_small_buffer hr (by decide) (new_at_contract fun _ => rfl)).mpr ?_
  exact ⟨by decide, fun _ _ _ _ _ _ => by decide⟩

/-- The largest length is rounded up to zero: `allocate` returns the start of
the buffer, and the next block is to start there too. -/
theorem allocate_serves_nothing : ∃ w r, Run Step World.empty
    [.construct 0 { data := 8, size := 40 }] w ∧ w.resources 0 = some r ∧
    NewContract w.memory r.initial_buffer (new_at 1024) ∧
    Returns (fun n => allocate n (new_at 1024) w.memory r (2 ^ 64 - 1)) (w.memory, r, some 16) ∧
    ¬ ∃ mem' r' ptr, Returns (fun n => allocate n (new_at 1024) w.memory r (2 ^ 64 - 1)) (mem', r', ptr) ∧
      Served w.memory mem' r r' (2 ^ 64 - 1) ptr := by
  have hconstruct : construct { data := 8, size := 40 } = small_buffer := by decide
  have hholds : Holds World.empty.memory (construct { data := 8, size := 40 }) [] [] [] :=
    construct_spec World.empty.memory (by decide)
  rw [hconstruct] at hholds
  have hlayout : World.empty.memory.Layout := Owned.empty.layout
  refine ⟨World.empty.set 0 World.empty.memory (some small_buffer) [], small_buffer, ?_,
    World.set_resources .., new_at_contract fun _ => rfl, Returns.of_last fun n => ?_, ?_⟩
  · refine .cons ⟨⟨rfl, by decide⟩, Returns.const ?_⟩ (.nil _)
    rw [hconstruct]
  · exact allocate_nothing _ _ (by decide) (by decide) (n + 1)
  · rintro ⟨mem', r', ptr, hreturns, hserved⟩
    exact not_served_of_not_padded hlayout hholds (by decide) (by decide) hreturns hserved

end kelcoro.stack_resource
