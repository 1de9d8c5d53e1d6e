import Kelcoro.StackResource.Regions
import Mathlib

namespace kelcoro.stack_resource

open kelcoro.memory_support kelcoro.lib

variable {mem mem' : Memory} {r r' : StackResource} {chunks free : List Nat} {live : List Block}

theorem Chain.chunk_inv {buffer : Span} {b m e c : Nat}
    (h : Chain mem buffer b m e (c :: chunks) live) :
    ∃ region top below, mem.regions c = some region ∧ 16 ∣ c ∧ b = c + 32 ∧ e = c + region.size ∧
      live = top ++ below ∧ Tiles (c + 32) top m ∧ m ≤ c + region.size ∧
      Chain mem buffer (mem.headers c).b (mem.headers c).m (mem.headers c).e chunks below := by
  cases h with
  | @chunk c m region chunks top below hregion hdvd htiles hm hbelow =>
    exact ⟨region, top, below, hregion, hdvd, rfl, rfl, rfl, htiles, hm, hbelow⟩

theorem Chain.buffer_inv {buffer : Span} {b m e : Nat} (h : Chain mem buffer b m e [] live) :
    b = buffer.data ∧ e = buffer.data + buffer.size ∧
      ∃ lo, buffer.data ≤ lo ∧ 16 ∣ lo ∧ Tiles lo live m ∧ m ≤ e := by
  cases h with
  | buffer hlo hdvd htiles hm => exact ⟨rfl, rfl, _, hlo, hdvd, htiles, hm⟩

/-- The data of a chunk never starts where the initial buffer does. -/
theorem Holds.data_ne (h : Holds mem r chunks free live) (hlayout : mem.Layout) {c : Nat}
    (hc : c ∈ chunks ++ free) : c + 32 ≠ r.initial_buffer.data := by
  obtain ⟨region, hregion⟩ := h.region hc
  obtain ⟨-, hsize, -⟩ := hlayout.region c region hregion
  have hapart := h.apart c hc region hregion
  unfold Apart at hapart
  omega

/-- The current chunk goes to the freelist, with its own bounds in its header;
the resource takes over the state of the chunk below. -/
theorem drop_cur_chunk_spec {c : Nat} {blocks : List Block} (hlayout : mem.Layout)
    (h : Holds mem r (c :: chunks) free blocks) (hempty : r.m = r.b)
    (hbelow : Chain mem r.initial_buffer (mem.headers c).b (mem.headers c).m (mem.headers c).e
      chunks live) :
    ∃ mem' r', drop_cur_chunk mem r = some (mem', r') ∧
      r'.initial_buffer = r.initial_buffer ∧ r'.m = (mem.headers c).m ∧ mem.Rewritten mem' [c] ∧
      Holds mem' r' chunks (c :: free) live := by
  obtain ⟨region, top, below, hregion, hdvd, hb, he, -, -, -, -⟩ := h.chain.chunk_inv
  obtain ⟨-, hsize, hlt⟩ := hlayout.region c region hregion
  have hne : r.b ≠ r.initial_buffer.data := by
    rw [hb]
    exact h.data_ne hlayout (by simp)
  have hprev : prev_chunk r = some c := by
    have hsub : sub (c + 32) sizeof_chunk_header = c := sub_add_self (by omega)
    unfold prev_chunk
    rw [hb] at hne ⊢
    simp [hne, hsub]
  let header : ChunkHeader := { b := r.b, m := r.m, e := r.e, freelist_next := r.top }
  let r' : StackResource :=
    { r with
      b := (mem.headers c).b
      m := (mem.headers c).m
      e := (mem.headers c).e
      top := some c }
  have hrewritten : mem.Rewritten (mem.rewrite c header) [c] :=
    Memory.Rewritten.of_rewrite mem (by simp) header
  have hdrop : drop_cur_chunk mem r = some (mem.rewrite c header, r') := by
    let stored : ChunkHeader := { mem.headers c with b := r.b, m := r.m, e := r.e }
    have hstored := (Memory.Rewritten.of_rewrite mem (List.mem_singleton_self c) stored).layout hlayout
    have hregion' : (mem.rewrite c stored).regions c = some region := hregion
    have hread := Memory.header_eq hstored hregion'
    have hwrite := Memory.set_header_eq hstored hregion' header
    have htwice : (mem.rewrite c stored).rewrite c header = mem.rewrite c header := by
      simp [Memory.rewrite]
    unfold drop_cur_chunk freelist_t.push
    simp only [hempty, hprev, Memory.header_eq hlayout hregion,
      Memory.set_header_eq hlayout hregion, guard, hne, ne_eq, not_false_eq_true, if_true,
      Option.pure_def, Option.bind_eq_bind, Option.bind_some]
    simp only [stored, header, hempty, Memory.rewrite_headers_self] at hread hwrite htwice
    simp only [hread, hwrite, htwice, Option.bind_some, header, r', hempty]
  obtain ⟨hc, hnodup⟩ := List.nodup_cons.mp h.nodup
  have hsame : ∀ x ∈ chunks ++ free, (mem.rewrite c header).headers x = mem.headers x := by
    intro x hx
    apply hrewritten.headers
    rintro hxc
    cases List.mem_singleton.mp hxc
    exact hc hx
  refine ⟨_, r', hdrop, rfl, rfl, hrewritten, ?_⟩
  constructor
  · exact h.buffer_dvd
  · exact h.buffer_lt
  · exact hbelow.congr (fun _ _ => rfl) fun x hx => hsame x (by simp [hx])
  · constructor
    · refine ⟨rfl, ?_⟩
      have hrest : Linked (fun x => ((mem.rewrite c header).headers x).freelist_next) r.top free :=
        h.freelist.linked.congr fun x hx => by rw [hsame x (by simp [hx])]
      simpa [header] using hrest
    · intro x hx
      rcases List.mem_cons.mp hx with rfl | hx
      · exact ⟨region, hregion, by simp [header, hb], by simp [header, hempty, hb], by simp [header, he]⟩
      · rw [hsame x (by simp [hx])]
        exact h.freelist.own x hx
  · exact (List.perm_middle.nodup_iff).mpr h.nodup
  · intro x hx
    exact h.apart x (List.perm_middle.subset hx)

/-- Unlinked blocks of a state: the current chunk of a resource is left to the
blocks `below`. -/
theorem Holds.leave (h : Holds mem r chunks free live) {m : Nat} {below : List Block}
    (hchain : Chain mem r.initial_buffer r.b m r.e chunks below) :
    Holds mem { r with m := m } chunks free below :=
  ⟨h.buffer_dvd, h.buffer_lt, hchain, h.freelist, h.nodup, h.apart⟩

/-- `m - len` is not the pointer of a block of a chunk below when the current
chunk is empty, and `deallocate`'s assertion lets the chunk go. -/
theorem not_in_current {c : Nat} {region : Region} {block : Block}
    (hapart : Apart block.ptr (aligned block.len) c region.size) (hsize : 32 < region.size)
    (hend : block.ptr + aligned block.len < 2 ^ 64) (hlt : c + region.size < 2 ^ 64) :
    block.ptr ≠ sub (c + 32) (aligned block.len) ∧
      (block.ptr ≤ c + 32 ∨ c + region.size ≤ block.ptr) := by
  unfold Apart at hapart
  refine ⟨fun heq => ?_, by omega⟩
  have hsum := add_of_sub_eq heq.symm (by omega) hend
  omega

theorem Inside.end_lt {buffer : Span} {block : Block} (h : Inside mem buffer chunks block)
    (hlayout : mem.Layout) (hbuffer : buffer.data + buffer.size < 2 ^ 64) :
    block.ptr + aligned block.len < 2 ^ 64 := by
  rcases h with ⟨-, hend⟩ | ⟨c, -, region, hregion, -, hend⟩
  · omega
  · obtain ⟨-, -, hlt⟩ := hlayout.region c region hregion
    omega

theorem deallocate_loop_found (mem : Memory) {block : Block} (hptr : r.m = block.ptr + aligned block.len)
    (hm : r.m < 2 ^ 64) :
    sub r.m (aligned block.len) = block.ptr ∧
      Returns (fun n => deallocate.loop block.ptr (aligned block.len) n mem r) (mem, r) := by
  have hfound : sub r.m (aligned block.len) = block.ptr := by
    rw [hptr] at hm ⊢
    exact sub_add_self hm
  refine ⟨hfound, Returns.of_last fun n => ?_⟩
  simp [deallocate.loop, hfound]

/-- `deallocate` of the last live block drops the chunks above the one it lies
in, which hold no live block, and moves `m` to the block. -/
theorem deallocate_loop_spec {block : Block} (hlayout : mem.Layout)
    (h : Holds mem r chunks free (block :: live)) :
    ∃ mem' r' dropped kept,
      Returns (fun n => deallocate.loop block.ptr (aligned block.len) n mem r) (mem', r') ∧
      chunks = dropped ++ kept ∧ mem.Rewritten mem' dropped ∧
      r'.initial_buffer = r.initial_buffer ∧ sub r'.m (aligned block.len) = block.ptr ∧
      Holds mem' { r' with m := block.ptr } kept (dropped.reverse ++ free) live ∧
      ∀ c ∈ dropped, ∀ region, mem.regions c = some region →
        ∀ x ∈ block :: live, Apart x.ptr (aligned x.len) c region.size := by
  induction chunks generalizing mem r free with
  | nil =>
    obtain ⟨hb, he, lo, hlo, hdvd, htiles, hm⟩ := h.chain.buffer_inv
    obtain ⟨hptr, -, hrest⟩ := htiles
    have hlt := h.buffer_lt
    obtain ⟨hfound, hreturns⟩ := deallocate_loop_found mem hptr (by omega)
    refine ⟨mem, r, [], [], hreturns, rfl, .refl mem [], rfl, hfound, ?_, by simp⟩
    apply h.leave
    rw [hb, he]
    exact .buffer hlo hdvd hrest (by omega)
  | cons c chunks ih =>
    obtain ⟨region, top, below, hregion, hdvd, hb, he, hlive, htiles, hm, hbelow⟩ := h.chain.chunk_inv
    obtain ⟨-, hsize, hlt⟩ := hlayout.region c region hregion
    cases top with
    | cons first top =>
      obtain ⟨rfl, rfl⟩ := List.cons.inj hlive
      obtain ⟨hptr, -, hrest⟩ := htiles
      obtain ⟨hfound, hreturns⟩ := deallocate_loop_found mem hptr (by omega)
      refine ⟨mem, r, [], c :: chunks, hreturns, rfl, .refl mem [], rfl, hfound, ?_, by simp⟩
      apply h.leave
      rw [hb, he]
      exact .chunk hregion hdvd hrest (by omega) hbelow
    | nil =>
      -- the block lies below: the current chunk is empty and is dropped
      rw [List.nil_append] at hlive
      subst hlive
      have hempty : r.m = r.b := htiles.trans hb.symm
      have hc : c ∉ chunks := (List.nodup_cons.mp h.nodup).1 ∘ List.mem_append_left free
      have hbuffer := h.apart c (by simp) region hregion
      have haparts : ∀ x ∈ block :: live, Apart x.ptr (aligned x.len) c region.size := by
        intro x hx
        obtain ⟨-, -, hinside⟩ := hbelow.mem_live hx
        exact hinside.apart hlayout hregion hc hbuffer
      obtain ⟨-, -, hinside⟩ := hbelow.mem_live (List.mem_cons_self ..)
      obtain ⟨hnot, hassert⟩ := not_in_current (haparts block (by simp)) hsize
        (hinside.end_lt hlayout h.buffer_lt) hlt
      obtain ⟨mem₁, r₁, hdrop, hsame, -, hrewritten, hholds⟩ :=
        drop_cur_chunk_spec hlayout h hempty hbelow
      obtain ⟨mem', r', dropped, kept, hreturns, rfl, hrewritten', hsame', hfound, hholds', hdropped⟩ :=
        ih (hrewritten.layout hlayout) hholds
      refine ⟨mem', r', c :: dropped, kept, ?_, rfl, ?_, hsame'.trans hsame, hfound, ?_, ?_⟩
      · apply Returns.of_succ
        apply hreturns.congr
        intro n
        rw [deallocate.loop, if_pos (by rwa [hempty, hb])]
        simp [guard, hb, he, hassert, hdrop]
      · exact (hrewritten.mono (by simp)).trans (hrewritten'.mono (by simp))
      · simpa using hholds'
      · intro x hx
        rcases List.mem_cons.mp hx with rfl | hx
        · intro region' hregion'
          cases hregion.symm.trans hregion'
          exact haparts
        · intro region' hregion'
          exact hdropped x hx region' (hrewritten.regions ▸ hregion')

theorem deallocate_spec {block : Block} (hlayout : mem.Layout)
    (h : Holds mem r chunks free (block :: live)) :
    ∃ mem' r' dropped kept,
      Returns (fun n => deallocate n mem r block.ptr block.len) (mem', r') ∧
      chunks = dropped ++ kept ∧ mem.Rewritten mem' dropped ∧
      r'.initial_buffer = r.initial_buffer ∧ r'.m = block.ptr ∧
      Holds mem' r' kept (dropped.reverse ++ free) live ∧
      ∀ c ∈ dropped, ∀ region, mem.regions c = some region →
        ∀ x ∈ block :: live, Apart x.ptr (aligned x.len) c region.size := by
  obtain ⟨mem', r', dropped, kept, hreturns, hchunks, hrewritten, hsame, hfound, hholds, hdropped⟩ :=
    deallocate_loop_spec hlayout h
  refine ⟨mem', { r' with m := block.ptr }, dropped, kept, ?_, hchunks, hrewritten, hsame, rfl, hholds,
    hdropped⟩
  obtain ⟨hptr, -, -⟩ := h.chain.mem_live (List.mem_cons_self ..)
  have hassert : block.ptr % 16 = 0 := Nat.mod_eq_zero_of_dvd hptr
  apply Returns.bind (Returns.const (x := ()) (by simp [guard, hassert]))
  apply Returns.bind hreturns
  apply Returns.const
  simp [hfound]

/-- `m` of the initial buffer: `m` itself below no chunk, and otherwise what the
header of the last chunk holds. -/
def buffer_m (mem : Memory) (m : Nat) : List Nat → Nat
  | [] => m
  | c :: chunks => buffer_m mem (mem.headers c).m chunks

theorem buffer_m_congr (m : Nat) (hheaders : ∀ c ∈ chunks, mem'.headers c = mem.headers c) :
    buffer_m mem' m chunks = buffer_m mem m chunks := by
  induction chunks generalizing m with
  | nil => rfl
  | cons c chunks ih =>
    rw [buffer_m, buffer_m, hheaders c (by simp)]
    exact ih _ fun x hx => hheaders x (List.mem_cons_of_mem c hx)

/-- `reuse_memory` moves every chunk to the freelist, and leaves the `m` of the
initial buffer as it is. -/
theorem reuse_memory_spec (hlayout : mem.Layout) (h : Holds mem r chunks free live) :
    ∃ mem' r', Returns (fun n => reuse_memory n mem r) (mem', r') ∧ mem.Rewritten mem' chunks ∧
      r'.initial_buffer = r.initial_buffer ∧ r'.m = buffer_m mem r.m chunks ∧
      Holds mem' r' [] (chunks.reverse ++ free) [] := by
  induction chunks generalizing mem r free live with
  | nil =>
    obtain ⟨hb, he, lo, hlo, hdvd, htiles, hm⟩ := h.chain.buffer_inv
    have hle := htiles.le
    refine ⟨mem, r, ?_, .refl mem [], rfl, rfl, ?_⟩
    · apply Returns.of_last
      intro n
      simp [reuse_memory, hb]
    · apply h.leave
      rw [hb, he]
      exact .buffer (by omega) (htiles.dvd hdvd) rfl (by omega)
  | cons c chunks ih =>
    obtain ⟨region, top, below, hregion, hdvd, hb, he, -, htiles, hm, hbelow⟩ := h.chain.chunk_inv
    have hne : r.b ≠ r.initial_buffer.data := by
      rw [hb]
      exact h.data_ne hlayout (by simp)
    -- the blocks of the current chunk are forgotten, so that it is empty
    have hempty : Chain mem r.initial_buffer r.b r.b r.e (c :: chunks) ([] ++ below) := by
      rw [hb, he]
      exact .chunk hregion hdvd rfl (by have hle := htiles.le; omega) hbelow
    obtain ⟨mem₁, r₁, hdrop, hsame, hm₁, hrewritten, hholds⟩ :=
      drop_cur_chunk_spec hlayout (h.leave hempty) rfl hbelow
    obtain ⟨mem', r', hreturns, hrewritten', hsame', hm', hholds'⟩ :=
      ih (hrewritten.layout hlayout) hholds
    have hc : c ∉ chunks := (List.nodup_cons.mp h.nodup).1 ∘ List.mem_append_left free
    refine ⟨mem', r', ?_, ?_, hsame'.trans hsame, ?_, by simpa using hholds'⟩
    · apply Returns.of_succ
      apply hreturns.congr
      intro n
      rw [reuse_memory, if_pos hne]
      simp [hdrop]
    · exact (hrewritten.mono (by simp)).trans (hrewritten'.mono (by simp))
    · rw [hm', hm₁, buffer_m]
      apply buffer_m_congr
      intro x hx
      apply hrewritten.headers
      intro hxc
      exact hc (List.mem_singleton.mp hxc ▸ hx)

/-- `delete[]` of a live chunk. -/
theorem delete_chunk_spec {c : Nat} {region : Region} (hlayout : mem.Layout) (haccounts : mem.Accounts)
    (hregion : mem.regions c = some region) :
    ∃ mem', mem.delete_chunk c = some mem' ∧ mem'.Layout ∧ mem'.Accounts ∧
      mem'.headers = mem.headers ∧ mem'.regions = Function.update mem.regions c none := by
  have hold : ∀ x region', Function.update mem.regions c none x = some region' →
      x ≠ c ∧ mem.regions x = some region' := by
    intro x region' hx
    by_cases hxc : x = c
    · subst hxc
      simp at hx
    · exact ⟨hxc, by simpa [hxc] using hx⟩
  let mem' : Memory :=
    { mem with
      regions := Function.update mem.regions c none
      deleted := mem.deleted ++ [region.serial] }
  refine ⟨mem', by simp [Memory.delete_chunk, hregion, mem'], ?_, ?_, rfl, rfl⟩
  · constructor
    · intro x region' hx
      exact hlayout.region x region' (hold x region' hx).2
    · intro x y region' region'' hx hy
      exact hlayout.apart x y region' region'' (hold x region' hx).2 (hold y region'' hy).2
  · constructor
    · have hnew := haccounts.live_not_deleted c region hregion
      exact List.nodup_append.mpr ⟨haccounts.deleted_nodup, List.nodup_singleton _, by
        rintro s hs t ht rfl
        cases List.mem_singleton.mp ht
        exact hnew hs⟩
    · intro x y region' region'' hx hy
      exact haccounts.live_inj x y region' region'' (hold x region' hx).2 (hold y region'' hy).2
    · intro x region' hx hdeleted
      obtain ⟨hne, hx⟩ := hold x region' hx
      rcases List.mem_append.mp hdeleted with hdeleted | hdeleted
      · exact haccounts.live_not_deleted x region' hx hdeleted
      · exact hne (haccounts.live_inj x c region' region hx hregion (List.mem_singleton.mp hdeleted))
    · intro s
      rw [haccounts.obtained_iff s, List.mem_append, List.mem_singleton, or_assoc]
      apply or_congr_right
      constructor
      · rintro ⟨x, region', hx, rfl⟩
        by_cases hxc : x = c
        · subst hxc
          cases hregion.symm.trans hx
          exact Or.inl rfl
        · exact Or.inr ⟨x, region', (Function.update_of_ne hxc ..).trans hx, rfl⟩
      · rintro (rfl | ⟨x, region', hx, rfl⟩)
        · exact ⟨c, region, hregion, rfl⟩
        · exact ⟨x, region', (hold x region' hx).2, rfl⟩

/-- `drop_all` deletes the chunks of the list. -/
theorem drop_all_spec {top : Option Nat} (hlayout : mem.Layout) (haccounts : mem.Accounts)
    (h : FreeList mem top free) :
    ∃ mem', Returns (fun n => freelist_t.drop_all n mem top) mem' ∧ mem'.Layout ∧ mem'.Accounts ∧
      mem'.headers = mem.headers ∧
      ∀ c, mem'.regions c = if c ∈ free then none else mem.regions c := by
  induction free generalizing mem top with
  | nil =>
    obtain rfl := Segment.nil_iff.mp h.linked
    exact ⟨mem, Returns.of_last fun n => rfl, hlayout, haccounts, rfl, fun c => by simp⟩
  | cons c free ih =>
    obtain ⟨rfl, hrest⟩ := h.linked
    have hc : c ∉ free := (List.nodup_cons.mp h.linked.nodup).1
    obtain ⟨region, hregion, -⟩ := h.own c (by simp)
    obtain ⟨mem₁, hdelete, hlayout₁, haccounts₁, hheaders, hregions⟩ :=
      delete_chunk_spec hlayout haccounts hregion
    have hfree : FreeList mem₁ (mem.headers c).freelist_next free := by
      constructor
      · rw [hheaders]
        exact hrest
      · intro x hx
        have hne : x ≠ c := by
          rintro rfl
          exact hc hx
        rw [hheaders, hregions, Function.update_of_ne hne]
        exact h.own x (by simp [hx])
    obtain ⟨mem', hreturns, hlayout', haccounts', hheaders', hregions'⟩ := ih hlayout₁ haccounts₁ hfree
    refine ⟨mem', ?_, hlayout', haccounts', hheaders'.trans hheaders, fun x => ?_⟩
    · apply Returns.of_succ
      apply hreturns.congr
      intro n
      simp [freelist_t.drop_all, Memory.header_eq hlayout hregion, hdelete]
    · rw [hregions' x, hregions]
      by_cases hxc : x = c
      · simp [hxc]
      · simp [hxc]

/-- The destructor deletes every chunk of the resource. -/
theorem destroy_spec (hlayout : mem.Layout) (haccounts : mem.Accounts)
    (h : Holds mem r chunks free live) :
    ∃ mem', Returns (fun n => destroy n mem r) mem' ∧ mem'.Layout ∧ mem'.Accounts ∧
      (∀ c, c ∉ chunks → mem'.headers c = mem.headers c) ∧
      ∀ c, mem'.regions c = if c ∈ chunks ++ free then none else mem.regions c := by
  obtain ⟨mem₁, r₁, hreuse, hrewritten, -, -, hholds⟩ := reuse_memory_spec hlayout h
  obtain ⟨mem', hdrop, hlayout', haccounts', hheaders, hregions⟩ :=
    drop_all_spec (hrewritten.layout hlayout) (hrewritten.accounts haccounts) hholds.freelist
  refine ⟨mem', ?_, hlayout', haccounts', fun c hc => ?_, fun c => ?_⟩
  · exact Returns.bind (g := fun n p => freelist_t.drop_all n p.1 p.2.top) hreuse hdrop
  · rw [hheaders, hrewritten.headers c hc]
  · rw [hregions, hrewritten.regions]
    simp

/-- The walk over the freelist: `before` are the chunks that had no room,
`prev` the last of them. -/
theorem take_atleast_loop_spec {top c : Option Nat} {before after : List Nat} (bytes : Nat)
    (hlayout : mem.Layout) (h : FreeList mem top (before ++ after))
    (hc : Linked (fun c => (mem.headers c).freelist_next) c after) :
    (Returns (fun n => freelist_t.take_atleast.loop bytes n mem top before.getLast? c) (mem, top, none) ∧
      ∀ x ∈ after, (mem.headers x).capacity < bytes) ∨
    ∃ mem' top' taken left right,
      Returns (fun n => freelist_t.take_atleast.loop bytes n mem top before.getLast? c)
        (mem', top', some taken) ∧
      before ++ after = left ++ taken :: right ∧ mem.Rewritten mem' left ∧
      FreeList mem' top' (left ++ right) ∧ bytes ≤ (mem.headers taken).capacity := by
  induction after generalizing c before with
  | nil =>
    obtain rfl := Segment.nil_iff.mp hc
    exact Or.inl ⟨Returns.of_last fun n => rfl, by simp⟩
  | cons x after ih =>
    obtain ⟨rfl, hrest⟩ := hc
    obtain ⟨region, hregion, hb, hm, -⟩ := h.own x (by simp)
    by_cases hroom : bytes ≤ (mem.headers x).capacity
    · right
      have hx : x ∉ before ++ after := by
        have hnodup := h.linked.nodup
        exact (List.nodup_cons.mp (List.perm_middle.nodup_iff.mp hnodup)).1
      rcases List.eq_nil_or_concat before with rfl | ⟨left, prev, rfl⟩
      · refine ⟨mem, (mem.headers x).freelist_next, x, [], after, ?_, rfl, .refl mem [], ?_, hroom⟩
        · apply Returns.of_last
          intro n
          simp [freelist_t.take_atleast.loop, Memory.header_eq hlayout hregion, hb, hm, hroom]
        · exact ⟨hrest, fun y hy => h.own y (List.mem_cons_of_mem x hy)⟩
      · obtain ⟨region', hregion', -⟩ := h.own prev (by simp)
        let header : ChunkHeader :=
          { mem.headers prev with freelist_next := (mem.headers x).freelist_next }
        refine ⟨mem.rewrite prev header, top, x, left ++ [prev], after, ?_, by simp,
          .of_rewrite mem (by simp) header, ?_, hroom⟩
        · apply Returns.of_last
          intro n
          simp [freelist_t.take_atleast.loop, Memory.header_eq hlayout hregion,
            Memory.header_eq hlayout hregion', Memory.set_header_eq hlayout hregion', hb, hm, hroom, header]
        · have hlinks : (fun y => ((mem.rewrite prev header).headers y).freelist_next) =
              Function.update (fun y => (mem.headers y).freelist_next) prev
                (mem.headers x).freelist_next := by
            funext y
            by_cases hy : y = prev
            · subst hy
              simp [header]
            · rw [Memory.rewrite_headers_of_ne header hy, Function.update_of_ne hy]
          have hnodup := h.linked.nodup
          have hprev : prev ∉ left ∧ prev ∉ after := by
            simp only [List.concat_eq_append, List.append_assoc, List.nodup_append] at hnodup
            grind
          constructor
          · rw [hlinks]
            obtain ⟨r, hbefore, -⟩ := Segment.append_iff.mp h.linked
            rw [List.concat_eq_append] at hbefore
            apply (hbefore.set_last hprev.1 _).append
            apply hrest.congr
            intro y hy
            have hne : y ≠ prev := by
              rintro rfl
              exact hprev.2 hy
            exact Function.update_of_ne hne _ _
          · intro y hy
            have hold := h.own y (by
              simp only [List.concat_eq_append]
              grind)
            by_cases hyp : y = prev
            · subst hyp
              simpa [header] using hold
            · rw [Memory.rewrite_headers_of_ne header hyp]
              exact hold
    · have hstep : ∀ n, freelist_t.take_atleast.loop bytes (n + 1) mem top before.getLast? (some x) =
          freelist_t.take_atleast.loop bytes n mem top (before ++ [x]).getLast?
            (mem.headers x).freelist_next := by
        intro n
        simp [freelist_t.take_atleast.loop, Memory.header_eq hlayout hregion, hb, hm, hroom]
      have hsame : FreeList mem top ((before ++ [x]) ++ after) := by simpa using h
      rcases ih hsame hrest with
        ⟨hnone, hsmall⟩ | ⟨mem', top', taken, left, right, hreturns, hsplit, hspec⟩
      · refine Or.inl ⟨Returns.of_succ (hnone.congr hstep), fun y hy => ?_⟩
        rcases List.mem_cons.mp hy with rfl | hy
        · exact not_le.mp hroom
        · exact hsmall y hy
      · exact Or.inr ⟨mem', top', taken, left, right, Returns.of_succ (hreturns.congr hstep),
          by simpa using hsplit, hspec⟩

theorem take_atleast_spec {top : Option Nat} (bytes : Nat) (hlayout : mem.Layout)
    (h : FreeList mem top free) :
    (Returns (fun n => freelist_t.take_atleast n mem top bytes) (mem, top, none) ∧
      ∀ c ∈ free, (mem.headers c).capacity < bytes) ∨
    ∃ mem' top' taken left right,
      Returns (fun n => freelist_t.take_atleast n mem top bytes) (mem', top', some taken) ∧
      free = left ++ taken :: right ∧ mem.Rewritten mem' left ∧
      FreeList mem' top' (left ++ right) ∧ bytes ≤ (mem.headers taken).capacity := by
  have hall : FreeList mem top ([] ++ free) := h
  exact take_atleast_loop_spec bytes hlayout hall h.linked

/-- Nothing is taken from a freelist without room. -/
theorem take_atleast_none {top : Option Nat} {bytes : Nat} (hlayout : mem.Layout)
    (h : FreeList mem top free) (hsmall : ∀ c ∈ free, (mem.headers c).capacity < bytes) :
    Returns (fun n => freelist_t.take_atleast n mem top bytes) (mem, top, none) := by
  rcases take_atleast_spec bytes hlayout h with
    ⟨hnone, -⟩ | ⟨_, _, taken, left, right, _, hfree, -, -, hroom⟩
  · exact hnone
  · have hlt := hsmall taken (by simp [hfree])
    omega

/-- `new[]` of `size` bytes at `c`. -/
theorem new_chunk_spec {c size : Nat} (hlayout : mem.Layout) (haccounts : mem.Accounts)
    (hdvd : 16 ∣ c) (hsize : 32 < size) (hlt : c + size < 2 ^ 64)
    (hapart : ∀ c' region, mem.regions c' = some region → Apart c size c' region.size) :
    mem.regions c = none ∧ (mem.new_chunk c size).Layout ∧ (mem.new_chunk c size).Accounts := by
  have hfresh : mem.regions c = none := by
    by_contra hlive
    obtain ⟨region, hregion⟩ := Option.ne_none_iff_exists'.mp hlive
    have hself := hapart c region hregion
    obtain ⟨-, hsize', -⟩ := hlayout.region c region hregion
    unfold Apart at hself
    omega
  have hcases : ∀ x region, (mem.new_chunk c size).regions x = some region →
      (x = c ∧ region = { size := size, serial := mem.obtained }) ∨
        (x ≠ c ∧ mem.regions x = some region) := by
    intro x region hx
    by_cases hxc : x = c
    · subst hxc
      exact Or.inl ⟨rfl, by simpa [Memory.new_chunk, eq_comm] using hx⟩
    · exact Or.inr ⟨hxc, by simpa [Memory.new_chunk, hxc] using hx⟩
  have hserial : ∀ x region, mem.regions x = some region → region.serial < mem.obtained :=
    fun x region hx => (haccounts.obtained_iff _).mpr (Or.inr ⟨x, region, hx, rfl⟩)
  refine ⟨hfresh, ?_, ?_⟩
  · constructor
    · intro x region hx
      rcases hcases x region hx with ⟨rfl, rfl⟩ | ⟨-, hx⟩
      · exact ⟨hdvd, hsize, hlt⟩
      · exact hlayout.region x region hx
    · intro x y region region' hx hy hne
      rcases hcases x region hx with ⟨rfl, rfl⟩ | ⟨-, hxold⟩ <;>
        rcases hcases y region' hy with ⟨rfl, rfl⟩ | ⟨-, hyold⟩
      · exact absurd rfl hne
      · exact hapart y region' hyold
      · exact (hapart x region hxold).symm
      · exact hlayout.apart x y region region' hxold hyold hne
  · constructor
    · exact haccounts.deleted_nodup
    · intro x y region region' hx hy heq
      rcases hcases x region hx with ⟨rfl, rfl⟩ | ⟨-, hxold⟩ <;>
        rcases hcases y region' hy with ⟨rfl, rfl⟩ | ⟨-, hyold⟩
      · rfl
      · exact absurd heq (hserial y region' hyold).ne'
      · exact absurd heq (hserial x region hxold).ne
      · exact haccounts.live_inj x y region region' hxold hyold heq
    · intro x region hx
      rcases hcases x region hx with ⟨rfl, rfl⟩ | ⟨-, hx⟩
      · intro hdeleted
        exact absurd ((haccounts.obtained_iff mem.obtained).mpr (Or.inl hdeleted)) (lt_irrefl _)
      · exact haccounts.live_not_deleted x region hx
    · intro s
      have hold := haccounts.obtained_iff s
      show s < mem.obtained + 1 ↔ _
      rw [Nat.lt_succ_iff_lt_or_eq, hold, or_assoc]
      apply or_congr_right
      constructor
      · rintro (⟨x, region, hx, rfl⟩ | rfl)
        · have hne : x ≠ c := by
            rintro rfl
            cases hfresh.symm.trans hx
          exact ⟨x, region, (Function.update_of_ne hne ..).trans hx, rfl⟩
        · exact ⟨c, _, Function.update_self .., rfl⟩
      · rintro ⟨x, region, hx, rfl⟩
        rcases hcases x region hx with ⟨rfl, rfl⟩ | ⟨-, hx⟩
        · exact Or.inr rfl
        · exact Or.inl ⟨x, region, hx, rfl⟩

/-- An operation of the owner of the chunks `own`, which owns `own'` after it:
other chunks are left alone, and what is not owned any more is not live. -/
structure Frame (mem mem' : Memory) (own own' : List Nat) : Prop where
  same : ∀ c, (mem.regions c).isSome → c ∉ own →
    mem'.regions c = mem.regions c ∧ mem'.headers c = mem.headers c
  fresh : ∀ c ∈ own', c ∈ own ∨ mem.regions c = none
  covered : ∀ c, (mem'.regions c).isSome → c ∈ own' ∨ ((mem.regions c).isSome ∧ c ∉ own)

theorem Memory.Rewritten.frame {headers own own' : List Nat} (h : mem.Rewritten mem' headers)
    (hsub : headers ⊆ own) (hperm : own.Perm own') : Frame mem mem' own own' where
  same c _ hc := ⟨congrFun h.regions c, h.headers c fun hown => hc (hsub hown)⟩
  fresh c hc := Or.inl (hperm.mem_iff.mpr hc)
  covered c hc := by
    rw [h.regions] at hc
    by_cases hown : c ∈ own
    · exact Or.inl (hperm.mem_iff.mp hown)
    · exact Or.inr ⟨hc, hown⟩

/-- The sizes that `allocate(len)` computes are large enough: the length can be
rounded up, and where `new[]` gives a new chunk, it has room for the rounded
length behind its header. The size of a new chunk may wrap as long as this holds. -/
structure Sized (new : Nat → Option Nat) (mem : Memory) (r : StackResource) (len : Nat) : Prop where
  padded : len + padding_len coroframe_align len < 2 ^ 64
  grown : ∀ free c, FreeList mem r.top free → sub r.e r.m < aligned len →
    (∀ x ∈ free, (mem.headers x).capacity < aligned len) →
    new (wrap (sizeof_chunk_header + alloc_bytes r (aligned len))) = some c →
    aligned len ≤ alloc_bytes r (aligned len) ∧
      sizeof_chunk_header + alloc_bytes r (aligned len) < 2 ^ 64

theorem NoWrap.sized {len : Nat} (h : NoWrap mem r len) (new : Nat → Option Nat)
    (hlayout : mem.Layout) : Sized new mem r len where
  padded := h.padded
  grown free c hfree hfull hsmall _ := by
    have hgrown := h.grown hfull (take_atleast_none hlayout hfree hsmall)
    unfold alloc_bytes
    rw [wrap_of_lt (n := aligned len + sub r.e r.b) (by omega),
      wrap_of_lt (n := aligned len + sub r.e r.b + r.initial_buffer.size) (by omega),
      wrap_of_lt (by omega)]
    omega

section Allocate

variable {buffer : Span} {b m e : Nat}

theorem Chain.bounds (h : Chain mem buffer b m e chunks live) (hlayout : mem.Layout)
    (hbuffer : buffer.data + buffer.size < 2 ^ 64) : b ≤ m ∧ m ≤ e ∧ e < 2 ^ 64 := by
  cases h with
  | buffer hlo _ htiles hm =>
    have hle := htiles.le
    exact ⟨by omega, hm, hbuffer⟩
  | chunk hregion _ htiles hm _ =>
    have hle := htiles.le
    obtain ⟨-, -, hlt⟩ := hlayout.region _ _ hregion
    exact ⟨hle, hm, hlt⟩

/-- A block on top of the current chunk. -/
theorem Chain.push_block (h : Chain mem buffer b m e chunks live) {len : Nat}
    (hlen : len ≤ aligned len) (hroom : m + aligned len ≤ e) :
    Chain mem buffer b (m + aligned len) e chunks ({ ptr := m, len := len } :: live) := by
  cases h with
  | buffer hlo hdvd htiles hm => exact .buffer hlo hdvd ⟨rfl, hlen, htiles⟩ hroom
  | @chunk c m region chunks top live hregion hdvd htiles hm hbelow =>
    have htop : Tiles (c + 32) ({ ptr := m, len := len } :: top) (m + aligned len) :=
      ⟨rfl, hlen, htiles⟩
    exact .chunk hregion hdvd htop hroom hbelow

/-- A chunk on top of the chain, its header holding the state that was current. -/
theorem Chain.push_chunk (h : Chain mem buffer b m e chunks live) {c : Nat} {region : Region}
    (hregion : mem.regions c = some region) (hdvd : 16 ∣ c) (hsize : 32 ≤ region.size)
    (hb : (mem.headers c).b = b) (hm : (mem.headers c).m = m) (he : (mem.headers c).e = e) :
    Chain mem buffer (c + 32) (c + 32) (c + region.size) (c :: chunks) live := by
  have hbelow : Chain mem buffer (mem.headers c).b (mem.headers c).m (mem.headers c).e chunks live := by
    rw [hb, hm, he]
    exact h
  have hempty : Tiles (c + 32) [] (c + 32) := rfl
  exact .chunk hregion hdvd hempty (by omega) hbelow

/-- What `allocate(len)` did when it returned `ptr`. -/
structure Allocated (mem mem' : Memory) (r r' : StackResource) (chunks free : List Nat)
    (live : List Block) (len ptr : Nat) (chunks' free' : List Nat) : Prop where
  layout : mem'.Layout
  accounts : mem'.Accounts
  frame : Frame mem mem' (chunks ++ free) (chunks' ++ free')
  holds : Holds mem' r' chunks' free' ({ ptr := ptr, len := len } :: live)
  buffer : r'.initial_buffer = r.initial_buffer
  end_eq : r'.m = ptr + aligned len

/-- There is room in the current chunk. -/
theorem allocate_current {len : Nat} (new : Nat → Option Nat) (hlayout : mem.Layout)
    (haccounts : mem.Accounts) (h : Holds mem r chunks free live) (hlen : len ≤ aligned len)
    (hfits : aligned len ≤ sub r.e r.m) :
    ∃ r', Returns (fun n => allocate n new mem r len) (mem, r', some r.m) ∧
      Allocated mem mem r r' chunks free live len r.m chunks free := by
  obtain ⟨hbm, hme, hlt⟩ := h.chain.bounds hlayout h.buffer_lt
  rw [sub_of_le hme hlt] at hfits
  have hwrap : wrap (r.m + aligned len) = r.m + aligned len := wrap_of_lt (by omega)
  refine ⟨{ r with m := r.m + aligned len }, ?_, hlayout, haccounts, ?_, ?_, rfl, rfl⟩
  · apply Returns.of_last
    intro n
    simp [allocate, sub_of_le hme hlt, hfits, hwrap]
  · exact (Memory.Rewritten.refl mem []).frame (by simp) (.refl _)
  · exact h.leave (h.chain.push_block hlen (by omega))

/-- The first chunk of the freelist with room becomes the current one. -/
theorem allocate_recycled {len taken : Nat} {left right : List Nat} {top : Option Nat}
    (new : Nat → Option Nat) (hlayout : mem.Layout) (haccounts : mem.Accounts)
    (h : Holds mem r chunks free live) (hlen : len ≤ aligned len)
    (hfull : ¬ aligned len ≤ sub r.e r.m)
    (htake : Returns (fun n => freelist_t.take_atleast n mem r.top (aligned len))
      (mem', top, some taken))
    (hfree : free = left ++ taken :: right) (hrewritten : mem.Rewritten mem' left)
    (hfreelist : FreeList mem' top (left ++ right))
    (hroom : aligned len ≤ (mem.headers taken).capacity) :
    ∃ mem'' r' ptr, Returns (fun n => allocate n new mem r len) (mem'', r', some ptr) ∧
      Allocated mem mem'' r r' chunks free live len ptr (taken :: chunks) (left ++ right) := by
  have htaken : taken ∈ free := by simp [hfree]
  obtain ⟨region, hregion, hb, hm, he⟩ := h.freelist.own taken htaken
  obtain ⟨hdvd, hsize, hlt⟩ := hlayout.region taken region hregion
  have hperm : (chunks ++ free).Perm (taken :: chunks ++ (left ++ right)) := by
    rw [hfree, ← List.append_assoc]
    exact List.perm_middle.trans (by simp)
  have hnodup := hperm.nodup_iff.mp h.nodup
  have hout : taken ∉ chunks ++ (left ++ right) := (List.nodup_cons.mp hnodup).1
  have hleft : ∀ c ∈ taken :: chunks, c ∉ left := by
    intro c hc hmem
    exact List.disjoint_of_nodup_append hnodup hc (List.mem_append_left right hmem)
  have hcapacity : aligned len ≤ region.size - 32 := by
    unfold ChunkHeader.capacity at hroom
    rw [hb, he, sub_of_le (by omega) hlt] at hroom
    omega
  have hlayout' := hrewritten.layout hlayout
  have hregion' : mem'.regions taken = some region := hrewritten.regions ▸ hregion
  have hheader : mem'.headers taken = mem.headers taken :=
    hrewritten.headers taken (hleft taken (by simp))
  let header : ChunkHeader := { mem.headers taken with b := r.b, m := r.m, e := r.e }
  have hrewritten' : mem.Rewritten (mem'.rewrite taken header) free :=
    (hrewritten.mono (by simp [hfree])).trans (.of_rewrite mem' htaken header)
  let r' : StackResource :=
    { r with b := taken + 32, m := taken + 32 + aligned len, e := taken + region.size, top := top }
  have hsame : ∀ c ∈ chunks ++ (left ++ right),
      (mem'.rewrite taken header).headers c = mem'.headers c := by
    intro c hc
    apply Memory.rewrite_headers_of_ne
    rintro rfl
    exact hout hc
  refine ⟨mem'.rewrite taken header, r', taken + 32, ?_, hrewritten'.layout hlayout,
    hrewritten'.accounts haccounts, hrewritten'.frame (by simp) hperm, ?_, rfl, rfl⟩
  · have hwrap : wrap (taken + 32 + aligned len) = taken + 32 + aligned len := wrap_of_lt (by omega)
    apply htake.imp
    intro n htake
    simp [allocate, allocate.take_chunk, hfull, htake, Memory.header_eq hlayout' hregion',
      Memory.set_header_eq hlayout' hregion', hheader, hb, hm, he, hwrap, guard, header, r']
  · constructor
    · exact h.buffer_dvd
    · exact h.buffer_lt
    · have hold : Chain (mem'.rewrite taken header) r.initial_buffer r.b r.m r.e chunks live := by
        apply h.chain.congr (fun c _ => congrFun hrewritten'.regions c)
        intro c hc
        rw [hsame c (by simp [hc]), hrewritten.headers c (hleft c (by simp [hc]))]
      have hpush := hold.push_chunk (c := taken) hregion' hdvd hsize.le (by simp [header])
        (by simp [header]) (by simp [header])
      exact hpush.push_block hlen (by omega)
    · exact hfreelist.congr (fun _ _ => rfl) fun c hc => hsame c (by simp [hc])
    · exact hnodup
    · intro c hc region' hregion''
      exact h.apart c (hperm.mem_iff.mpr hc) region' (hrewritten'.regions ▸ hregion'')

/-- A new chunk becomes the current one. -/
theorem allocate_new {len c : Nat} {new : Nat → Option Nat} (hlayout : mem.Layout)
    (haccounts : mem.Accounts) (h : Holds mem r chunks free live) (hlen : len ≤ aligned len)
    (hfull : ¬ aligned len ≤ sub r.e r.m)
    (htake : Returns (fun n => freelist_t.take_atleast n mem r.top (aligned len)) (mem, r.top, none))
    (hroom : aligned len ≤ alloc_bytes r (aligned len))
    (hheader : sizeof_chunk_header + alloc_bytes r (aligned len) < 2 ^ 64)
    (hnew : NewContract mem r.initial_buffer new)
    (hc : new (wrap (sizeof_chunk_header + alloc_bytes r (aligned len))) = some c) :
    ∃ mem' r' ptr, Returns (fun n => allocate n new mem r len) (mem', r', some ptr) ∧
      Allocated mem mem' r r' chunks free live len ptr (c :: chunks) free := by
  have hpos : 0 < aligned len := by omega
  have hsize : wrap (sizeof_chunk_header + alloc_bytes r (aligned len)) =
      32 + alloc_bytes r (aligned len) := wrap_of_lt hheader
  rw [hsize] at hc
  generalize hbytes' : alloc_bytes r (aligned len) = bytes at hc hroom hheader hsize
  obtain ⟨-, hdvd, hend, hothers, hbuffer⟩ := hnew (32 + bytes) c hc
  obtain ⟨hfresh, hlayout', haccounts'⟩ :=
    new_chunk_spec hlayout haccounts hdvd (by omega) hend hothers
  let region : Region := { size := 32 + bytes, serial := mem.obtained }
  let header : ChunkHeader := { b := r.b, m := r.m, e := r.e, freelist_next := none }
  let mem₁ := mem.new_chunk c (32 + bytes)
  have hregion : mem₁.regions c = some region := by simp [mem₁, Memory.new_chunk, region]
  have hnext : c + (32 + bytes) = c + 32 + bytes := by omega
  have hrewritten : mem₁.Rewritten (mem₁.rewrite c header) [c] := .of_rewrite mem₁ (by simp) header
  have hne : ∀ x ∈ chunks ++ free, x ≠ c := by
    rintro x hx rfl
    obtain ⟨region', hregion'⟩ := h.region hx
    cases hfresh.symm.trans hregion'
  have hregions : ∀ x, x ≠ c → mem₁.regions x = mem.regions x := fun x hx => Function.update_of_ne hx ..
  have hheaders : ∀ x, x ≠ c → (mem₁.rewrite c header).headers x = mem.headers x := fun x hx =>
    Function.update_of_ne hx ..
  have hold : Holds (mem₁.rewrite c header) r chunks free live :=
    h.congr (fun x hx => hregions x (hne x hx)) (fun x hx => hheaders x (hne x hx))
  let r' : StackResource := { r with b := c + 32, m := c + 32 + aligned len, e := c + (32 + bytes) }
  refine ⟨mem₁.rewrite c header, r', c + 32, ?_, hrewritten.layout hlayout',
    hrewritten.accounts haccounts', ?_, ?_, rfl, rfl⟩
  · have hb : wrap (c + sizeof_chunk_header) = c + 32 := wrap_of_lt (by
      unfold sizeof_chunk_header
      omega)
    have hm : wrap (c + 32 + aligned len) = c + 32 + aligned len := wrap_of_lt (by omega)
    have he : wrap (c + 32 + bytes) = c + (32 + bytes) := by
      rw [hnext]
      exact wrap_of_lt (by omega)
    have hwrite := Memory.set_header_eq hlayout' hregion header
    apply htake.imp
    intro n htake
    have hafter : allocate.new_chunk new mem { r with top := r.top } (aligned len) =
        some (mem₁.rewrite c header, r', some (c + 32)) := by
      unfold allocate.new_chunk
      have hbytes'' : alloc_bytes { r with top := r.top } (aligned len) = bytes := hbytes'
      simp only [hbytes'', hsize, hc]
      rw [hwrite, hb, hm, he]
      rfl
    simp [allocate, hfull, htake, hafter]
  · constructor
    · intro x hx hown
      have hxc : x ≠ c := by
        rintro rfl
        simp [hfresh] at hx
      exact ⟨hregions x hxc, hheaders x hxc⟩
    · intro x hx
      rcases List.mem_cons.mp hx with rfl | hx
      · exact Or.inr hfresh
      · exact Or.inl hx
    · intro x hx
      by_cases hxc : x = c
      · exact Or.inl (by simp [hxc])
      · rw [Memory.rewrite_regions, hregions x hxc] at hx
        by_cases hown : x ∈ chunks ++ free
        · exact Or.inl (List.mem_cons_of_mem c hown)
        · exact Or.inr ⟨hx, hown⟩
  · constructor
    · exact h.buffer_dvd
    · exact h.buffer_lt
    · have hroom' : 32 ≤ region.size ∧ c + 32 + aligned len ≤ c + region.size := by
        show 32 ≤ 32 + bytes ∧ c + 32 + aligned len ≤ c + (32 + bytes)
        omega
      have hpush := hold.chain.push_chunk (c := c) hregion hdvd hroom'.1 (by simp [header])
        (by simp [header]) (by simp [header])
      exact hpush.push_block hlen hroom'.2
    · exact hold.freelist
    · exact List.nodup_cons.mpr ⟨fun hc => hne c hc rfl, h.nodup⟩
    · intro x hx region' hregion'
      rcases List.mem_cons.mp hx with rfl | hx
      · cases hregion.symm.trans hregion'
        exact hbuffer
      · exact hold.apart x hx region' hregion'

/-- `allocate` returns a block, or leaves everything as it was when `new[]`
throws. -/
theorem allocate_spec {len : Nat} {new : Nat → Option Nat} (hlayout : mem.Layout)
    (haccounts : mem.Accounts) (h : Holds mem r chunks free live) (hsized : Sized new mem r len)
    (hnew : NewContract mem r.initial_buffer new) :
    Returns (fun n => allocate n new mem r len) (mem, r, none) ∨
      ∃ mem' r' ptr chunks' free', Returns (fun n => allocate n new mem r len) (mem', r', some ptr) ∧
        Allocated mem mem' r r' chunks free live len ptr chunks' free' := by
  have hlen := le_aligned hsized.padded
  by_cases hfits : aligned len ≤ sub r.e r.m
  · obtain ⟨r', hreturns, hallocated⟩ := allocate_current new hlayout haccounts h hlen hfits
    exact Or.inr ⟨mem, r', r.m, chunks, free, hreturns, hallocated⟩
  · rcases take_atleast_spec (aligned len) hlayout h.freelist with
      ⟨htake, hsmall⟩ | ⟨mem₁, top, taken, left, right, htake, hfree, hrewritten, hfreelist, hroom⟩
    · cases hc : new (wrap (sizeof_chunk_header + alloc_bytes r (aligned len))) with
      | none =>
        left
        apply htake.imp
        intro n htake
        have hafter : allocate.new_chunk new mem { r with top := r.top } (aligned len) =
            some (mem, r, none) := by
          have hsame : new (wrap (sizeof_chunk_header +
              alloc_bytes { r with top := r.top } (aligned len))) = none := hc
          simp [allocate.new_chunk, hsame]
        simp [allocate, hfits, htake, hafter]
      | some c =>
        obtain ⟨hroom, hheader⟩ := hsized.grown free c h.freelist (not_le.mp hfits) hsmall hc
        obtain ⟨mem', r', ptr, hreturns, hallocated⟩ :=
          allocate_new hlayout haccounts h hlen hfits htake hroom hheader hnew hc
        exact Or.inr ⟨mem', r', ptr, c :: chunks, free, hreturns, hallocated⟩
    · obtain ⟨mem', r', ptr, hreturns, hallocated⟩ :=
        allocate_recycled new hlayout haccounts h hlen hfits htake hfree hrewritten hfreelist hroom
      exact Or.inr ⟨mem', r', ptr, taken :: chunks, left ++ right, hreturns, hallocated⟩

end Allocate

end kelcoro.stack_resource
