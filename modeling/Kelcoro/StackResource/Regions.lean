import Kelcoro.Lib.LinkedList
import Kelcoro.StackResource.Model
import Mathlib

namespace kelcoro.stack_resource

open kelcoro.memory_support kelcoro.lib

theorem sub_of_le {a b : Nat} (hle : b ≤ a) (hlt : a < 2 ^ 64) : sub a b = a - b := by
  unfold sub wrap
  omega

theorem wrap_of_lt {n : Nat} (hlt : n < 2 ^ 64) : wrap n = n :=
  Nat.mod_eq_of_lt hlt

/-- Moving a pointer back by `len` comes to `ptr` only from the end of the block. -/
theorem add_of_sub_eq {m len ptr : Nat} (heq : sub m len = ptr) (hm : m < 2 ^ 64)
    (hend : ptr + len < 2 ^ 64) : ptr + len = m := by
  unfold sub wrap at heq
  omega

theorem sub_add_self {ptr len : Nat} (hend : ptr + len < 2 ^ 64) : sub (ptr + len) len = ptr := by
  unfold sub wrap
  omega

theorem dvd_add_padding_len (sz : Nat) : 16 ∣ sz + padding_len coroframe_align sz := by
  unfold padding_len coroframe_align
  omega

theorem dvd_aligned (len : Nat) : 16 ∣ aligned len := by
  have hdvd := dvd_add_padding_len len
  unfold aligned wrap
  omega

theorem le_aligned {len : Nat} (hlt : len + padding_len coroframe_align len < 2 ^ 64) :
    len ≤ aligned len := by
  unfold aligned
  rw [wrap_of_lt hlt]
  omega

theorem Apart.symm {a la b lb : Nat} (h : Apart a la b lb) : Apart b lb a la := Or.symm h

/-- Pieces of storage that are apart stay so when they shrink. -/
theorem Apart.shrink {a la b lb a' la' b' lb' : Nat} (h : Apart a la b lb)
    (ha : a ≤ a') (hla : a' + la' ≤ a + la) (hb : b ≤ b') (hlb : b' + lb' ≤ b + lb) :
    Apart a' la' b' lb' := by
  unfold Apart at h ⊢
  omega

/-- The blocks fill the storage from `lo` to `m`, the first of them on top. -/
def Tiles (lo : Nat) : List Block → Nat → Prop
  | [], m => m = lo
  | block :: blocks, m =>
    m = block.ptr + aligned block.len ∧ block.len ≤ aligned block.len ∧ Tiles lo blocks block.ptr

namespace Tiles

variable {lo m : Nat} {blocks : List Block}

theorem le (h : Tiles lo blocks m) : lo ≤ m := by
  induction blocks generalizing m with
  | nil => exact h.ge
  | cons block blocks ih =>
    obtain ⟨rfl, -, hrest⟩ := h
    have hlo := ih hrest
    omega

theorem dvd (h : Tiles lo blocks m) (hlo : 16 ∣ lo) : 16 ∣ m := by
  induction blocks generalizing m with
  | nil => exact h.symm ▸ hlo
  | cons block blocks ih =>
    obtain ⟨rfl, -, hrest⟩ := h
    exact (ih hrest).add (dvd_aligned block.len)

theorem mem {block : Block} (h : Tiles lo blocks m) (hlo : 16 ∣ lo) (hblock : block ∈ blocks) :
    16 ∣ block.ptr ∧ block.len ≤ aligned block.len ∧ lo ≤ block.ptr ∧
      block.ptr + aligned block.len ≤ m := by
  induction blocks generalizing m with
  | nil => cases hblock
  | cons head blocks ih =>
    obtain ⟨rfl, hlen, hrest⟩ := h
    rcases List.mem_cons.mp hblock with rfl | hblock
    · exact ⟨hrest.dvd hlo, hlen, hrest.le, le_rfl⟩
    · obtain ⟨hdvd, hle, hptr, hend⟩ := ih hrest hblock
      exact ⟨hdvd, hle, hptr, by omega⟩

theorem pairwise (h : Tiles lo blocks m) (hlo : 16 ∣ lo) :
    blocks.Pairwise fun x y => Apart x.ptr x.len y.ptr y.len := by
  induction blocks generalizing m with
  | nil => exact List.Pairwise.nil
  | cons head blocks ih =>
    obtain ⟨rfl, -, hrest⟩ := h
    refine List.pairwise_cons.mpr ⟨fun block hblock => ?_, ih hrest⟩
    obtain ⟨-, hlen, -, hend⟩ := hrest.mem hlo hblock
    right
    omega

end Tiles

/-- `b`, `m` and `e` are the state of a resource whose chunks in use are
`chunks`, the current one first: they are the bounds of the chunk behind its
header, and the header holds the state of the chunk below. Below the last one is
the initial buffer. The live blocks fill each chunk up to its `m`; in the
initial buffer they need not start at its beginning, since `reuse_memory` does
not move `m` there. -/
inductive Chain (mem : Memory) (buffer : Span) :
    Nat → Nat → Nat → List Nat → List Block → Prop
  | buffer {lo m : Nat} {live : List Block} (hlo : buffer.data ≤ lo) (hdvd : 16 ∣ lo)
      (htiles : Tiles lo live m) (hm : m ≤ buffer.data + buffer.size) :
      Chain mem buffer buffer.data m (buffer.data + buffer.size) [] live
  | chunk {c m : Nat} {region : Region} {chunks : List Nat} {top live : List Block}
      (hregion : mem.regions c = some region) (hdvd : 16 ∣ c) (htiles : Tiles (c + 32) top m)
      (hm : m ≤ c + region.size)
      (hbelow : Chain mem buffer (mem.headers c).b (mem.headers c).m (mem.headers c).e chunks live) :
      Chain mem buffer (c + 32) m (c + region.size) (c :: chunks) (top ++ live)

/-- Chunks of the freelist, whose headers hold their own bounds. -/
structure FreeList (mem : Memory) (top : Option Nat) (chunks : List Nat) : Prop where
  linked : Linked (fun c => (mem.headers c).freelist_next) top chunks
  own : ∀ c ∈ chunks, ∃ region, mem.regions c = some region ∧ (mem.headers c).b = c + 32 ∧
    (mem.headers c).m = c + 32 ∧ (mem.headers c).e = c + region.size

/-- Where the live chunks lie, and that their headers have room. -/
structure Memory.Layout (mem : Memory) : Prop where
  region : ∀ c region, mem.regions c = some region →
    16 ∣ c ∧ 32 < region.size ∧ c + region.size < 2 ^ 64
  apart : ∀ c c' region region', mem.regions c = some region → mem.regions c' = some region' →
    c ≠ c' → Apart c region.size c' region'.size

/-- Every chunk that was obtained is live or was deleted once. -/
structure Memory.Accounts (mem : Memory) : Prop where
  deleted_nodup : mem.deleted.Nodup
  live_inj : ∀ c c' region region', mem.regions c = some region → mem.regions c' = some region' →
    region.serial = region'.serial → c = c'
  live_not_deleted : ∀ c region, mem.regions c = some region → region.serial ∉ mem.deleted
  obtained_iff : ∀ s, s < mem.obtained ↔
    s ∈ mem.deleted ∨ ∃ c region, mem.regions c = some region ∧ region.serial = s

/-- `r` holds the chunks `chunks` in use and `free` in its freelist, and the
blocks `live`. -/
structure Holds (mem : Memory) (r : StackResource) (chunks free : List Nat) (live : List Block) :
    Prop where
  buffer_dvd : 16 ∣ r.initial_buffer.data
  buffer_lt : r.initial_buffer.data + r.initial_buffer.size < 2 ^ 64
  chain : Chain mem r.initial_buffer r.b r.m r.e chunks live
  freelist : FreeList mem r.top free
  nodup : (chunks ++ free).Nodup
  apart : ∀ c ∈ chunks ++ free, ∀ region, mem.regions c = some region →
    Apart r.initial_buffer.data r.initial_buffer.size c region.size

/-- A block lies inside the initial buffer or behind the header of one of the
chunks. -/
def Inside (mem : Memory) (buffer : Span) (chunks : List Nat) (block : Block) : Prop :=
  (buffer.data ≤ block.ptr ∧ block.ptr + aligned block.len ≤ buffer.data + buffer.size) ∨
    ∃ c ∈ chunks, ∃ region, mem.regions c = some region ∧
      c + sizeof_chunk_header ≤ block.ptr ∧ block.ptr + aligned block.len ≤ c + region.size

variable {mem mem' : Memory} {buffer : Span} {b m e : Nat} {chunks : List Nat} {live : List Block}

theorem Chain.congr (h : Chain mem buffer b m e chunks live)
    (hregions : ∀ c ∈ chunks, mem'.regions c = mem.regions c)
    (hheaders : ∀ c ∈ chunks, mem'.headers c = mem.headers c) :
    Chain mem' buffer b m e chunks live := by
  induction h with
  | buffer hlo hdvd htiles hm => exact .buffer hlo hdvd htiles hm
  | @chunk c m region chunks top live hregion hdvd htiles hm hbelow ih =>
    have hbelow' := ih (fun x hx => hregions x (by simp [hx])) (fun x hx => hheaders x (by simp [hx]))
    rw [← hheaders c (by simp)] at hbelow'
    exact .chunk ((hregions c (by simp)).trans hregion) hdvd htiles hm hbelow'

theorem Chain.region (h : Chain mem buffer b m e chunks live) {c : Nat} (hc : c ∈ chunks) :
    ∃ region, mem.regions c = some region := by
  induction h with
  | buffer => cases hc
  | chunk hregion _ _ _ _ ih =>
    rcases List.mem_cons.mp hc with rfl | hc
    · exact ⟨_, hregion⟩
    · exact ih hc

/-- The live blocks are where they should be. -/
theorem Chain.mem_live (h : Chain mem buffer b m e chunks live) {block : Block} (hblock : block ∈ live) :
    16 ∣ block.ptr ∧ block.len ≤ aligned block.len ∧ Inside mem buffer chunks block := by
  induction h with
  | buffer hlo hdvd htiles hm =>
    obtain ⟨hptr, hlen, hstart, hend⟩ := htiles.mem hdvd hblock
    exact ⟨hptr, hlen, Or.inl ⟨by omega, by omega⟩⟩
  | @chunk c m region chunks top live hregion hdvd htiles hm _ ih =>
    rcases List.mem_append.mp hblock with hblock | hblock
    · obtain ⟨hptr, hlen, hstart, hend⟩ := htiles.mem (by omega) hblock
      exact ⟨hptr, hlen, Or.inr ⟨c, by simp, region, hregion, hstart, by omega⟩⟩
    · obtain ⟨hptr, hlen, hinside⟩ := ih hblock
      refine ⟨hptr, hlen, hinside.imp_right ?_⟩
      rintro ⟨x, hx, hrest⟩
      exact ⟨x, List.mem_cons_of_mem c hx, hrest⟩

/-- What lies inside the chunks of a resource is apart from any other chunk. -/
theorem Inside.apart {block : Block} {c : Nat} {region : Region}
    (h : Inside mem buffer chunks block) (hlayout : mem.Layout) (hregion : mem.regions c = some region)
    (hc : c ∉ chunks) (hbuffer : Apart buffer.data buffer.size c region.size) :
    Apart block.ptr (aligned block.len) c region.size := by
  rcases h with ⟨hstart, hend⟩ | ⟨x, hx, region', hregion', hstart, hend⟩
  · exact hbuffer.shrink hstart hend le_rfl le_rfl
  · have hne : x ≠ c := by
      rintro rfl
      exact hc hx
    have hapart := hlayout.apart x c region' region hregion' hregion hne
    exact hapart.shrink (by unfold sizeof_chunk_header at hstart; omega) hend le_rfl le_rfl

/-- No block overlaps a header. -/
theorem Inside.apart_header {block : Block} {c : Nat} {region : Region}
    (h : Inside mem buffer chunks block) (hlayout : mem.Layout) (hregion : mem.regions c = some region)
    (hbuffer : Apart buffer.data buffer.size c region.size) :
    Apart block.ptr (aligned block.len) c sizeof_chunk_header := by
  obtain ⟨-, hsize, -⟩ := hlayout.region c region hregion
  rcases h with ⟨hstart, hend⟩ | ⟨x, -, region', hregion', hstart, hend⟩
  · exact hbuffer.shrink hstart hend le_rfl (by unfold sizeof_chunk_header; omega)
  · by_cases hxc : x = c
    · subst hxc
      right
      exact hstart
    · have hapart := hlayout.apart x c region' region hregion' hregion hxc
      unfold sizeof_chunk_header at hstart ⊢
      exact hapart.shrink (by omega) hend le_rfl (by omega)

/-- The live blocks of a resource do not overlap. -/
theorem Chain.pairwise (h : Chain mem buffer b m e chunks live) (hlayout : mem.Layout)
    (hnodup : chunks.Nodup)
    (hapart : ∀ c ∈ chunks, ∀ region, mem.regions c = some region →
      Apart buffer.data buffer.size c region.size) :
    live.Pairwise fun x y => Apart x.ptr x.len y.ptr y.len := by
  induction h with
  | buffer _ hdvd htiles _ => exact htiles.pairwise hdvd
  | @chunk c m region chunks top live hregion hdvd htiles hm hbelow ih =>
    obtain ⟨hc, hnodup⟩ := List.nodup_cons.mp hnodup
    have hrest := ih hnodup fun x hx => hapart x (List.mem_cons_of_mem c hx)
    refine List.pairwise_append.mpr ⟨htiles.pairwise (by omega), hrest, fun x hx y hy => ?_⟩
    obtain ⟨-, hxlen, hxstart, hxend⟩ := htiles.mem (by omega) hx
    obtain ⟨-, hylen, hinside⟩ := hbelow.mem_live hy
    have hout := hinside.apart hlayout hregion hc (hapart c (by simp) region hregion)
    exact hout.symm.shrink (by omega) (by omega) le_rfl (by omega)

namespace Memory

theorem header_eq (hlayout : mem.Layout) {c : Nat} {region : Region}
    (hregion : mem.regions c = some region) : mem.header c = some (mem.headers c) := by
  obtain ⟨-, hsize, -⟩ := hlayout.region c region hregion
  have hroom : sizeof_chunk_header ≤ region.size := hsize.le
  simp [header, hregion, hroom]

/-- What writing a header gives. -/
def rewrite (mem : Memory) (c : Nat) (h : ChunkHeader) : Memory :=
  { mem with headers := Function.update mem.headers c h }

@[simp] theorem rewrite_regions (c : Nat) (h : ChunkHeader) : (mem.rewrite c h).regions = mem.regions :=
  rfl

@[simp] theorem rewrite_headers_self (c : Nat) (h : ChunkHeader) : (mem.rewrite c h).headers c = h := by
  simp [rewrite]

theorem rewrite_headers_of_ne {c x : Nat} (h : ChunkHeader) (hne : x ≠ c) :
    (mem.rewrite c h).headers x = mem.headers x := by
  simp [rewrite, hne]

theorem set_header_eq (hlayout : mem.Layout) {c : Nat} {region : Region}
    (hregion : mem.regions c = some region) (h : ChunkHeader) :
    mem.set_header c h = some (mem.rewrite c h) := by
  obtain ⟨-, hsize, -⟩ := hlayout.region c region hregion
  have hroom : sizeof_chunk_header ≤ region.size := hsize.le
  simp [set_header, rewrite, hregion, hroom]

/-- `mem'` differs from `mem` in the headers of `own` only. -/
structure Rewritten (mem mem' : Memory) (own : List Nat) : Prop where
  regions : mem'.regions = mem.regions
  headers : ∀ c, c ∉ own → mem'.headers c = mem.headers c
  obtained : mem'.obtained = mem.obtained
  deleted : mem'.deleted = mem.deleted

namespace Rewritten

variable {mem'' : Memory} {own own' : List Nat}

theorem refl (mem : Memory) (own : List Nat) : mem.Rewritten mem own :=
  ⟨rfl, fun _ _ => rfl, rfl, rfl⟩

theorem of_rewrite (mem : Memory) {c : Nat} (hc : c ∈ own) (h : ChunkHeader) :
    mem.Rewritten (mem.rewrite c h) own := by
  refine ⟨rfl, fun x hx => rewrite_headers_of_ne h ?_, rfl, rfl⟩
  rintro rfl
  exact hx hc

theorem trans (h : mem.Rewritten mem' own) (h' : mem'.Rewritten mem'' own) :
    mem.Rewritten mem'' own where
  regions := h'.regions.trans h.regions
  headers c hc := (h'.headers c hc).trans (h.headers c hc)
  obtained := h'.obtained.trans h.obtained
  deleted := h'.deleted.trans h.deleted

theorem mono (h : mem.Rewritten mem' own) (hsub : own ⊆ own') : mem.Rewritten mem' own' where
  regions := h.regions
  headers c hc := h.headers c fun hown => hc (hsub hown)
  obtained := h.obtained
  deleted := h.deleted

theorem layout (h : mem.Rewritten mem' own) (hlayout : mem.Layout) : mem'.Layout where
  region c region hregion := hlayout.region c region (h.regions ▸ hregion)
  apart c c' region region' hregion hregion' :=
    hlayout.apart c c' region region' (h.regions ▸ hregion) (h.regions ▸ hregion')

theorem accounts (h : mem.Rewritten mem' own) (haccounts : mem.Accounts) : mem'.Accounts := by
  obtain ⟨hregions, -, hobtained, hdeleted⟩ := h
  obtain ⟨hnodup, hinj, hlive, hiff⟩ := haccounts
  constructor
  · rwa [hdeleted]
  · rwa [hregions]
  · rwa [hregions, hdeleted]
  · rwa [hregions, hdeleted, hobtained]

end Rewritten

end Memory

namespace FreeList

variable {top : Option Nat} {free : List Nat}

theorem congr (h : FreeList mem top free) (hregions : ∀ c ∈ free, mem'.regions c = mem.regions c)
    (hheaders : ∀ c ∈ free, mem'.headers c = mem.headers c) : FreeList mem' top free where
  linked := h.linked.congr fun c hc => by rw [hheaders c hc]
  own c hc := by
    rw [hregions c hc, hheaders c hc]
    exact h.own c hc

theorem nil (mem : Memory) : FreeList mem none [] :=
  ⟨rfl, fun _ hc => absurd hc (by simp)⟩

end FreeList

namespace Holds

variable {r : StackResource} {free : List Nat}

theorem congr (h : Holds mem r chunks free live)
    (hregions : ∀ c ∈ chunks ++ free, mem'.regions c = mem.regions c)
    (hheaders : ∀ c ∈ chunks ++ free, mem'.headers c = mem.headers c) :
    Holds mem' r chunks free live where
  buffer_dvd := h.buffer_dvd
  buffer_lt := h.buffer_lt
  chain := h.chain.congr (fun c hc => hregions c (by simp [hc])) (fun c hc => hheaders c (by simp [hc]))
  freelist :=
    h.freelist.congr (fun c hc => hregions c (by simp [hc])) (fun c hc => hheaders c (by simp [hc]))
  nodup := h.nodup
  apart c hc region hregion := h.apart c hc region (hregions c hc ▸ hregion)

/-- Every chunk of a resource is live. -/
theorem region (h : Holds mem r chunks free live) {c : Nat} (hc : c ∈ chunks ++ free) :
    ∃ region, mem.regions c = some region := by
  rcases List.mem_append.mp hc with hc | hc
  · exact h.chain.region hc
  · obtain ⟨region, hregion, -⟩ := h.freelist.own c hc
    exact ⟨region, hregion⟩

end Holds

end kelcoro.stack_resource
