import BeeLlama.Alloc.Blocks
import BeeLlama.Lib.Run

/-!
# Runs of the dynamic tensor allocator

A run calls `ggml_dyn_tallocr_alloc` and `ggml_dyn_tallocr_free_bytes`, which returns a range that
was handed out or an aligned part at its end. The ranges that are live and the capacity of each
chunk are kept beside the allocator.

* `Safe`: the free blocks and the live ranges of a chunk tile its capacity. It holds in every run.
* `Tidy`: the free blocks are sorted, with gaps between them. It holds as long as no range without
  bytes is returned inside of a free block or of a live range.
-/

namespace BeeLlama.Alloc

open Span List

/-- A range of a chunk. -/
structure Range where
  chunk : Nat
  span : Span
  deriving DecidableEq, Repr

/-- The allocator, the live ranges, the capacity of each chunk and all ranges ever handed out. -/
structure TallocrRun where
  alloc : DynTallocr
  live : List Range := []
  capacity : List Nat := []
  handed : List Range := []
  deriving DecidableEq, Repr

/-- The calls. The range of `free` loses the bytes from `kept` on; `size` is the argument. -/
inductive TallocrOp where
  | alloc (size : Nat)
  | free (r : Range) (kept size : Nat)
  deriving DecidableEq, Repr

/-- The live ranges of a chunk. -/
def liveIn (live : List Range) (c : Nat) : List Span :=
  (live.filter fun r => r.chunk = c).map (·.span)

/-- What is left of the range. -/
def keptRange (r : Range) (kept : Nat) : List Range :=
  if kept = 0 then [] else [⟨r.chunk, ⟨r.span.offset, kept⟩⟩]

/-- The capacity of the chunk that a call opens: the size of its free block. -/
def openedCapacity (a : DynTallocr) (size : Nat) : List Nat :=
  match findBlock a size with
  | some _ => []
  | none =>
    match newChunk a size with
    | none => []
    | some a' => (a'.chunks.drop a.chunks.length).map fun chunk =>
        (chunk.freeBlocks.map (·.size)).sum

/-- The runs of an allocator. -/
def tallocrSys (alignment maxBufferSize : Nat) : Sys TallocrRun TallocrOp where
  init s := s = { alloc := dynTallocrNew alignment maxBufferSize }
  step s op s' := match op with
    | .alloc size => ∃ a addr, alloc s.alloc size = .ok (a, addr) ∧
        s' = { alloc := a
               live := ⟨addr.chunk, ⟨addr.offset, alignedOffset size alignment⟩⟩ :: s.live
               capacity := s.capacity ++ openedCapacity s.alloc (alignedOffset size alignment)
               handed := ⟨addr.chunk, ⟨addr.offset, alignedOffset size alignment⟩⟩ :: s.handed }
    | .free r kept size => r ∈ s.live ∧ kept ≤ r.span.size ∧ alignment ∣ kept ∧
        alignedOffset size alignment = r.span.size - kept ∧
        ∃ a, freeBytes s.alloc ⟨r.chunk, r.span.offset + kept⟩ size = .ok a ∧
          s' = { s with alloc := a, live := keptRange r kept ++ s.live.erase r }

/-- The size of a range fits into a `size_t`, and into the last chunk if that is opened for it. -/
def NoOverflow (s : TallocrRun) : TallocrOp → Prop
  | .alloc size =>
    size + (s.alloc.alignment - size % s.alloc.alignment) % s.alloc.alignment < 2 ^ 64 ∧
      (findBlock s.alloc (alignedOffset size s.alloc.alignment) = none →
        s.alloc.chunks.length = maxChunks - 1 → alignedOffset size s.alloc.alignment ≤ sizeMax / 2)
  | .free _ _ _ => True

/-- A returned part without bytes is not inside of a free block or of a live range. -/
def NotInside (s : TallocrRun) : TallocrOp → Prop
  | .alloc _ => True
  | .free r kept _ => kept = r.span.size →
      ∀ t ∈ (s.alloc.chunks.getD r.chunk {}).freeBlocks ++ liveIn s.live r.chunk,
        ¬ (t.offset < r.span.offset + kept ∧ r.span.offset + kept < t.stop)

/-! ## The ranges of the chunks -/

/-- What holds of a chunk in every run: its free blocks and live ranges tile its capacity, and they
are aligned. -/
structure ChunkSafe (alignment : Nat) (free live : List Span) (capacity : Nat) : Prop where
  tiles : Tiles (free ++ live) capacity
  stop_le : ∀ b ∈ free ++ live, b.stop ≤ capacity
  free_aligned : ∀ b ∈ free, alignment ∣ b.offset
  live_aligned : ∀ r ∈ live, alignment ∣ r.offset ∧ alignment ∣ r.size

/-- The free blocks are sorted with gaps, and apart from the live ranges with bytes. -/
structure ChunkTidy (free live : List Span) : Prop where
  gapped : Gapped free
  apart : ∀ b ∈ free, ∀ r ∈ live, 0 < r.size → Apart b r

section Chunk

variable {al n i size kept : Nat} {free live out : List Span} {block r : Span}

/-- The array around an index. -/
theorem exists_split {bs : List Span} (h : bs[i]? = some block) :
    ∃ pre post, bs = pre ++ block :: post ∧ bs.eraseIdx i = pre ++ post ∧
      ∀ b, bs.set i b = pre ++ b :: post := by
  obtain ⟨hi, rfl⟩ := List.getElem?_eq_some_iff.mp h
  refine ⟨bs.take i, bs.drop (i + 1), ?_, List.eraseIdx_eq_take_drop_succ .., fun b => ?_⟩
  · rw [← drop_eq_getElem_cons, take_append_drop]
  · rw [set_eq_take_append_cons_drop, if_pos hi]

/-- The free blocks after a range was taken from the beginning of one. -/
def takenBlocks (free : List Span) (i : Nat) (block : Span) (size : Nat) : List Span :=
  if block.size - size = 0 then free.eraseIdx i
  else free.set i ⟨block.offset + size, block.size - size⟩

theorem mem_takenBlocks (hb : free[i]? = some block) {b : Span}
    (h : b ∈ takenBlocks free i block size) :
    b ∈ free ∨ b = ⟨block.offset + size, block.size - size⟩ := by
  obtain ⟨pre, post, e, ee, es⟩ := exists_split hb
  rw [takenBlocks, ee, es] at h
  subst e
  split at h
  · exact .inl (by simp only [mem_append, mem_cons] at h ⊢; tauto)
  · simp only [mem_append, mem_cons] at h ⊢
    tauto

theorem ChunkSafe.take (h : ChunkSafe al free live n) (hb : free[i]? = some block)
    (hs : size ≤ block.size) (ha : al ∣ size) :
    ChunkSafe al (takenBlocks free i block size) (⟨block.offset, size⟩ :: live) n := by
  have hmem : block ∈ free := mem_of_getElem? hb
  have hstop := h.stop_le block (mem_append_left _ hmem)
  have htiles : Tiles (takenBlocks free i block size ++ ⟨block.offset, size⟩ :: live) n := by
    obtain ⟨pre, post, e, ee, es⟩ := exists_split hb
    have ht := h.tiles
    rw [e] at ht
    have perm : ∀ {l l' : List Span}, (∀ x, l.count x = l'.count x) → l.Perm l' :=
      fun h => perm_iff_count.mpr h
    have hcut : Tiles (⟨block.offset + size, block.size - size⟩ ::
        ⟨block.offset, size⟩ :: (pre ++ post ++ live)) n := by
      refine Tiles.split (b := block) (ht.perm (perm fun x => ?_)) (fun x => ?_) fun x => ?_
      · simp [count_cons]
        omega
      · simp only [has_iff]
        omega
      · simp only [has_iff]
        omega
    rw [takenBlocks, ee, es]
    split
    · next h0 =>
      refine (hcut.of_cons_empty h0).perm (perm fun x => ?_)
      simp [count_cons]
      omega
    · refine hcut.perm (perm fun x => ?_)
      simp [count_cons]
      omega
  refine ⟨htiles, fun b hb' => ?_, fun b hb' => ?_, fun r hr => ?_⟩
  · simp only [Span.stop] at hstop
    rcases mem_append.mp hb' with hb' | hb'
    · rcases mem_takenBlocks hb hb' with hb' | rfl
      · exact h.stop_le b (mem_append_left _ hb')
      · simp only [Span.stop]
        omega
    · rcases mem_cons.mp hb' with rfl | hb'
      · simp only [Span.stop]
        omega
      · exact h.stop_le b (mem_append_right _ hb')
  · rcases mem_takenBlocks hb hb' with hb' | rfl
    · exact h.free_aligned b hb'
    · exact Nat.dvd_add (h.free_aligned block hmem) ha
  · rcases mem_cons.mp hr with rfl | hr
    · exact ⟨h.free_aligned block hmem, ha⟩
    · exact h.live_aligned r hr

theorem ChunkTidy.take (h : ChunkTidy free live) (hb : free[i]? = some block)
    (hs : size ≤ block.size) :
    ChunkTidy (takenBlocks free i block size) (⟨block.offset, size⟩ :: live) := by
  have hmem : block ∈ free := mem_of_getElem? hb
  obtain ⟨pre, post, e, ee, es⟩ := exists_split hb
  have hg := h.gapped
  rw [e] at hg
  refine ⟨?_, fun b hb' r hr hpos => ?_⟩
  · rw [takenBlocks, ee, es]
    split
    · exact hg.erase
    · refine hg.shrink (by simp) ?_
      simp only [Span.stop]
      omega
  · -- the blocks before and behind are apart from `block`, hence from its beginning
    have hcases : b = ⟨block.offset + size, block.size - size⟩ ∨ b ∈ pre ∨ b ∈ post := by
      rw [takenBlocks, ee, es] at hb'
      split at hb' <;> simp only [mem_append, mem_cons] at hb' <;> tauto
    have hfree : b ∈ pre ∨ b ∈ post → b ∈ free := by
      rw [e]
      simp only [mem_append, mem_cons]
      tauto
    rcases mem_cons.mp hr with rfl | hr
    · rcases hcases with rfl | hb | hb
      · exact .inr (by simp [Span.stop])
      · have := (pairwise_append.mp hg).2.2 b hb block mem_cons_self
        exact .inl (le_of_lt this)
      · have := (pairwise_cons.mp (pairwise_append.mp hg).2.1).1 b hb
        refine .inr ?_
        simp only [Span.stop] at *
        omega
    · rcases hcases with rfl | hb
      · have := h.apart block hmem r hr hpos
        simp only [Apart, Span.stop] at *
        omega
      · exact h.apart b (hfree hb) r hr hpos

/-- The part of a live range from `kept` on is returned. -/
theorem ChunkSafe.release (h : ChunkSafe al free (r :: live) n) (hk : kept ≤ r.size)
    (ha : al ∣ kept) (hm : Merged ⟨r.offset + kept, r.size - kept⟩ free out) :
    ChunkSafe al out ((if kept = 0 then [] else [⟨r.offset, kept⟩]) ++ live) n := by
  have hr := h.live_aligned r mem_cons_self
  have hstop := h.stop_le r (mem_append_right _ mem_cons_self)
  have perm : ∀ {l l' : List Span}, (∀ x, l.count x = l'.count x) → l.Perm l' :=
    fun h => perm_iff_count.mpr h
  have hcut : Tiles (⟨r.offset, kept⟩ :: ⟨r.offset + kept, r.size - kept⟩ :: (free ++ live)) n := by
    refine Tiles.split (b := r) (h.tiles.perm (perm fun x => ?_)) (fun x => ?_) fun x => ?_
    · simp [count_cons]
      omega
    · simp only [has_iff]
      omega
    · simp only [has_iff]
      omega
  have htiles : Tiles (out ++ ((if kept = 0 then [] else [⟨r.offset, kept⟩]) ++ live)) n := by
    refine hm.tiles ?_
    split
    · next h0 =>
      refine (hcut.of_cons_empty h0).perm (perm fun x => ?_)
      simp [count_cons]
      omega
    · refine hcut.perm (perm fun x => ?_)
      simp [count_cons]
      omega
  have hkept : ∀ s ∈ (if kept = 0 then [] else [(⟨r.offset, kept⟩ : Span)]) ++ live,
      s = ⟨r.offset, kept⟩ ∨ s ∈ live := by
    intro s hs
    split at hs
    · exact .inr hs
    · simpa using hs
  simp only [Span.stop] at hstop
  refine ⟨htiles, fun b hb => ?_, fun b hb => ?_, fun s hs => ?_⟩
  · rcases mem_append.mp hb with hb | hb
    · rcases hm.mem hb with hb | ⟨-, e | ⟨c, hc, -, e⟩⟩
      · exact h.stop_le b (mem_append_left _ hb)
      · rw [e]
        simp only [Span.stop]
        omega
      · rw [e]
        exact h.stop_le c (mem_append_left _ hc)
    · rcases hkept b hb with rfl | hb
      · simp only [Span.stop]
        omega
      · exact h.stop_le b (by simp [hb])
  · rcases hm.mem hb with hb | ⟨e | ⟨a, ha', -, e⟩, -⟩
    · exact h.free_aligned b hb
    · rw [e]
      exact Nat.dvd_add hr.1 ha
    · rw [e]
      exact h.free_aligned a ha'
  · rcases hkept s hs with rfl | hs
    · exact ⟨hr.1, ha⟩
    · exact h.live_aligned s (mem_cons_of_mem _ hs)

theorem ChunkTidy.release (h : ChunkTidy free (r :: live)) (hs : Scattered (r :: live))
    (hk : kept ≤ r.size)
    (hin : kept = r.size → ∀ t ∈ free ++ r :: live,
      ¬ (t.offset < r.offset + kept ∧ r.offset + kept < t.stop))
    (hm : Merged ⟨r.offset + kept, r.size - kept⟩ free out) :
    ChunkTidy out ((if kept = 0 then [] else [⟨r.offset, kept⟩]) ++ live) := by
  -- the returned part is apart from the blocks and from the other ranges
  have hfree : ∀ b ∈ free, Apart b ⟨r.offset + kept, r.size - kept⟩ := by
    intro b hb
    by_cases hk' : kept = r.size
    · exact .of_not_inside (by simp [hk']) (hin hk' b (mem_append_left _ hb))
    · have := h.apart b hb r mem_cons_self (by omega)
      simp only [Apart, Span.stop] at *
      omega
  have hlive : ∀ s ∈ live, 0 < s.size → Apart ⟨r.offset + kept, r.size - kept⟩ s := by
    intro s hs' hpos
    by_cases hk' : kept = r.size
    · exact .symm (.of_not_inside (by simp [hk'])
        (hin hk' s (mem_append_right _ (mem_cons_of_mem _ hs'))))
    · have := ((pairwise_cons.mp hs).1 s hs').apart (by omega) hpos
      simp only [Apart, Span.stop] at *
      omega
  refine ⟨hm.gapped h.gapped hfree, fun b hb s hs' hpos => ?_⟩
  have hkept : s = ⟨r.offset, kept⟩ ∨ s ∈ live := by
    split at hs'
    · exact .inr hs'
    · simpa using hs'
  rcases hkept with rfl | hs'
  · refine hm.apart hpos (fun a ha => ?_) (.inr (by simp [Span.stop])) hb
    have := h.apart a ha r mem_cons_self (lt_of_lt_of_le hpos hk)
    simp only [Apart, Span.stop] at *
    omega
  · exact hm.apart hpos (fun a ha => h.apart a ha s (mem_cons_of_mem _ hs') hpos)
      (hlive s hs' hpos) hb

end Chunk

/-! ## The live ranges of a chunk -/

section Live

variable {live : List Range} {r : Range} {c kept : Nat}

theorem liveIn_cons : liveIn (r :: live) c =
    if r.chunk = c then r.span :: liveIn live c else liveIn live c := by
  by_cases h : r.chunk = c <;> simp [liveIn, h]

theorem liveIn_append {l : List Range} : liveIn (l ++ live) c = liveIn l c ++ liveIn live c := by
  simp [liveIn]

theorem mem_liveIn {s : Span} : s ∈ liveIn live c ↔ ⟨c, s⟩ ∈ live := by
  simp only [liveIn, mem_map, mem_filter, decide_eq_true_eq]
  constructor
  · rintro ⟨⟨c', s'⟩, ⟨h, rfl⟩, rfl⟩
    exact h
  · exact fun h => ⟨⟨c, s⟩, ⟨h, rfl⟩, rfl⟩

theorem liveIn_keptRange : liveIn (keptRange r kept) r.chunk =
    if kept = 0 then [] else [⟨r.span.offset, kept⟩] := by
  by_cases h : kept = 0 <;> simp [keptRange, liveIn, h]

theorem liveIn_keptRange_ne (h : r.chunk ≠ c) : liveIn (keptRange r kept) c = [] := by
  by_cases hk : kept = 0 <;> simp [keptRange, liveIn, hk, h]

theorem liveIn_erase (h : r ∈ live) :
    (liveIn live r.chunk).Perm (r.span :: liveIn (live.erase r) r.chunk) := by
  have hp := ((perm_cons_erase h).filter fun q => q.chunk = r.chunk).map (·.span)
  simpa [liveIn] using hp

theorem liveIn_erase_ne (h : r.chunk ≠ c) : liveIn (live.erase r) c = liveIn live c := by
  induction live with
  | nil => rfl
  | cons q live ih =>
    rw [erase_cons]
    split
    · next hq =>
      rw [liveIn_cons, if_neg (by rw [eq_of_beq hq]; exact h)]
    · rw [liveIn_cons, liveIn_cons, ih]

end Live

theorem ChunkSafe.perm {al n : Nat} {free live live' : List Span} (h : ChunkSafe al free live n)
    (hp : live.Perm live') : ChunkSafe al free live' n where
  tiles := h.tiles.perm (hp.append_left free)
  stop_le b hb := h.stop_le b ((hp.append_left free).mem_iff.mpr hb)
  free_aligned := h.free_aligned
  live_aligned r hr := h.live_aligned r (hp.mem_iff.mpr hr)

theorem ChunkTidy.perm {free live live' : List Span} (h : ChunkTidy free live)
    (hp : live.Perm live') : ChunkTidy free live' where
  gapped := h.gapped
  apart b hb r hr := h.apart b hb r (hp.mem_iff.mpr hr)

/-! ## The invariants -/

/-- What holds in every run. -/
structure Safe (alignment : Nat) (s : TallocrRun) : Prop where
  alignment_eq : s.alloc.alignment = alignment
  maxChunkSize : s.alloc.maxChunkSize ≤ sizeMax / 2
  length : s.capacity.length = s.alloc.chunks.length
  chunk : ∀ c chunk, s.alloc.chunks[c]? = some chunk →
    ChunkSafe alignment chunk.freeBlocks (liveIn s.live c) (s.capacity.getD c 0)
  capacity_lt : ∀ c, s.capacity.getD c 0 < 2 ^ 64
  live_lt : ∀ r ∈ s.live, r.chunk < s.alloc.chunks.length
  handed : ∀ r ∈ s.handed, ∃ chunk, s.alloc.chunks[r.chunk]? = some chunk ∧
    r.span.stop ≤ chunk.maxSize

/-- The free blocks of each chunk are sorted, with gaps between them. -/
def Tidy (s : TallocrRun) : Prop :=
  ∀ c chunk, s.alloc.chunks[c]? = some chunk → ChunkTidy chunk.freeBlocks (liveIn s.live c)

theorem dvd_alignedOffset {size alignment : Nat} (ha : 0 < alignment)
    (h : size + (alignment - size % alignment) % alignment < 2 ^ 64) :
    alignment ∣ alignedOffset size alignment := by
  rw [alignedOffset, Nat.mod_eq_of_lt h]
  rcases Nat.eq_zero_or_pos (size % alignment) with h0 | h0
  · rw [h0, Nat.sub_zero, Nat.mod_self]
    exact Nat.dvd_of_mod_eq_zero h0
  · have hlt := Nat.mod_lt size ha
    rw [Nat.mod_eq_of_lt (by omega)]
    have h1 := Nat.div_add_mod size alignment
    exact ⟨size / alignment + 1, by rw [Nat.mul_add]; omega⟩

section Steps

variable {al size : Nat} {s : TallocrRun}

/-- A new chunk is one free block. -/
theorem newChunk_eq {a a' : DynTallocr} (h : newChunk a size = some a') :
    ∃ n, a' = { a with chunks := a.chunks ++ [⟨[⟨0, n⟩], 0⟩] } ∧
      n = if a.chunks.length = maxChunks - 1 then sizeMax / 2 else max size a.maxChunkSize := by
  unfold newChunk at h
  split at h
  · cases h
  · exact ⟨_, (Option.some.inj h).symm, rfl⟩

theorem openedCapacity_eq {a a' : DynTallocr} {n : Nat} (hf : findBlock a size = none)
    (h : newChunk a size = some a') (e : a' = { a with chunks := a.chunks ++ [⟨[⟨0, n⟩], 0⟩] }) :
    openedCapacity a size = [n] := by
  simp [openedCapacity, hf, h, e]

theorem Safe.newChunk (h : Safe al s) {n : Nat} (hn : n < 2 ^ 64) : Safe al { s with
      alloc := { s.alloc with chunks := s.alloc.chunks ++ [⟨[⟨0, n⟩], 0⟩] }
      capacity := s.capacity ++ [n] } where
  alignment_eq := h.alignment_eq
  maxChunkSize := h.maxChunkSize
  length := by simp [h.length]
  chunk c chunk hc := by
    rw [getElem?_append] at hc
    split at hc
    · next hlt =>
      have hd : (s.capacity ++ [n]).getD c 0 = s.capacity.getD c 0 := by
        simp [getD_eq_getElem?_getD, getElem?_append, h.length, hlt]
      rw [hd]
      exact h.chunk c chunk hc
    · next hge =>
      obtain ⟨hc0, rfl⟩ : c - s.alloc.chunks.length = 0 ∧ chunk = ⟨[⟨0, n⟩], 0⟩ := by
        rw [getElem?_singleton] at hc
        split at hc
        · next h0 => exact ⟨h0, (Option.some.inj hc).symm⟩
        · cases hc
      obtain rfl : c = s.alloc.chunks.length := by omega
      have hlive : liveIn s.live s.alloc.chunks.length = [] := by
        refine eq_nil_iff_forall_not_mem.mpr fun r hr => ?_
        have := h.live_lt _ (mem_liveIn.mp hr)
        exact absurd this (lt_irrefl _)
      have hd : (s.capacity ++ [n]).getD s.alloc.chunks.length 0 = n := by
        simp [getD_eq_getElem?_getD, ← h.length]
      rw [hlive, hd]
      exact ⟨by simpa using Tiles.single, by simp [Span.stop], by simp, by simp⟩
  capacity_lt c := by
    simp only [getD_eq_getElem?_getD, getElem?_append]
    split
    · have := h.capacity_lt c
      rwa [getD_eq_getElem?_getD] at this
    · rw [getElem?_singleton]
      split
      · exact hn
      · simp
  live_lt r hr := by
    have := h.live_lt r hr
    simp only [length_append, length_singleton]
    omega
  handed r hr := by
    obtain ⟨chunk, hc, hle⟩ := h.handed r hr
    exact ⟨chunk, List.getElem?_append_left (List.getElem?_eq_some_iff.mp hc).1 |>.trans hc, hle⟩

theorem Tidy.newChunk (h : Tidy s) (hs : Safe al s) {n : Nat} : Tidy { s with
      alloc := { s.alloc with chunks := s.alloc.chunks ++ [⟨[⟨0, n⟩], 0⟩] }
      capacity := s.capacity ++ [n] } := by
  intro c chunk hc
  rw [getElem?_append] at hc
  split at hc
  · exact h c chunk hc
  · next hge =>
    obtain rfl : chunk = ⟨[⟨0, n⟩], 0⟩ := by
      rw [getElem?_singleton] at hc
      split at hc
      · exact (Option.some.inj hc).symm
      · cases hc
    have hlive : liveIn s.live c = [] := by
      refine eq_nil_iff_forall_not_mem.mpr fun r hr => ?_
      exact absurd (hs.live_lt _ (mem_liveIn.mp hr)) hge
    rw [hlive]
    exact ⟨pairwise_singleton _ _, by simp⟩

/-- What `takeBlock` returns if nothing overflows. -/
theorem takeBlock_eq (h : Safe al s) {c i : Nat} {chunk : TallocrChunk} {block : FreeBlock}
    (hc : s.alloc.chunks[c]? = some chunk) (hb : chunk.freeBlocks[i]? = some block)
    (hs : size ≤ block.size) :
    takeBlock s.alloc c i size =
      ({ s.alloc with chunks := (s.alloc.chunks.set c
          ⟨takenBlocks chunk.freeBlocks i block size,
            max chunk.maxSize (block.offset + size)⟩) }, ⟨c, block.offset⟩) := by
  have hstop := (h.chunk c chunk hc).stop_le block (mem_append_left _ (mem_of_getElem? hb))
  have hcap := h.capacity_lt c
  simp only [Span.stop] at hstop
  have e1 : (block.offset + size) % 2 ^ 64 = block.offset + size := Nat.mod_eq_of_lt (by omega)
  have e2 : (block.size + 2 ^ 64 - size) % 2 ^ 64 = block.size - size := by
    rw [show block.size + 2 ^ 64 - size = block.size - size + 2 ^ 64 by omega, Nat.add_mod_right,
      Nat.mod_eq_of_lt (by omega)]
  simp only [takeBlock, List.getD_eq_getElem?_getD, hc, hb, Option.getD_some, e1, e2, takenBlocks,
    removeBlock]

/-- The state after a range was taken. -/
def TallocrRun.take (s : TallocrRun) (a : DynTallocr × BufferAddress) (size : Nat) : TallocrRun :=
  { s with
    alloc := a.1
    live := ⟨a.2.chunk, ⟨a.2.offset, size⟩⟩ :: s.live
    handed := ⟨a.2.chunk, ⟨a.2.offset, size⟩⟩ :: s.handed }

theorem Safe.take (h : Safe al s) {c i : Nat} (hf : Fits s.alloc.chunks size (c, i))
    (ha : al ∣ size) : Safe al (s.take (takeBlock s.alloc c i size) size) := by
  obtain ⟨chunk, block, hc, hb, hs⟩ := hf
  have hlt := (List.getElem?_eq_some_iff.mp hc).1
  rw [takeBlock_eq h hc hb hs]
  refine ⟨h.alignment_eq, h.maxChunkSize, ?_, fun c' chunk' hc' => ?_, h.capacity_lt,
    fun r hr => ?_, fun r hr => ?_⟩
  · simp [TallocrRun.take, h.length]
  · dsimp only [TallocrRun.take] at hc' ⊢
    rw [liveIn_cons]
    by_cases hcc : c = c'
    · subst hcc
      rw [getElem?_set_self hlt] at hc'
      cases hc'
      rw [if_pos rfl]
      exact (h.chunk c chunk hc).take hb hs ha
    · rw [getElem?_set_ne hcc] at hc'
      rw [if_neg hcc]
      exact h.chunk c' chunk' hc'
  · dsimp only [TallocrRun.take] at hr ⊢
    rw [length_set]
    rcases mem_cons.mp hr with rfl | hr
    · exact hlt
    · exact h.live_lt r hr
  · dsimp only [TallocrRun.take] at hr ⊢
    rcases mem_cons.mp hr with rfl | hr
    · exact ⟨_, getElem?_set_self hlt, le_max_right _ _⟩
    · obtain ⟨chunk', hc', hle⟩ := h.handed r hr
      by_cases hcc : c = r.chunk
      · subst hcc
        obtain rfl := Option.some.inj (hc'.symm.trans hc)
        exact ⟨_, getElem?_set_self hlt, le_trans hle (le_max_left _ _)⟩
      · exact ⟨chunk', (List.getElem?_set_ne hcc).trans hc', hle⟩

theorem Tidy.take (h : Tidy s) (hsafe : Safe al s) {c i : Nat}
    (hf : Fits s.alloc.chunks size (c, i)) :
    Tidy (s.take (takeBlock s.alloc c i size) size) := by
  obtain ⟨chunk, block, hc, hb, hs⟩ := hf
  have hlt := (List.getElem?_eq_some_iff.mp hc).1
  rw [takeBlock_eq hsafe hc hb hs]
  intro c' chunk' hc'
  dsimp only [TallocrRun.take] at hc' ⊢
  rw [liveIn_cons]
  by_cases hcc : c = c'
  · subst hcc
    rw [getElem?_set_self hlt] at hc'
    cases hc'
    rw [if_pos rfl]
    exact (h c chunk hc).take hb hs
  · rw [getElem?_set_ne hcc] at hc'
    rw [if_neg hcc]
    exact h c' chunk' hc'

end Steps

/-! ## Runs -/

section Runs

variable {al maxBufferSize : Nat} {s s' : TallocrRun} {op : TallocrOp}

/-- A range comes from a block that exists, or from a new chunk. -/
theorem alloc_cases {a a' : DynTallocr} {size : Nat} {addr : BufferAddress}
    (h : alloc a size = .ok (a', addr)) :
    (∃ c i, findBlock a (alignedOffset size a.alignment) = some (c, i) ∧
      (a', addr) = takeBlock a c i (alignedOffset size a.alignment)) ∨
    ∃ a₁, findBlock a (alignedOffset size a.alignment) = none ∧
      newChunk a (alignedOffset size a.alignment) = some a₁ ∧
      (a', addr) = takeBlock a₁ (a₁.chunks.length - 1) 0 (alignedOffset size a.alignment) := by
  unfold alloc at h
  dsimp only at h
  split at h
  · next c i hf => exact .inl ⟨c, i, hf, (Except.ok.inj h).symm⟩
  · next hf =>
    split at h
    · cases h
    · next a₁ hn => exact .inr ⟨a₁, hf, hn, (Except.ok.inj h).symm⟩

/-- A call of `ggml_dyn_tallocr_alloc` takes a range from a safe state, in which there may be one
chunk more. -/
theorem alloc_step (ha : 0 < al) (h : Safe al s) {size : Nat}
    (hs : (tallocrSys al maxBufferSize).step s (.alloc size) s')
    (hok : NoOverflow s (.alloc size)) :
    ∃ s₁ c i, Safe al s₁ ∧ (Tidy s → Tidy s₁) ∧
      Fits s₁.alloc.chunks (alignedOffset size al) (c, i) ∧ al ∣ alignedOffset size al ∧
      s' = s₁.take (takeBlock s₁.alloc c i (alignedOffset size al)) (alignedOffset size al) := by
  obtain ⟨a, addr, halloc, rfl⟩ := hs
  obtain ⟨hlt, hlast⟩ := hok
  rw [h.alignment_eq] at hlt hlast
  have hdvd := dvd_alignedOffset ha hlt
  rcases alloc_cases halloc with ⟨c, i, hf, e⟩ | ⟨a1, hf, hn, e⟩
  · rw [h.alignment_eq] at hf e
    refine ⟨s, c, i, h, id, findBlock_fits hf, hdvd, ?_⟩
    rw [← e]
    simp [TallocrRun.take, openedCapacity, hf]
  · rw [h.alignment_eq] at hf hn e
    obtain ⟨n, rfl, en⟩ := newChunk_eq hn
    have hsize : alignedOffset size al < 2 ^ 64 := Nat.mod_lt _ (by decide)
    have hmax := h.maxChunkSize
    have hle : alignedOffset size al ≤ n ∧ n < 2 ^ 64 := by
      rw [en]
      split
      · next hl => exact ⟨hlast hf hl, by decide⟩
      · have : sizeMax / 2 < 2 ^ 64 := by decide
        omega
    refine ⟨_, s.alloc.chunks.length, 0, h.newChunk hle.2, fun ht => ht.newChunk h,
      ⟨⟨[⟨0, n⟩], 0⟩, ⟨0, n⟩, by simp, rfl, hle.1⟩, hdvd, ?_⟩
    simp only [length_append, length_singleton, Nat.add_sub_cancel] at e
    rw [← e]
    simp [TallocrRun.take, openedCapacity_eq hf hn rfl]

/-- What a call of `ggml_dyn_tallocr_free_bytes` does to the chunk of the range. -/
theorem free_step (h : Safe al s) {r : Range} {kept size : Nat}
    (hs : (tallocrSys al maxBufferSize).step s (.free r kept size) s') :
    r ∈ s.live ∧ kept ≤ r.span.size ∧ al ∣ kept ∧ ∃ chunk out,
      s.alloc.chunks[r.chunk]? = some chunk ∧
      Merged ⟨r.span.offset + kept, r.span.size - kept⟩ chunk.freeBlocks out ∧
      s' = { s with
        alloc := { s.alloc with
          chunks := s.alloc.chunks.set r.chunk { chunk with freeBlocks := out } }
        live := keptRange r kept ++ s.live.erase r } := by
  obtain ⟨hr, hk, hd, esize, a, hfree, rfl⟩ := hs
  obtain ⟨out, hm, rfl⟩ := freeBytes_merged hfree
  have hlt := h.live_lt r hr
  have hc : s.alloc.chunks[r.chunk]? = some (s.alloc.chunks.getD r.chunk {}) := by
    simp [getD_eq_getElem?_getD, hlt]
  rw [h.alignment_eq, esize] at hm
  exact ⟨hr, hk, hd, _, out, hc, hm, rfl⟩

theorem safe_step (ha : 0 < al) (h : Safe al s) (hs : (tallocrSys al maxBufferSize).step s op s')
    (hok : NoOverflow s op) : Safe al s' := by
  cases op with
  | alloc size =>
    obtain ⟨s₁, c, i, h1, -, hf, hd, rfl⟩ := alloc_step ha h hs hok
    exact h1.take hf hd
  | free r kept size =>
    obtain ⟨hr, hk, hd, chunk, out, hc, hm, rfl⟩ := free_step h hs
    have hlt := (List.getElem?_eq_some_iff.mp hc).1
    refine ⟨h.alignment_eq, h.maxChunkSize, ?_, fun c chunk' hc' => ?_, h.capacity_lt,
      fun q hq => ?_, fun q hq => ?_⟩
    · simp [h.length]
    · dsimp only at hc' ⊢
      rw [liveIn_append]
      by_cases hcc : r.chunk = c
      · subst hcc
        rw [getElem?_set_self hlt] at hc'
        cases hc'
        rw [liveIn_keptRange]
        exact ((h.chunk _ chunk hc).perm (liveIn_erase hr)).release hk hd hm
      · rw [getElem?_set_ne hcc] at hc'
        rw [liveIn_keptRange_ne hcc, liveIn_erase_ne hcc]
        exact h.chunk c chunk' hc'
    · dsimp only at hq ⊢
      rw [length_set]
      rcases mem_append.mp hq with hq | hq
      · unfold keptRange at hq
        split at hq
        · cases hq
        · obtain rfl := mem_singleton.mp hq
          exact hlt
      · exact h.live_lt q (mem_of_mem_erase hq)
    · dsimp only at hq ⊢
      obtain ⟨chunk', hc', hle⟩ := h.handed q hq
      by_cases hcc : r.chunk = q.chunk
      · rw [← hcc] at hc' ⊢
        obtain rfl := Option.some.inj (hc'.symm.trans hc)
        exact ⟨_, getElem?_set_self hlt, hle⟩
      · exact ⟨chunk', (getElem?_set_ne hcc).trans hc', hle⟩

theorem tidy_step (ha : 0 < al) (h : Safe al s) (ht : Tidy s)
    (hs : (tallocrSys al maxBufferSize).step s op s') (hok : NoOverflow s op)
    (hin : NotInside s op) : Tidy s' := by
  cases op with
  | alloc size =>
    obtain ⟨s₁, c, i, h1, ht1, hf, -, rfl⟩ := alloc_step ha h hs hok
    exact (ht1 ht).take h1 hf
  | free r kept size =>
    obtain ⟨hr, hk, -, chunk, out, hc, hm, rfl⟩ := free_step h hs
    have hlt := (List.getElem?_eq_some_iff.mp hc).1
    intro c chunk' hc'
    rw [liveIn_append]
    by_cases hcc : r.chunk = c
    · subst hcc
      rw [getElem?_set_self hlt] at hc'
      cases hc'
      rw [liveIn_keptRange]
      have hp := liveIn_erase hr
      have hscat : Scattered (r.span :: liveIn (s.live.erase r) r.chunk) :=
        (pairwise_append.mp ((h.chunk _ chunk hc).perm hp).tiles.scattered).2.1
      refine ((ht _ chunk hc).perm hp).release hscat hk (fun hk' t hmem => ?_) hm
      refine hin hk' t ?_
      rw [getD_eq_getElem?_getD, hc, Option.getD_some]
      exact (hp.append_left _).mem_iff.mpr hmem
    · rw [getElem?_set_ne hcc] at hc'
      rw [liveIn_keptRange_ne hcc, liveIn_erase_ne hcc]
      exact ht c chunk' hc'

theorem safe_inductive (ha : 0 < al) :
    Sys.Inductive (tallocrSys al maxBufferSize) NoOverflow (Safe al) where
  init s h := by
    obtain rfl : s = _ := h
    exact ⟨rfl, min_le_right _ _, rfl, by simp [dynTallocrNew], by simp, by simp, by simp⟩
  step _ _ _ h _ hs hok := safe_step ha h hs hok

theorem tidy_inductive (ha : 0 < al) :
    Sys.Inductive (tallocrSys al maxBufferSize) (fun s op => NoOverflow s op ∧ NotInside s op)
      (fun s => Safe al s ∧ Tidy s) where
  init s h := by
    refine ⟨(safe_inductive ha).init s h, ?_⟩
    obtain rfl : s = _ := h
    simp [Tidy, dynTallocrNew]
  step _ _ _ h _ hs hok := ⟨safe_step ha h.1 hs hok.1, tidy_step ha h.1 h.2 hs hok.1 hok.2⟩

end Runs

/-! ## What a run guarantees -/

/-- The free blocks of the chunk are sorted, they and the live ranges do not overlap and cover the
capacity, the live ranges are aligned, and `max_size` bounds every range ever handed out. -/
structure ChunkSound (alignment : Nat) (s : TallocrRun) (c : Nat) (chunk : TallocrChunk)
    (capacity : Nat) : Prop where
  sorted : chunk.freeBlocks.Pairwise fun a b => a.offset < b.offset
  free_disj : chunk.freeBlocks.Pairwise Disj
  free_live_disj : ∀ b ∈ chunk.freeBlocks, ∀ r ∈ liveIn s.live c, Disj b r
  covered : ∀ x, x < capacity ↔ Covered chunk.freeBlocks x ∨ Covered (liveIn s.live c) x
  live_disj : (liveIn s.live c).Pairwise Disj
  live_aligned : ∀ r ∈ liveIn s.live c, alignment ∣ r.offset ∧ alignment ∣ r.size
  max_size : ∀ r ∈ s.handed, r.chunk = c → r.span.stop ≤ chunk.maxSize
  gaps : chunk.freeBlocks.Pairwise fun a b => a.stop ≠ b.offset ∧ b.stop ≠ a.offset

/-- Every chunk is sound. -/
def Sound (alignment : Nat) (s : TallocrRun) : Prop :=
  ∀ c chunk, s.alloc.chunks[c]? = some chunk →
    ∃ capacity, s.capacity[c]? = some capacity ∧ ChunkSound alignment s c chunk capacity

/-- A run in which no size overflows and no range without bytes is returned inside of a free block
or of a live range keeps every chunk sound. -/
theorem tallocr_sound {alignment maxBufferSize : Nat} (ha : 0 < alignment) {s : TallocrRun}
    (h : (tallocrSys alignment maxBufferSize).Reach
      (fun s op => NoOverflow s op ∧ NotInside s op) s) : Sound alignment s := by
  obtain ⟨hsafe, htidy⟩ := h.inv (tidy_inductive ha)
  intro c chunk hc
  have hlt : c < s.capacity.length := by
    rw [hsafe.length]
    exact (List.getElem?_eq_some_iff.mp hc).1
  have hcap : s.capacity[c]? = some (s.capacity.getD c 0) := by
    simp [getD_eq_getElem?_getD, hlt]
  have hchunk := hsafe.chunk c chunk hc
  obtain ⟨hfree, hlive, hcross⟩ := pairwise_append.mp hchunk.tiles.scattered
  have hgap := (htidy c chunk hc).gapped
  refine ⟨_, hcap, hgap.imp fun hab => ?_, hfree, hcross, fun x => ?_, hlive, hchunk.live_aligned,
    fun r hr hrc => ?_, hgap.imp fun hab => ?_⟩
  · simp only [Span.stop] at hab
    omega
  · rw [← hchunk.tiles.covered]
    simp [Covered, or_and_right, exists_or]
  · subst hrc
    obtain ⟨chunk', hc', hle⟩ := hsafe.handed r hr
    obtain rfl := Option.some.inj (hc'.symm.trans hc)
    exact hle
  · simp only [Span.stop] at hab ⊢
    omega

/-! ## Two runs -/

instance (s : TallocrRun) (op : TallocrOp) : Decidable (NoOverflow s op) := by
  cases op <;> unfold NoOverflow <;> infer_instance

instance (s : TallocrRun) (op : TallocrOp) : Decidable (NotInside s op) := by
  cases op <;> unfold NotInside <;> infer_instance

/-- The calls one after the other, each of which meets `ok`. -/
def runOps (alignment : Nat) (ok : TallocrRun → TallocrOp → Bool) :
    List TallocrOp → TallocrRun → Option TallocrRun
  | [], s => some s
  | op :: ops, s =>
    if ok s op then
      match op with
      | .alloc size =>
        match alloc s.alloc size with
        | .error _ => none
        | .ok (a, addr) =>
          let r : Range := ⟨addr.chunk, ⟨addr.offset, alignedOffset size alignment⟩⟩
          runOps alignment ok ops
            { alloc := a
              live := r :: s.live
              capacity := s.capacity ++ openedCapacity s.alloc (alignedOffset size alignment)
              handed := r :: s.handed }
      | .free r kept size =>
        if r ∈ s.live ∧ kept ≤ r.span.size ∧ alignment ∣ kept ∧
            alignedOffset size alignment = r.span.size - kept then
          match freeBytes s.alloc ⟨r.chunk, r.span.offset + kept⟩ size with
          | .error _ => none
          | .ok a => runOps alignment ok ops
              { s with alloc := a, live := keptRange r kept ++ s.live.erase r }
        else none
    else none

theorem reach_runOps {alignment maxBufferSize : Nat} {ok : TallocrRun → TallocrOp → Bool}
    {ops : List TallocrOp} {s s' : TallocrRun}
    (h : (tallocrSys alignment maxBufferSize).Reach (fun s op => ok s op = true) s)
    (e : runOps alignment ok ops s = some s') :
    (tallocrSys alignment maxBufferSize).Reach (fun s op => ok s op = true) s' := by
  induction ops generalizing s with
  | nil => exact Option.some.inj e ▸ h
  | cons op ops ih =>
    unfold runOps at e
    split at e
    · next hok =>
      cases op with
      | alloc size =>
        dsimp only at e
        split at e
        · cases e
        · next a addr ha =>
          have hstep : (tallocrSys alignment maxBufferSize).step s (.alloc size) _ :=
            ⟨a, addr, ha, rfl⟩
          exact ih (.step h (fun _ ho => ho.elim) hstep hok) e
      | free r kept size =>
        dsimp only at e
        split at e
        · next hr =>
          split at e
          · cases e
          · next a ha =>
            have hstep : (tallocrSys alignment maxBufferSize).step s (.free r kept size) _ :=
              ⟨hr.1, hr.2.1, hr.2.2.1, hr.2.2.2, a, ha, rfl⟩
            exact ih (.step h (fun _ ho => ho.elim) hstep hok) e
        · cases e
    · cases e

/-- Two tensors of 40 and 100 bytes, and the second half of the first one is returned. -/
def twoTensors : TallocrRun where
  alloc := { alignment := 32, maxChunkSize := 1000, chunks := [⟨[⟨32, 32⟩, ⟨192, 808⟩], 192⟩] }
  live := [⟨0, ⟨0, 32⟩⟩, ⟨0, ⟨64, 128⟩⟩]
  capacity := [1000]
  handed := [⟨0, ⟨64, 128⟩⟩, ⟨0, ⟨0, 64⟩⟩]

theorem tallocr_sound_twoTensors : Sound 32 twoTensors := by
  have h : (tallocrSys 32 1000).Reach
      (fun s op => decide (NoOverflow s op ∧ NotInside s op) = true) twoTensors :=
    reach_runOps (.init rfl)
      (show runOps 32 _ [.alloc 40, .alloc 100, .free ⟨0, ⟨0, 64⟩⟩ 32 32] _ = some twoTensors by
        decide +kernel)
  exact tallocr_sound (by decide) (h.mono fun s op hok => of_decide_eq_true hok)

/-- When all ranges of a chunk have been returned, it is one free block again. -/
theorem tallocr_coalesces {alignment maxBufferSize : Nat} (ha : 0 < alignment) {s : TallocrRun}
    (h : (tallocrSys alignment maxBufferSize).Reach
      (fun s op => NoOverflow s op ∧ NotInside s op) s) {c : Nat} {chunk : TallocrChunk}
    (hc : s.alloc.chunks[c]? = some chunk) (hlive : liveIn s.live c = []) :
    0 < s.capacity.getD c 0 → chunk.freeBlocks = [⟨0, s.capacity.getD c 0⟩] := by
  obtain ⟨hsafe, htidy⟩ := h.inv (tidy_inductive ha)
  obtain ⟨htiles, hstop, -⟩ := hsafe.chunk c chunk hc
  rw [hlive, append_nil] at htiles hstop
  exact htiles.eq_single (htidy c chunk hc).gapped hstop

/-- One tensor, which is returned. -/
theorem tallocr_coalesces_freed : ∃ s, (tallocrSys 32 1000).Reach
    (fun s op => NoOverflow s op ∧ NotInside s op) s ∧
      s.alloc.chunks.map (·.freeBlocks) = [[⟨0, 1000⟩]] := by
  have h : (tallocrSys 32 1000).Reach
      (fun s op => decide (NoOverflow s op ∧ NotInside s op) = true)
      { alloc := { alignment := 32, maxChunkSize := 1000, chunks := [⟨[⟨0, 1000⟩], 64⟩] }
        live := []
        capacity := [1000]
        handed := [⟨0, ⟨0, 64⟩⟩] } :=
    reach_runOps (.init rfl)
      (show runOps 32 _ [.alloc 40, .free ⟨0, ⟨0, 64⟩⟩ 0 40] _ = some _ by decide +kernel)
  have h' := h.mono fun s op hok => of_decide_eq_true hok
  exact ⟨_, h', congrArg ([·]) (tallocr_coalesces (by decide) h' (c := 0) rfl rfl (by decide))⟩

/-- An empty tensor between two others, which are returned before it: its block stands behind the
block around it, and after the next call the blocks are not sorted. -/
theorem tallocr_not_sound : ¬ ∀ (k maxBufferSize : Nat) (s : TallocrRun),
    (tallocrSys (2 ^ k) maxBufferSize).Reach NoOverflow s → Sound (2 ^ k) s := by
  intro h
  have hreach : (tallocrSys (2 ^ 5) 1000).Reach
      (fun s op => decide (NoOverflow s op) = true)
      { alloc := { alignment := 32, maxChunkSize := 1000, chunks := [⟨[⟨64, 936⟩, ⟨32, 0⟩], 96⟩] }
        live := [⟨0, ⟨0, 64⟩⟩]
        capacity := [1000]
        handed := [⟨0, ⟨0, 64⟩⟩, ⟨0, ⟨32, 64⟩⟩, ⟨0, ⟨32, 0⟩⟩, ⟨0, ⟨0, 32⟩⟩] } :=
    reach_runOps (.init rfl)
      (show runOps (2 ^ 5) _ [.alloc 32, .alloc 0, .alloc 64, .free ⟨0, ⟨0, 32⟩⟩ 0 32,
        .free ⟨0, ⟨32, 64⟩⟩ 0 64, .free ⟨0, ⟨32, 0⟩⟩ 0 0, .alloc 64] _ = some _ by decide +kernel)
  obtain ⟨n, -, hs⟩ := h 5 1000 _ (hreach.mono fun s op hok => of_decide_eq_true hok) 0 _ rfl
  exact absurd hs.sorted (by decide)

end BeeLlama.Alloc
