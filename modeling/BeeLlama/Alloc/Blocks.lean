import BeeLlama.Alloc.Tallocr
import Mathlib.Data.List.TakeWhile

/-!
# The blocks of the dynamic tensor allocator

* `findBlock_fits`: the search finds a block that is large enough.
* `freeBytes_merged`: a returned range joins the free blocks of its chunk (`Merged`). Its bytes are
  free (`Merged.tiles`), and the list stays sorted with gaps between the blocks if the range is
  apart from them (`Merged.gapped`).
-/

namespace BeeLlama.Alloc

open Span List

/-! ## The search for a block -/

/-- The block exists and is large enough. -/
def Fits (chunks : List TallocrChunk) (size : Nat) (best : Nat × Nat) : Prop :=
  ∃ chunk block, chunks[best.1]? = some chunk ∧ chunk.freeBlocks[best.2]? = some block ∧
    size ≤ block.size

variable {chunks : List TallocrChunk} {best : Option (Nat × Nat)} {all : List TallocrChunk}
    {passed blocks : List FreeBlock}

theorem bestFitBlock_fits {size c : Nat} {chunk : TallocrChunk}
    (hc : chunks[c]? = some chunk) {blocks : List FreeBlock} {i bestFitSize : Nat}
    (hb : ∀ k block, blocks[k]? = some block → chunk.freeBlocks[i + k]? = some block)
    (h : ∀ b ∈ best, Fits chunks size b) :
    ∀ b ∈ bestFitBlock size c blocks i bestFitSize best, Fits chunks size b := by
  induction blocks generalizing i bestFitSize best with
  | nil => exact h
  | cons block blocks ih =>
    have hb' : ∀ k block', blocks[k]? = some block' → chunk.freeBlocks[i + 1 + k]? = some block' :=
      fun k block' hk => by
        have := hb (k + 1) block' (by simpa using hk)
        rwa [show i + (k + 1) = i + 1 + k by omega] at this
    unfold bestFitBlock
    split
    · next hfit =>
      refine ih hb' fun b hb'' => ?_
      obtain rfl := Option.mem_some.mp hb''
      exact ⟨chunk, block, hc, hb 0 block rfl, hfit.1⟩
    · exact ih hb' h

theorem bestFit_fits {size : Nat} {c : Nat}
    (hc : ∀ k chunk, chunks[k]? = some chunk → all[c + k]? = some chunk)
    (h : ∀ b ∈ best, Fits all size b) :
    ∀ b ∈ bestFit size chunks c best, Fits all size b := by
  induction chunks generalizing c best with
  | nil => exact h
  | cons chunk chunks ih =>
    refine ih (fun k chunk' hk => ?_) (bestFitBlock_fits (hc 0 chunk rfl) (fun k block hk => ?_) h)
    · have := hc (k + 1) chunk' (by simpa using hk)
      rwa [show c + (k + 1) = c + 1 + k by omega] at this
    · rw [Nat.zero_add]
      rw [getElem?_dropLast] at hk
      split at hk
      · exact hk
      · cases hk

theorem bestReuseBlock_fits {size : Nat}
    {c : Nat} (hc : ∀ k chunk, chunks[k]? = some chunk → all[c + k]? = some chunk) {reuse : Int}
    (h : ∀ b ∈ best, Fits all size b) :
    ∀ b ∈ bestReuseBlock size chunks c reuse best, Fits all size b := by
  induction chunks generalizing c reuse best with
  | nil => exact h
  | cons chunk chunks ih =>
    have hc' : ∀ k chunk', chunks[k]? = some chunk' → all[c + 1 + k]? = some chunk' :=
      fun k chunk' hk => by
        have := hc (k + 1) chunk' (by simpa using hk)
        rwa [show c + (k + 1) = c + 1 + k by omega] at this
    unfold bestReuseBlock
    split
    · exact ih hc' h
    · next block hlast =>
      dsimp only
      split
      · next hfit =>
        refine ih hc' fun b hb => ?_
        obtain rfl := Option.mem_some.mp hb
        exact ⟨chunk, block, hc 0 chunk rfl, by rwa [← getLast?_eq_getElem?], hfit.1⟩
      · exact ih hc' h

theorem findBlock_fits {alloc : DynTallocr} {size : Nat} {best : Nat × Nat}
    (h : findBlock alloc size = some best) : Fits alloc.chunks size best := by
  have hall : ∀ k chunk, alloc.chunks[k]? = some chunk → alloc.chunks[0 + k]? = some chunk :=
    fun k chunk hk => by rwa [Nat.zero_add]
  have hnone : ∀ b ∈ (none : Option (Nat × Nat)), Fits alloc.chunks size b := fun b hb => by
    cases hb
  unfold findBlock at h
  split at h
  · next hbest =>
    cases h
    exact bestFit_fits hall hnone _ hbest
  · exact bestReuseBlock_fits hall hnone _ h

/-! ## What a returned range does to the free blocks -/

/-- The range `t` joins the free blocks: it follows a block, it fills the gap between two blocks, it
precedes a block, or it is a block of its own. -/
inductive Merged (t : Span) : List FreeBlock → List FreeBlock → Prop where
  | after (pre post : List FreeBlock) (b : FreeBlock) (hb : b.stop = t.offset)
      (hpost : ∀ c ∈ post.head?, t.stop ≠ c.offset) :
      Merged t (pre ++ b :: post) (pre ++ ⟨b.offset, b.size + t.size⟩ :: post)
  | between (pre post : List FreeBlock) (b c : FreeBlock) (hb : b.stop = t.offset)
      (hc : t.stop = c.offset) :
      Merged t (pre ++ b :: c :: post) (pre ++ ⟨b.offset, b.size + t.size + c.size⟩ :: post)
  | before (pre post : List FreeBlock) (c : FreeBlock) (hc : t.stop = c.offset)
      (hpre : ∀ a ∈ pre, a.stop ≠ t.offset) :
      Merged t (pre ++ c :: post) (pre ++ ⟨t.offset, c.size + t.size⟩ :: post)
  | insert (pre post : List FreeBlock)
      (hne : ∀ b ∈ pre ++ post, b.stop ≠ t.offset ∧ t.stop ≠ b.offset)
      (hpre : ∀ a ∈ pre, a.offset < t.offset) (hpost : ∀ c ∈ post.head?, t.offset ≤ c.offset) :
      Merged t (pre ++ post) (pre ++ t :: post)

theorem mergeFree_merged {t : Span} (hp : ∀ a ∈ passed, a.stop ≠ t.offset) {out : List FreeBlock}
    (h : mergeFree t.offset t.size passed blocks = some out) :
    Merged t (passed.reverse ++ blocks) out := by
  induction blocks generalizing passed with
  | nil => cases passed <;> cases h
  | cons block blocks ih =>
    unfold mergeFree at h
    split at h
    · next hb =>
      dsimp only at h
      split at h
      · cases h
        exact .after _ [] block hb (by simp)
      · next next rest =>
        have hst : t.stop = block.offset + (block.size + t.size) := by
          simp only [Span.stop]
          omega
        split at h
        · next hn =>
          cases h
          exact .between _ _ block next hb (hst.trans hn)
        · next hn =>
          cases h
          refine .after _ _ block hb fun c hc => ?_
          obtain rfl := Option.mem_some.mp hc
          rwa [hst]
    · next hb =>
      split at h
      · next hc =>
        dsimp only at h
        split at h
        · cases h
          exact .before [] _ block hc (by simp)
        · next prev passed' =>
          -- the block before was looked at already
          split at h
          · next hprev => exact absurd hprev (hp prev mem_cons_self)
          · cases h
            rw [reverse_cons, append_assoc]
            have hm := Merged.before (passed'.reverse ++ [prev]) blocks block hc fun a ha =>
              hp a (by
              simpa [or_comm] using ha)
            simpa using hm
      · have := ih (fun a ha => by
          rcases mem_cons.mp ha with rfl | ha
          · exact hb
          · exact hp a ha) h
        simpa using this

theorem mergeFree_none {t : Span} (h : mergeFree t.offset t.size passed blocks = none) :
    ∀ b ∈ blocks, b.stop ≠ t.offset ∧ t.stop ≠ b.offset := by
  induction blocks generalizing passed with
  | nil => simp
  | cons block blocks ih =>
    unfold mergeFree at h
    split at h
    · dsimp only at h
      split at h
      · cases h
      · split at h <;> cases h
    · next hb =>
      split at h
      · dsimp only at h
        split at h
        · cases h
        · split at h <;> cases h
      · next hc =>
        intro b hmem
        rcases mem_cons.mp hmem with rfl | hmem
        · exact ⟨hb, hc⟩
        · exact ih h b hmem

/-- A returned range that is accepted joins the free blocks of its chunk. -/
theorem freeBytes_merged {a a' : DynTallocr} {addr : BufferAddress} {size : Nat}
    (h : freeBytes a addr size = .ok a') :
    ∃ out, Merged ⟨addr.offset, alignedOffset size a.alignment⟩
        (a.chunks.getD addr.chunk {}).freeBlocks out ∧
      a' = { a with chunks :=
        a.chunks.set addr.chunk { a.chunks.getD addr.chunk {} with freeBlocks := out } } := by
  unfold freeBytes at h
  dsimp only at h
  split at h
  · next out hm =>
    cases h
    refine ⟨out, ?_, rfl⟩
    exact mergeFree_merged (t := ⟨addr.offset, alignedOffset size a.alignment⟩) (by simp) hm
  · next hm =>
    have hne := mergeFree_none (t := ⟨addr.offset, alignedOffset size a.alignment⟩) hm
    unfold insertBlock at h
    split at h
    · cases h
    · next out hins =>
      cases h
      split at hins
      · cases hins
        refine ⟨_, ?_, rfl⟩
        set blocks := (a.chunks.getD addr.chunk {}).freeBlocks with hblocks
        have hm := Merged.insert (t := ⟨addr.offset, alignedOffset size a.alignment⟩)
          (blocks.takeWhile fun b => b.offset < addr.offset)
          (blocks.dropWhile fun b => b.offset < addr.offset)
          (fun b hb => hne b (by rwa [takeWhile_append_dropWhile] at hb))
          (fun b hb => by simpa using mem_takeWhile_imp hb)
          (fun c hc => by
            have := head?_dropWhile_not (fun b : FreeBlock => decide (b.offset < addr.offset))
              blocks
            rw [hc] at this
            simpa using this)
        rwa [takeWhile_append_dropWhile] at hm
      · cases hins

section Merged

variable {t : Span} {free out live : List FreeBlock} {n : Nat}

/-- The range is free. -/
theorem Merged.tiles (h : Merged t free out) (ht : Tiles (free ++ t :: live) n) :
    Tiles (out ++ live) n := by
  have perm : ∀ {l l' : List FreeBlock}, (∀ x, l.count x = l'.count x) → l.Perm l' :=
    fun h => perm_iff_count.mpr h
  cases h with
  | after pre post b hb =>
    refine Tiles.perm (Tiles.join (j := ⟨b.offset, b.size + t.size⟩) (s := b) (t := t)
      (l := pre ++ post ++ live) (ht.perm ?_) fun x => ?_) ?_
    · exact perm fun x => by simp [count_cons]; omega
    · simp only [has_iff, Span.stop] at hb ⊢
      omega
    · exact perm fun x => by simp [count_cons]; omega
  | between pre post b c hb hc =>
    have h1 : Tiles (⟨b.offset, b.size + t.size⟩ :: c :: (pre ++ post ++ live)) n := by
      refine Tiles.join (s := b) (t := t) (ht.perm ?_) fun x => ?_
      · exact perm fun x => by simp [count_cons]; omega
      · simp only [has_iff, Span.stop] at hb ⊢
        omega
    refine Tiles.perm (Tiles.join (j := ⟨b.offset, b.size + t.size + c.size⟩) h1 fun x => ?_) ?_
    · simp only [has_iff, Span.stop] at hb hc ⊢
      omega
    · exact perm fun x => by simp [count_cons]; omega
  | before pre post c hc =>
    refine Tiles.perm (Tiles.join (j := ⟨t.offset, c.size + t.size⟩) (s := c) (t := t)
      (l := pre ++ post ++ live) (ht.perm ?_) fun x => ?_) ?_
    · exact perm fun x => by simp [count_cons]; omega
    · simp only [has_iff, Span.stop] at hc ⊢
      omega
    · exact perm fun x => by simp [count_cons]; omega
  | insert pre post =>
    exact ht.perm (perm fun x => by simp [count_cons]; omega)

/-- A block is as before, or it is the range together with blocks that touch it. -/
theorem Merged.mem (h : Merged t free out) {b : FreeBlock} (hb : b ∈ out) : b ∈ free ∨
      (b.offset = t.offset ∨ ∃ a ∈ free, a.stop = t.offset ∧ b.offset = a.offset) ∧
      (b.stop = t.stop ∨ ∃ c ∈ free, t.stop = c.offset ∧ b.stop = c.stop) := by
  cases h with
  | after pre post a ha =>
    rcases mem_append.mp hb with hb | hb
    · exact .inl (mem_append_left _ hb)
    · rcases mem_cons.mp hb with rfl | hb
      · refine .inr ⟨.inr ⟨a, by simp, ha, rfl⟩, .inl ?_⟩
        simp only [Span.stop] at ha ⊢
        omega
      · exact .inl (by simp [hb])
  | between pre post a c ha hc =>
    rcases mem_append.mp hb with hb | hb
    · exact .inl (mem_append_left _ hb)
    · rcases mem_cons.mp hb with rfl | hb
      · refine .inr ⟨.inr ⟨a, by simp, ha, rfl⟩, .inr ⟨c, by simp, hc, ?_⟩⟩
        simp only [Span.stop] at ha hc ⊢
        omega
      · exact .inl (by simp [hb])
  | before pre post c hc =>
    rcases mem_append.mp hb with hb | hb
    · exact .inl (mem_append_left _ hb)
    · rcases mem_cons.mp hb with rfl | hb
      · refine .inr ⟨.inl rfl, .inr ⟨c, by simp, hc, ?_⟩⟩
        simp only [Span.stop] at hc ⊢
        omega
      · exact .inl (by simp [hb])
  | insert pre post =>
    rcases mem_append.mp hb with hb | hb
    · exact .inl (mem_append_left _ hb)
    · rcases mem_cons.mp hb with rfl | hb
      · exact .inr ⟨.inl rfl, .inl rfl⟩
      · exact .inl (mem_append_right _ hb)

/-- A range with bytes that is apart from the blocks and from `t` is apart from the new blocks. -/
theorem Merged.apart (h : Merged t free out) {r : Span} (hr : 0 < r.size)
    (hf : ∀ a ∈ free, Apart a r) (ht : Apart t r) {b : FreeBlock} (hb : b ∈ out) : Apart b r := by
  rcases h.mem hb with hb | ⟨hs, he⟩
  · exact hf b hb
  · have left : b.offset = t.offset ∨ ∃ o, b.offset = o ∧ (r.stop ≤ o ∨ t.offset ≤ r.offset) := by
      refine hs.imp id fun ⟨a, ha, ea, e⟩ => ⟨a.offset, e, ?_⟩
      have := hf a ha
      unfold Apart at this
      omega
    have right : b.stop = t.stop ∨ ∃ o, b.stop = o ∧ (o ≤ r.offset ∨ r.stop ≤ t.stop) := by
      refine he.imp id fun ⟨c, hc, ec, e⟩ => ⟨c.stop, e, ?_⟩
      have := hf c hc
      unfold Apart at this
      omega
    clear hs he hf
    simp only [Apart, Span.stop] at ht left right ⊢
    rcases left with left | ⟨o, left, left'⟩ <;> rcases right with right | ⟨o', right, right'⟩ <;>
      omega

/-- The list stays sorted, with gaps between the blocks. -/
theorem Merged.gapped (h : Merged t free out) (hg : Gapped free) (ht : ∀ b ∈ free, Apart b t) :
    Gapped out := by
  cases h with
  | after pre post b hb hpost =>
    have hbefore := pairwise_append.mp hg
    have hbehind := pairwise_cons.mp hbefore.2.1
    refine Gapped.join [b] hg (fun a ha => hbefore.2.2 a ha b mem_cons_self)
      fun c hc => ?_
    -- the first block behind `b` does not touch the range, so none does
    have hmin : ∀ c ∈ post, t.stop ≤ c.offset := by
      intro c hc
      have h1 := hbehind.1 c hc
      have h2 := ht c (mem_append_right _ (mem_cons_of_mem _ hc))
      simp only [Apart, Span.stop] at *
      omega
    have hlt : t.stop < c.offset := by
      cases post with
      | nil => cases hc
      | cons d post =>
        have hd := hpost d rfl
        have hd' := hmin d mem_cons_self
        rcases mem_cons.mp hc with rfl | hc
        · omega
        · have := (pairwise_cons.mp hbehind.2).1 c hc
          simp only [Span.stop] at *
          omega
    simp only [Span.stop] at *
    omega
  | between pre post b c hb hc =>
    have hbefore := pairwise_append.mp hg
    have hbehind := pairwise_cons.mp (pairwise_cons.mp hbefore.2.1).2
    refine Gapped.join [b, c] hg (fun a ha => hbefore.2.2 a ha b mem_cons_self)
      fun d hd => ?_
    have := hbehind.1 d hd
    simp only [Span.stop] at *
    omega
  | before pre post c hc hpre =>
    have hbefore := pairwise_append.mp hg
    refine Gapped.join [c] hg (fun a ha => ?_) fun d hd => ?_
    · have h1 := hbefore.2.2 a ha c mem_cons_self
      have h2 := ht a (mem_append_left _ ha)
      have h3 := hpre a ha
      simp only [Apart, Span.stop] at *
      omega
    · have := (pairwise_cons.mp hbefore.2.1).1 d hd
      simp only [Span.stop] at *
      omega
  | insert pre post hne hpre hpost =>
    have hbefore := pairwise_append.mp hg
    have hmin : ∀ c ∈ post, t.offset ≤ c.offset := by
      intro c hc
      cases post with
      | nil => cases hc
      | cons d post =>
        have hd := hpost d rfl
        rcases mem_cons.mp hc with rfl | hc
        · exact hd
        · have := (pairwise_cons.mp hbefore.2.1).1 c hc
          simp only [Span.stop] at *
          omega
    refine Gapped.join [] hg (fun a ha => ?_) fun c hc => ?_
    · have h1 := hpre a ha
      have h2 := ht a (mem_append_left _ ha)
      have h3 := (hne a (mem_append_left _ ha)).1
      simp only [Apart, Span.stop] at *
      omega
    · have h1 := hmin c hc
      have h2 := ht c (mem_append_right _ hc)
      have h3 := hne c (mem_append_right _ hc)
      simp only [Apart, Span.stop] at *
      omega

end Merged

end BeeLlama.Alloc
