import BeeLlama.Lib.Span
import Mathlib.Algebra.Group.Int.Defs

/-!
# The dynamic tensor allocator (`ggml_dyn_tallocr`)

An allocator hands out ranges of chunks. Each chunk keeps the blocks that are free in an array
sorted by address, of which the last one may reach beyond the size that the chunk needs so far.
`size_t` is a natural number; `2 ^ 64` is subtracted where a sum or a difference can leave its
range. The largest available block, which is only printed, is left out.
-/

namespace BeeLlama.Alloc

/-- `MAX_FREE_BLOCKS`. -/
def maxFreeBlocks : Nat := 256

/-- `GGML_VBUFFER_MAX_CHUNKS`. -/
def maxChunks : Nat := 16

/-- `SIZE_MAX`. -/
def sizeMax : Nat := 2 ^ 64 - 1

/-- `free_block`. -/
abbrev FreeBlock := Span

/-- `tallocr_chunk`. -/
structure TallocrChunk where
  freeBlocks : List FreeBlock := []
  maxSize : Nat := 0
  deriving DecidableEq, Repr

/-- `ggml_dyn_tallocr`. -/
structure DynTallocr where
  alignment : Nat
  maxChunkSize : Nat
  chunks : List TallocrChunk := []
  deriving DecidableEq, Repr

/-- `buffer_address`. -/
structure BufferAddress where
  chunk : Nat
  offset : Nat
  deriving DecidableEq, Repr

/-- What stops a call. -/
inductive AllocError where
  /-- `GGML_ASSERT(chunk->n_free_blocks < MAX_FREE_BLOCKS)`. -/
  | outOfFreeBlocks
  /-- `GGML_ABORT("graph allocation: failed to reserve memory")`. -/
  | outOfChunks
  deriving DecidableEq, Repr

/-- `aligned_offset` with the null pointer as the buffer. -/
def alignedOffset (offset alignment : Nat) : Nat :=
  (offset + (alignment - offset % alignment) % alignment) % 2 ^ 64

/-- `ggml_dyn_tallocr_new`. -/
def dynTallocrNew (alignment maxBufferSize : Nat) : DynTallocr :=
  { alignment := alignment, maxChunkSize := min maxBufferSize (sizeMax / 2) }

/-! ## The array of free blocks -/

/-- `ggml_dyn_tallocr_insert_block`. -/
def insertBlock (blocks : List FreeBlock) (offset size : Nat) :
    Except AllocError (List FreeBlock) :=
  if blocks.length < maxFreeBlocks then
    .ok (blocks.takeWhile (fun b => b.offset < offset) ++
      ⟨offset, size⟩ :: blocks.dropWhile (fun b => b.offset < offset))
  else .error .outOfFreeBlocks

/-- `ggml_dyn_tallocr_remove_block`. -/
def removeBlock (blocks : List FreeBlock) (idx : Nat) : List FreeBlock := blocks.eraseIdx idx

/-- `ggml_dyn_tallocr_new_chunk`: `none` is the result `-1`. -/
def newChunk (alloc : DynTallocr) (minSize : Nat) : Option DynTallocr :=
  if alloc.chunks.length ≥ maxChunks then none
  else
    let size := if alloc.chunks.length = maxChunks - 1 then sizeMax / 2
      else max minSize alloc.maxChunkSize
    some { alloc with chunks := alloc.chunks ++ [⟨[⟨0, size⟩], 0⟩] }

/-! ## `ggml_dyn_tallocr_alloc` -/

/-- The loop over the blocks of a chunk besides the last one: the chunk and the index of the best
fit so far. -/
def bestFitBlock (size c : Nat) :
    List FreeBlock → Nat → Nat → Option (Nat × Nat) → Option (Nat × Nat)
  | [], _, _, best => best
  | block :: blocks, i, bestFitSize, best =>
    if block.size ≥ size ∧ block.size ≤ bestFitSize then
      bestFitBlock size c blocks (i + 1) block.size (some (c, i))
    else bestFitBlock size c blocks (i + 1) bestFitSize best

/-- The loop over the chunks. -/
def bestFit (size : Nat) : List TallocrChunk → Nat → Option (Nat × Nat) → Option (Nat × Nat)
  | [], _, best => best
  | chunk :: chunks, c, best =>
    bestFit size chunks (c + 1) (bestFitBlock size c chunk.freeBlocks.dropLast 0 sizeMax best)

/-- `chunk->max_size - block->offset - size` as an `int64_t`. -/
def reuseFactor (chunk : TallocrChunk) (block : FreeBlock) (size : Nat) : Int :=
  Int.bmod ((chunk.maxSize : Int) - block.offset - size) (2 ^ 64)

/-- The loop over the last blocks of the chunks. -/
def bestReuseBlock (size : Nat) :
    List TallocrChunk → Nat → Int → Option (Nat × Nat) → Option (Nat × Nat)
  | [], _, _, best => best
  | chunk :: chunks, c, bestReuse, best =>
    match chunk.freeBlocks.getLast? with
    | none => bestReuseBlock size chunks (c + 1) bestReuse best
    | some block =>
      let factor := reuseFactor chunk block size
      let betterReuse := bestReuse < 0 ∧ factor > bestReuse
      let betterFit := factor ≥ 0 ∧ factor < bestReuse
      if block.size ≥ size ∧ (betterReuse ∨ betterFit) then
        bestReuseBlock size chunks (c + 1) factor (some (c, chunk.freeBlocks.length - 1))
      else bestReuseBlock size chunks (c + 1) bestReuse best

/-- The range is taken from the beginning of the block `i` of the chunk `c`. -/
def takeBlock (alloc : DynTallocr) (c i size : Nat) : DynTallocr × BufferAddress :=
  let chunk := alloc.chunks.getD c {}
  let block := chunk.freeBlocks.getD i ⟨0, 0⟩
  let taken : FreeBlock := ⟨(block.offset + size) % 2 ^ 64, (block.size + 2 ^ 64 - size) % 2 ^ 64⟩
  let blocks := if taken.size = 0 then removeBlock chunk.freeBlocks i
    else chunk.freeBlocks.set i taken
  ({ alloc with
      chunks := alloc.chunks.set c ⟨blocks, max chunk.maxSize ((block.offset + size) % 2 ^ 64)⟩ },
    ⟨c, block.offset⟩)

/-- The block that is used: the best fit besides the last blocks, or the best of these. -/
def findBlock (alloc : DynTallocr) (size : Nat) : Option (Nat × Nat) :=
  match bestFit size alloc.chunks 0 none with
  | some best => some best
  | none => bestReuseBlock size alloc.chunks 0 (-2 ^ 63) none

/-- `ggml_dyn_tallocr_alloc`. -/
def alloc (alloc : DynTallocr) (size : Nat) : Except AllocError (DynTallocr × BufferAddress) :=
  let size := alignedOffset size alloc.alignment
  match findBlock alloc size with
  | some (c, i) => .ok (takeBlock alloc c i size)
  | none =>
    match newChunk alloc size with
    | none => .error .outOfChunks
    | some alloc => .ok (takeBlock alloc (alloc.chunks.length - 1) 0 size)

/-! ## `ggml_dyn_tallocr_free_bytes` -/

/-- The loop over the blocks: the range is merged with the first block that it touches, and with
one neighbour of it. `passed` are the blocks before, the last one first. -/
def mergeFree (offset size : Nat) :
    List FreeBlock → List FreeBlock → Option (List FreeBlock)
  | _, [] => none
  | passed, block :: blocks =>
    if block.offset + block.size = offset then
      let block : FreeBlock := ⟨block.offset, block.size + size⟩
      match blocks with
      | [] => some (passed.reverse ++ [block])
      | next :: blocks =>
        if block.offset + block.size = next.offset then
          some (passed.reverse ++ ⟨block.offset, block.size + next.size⟩ :: blocks)
        else some (passed.reverse ++ block :: next :: blocks)
    else if offset + size = block.offset then
      let block : FreeBlock := ⟨offset, block.size + size⟩
      match passed with
      | [] => some (block :: blocks)
      | prev :: passed =>
        if prev.offset + prev.size = block.offset then
          some (passed.reverse ++ ⟨prev.offset, prev.size + block.size⟩ :: blocks)
        else some (passed.reverse ++ prev :: block :: blocks)
    else mergeFree offset size (block :: passed) blocks

/-- `ggml_dyn_tallocr_free_bytes`. -/
def freeBytes (alloc : DynTallocr) (addr : BufferAddress) (size : Nat) :
    Except AllocError DynTallocr :=
  let size := alignedOffset size alloc.alignment
  let chunk := alloc.chunks.getD addr.chunk {}
  match mergeFree addr.offset size [] chunk.freeBlocks with
  | some blocks =>
    .ok { alloc with chunks := alloc.chunks.set addr.chunk { chunk with freeBlocks := blocks } }
  | none =>
    match insertBlock chunk.freeBlocks addr.offset size with
    | .error e => .error e
    | .ok blocks =>
      .ok { alloc with chunks := alloc.chunks.set addr.chunk { chunk with freeBlocks := blocks } }

end BeeLlama.Alloc
