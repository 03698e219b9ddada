import BeeLlama.Lib.CountMap
import Mathlib.Data.Finset.Sort

/-!
# KV cells (`src/llama-kv-cells.h`)

`KvCells` is `llama_kv_cells`: the metadata of the cells of one stream. A cell holds a position
(`-1` if it is empty), an extra 2D position, the shift that is not yet applied to its K rows, and
the set of the sequences that occupy it. Three indexes repeat that data: the set of the used
cells, the positions of each sequence with their counts, and the number of cells of each sequence.

A vector over the cells is a function of the cell index together with `size`; the code accesses
it below `size` only. `llama_pos` is an `Int`: the code never relies on a wrapped position (a
signed overflow is undefined). `assert` is not executed: what a function asserts is stated beside
the operations (`KvCells.Op.Asserts` in `BeeLlama/Kv/CellsRun.lean`).
-/

namespace BeeLlama

/-- `LLAMA_MAX_SEQ`: a sequence id is below it. -/
def LLAMA_MAX_SEQ : Nat := 256

/-- `llama_kv_cell_ext`: the 2D position of a cell (M-RoPE). -/
structure CellExt where
  x : Int := 0
  y : Int := 0
  deriving DecidableEq, Repr

/-- `llama_kv_cell_ext::is_2d_gt`. -/
def CellExt.is2dGt (e : CellExt) (ox oy : Int) : Bool :=
  decide (e.y > oy) || (decide (e.y = oy) && decide (e.x > ox))

/-- `llama_kv_cells`. -/
structure KvCells where
  /-- The number of cells (`pos.size()`). -/
  size : Nat
  hasShift : Bool
  /-- The used cells: `pos[i] != -1`. -/
  used : Finset Nat
  pos : Nat → Int
  ext : Nat → CellExt
  /-- The shifts applied to `pos` since the last `resetShift`. -/
  shift : Nat → Int
  /-- The sequences that occupy a cell. -/
  seq : Nat → Finset Nat
  /-- How many times a position is present for a sequence. -/
  seqPos : Nat → CountMap Int
  /-- How many cells a sequence occupies. -/
  seqUsed : Nat → Nat

namespace KvCells

/-! ## The helpers on `seq_pos` -/

/-- `seq_pos_dec`. -/
def seqPosDec (c : KvCells) (s : Nat) (p : Int) : KvCells :=
  { c with
    seqUsed := Function.update c.seqUsed s (c.seqUsed s - 1)
    seqPos := Function.update c.seqPos s ((c.seqPos s).dec p) }

/-- `seq_pos_inc`. -/
def seqPosInc (c : KvCells) (s : Nat) (p : Int) : KvCells :=
  { c with
    seqUsed := Function.update c.seqUsed s (c.seqUsed s + 1)
    seqPos := Function.update c.seqPos s ((c.seqPos s).inc p) }

/-- `seq_pos_rm`: remove cell `i` from `seq_pos`. -/
def seqPosRm (c : KvCells) (i : Nat) : KvCells :=
  (List.range LLAMA_MAX_SEQ).foldl (fun c s => if s ∈ c.seq i then c.seqPosDec s (c.pos i) else c) c

/-- `seq_pos_add`: add cell `i` to `seq_pos`. -/
def seqPosAdd (c : KvCells) (i : Nat) : KvCells :=
  (List.range LLAMA_MAX_SEQ).foldl (fun c s => if s ∈ c.seq i then c.seqPosInc s (c.pos i) else c) c

/-! ## Construction -/

/-- `reset`. -/
def reset (c : KvCells) : KvCells :=
  { size := c.size
    hasShift := false
    used := ∅
    pos := fun _ => -1
    ext := fun _ => {}
    shift := fun _ => 0
    seq := fun _ => ∅
    seqPos := fun _ => ∅
    seqUsed := fun _ => 0 }

/-- `resize(n)`: the vectors get `n` items, then `reset`. -/
def resize (c : KvCells) (n : Nat) : KvCells := { c with size := n }.reset

/-- A default-constructed object. -/
def empty : KvCells :=
  { size := 0
    hasShift := false
    used := ∅
    pos := fun _ => -1
    ext := fun _ => {}
    shift := fun _ => 0
    seq := fun _ => ∅
    seqPos := fun _ => ∅
    seqUsed := fun _ => 0 }

/-- `reset_shift`. -/
def resetShift (c : KvCells) : KvCells := { c with hasShift := false, shift := fun _ => 0 }

/-! ## Readers -/

/-- `is_empty`. -/
def isEmpty (c : KvCells) (i : Nat) : Bool := c.pos i == -1

/-- `get_used`. -/
def getUsed (c : KvCells) : Nat := c.used.card

/-- `used_min`: the first used cell, `0` if there is none. -/
def usedMin (c : KvCells) : Nat := if h : c.used.Nonempty then c.used.min' h else 0

/-- `used_max_p1`: the last used cell plus one, `0` if there is none. -/
def usedMaxP1 (c : KvCells) : Nat := if h : c.used.Nonempty then c.used.max' h + 1 else 0

/-- `seq_count`. -/
def seqCount (c : KvCells) (i : Nat) : Nat := (c.seq i).card

/-- `seq_has`. -/
def seqHas (c : KvCells) (i s : Nat) : Bool := decide (s ∈ c.seq i)

/-- `seq_size`. -/
def seqSize (c : KvCells) (s : Nat) : Nat := c.seqUsed s

/-- `seq_get`: the first sequence of cell `i` (the code calls it for cells with exactly one). -/
def seqGet (c : KvCells) (i : Nat) : Option Nat :=
  (List.range LLAMA_MAX_SEQ).find? fun s => decide (s ∈ c.seq i)

/-- `seq_pos_min`. -/
def seqPosMin (c : KvCells) (s : Nat) : Int := (c.seqPos s).minKey (-1)

/-- `seq_pos_max`. -/
def seqPosMax (c : KvCells) (s : Nat) : Int := (c.seqPos s).maxKey (-1)

/-- `pos_in`: the position of cell `i` is in `[p0, p1)`. -/
def posIn (c : KvCells) (i : Nat) (p0 p1 : Int) : Bool :=
  decide (c.pos i ≥ p0) && decide (c.pos i < p1)

/-- `cells_at`: the used cells of sequence `s` at position `p`, in ascending order. -/
def cellsAt (c : KvCells) (s : Nat) (p : Int) : List Nat :=
  (c.used.sort (· ≤ ·)).filter fun i => c.pos i == p && c.seqHas i s

/-! ## Changes of one cell -/

/-- The assignments that free cell `i`: `pos[i] = -1; ext[i].reset(); shift[i] = 0;
used.erase(i)`. -/
def freeCell (c : KvCells) (i : Nat) : KvCells :=
  { c with
    pos := Function.update c.pos i (-1)
    ext := Function.update c.ext i {}
    shift := Function.update c.shift i 0
    used := c.used.erase i }

/-- `seq[i] = S`. -/
def setSeq (c : KvCells) (i : Nat) (S : Finset Nat) : KvCells :=
  { c with seq := Function.update c.seq i S }

/-- `rm`: clear a non-empty cell. -/
def rm (c : KvCells) (i : Nat) : KvCells := ((c.seqPosRm i).setSeq i ∅).freeCell i

/-- `seq_rm`: remove sequence `s` from cell `i`. The flag tells if the cell becomes empty. -/
def seqRm (c : KvCells) (i s : Nat) : KvCells × Bool :=
  let c₁ := (c.setSeq i ((c.seq i).erase s)).seqPosDec s (c.pos i)
  if c₁.seq i = ∅ then (c₁.freeCell i, true) else (c₁, false)

/-- `seq_rm_cell`. -/
def seqRmCell (c : KvCells) (i s : Nat) : KvCells × Bool :=
  if c.pos i = -1 ∨ s ∉ c.seq i then (c, false) else c.seqRm i s

/-- `seq_keep`: keep only sequence `s` in cell `i`. The flag tells if the cell becomes empty. -/
def seqKeep (c : KvCells) (i s : Nat) : KvCells × Bool :=
  if s ∈ c.seq i then (((c.seqPosRm i).setSeq i {s}).seqPosInc s (c.pos i), false)
  else if (c.seq i).Nonempty then (((c.seqPosRm i).setSeq i ∅).freeCell i, true)
  else (c, false)

/-- `seq_add`. -/
def seqAdd (c : KvCells) (i s : Nat) : KvCells :=
  (c.setSeq i (insert s (c.seq i))).seqPosInc s (c.pos i)

/-- `pos_set`. -/
def posSet (c : KvCells) (i : Nat) (p : Int) : KvCells :=
  { c with pos := Function.update c.pos i p, used := insert i c.used }

/-- `ext_set`. -/
def extSet (c : KvCells) (i : Nat) (e : CellExt) : KvCells :=
  { c with ext := Function.update c.ext i e }

/-- `pos[i] = p; shift[i] += d; has_shift = true`. -/
def movePos (c : KvCells) (i : Nat) (p d : Int) : KvCells :=
  { c with
    pos := Function.update c.pos i p
    shift := Function.update c.shift i (c.shift i + d)
    hasShift := true }

/-- What `pos_add` does with a negative position: `seq[i].reset(); pos[i] = -1; shift[i] = 0;
used.erase(i)`. Unlike `freeCell` it leaves `ext[i]`. -/
def dropCell (c : KvCells) (i : Nat) : KvCells :=
  { c with
    seq := Function.update c.seq i ∅
    pos := Function.update c.pos i (-1)
    shift := Function.update c.shift i 0
    used := c.used.erase i }

/-- `pos_add`: a position that becomes negative frees the cell. The flag tells if it did. -/
def posAdd (c : KvCells) (i : Nat) (d : Int) : KvCells × Bool :=
  let c₁ := (c.seqPosRm i).movePos i (c.pos i + d) d
  if c.pos i + d < 0 then (c₁.dropCell i, true) else (c₁.seqPosAdd i, false)

/-- `pos_div`: integer division, which rounds to zero. -/
def posDiv (c : KvCells) (i : Nat) (d : Int) : KvCells :=
  let p := (c.pos i).tdiv d
  ((c.seqPosRm i).movePos i p (c.pos i - p)).seqPosAdd i

/-! ## Save and restore -/

/-- `cp(i, n)`: the cells `[i, i + n)`. Only `pos`, `ext` and `seq` are copied. -/
def cp (c : KvCells) (i n : Nat) : KvCells :=
  { empty.resize n with
    pos := fun j => if j < n then c.pos (i + j) else -1
    ext := fun j => if j < n then c.ext (i + j) else {}
    seq := fun j => if j < n then c.seq (i + j) else ∅ }

/-- `cp(idxs)`: the cells `idxs[0], idxs[1], ...`. Only `pos`, `ext` and `seq` are copied. -/
def cpIdxs (c : KvCells) (idxs : List Nat) : KvCells :=
  { empty.resize idxs.length with
    pos := fun j => (idxs[j]?.map c.pos).getD (-1)
    ext := fun j => (idxs[j]?.map c.ext).getD {}
    seq := fun j => (idxs[j]?.map c.seq).getD ∅ }

/-- `used` after one iteration of `set`: cell `idx` gets the position `p`. -/
def setUsed (c : KvCells) (idx : Nat) (p : Int) : Finset Nat :=
  let u := if c.pos idx = -1 ∧ p ≠ -1 then insert idx c.used else c.used
  if c.pos idx ≠ -1 ∧ p = -1 then u.erase idx else u

/-- `pos[idx] = p; ext[idx] = e; seq[idx] = S`. -/
def assign (c : KvCells) (idx : Nat) (p : Int) (e : CellExt) (S : Finset Nat) : KvCells :=
  { c with
    pos := Function.update c.pos idx p
    ext := Function.update c.ext idx e
    seq := Function.update c.seq idx S }

/-- One iteration of `set`: cell `idx` gets the state of cell `j` of `other`. -/
def setCell (c : KvCells) (idx : Nat) (other : KvCells) (j : Nat) : KvCells :=
  let c₁ := { c with used := c.setUsed idx (other.pos j) }
  let c₂ := if c.pos idx ≠ -1 then c₁.seqPosRm idx else c₁
  let c₃ := c₂.assign idx (other.pos j) (other.ext j) (other.seq j)
  if other.pos j ≠ -1 then c₃.seqPosAdd idx else c₃

/-- `set(i, other)`. -/
def set (c : KvCells) (i : Nat) (other : KvCells) : KvCells :=
  (List.range other.size).foldl (fun c j => c.setCell (i + j) other j) c

/-- `set(idxs, other)`: `idxs.size() == other.pos.size()`. -/
def setIdxs (c : KvCells) (idxs : List Nat) (other : KvCells) : KvCells :=
  (List.range other.size).foldl (fun c j => c.setCell (idxs.getD j 0) other j) c

end KvCells
end BeeLlama
