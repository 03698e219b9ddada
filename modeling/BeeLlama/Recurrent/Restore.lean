import BeeLlama.Recurrent.Relocate
import BeeLlama.Lib.ByteReader

/-!
# Restoring the recurrent memory from bytes (`state_read`)

`state_read` reads the number of cells and then, for each cell, its position, the number of its
sequence ids and the ids. One sequence is restored through `seq_rm` and `find_slot`, the whole
memory in place; the metadata of before come back unless everything is read.

* `stateReadBytes_cases`, `stateReadBytes_holds`: a call that does not throw has read the records
  that the stream holds, and does with them what `stateRead` does.
* `stateRead_clean_iff`: the call throws and leaves everything as it was, or it commits a memory
  whose tails are in order, exactly if the stream is `Restorable`. The asserts behind `find_slot`
  hold for one cell only.

What `state_read_data` makes of the rest of the stream is a parameter: it does not touch the
metadata, and the only thing that counts here is whether it accepts the stream.
-/

namespace BeeLlama

open List Function Int RecurrentMemory CellRecord

/-! ## Records of bytes -/

/-- The range of an `int32_t`. -/
def IsInt32 (x : Int) : Prop := -2 ^ 31 ≤ x ∧ x < 2 ^ 31

/-- The bytes of an `int32_t`. -/
def int32Bytes (x : Int) : List UInt8 := le 4 (x % 2 ^ 32).toNat

namespace ByteReader

/-- An `int32_t`. -/
def int32 : ByteReader Int := do return Int.bmod (← number 4) (2 ^ 32)

theorem number_append {k n : Nat} (hn : n < 256 ^ k) (off : Nat) (rest : List UInt8) :
    number k ⟨off, le k n ++ rest⟩ = some (n, ⟨off + k, rest⟩) := by
  have := (Reads.number (g := True) hn).run trivial off rest
  rwa [length_le] at this

theorem int32_append {x : Int} (hx : IsInt32 x) (off : Nat) (rest : List UInt8) :
    int32 ⟨off, int32Bytes x ++ rest⟩ = some (x, ⟨off + 4, rest⟩) := by
  obtain ⟨h1, h2⟩ := hx
  have hmod : 0 ≤ x % 2 ^ 32 ∧ x % 2 ^ 32 < 2 ^ 32 := by omega
  have hlt : (x % 2 ^ 32).toNat < 256 ^ 4 := by omega
  have hval : Int.bmod ((x % 2 ^ 32).toNat : Nat) (2 ^ 32) = x := by
    rw [toNat_of_nonneg hmod.1, bmod_def]
    split <;> omega
  change (number 4 ⟨off, int32Bytes x ++ rest⟩).bind
    (fun r => some (Int.bmod (r.1 : Nat) (2 ^ 32), r.2)) = _
  rw [int32Bytes, number_append hlt, Option.bind_some, hval]

theorem int32_eq_some {x : Int} {s s' : ByteSource} (h : int32 s = some (x, s')) :
    IsInt32 x ∧ s.rest = int32Bytes x ++ s'.rest := by
  obtain ⟨n, t, hn, e⟩ := bind_eq_some h
  obtain ⟨rfl, rfl⟩ := Prod.mk.inj (Option.some.inj e)
  obtain ⟨hlt, hrest⟩ := number_eq_some hn
  have hmod : (Int.bmod (n : Nat) (2 ^ 32) % 2 ^ 32).toNat = n := by
    rw [bmod_def]
    split <;> omega
  refine ⟨?_, by rw [hrest, int32Bytes, hmod]⟩
  rw [IsInt32, bmod_def]
  constructor <;> split <;> omega

end ByteReader

namespace RecurrentMemory

/-- A record that a stream can hold. -/
structure CellRecord.Fits (r : CellRecord) : Prop where
  pos : IsInt32 r.pos
  count : r.seqIds.length < 2 ^ 32
  ids : ∀ id ∈ r.seqIds, IsInt32 id

/-- The bytes of a record. -/
def CellRecord.bytes (r : CellRecord) : List UInt8 :=
  int32Bytes r.pos ++ (le 4 r.seqIds.length ++ r.seqIds.flatMap int32Bytes)

/-- The stream starts with the records, and `rest` follows. -/
structure Holds (bytes : List UInt8) (rs : List CellRecord) (rest : List UInt8) : Prop where
  count : rs.length < 2 ^ 32
  fits : ∀ r ∈ rs, r.Fits
  eq : bytes = le 4 rs.length ++ (rs.flatMap CellRecord.bytes ++ rest)

/-! ## Reading -/

open ByteReader

/-- The positions of the cells of one sequence; `none` if a cell comes with sequence ids. -/
def readPositions : Nat → ByteReader (Option (List Int))
  | 0 => return some []
  | n + 1 => do
    let pos ← int32
    let nSeqId ← number 4
    if nSeqId ≠ 0 then return none
    else return (← readPositions n).map (pos :: ·)

/-- The ids of cell `i` of a whole restore. -/
def readIdsFrom (m : RecurrentMemory) (i : Nat) : Nat → ByteReader (RecurrentMemory × Bool)
  | 0 => return (m, true)
  | n + 1 => do
    let id ← int32
    if id < 0 ∨ id.toNat ≥ m.nSeqMax then return (m, false)
    else
      let s := id.toNat
      let m := { m with seqId := Function.update m.seqId i (insert s (m.seqId i)) }
      if m.tail s ≠ -1 then return (m, false)
      else readIdsFrom { m with tail := Function.update m.tail s i } i n

/-- The cells of a whole restore, from cell `i` on. -/
def readCellsFrom (m : RecurrentMemory) (i : Nat) : Nat → ByteReader (RecurrentMemory × Bool)
  | 0 => return (m, true)
  | n + 1 => do
    let pos ← int32
    let nSeqId ← number 4
    match ← { m with pos := Function.update m.pos i pos }.readIdsFrom i nSeqId with
    | (m, false) => return (m, false)
    | (m, true) => readCellsFrom m (i + 1) n

/-- `state_read_meta` from the bytes after the number of cells. -/
def readMeta (m : RecurrentMemory) (count : Nat) (dest : Int) :
    ByteReader (Except RsAssert (RecurrentMemory × Bool)) :=
  if dest ≠ -1 then do
    match ← readPositions count with
    | none => return .ok ((m.seqRm dest (-1) (-1)).1, false)
    | some ps => return m.stateReadMeta (ps.map fun p => ⟨p, []⟩) dest
  else if count > m.size then return .ok (m, false)
  else do
    match ← m.clear.readCellsFrom 0 count with
    | (m, false) => return .ok (m, false)
    | (m, true) => return .ok ({ m with head := 0, used := count }.ownSources count, true)

/-- What a call of `state_read` comes to. -/
inductive ReadResult where
  /-- A failed `GGML_ASSERT`. -/
  | abort (x : RsAssert)
  /-- An exception, with the memory after it. -/
  | thrown (m : RecurrentMemory)
  /-- A commit, with the memory after it. -/
  | commit (m : RecurrentMemory)

/-- `state_read`; `data` tells whether `state_read_data` accepts the rest of the stream for a number
of cells. -/
def stateReadBytes (m : RecurrentMemory) (data : Nat → List UInt8 → Bool) (dest : Int)
    (bytes : List UInt8) : ReadResult :=
  match number 4 ⟨0, bytes⟩ with
  | none => .thrown m
  | some (count, s) =>
    match m.readMeta count dest s with
    | none => .thrown m
    | some (.error x, _) => .abort x
    | some (.ok (m', res), s) =>
      let m' := if res = true ∧ m'.nRsSeq ≠ 0 then
          if dest = -1 then { m' with rsIdx := fun _ => 0 } else m'.setRsIdx dest 0
        else m'
      if res && data count s.rest then .commit m' else .thrown { m with n := m'.n }

/-! ## What is read -/

theorem readPositions_eq_some (n : Nat) : ∀ {s s' : ByteSource} {ps : List Int},
    readPositions n s = some (some ps, s') →
    ps.length = n ∧ (∀ p ∈ ps, IsInt32 p) ∧
      s.rest = (ps.map fun p => (⟨p, []⟩ : CellRecord)).flatMap CellRecord.bytes ++ s'.rest := by
  induction n with
  | zero =>
    intro s s' ps h
    obtain ⟨e, rfl⟩ := Prod.mk.inj (Option.some.inj h)
    cases e
    exact ⟨rfl, by simp, rfl⟩
  | succ n ih =>
    intro s s' ps h
    obtain ⟨pos, s₁, h1, h⟩ := bind_eq_some h
    obtain ⟨k, s2, h2, h⟩ := bind_eq_some h
    obtain ⟨hpos, e1⟩ := int32_eq_some h1
    obtain ⟨-, e2⟩ := number_eq_some h2
    split at h
    · obtain ⟨e, -⟩ := Prod.mk.inj (Option.some.inj h)
      cases e
    · rename_i hk
      obtain rfl : k = 0 := not_not.mp hk
      obtain ⟨o, s3, h3, h⟩ := bind_eq_some h
      obtain ⟨e, rfl⟩ := Prod.mk.inj (Option.some.inj h)
      obtain ⟨qs, rfl, rfl⟩ := Option.map_eq_some_iff.mp e
      obtain ⟨hlen, hall, e3⟩ := ih h3
      refine ⟨by simp [hlen], forall_mem_cons.mpr ⟨hpos, hall⟩, ?_⟩
      rw [e1, e2, e3]
      simp [CellRecord.bytes]

theorem readPositions_holds (rs : List CellRecord) : ∀ (off : Nat) (rest : List UInt8),
    (∀ r ∈ rs, r.Fits ∧ r.seqIds = []) →
    ∃ off', readPositions rs.length ⟨off, rs.flatMap CellRecord.bytes ++ rest⟩ =
      some (some (rs.map (·.pos)), ⟨off', rest⟩) := by
  induction rs with
  | nil => exact fun off rest _ => ⟨off, rfl⟩
  | cons r rs ih =>
    intro off rest h
    obtain ⟨⟨hr, hids⟩, hrs⟩ := forall_mem_cons.mp h
    obtain ⟨off', e⟩ := ih (off + 4 + 4) rest hrs
    refine ⟨off', ?_⟩
    have hbytes : (r :: rs).flatMap CellRecord.bytes ++ rest =
        int32Bytes r.pos ++ (le 4 0 ++ (rs.flatMap CellRecord.bytes ++ rest)) := by
      simp [CellRecord.bytes, hids]
    rw [hbytes, length_cons]
    unfold readPositions
    refine (bind_run (int32_append hr.pos ..)).trans ?_
    refine (bind_run (number_append (by decide) ..)).trans ?_
    rw [if_neg (by simp)]
    exact bind_run e

theorem readIdsFrom_eq_some (n : Nat) : ∀ {m m' : RecurrentMemory} {i : Nat} {s s' : ByteSource},
    m.readIdsFrom i n s = some ((m', true), s') →
    ∃ ids : List Int, ids.length = n ∧ (∀ id ∈ ids, IsInt32 id) ∧
      s.rest = ids.flatMap int32Bytes ++ s'.rest ∧ m.readIds i ids = (m', true) := by
  induction n with
  | zero =>
    intro m m' i s s' h
    obtain ⟨e, rfl⟩ := Prod.mk.inj (Option.some.inj h)
    exact ⟨[], rfl, by simp, rfl, e⟩
  | succ n ih =>
    intro m m' i s s' h
    obtain ⟨id, s₁, h1, h⟩ := bind_eq_some h
    obtain ⟨hid, e1⟩ := int32_eq_some h1
    dsimp only at h
    split at h
    · obtain ⟨e, -⟩ := Prod.mk.inj (Option.some.inj h)
      simp at e
    · rename_i hrange
      split at h
      · obtain ⟨e, -⟩ := Prod.mk.inj (Option.some.inj h)
        simp at e
      · rename_i ht
        obtain ⟨ids, hlen, hall, e2, hread⟩ := ih h
        refine ⟨id :: ids, by simp [hlen], forall_mem_cons.mpr ⟨hid, hall⟩, ?_, ?_⟩
        · rw [e1, e2, flatMap_cons, append_assoc]
        · unfold readIds
          rw [if_neg hrange]
          rw [if_neg ht]
          exact hread

theorem readIdsFrom_holds (ids : List Int) : ∀ {m m' : RecurrentMemory} {i : Nat} (off : Nat)
    (rest : List UInt8), (∀ id ∈ ids, IsInt32 id) → m.readIds i ids = (m', true) →
    ∃ off', m.readIdsFrom i ids.length ⟨off, ids.flatMap int32Bytes ++ rest⟩ =
      some ((m', true), ⟨off', rest⟩) := by
  induction ids with
  | nil =>
    intro m m' i off rest _ e
    exact ⟨off, congrArg (fun x => some (x, _)) e⟩
  | cons id ids ih =>
    intro m m' i off rest h e
    obtain ⟨hid, hids⟩ := forall_mem_cons.mp h
    unfold readIds at e
    split at e
    · simp at e
    · rename_i hrange
      dsimp only at e
      split at e
      · simp at e
      · rename_i ht
        obtain ⟨off', e'⟩ := ih (off + 4) rest hids e
        refine ⟨off', ?_⟩
        rw [flatMap_cons, append_assoc, length_cons]
        unfold readIdsFrom
        refine (bind_run (int32_append hid ..)).trans ?_
        rw [if_neg hrange]
        rw [if_neg ht]
        exact e'

theorem readCellsFrom_eq_some (n : Nat) : ∀ {m m' : RecurrentMemory} {i : Nat}
    {s s' : ByteSource}, m.readCellsFrom i n s = some ((m', true), s') →
    ∃ rs : List CellRecord, rs.length = n ∧ (∀ r ∈ rs, r.Fits) ∧
      s.rest = rs.flatMap CellRecord.bytes ++ s'.rest ∧ m.readCells i rs = (m', true) := by
  induction n with
  | zero =>
    intro m m' i s s' h
    obtain ⟨e, rfl⟩ := Prod.mk.inj (Option.some.inj h)
    exact ⟨[], rfl, by simp, rfl, e⟩
  | succ n ih =>
    intro m m' i s s' h
    obtain ⟨pos, s₁, h1, hcount⟩ := bind_eq_some h
    obtain ⟨k, s2, h2, hbody⟩ := bind_eq_some hcount
    obtain ⟨⟨m1, b⟩, s3, h3, hnext⟩ := bind_eq_some hbody
    obtain ⟨hpos, e1⟩ := int32_eq_some h1
    obtain ⟨hk, e2⟩ := number_eq_some h2
    cases b with
    | false =>
      obtain ⟨e, -⟩ := Prod.mk.inj (Option.some.inj hnext)
      simp at e
    | true =>
      obtain ⟨ids, rfl, hids, e3, hread⟩ := readIdsFrom_eq_some k h3
      obtain ⟨rs, rfl, hall, e4, hcells⟩ := ih hnext
      refine ⟨⟨pos, ids⟩ :: rs, rfl,
        forall_mem_cons.mpr ⟨⟨hpos, hk.trans_eq (by norm_num), hids⟩, hall⟩, ?_, ?_⟩
      · rw [e1, e2, e3, e4]
        simp [CellRecord.bytes]
      · unfold readCells
        rw [hread]
        exact hcells

theorem readCellsFrom_holds (rs : List CellRecord) : ∀ {m m' : RecurrentMemory} {i : Nat}
    (off : Nat) (rest : List UInt8), (∀ r ∈ rs, r.Fits) → m.readCells i rs = (m', true) →
    ∃ off', m.readCellsFrom i rs.length ⟨off, rs.flatMap CellRecord.bytes ++ rest⟩ =
      some ((m', true), ⟨off', rest⟩) := by
  induction rs with
  | nil =>
    intro m m' i off rest _ e
    exact ⟨off, congrArg (fun x => some (x, _)) e⟩
  | cons r rs ih =>
    intro m m' i off rest h e
    obtain ⟨hr, hrs⟩ := forall_mem_cons.mp h
    unfold readCells at e
    split at e
    · simp at e
    · rename_i m1 e1
      obtain ⟨off1, e1⟩ := readIdsFrom_holds r.seqIds (off + 4 + 4)
        (rs.flatMap CellRecord.bytes ++ rest) hr.ids e1
      obtain ⟨off', e'⟩ := ih off1 rest hrs e
      refine ⟨off', ?_⟩
      have hbytes : (r :: rs).flatMap bytes ++ rest =
          int32Bytes r.pos ++ (le 4 r.seqIds.length ++ (r.seqIds.flatMap int32Bytes ++
            (rs.flatMap CellRecord.bytes ++ rest))) := by
        simp [CellRecord.bytes]
      have hcount := hr.count
      rw [hbytes, length_cons]
      unfold readCellsFrom
      refine (bind_run (int32_append hr.pos ..)).trans ?_
      refine (bind_run (number_append (by omega) ..)).trans ?_
      exact (bind_run e1).trans e'

/-! ## The call -/

/-- The result of `stateRead`. -/
def ReadResult.of : Except RsAssert (RecurrentMemory × Bool) → ReadResult
  | .error x => .abort x
  | .ok (m, true) => .commit m
  | .ok (m, false) => .thrown m

/-- The metadata of `m` that come back when the call throws. -/
def Untouched (m m' : RecurrentMemory) : Prop := m' = { m with n := m'.n }

variable {m m' : RecurrentMemory} {data : Nat → List UInt8 → Bool} {dest : Int}
  {bytes rest : List UInt8} {rs : List CellRecord}

/-- `stateReadBytes` once the metadata were read. -/
theorem stateReadBytes_of_meta {s s' : ByteSource} (hn : number 4 ⟨0, bytes⟩ = some (rs.length, s))
    (hm : m.readMeta rs.length dest s = some (m.stateReadMeta rs dest, s')) :
    m.stateReadBytes data dest bytes = .of (m.stateRead rs dest (data rs.length s'.rest)) := by
  unfold stateReadBytes stateRead
  rw [hn]
  dsimp only
  rw [hm]
  cases m.stateReadMeta rs dest with
  | error x => rfl
  | ok r =>
    dsimp only
    split <;> rfl

/-- The records of a whole restore that go in. -/
theorem stateReadMeta_whole (hlen : rs.length ≤ m.size)
    (e : m.clear.readCells 0 rs = (m', true)) : m.stateReadMeta rs (-1) =
      .ok ({ m' with head := 0, used := rs.length }.ownSources rs.length, true) := by
  unfold stateReadMeta
  rw [if_neg (by simp), if_neg (by omega), e]

/-- Records of one sequence come without ids, those of a whole restore go in. -/
def Taken (m : RecurrentMemory) (rs : List CellRecord) (dest : Int) : Prop :=
  if dest = -1 then rs.length ≤ m.size ∧ (m.clear.readCells 0 rs).2 = true
  else ∀ r ∈ rs, r.seqIds = []

/-- The call on a stream that holds the records. -/
theorem stateReadBytes_holds (h : Holds bytes rs rest) (ht : m.Taken rs dest) :
    m.stateReadBytes data dest bytes = .of (m.stateRead rs dest (data rs.length rest)) := by
  obtain ⟨hcount, hfits, rfl⟩ := h
  have hn := number_append (k := 4) (by omega) 0 (rs.flatMap CellRecord.bytes ++ rest)
  unfold Taken at ht
  by_cases hd : dest = -1
  · subst hd
    rw [if_pos rfl] at ht
    obtain ⟨m', hm'⟩ : ∃ m', m.clear.readCells 0 rs = (m', true) := ⟨_, Prod.ext rfl ht.2⟩
    obtain ⟨off', e⟩ := readCellsFrom_holds rs (0 + 4) rest hfits hm'
    refine @stateReadBytes_of_meta m data _ _ rs _ ⟨off', rest⟩ hn ?_
    rw [stateReadMeta_whole ht.1 hm', readMeta, if_neg (by simp), if_neg (by omega)]
    exact bind_run e
  · rw [if_neg hd] at ht
    obtain ⟨off', e⟩ := readPositions_holds rs (0 + 4) rest fun r hr => ⟨hfits r hr, ht r hr⟩
    have hmap : (rs.map (·.pos)).map (fun p => (⟨p, []⟩ : CellRecord)) = rs := by
      rw [map_map]
      refine (map_congr_left fun r hr => ?_).trans (map_id rs)
      show (⟨r.pos, []⟩ : CellRecord) = r
      rw [← ht r hr]
    refine @stateReadBytes_of_meta m data _ _ rs _ ⟨off', rest⟩ hn ?_
    rw [readMeta, if_pos hd]
    refine (bind_run e).trans ?_
    dsimp only
    rw [hmap]
    rfl

/-- A call that does not throw while it reads does what `stateRead` does with the records of the
stream. -/
theorem stateReadBytes_cases (m : RecurrentMemory) (data : Nat → List UInt8 → Bool) (dest : Int)
    (bytes : List UInt8) :
    (∃ m', m.stateReadBytes data dest bytes = .thrown m' ∧ m.Untouched m') ∨
    ∃ rs rest, Holds bytes rs rest ∧ m.Taken rs dest ∧
      m.stateReadBytes data dest bytes = .of (m.stateRead rs dest (data rs.length rest)) := by
  have hthrown : ∀ {x : ReadResult} {y : RecurrentMemory}, x = .thrown { m with n := y.n } →
      ∃ m', x = .thrown m' ∧ m.Untouched m' := fun {x y} e => ⟨_, e, rfl⟩
  cases hn : number 4 ⟨0, bytes⟩ with
  | none => exact .inl ⟨m, by unfold stateReadBytes; rw [hn], rfl⟩
  | some r =>
    obtain ⟨count, s⟩ := r
    obtain ⟨hlt, hbytes⟩ := number_eq_some hn
    have hfalse : ∀ {y : RecurrentMemory} {s' : ByteSource},
        m.readMeta count dest s = some (.ok (y, false), s') →
        ∃ m', m.stateReadBytes data dest bytes = .thrown m' ∧ m.Untouched m' := by
      intro y s' e
      refine hthrown (y := y) ?_
      unfold stateReadBytes
      rw [hn]
      dsimp only
      rw [e]
      rfl
    have hholds : ∀ {rs : List CellRecord} {rest : List UInt8}, rs.length = count →
        (∀ r ∈ rs, r.Fits) → s.rest = rs.flatMap CellRecord.bytes ++ rest → m.Taken rs dest →
        ∃ rs rest, Holds bytes rs rest ∧ m.Taken rs dest ∧
          m.stateReadBytes data dest bytes = .of (m.stateRead rs dest (data rs.length rest)) := by
      rintro rs rest rfl hfits hrest ht
      have h : Holds bytes rs rest := ⟨by omega, hfits, hbytes.trans (by rw [hrest])⟩
      exact ⟨rs, rest, h, ht, stateReadBytes_holds h ht⟩
    cases hm : m.readMeta count dest s with
    | none =>
      refine .inl ⟨m, ?_, rfl⟩
      unfold stateReadBytes
      rw [hn]
      dsimp only
      rw [hm]
    | some r =>
      have hm' := hm
      unfold readMeta at hm'
      by_cases hd : dest = -1
      · rw [if_neg (not_not.mpr hd)] at hm'
        split at hm'
        · cases hm'
          exact .inl (hfalse hm)
        · rename_i hlen
          obtain ⟨⟨m1, b⟩, s₁, h1, hrest⟩ := bind_eq_some hm'
          cases b with
          | false =>
            cases hrest
            exact .inl (hfalse hm)
          | true =>
            obtain ⟨rs, hcount, hfits, e, hread⟩ := readCellsFrom_eq_some count h1
            refine .inr (hholds hcount hfits e ?_)
            rw [Taken, if_pos hd, hread]
            exact ⟨by omega, rfl⟩
      · rw [if_pos hd] at hm'
        obtain ⟨o, s₁, h1, hrest⟩ := bind_eq_some hm'
        cases o with
        | none =>
          cases hrest
          exact .inl (hfalse hm)
        | some ps =>
          obtain ⟨hlen, hall, e⟩ := readPositions_eq_some count h1
          refine .inr (hholds (by simpa using hlen) (fun r hr => ?_) e ?_)
          · obtain ⟨p, hp, rfl⟩ := mem_map.mp hr
            exact ⟨hall p hp, by simp, by simp⟩
          · rw [Taken, if_neg hd]
            intro r hr
            obtain ⟨p, -, rfl⟩ := mem_map.mp hr
            rfl

/-! ## Which records go in -/

theorem readIds_tail (ids : List Int) : ∀ {m m' : RecurrentMemory} {i : Nat},
    m.readIds i ids = (m', true) → m'.nSeqMax = m.nSeqMax ∧
      ∀ x : Nat, m'.tail x = if (x : Int) ∈ ids then (i : Int) else m.tail x := by
  induction ids with
  | nil =>
    intro m m' i e
    cases e
    exact ⟨rfl, fun x => by simp⟩
  | cons id ids ih =>
    intro m m' i e
    unfold readIds at e
    split at e
    · simp at e
    · rename_i hid
      dsimp only at e
      split at e
      · simp at e
      · obtain ⟨hmax, ht⟩ := ih e
        refine ⟨hmax, fun x => (ht x).trans ?_⟩
        dsimp only
        by_cases hx : (x : Int) = id
        · rw [show x = id.toNat by omega, update_self]
          simp [toNat_of_nonneg (show 0 ≤ id by omega)]
        · rw [update_of_ne (by omega)]
          simp [hx]

theorem readIds_ok (ids : List Int) : ∀ {m : RecurrentMemory} {i : Nat},
    (m.readIds i ids).2 = true ↔
      (∀ id ∈ ids, 0 ≤ id ∧ id < m.nSeqMax ∧ m.tail id.toNat = -1) ∧ ids.Nodup := by
  induction ids with
  | nil => exact fun {m i} => by simp [readIds]
  | cons id ids ih =>
    intro m i
    rw [forall_mem_cons, nodup_cons]
    unfold readIds
    split
    · exact iff_of_false (by simp) fun h => by have := h.1.1; omega
    · rename_i hid
      dsimp only
      split
      · rename_i ht
        exact iff_of_false (by simp) fun h => ht h.1.1.2.2
      · rename_i ht
        have ht' : m.tail id.toNat = -1 := not_not.mp ht
        rw [ih]
        dsimp only
        constructor
        · rintro ⟨hall, hnd⟩
          have hne : ∀ x ∈ ids, x ≠ id := by
            rintro x hx rfl
            have := (hall x hx).2.2
            rw [update_self] at this
            omega
          refine ⟨⟨⟨by omega, by omega, ht'⟩, fun x hx => ?_⟩, fun hx => hne id hx rfl, hnd⟩
          obtain ⟨h0, h1, h2⟩ := hall x hx
          have := hne x hx
          rw [update_of_ne (by omega)] at h2
          exact ⟨h0, h1, h2⟩
        · rintro ⟨⟨-, hall⟩, hno, hnd⟩
          refine ⟨fun x hx => ?_, hnd⟩
          obtain ⟨h0, h1, h2⟩ := hall x hx
          have : x ≠ id := fun e => hno (e ▸ hx)
          rw [update_of_ne (by omega)]
          exact ⟨h0, h1, h2⟩

theorem readCells_ok (rs : List CellRecord) : ∀ {m : RecurrentMemory} {i : Nat},
    (m.readCells i rs).2 = true ↔
      (∀ id ∈ rs.flatMap CellRecord.seqIds, 0 ≤ id ∧ id < m.nSeqMax ∧ m.tail id.toNat = -1) ∧
        (rs.flatMap CellRecord.seqIds).Nodup := by
  induction rs with
  | nil => exact fun {m i} => by simp [readCells]
  | cons r rs ih =>
    intro m i
    have hids := readIds_ok r.seqIds (m := { m with pos := Function.update m.pos i r.pos }) (i := i)
    rw [flatMap_cons, forall_mem_append, nodup_append']
    unfold readCells
    split
    · rename_i m1 e
      rw [e] at hids
      exact iff_of_false (by simp) fun h => Bool.false_ne_true (hids.mpr ⟨h.1.1, h.2.1⟩)
    · rename_i m1 e
      obtain ⟨hmax, ht⟩ := readIds_tail r.seqIds e
      rw [e] at hids
      obtain ⟨hall, hnd⟩ := hids.mp rfl
      rw [ih]
      constructor
      · rintro ⟨hall', hnd'⟩
        have hno : ∀ x ∈ rs.flatMap seqIds, x ∉ r.seqIds := by
          intro x hx hxr
          have h0 := (hall x hxr).1
          have := (hall' x hx).2.2
          rw [ht, if_pos (by rwa [toNat_of_nonneg h0])] at this
          omega
        refine ⟨⟨hall, fun x hx => ?_⟩, hnd, hnd', fun x hx hx' => hno x hx' hx⟩
        obtain ⟨h0, h1, h2⟩ := hall' x hx
        rw [ht, if_neg (by rw [toNat_of_nonneg h0]; exact hno x hx)] at h2
        exact ⟨h0, by rwa [hmax] at h1, h2⟩
      · rintro ⟨⟨-, hall'⟩, -, hnd', hdis⟩
        refine ⟨fun x hx => ?_, hnd'⟩
        obtain ⟨h0, h1, h2⟩ := hall' x hx
        refine ⟨h0, by rwa [hmax], ?_⟩
        rw [ht, if_neg (by rw [toNat_of_nonneg h0]; exact fun hxr => hdis hxr hx)]
        exact h2

/-! ## One sequence -/

theorem seqRm_size (m : RecurrentMemory) (seqId p0 p1 : Int) :
    (m.seqRm seqId p0 p1).1.size = m.size := by
  have hset : ∀ idx, (m.setRsIdx seqId idx).size = m.size := fun idx => by rw [setRsIdx_eq]
  unfold seqRm
  split
  · rfl
  · dsimp only
    generalize hm1 : (if lower p0 = 0 ∧ upper p1 = INT32_MAX then
      if seqId ≥ 0 then m.setRsIdx seqId 0 else { m with rsIdx := fun _ => 0 } else m) = m1
    have h1 : m1.size = m.size := by
      rw [← hm1]
      split
      · split
        · exact hset 0
        · rfl
      · rfl
    split
    · exact h1
    · split
      · split
        · split
          · rw [setRsIdx_eq]
            exact h1
          · exact h1
        · split <;> exact h1
      · split <;> exact h1

/-- The ubatch of a restored sequence. -/
def restoreUbatch (dest : Int) (n : Nat) (last : Int) : RsUbatch :=
  { nSeqTokens := n, sets := [⟨[dest], last⟩] }

/-- `find_slot` for the restored sequence succeeds if the id is valid. -/
theorem Steady.findSlot_one (hs : m.Steady) (h : m.Inv) (n : Nat) (last : Int)
    (hd : 0 ≤ dest ∧ dest < m.size) :
    ∃ m', m.findSlot (restoreUbatch dest n last) = .ok (m', true) ∧
      m'.Held ∧ m'.size = m.size ∧ m'.head < m.size ∧ m'.seqId m'.head = {dest.toNat} ∧
      m'.pos m'.head = last ∧ m'.tail dest.toNat = (m'.head : Nat) := by
  have hu : (restoreUbatch dest n last).Ok :=
    ⟨by simp [restoreUbatch], by simp [restoreUbatch], by simp [restoreUbatch]⟩
  have hv : m.IdsValid (restoreUbatch dest n last).sets := by
    intro s hs id hid
    obtain rfl := mem_singleton.mp hs
    obtain rfl := mem_singleton.mp hid
    exact hd
  have hfirsts : (restoreUbatch dest n last).firsts = [dest.toNat] := rfl
  obtain ⟨out, hl, -, -, hout⟩ := unshared_left hs.held hs.head_lt (restoreUbatch dest n last)
  obtain rfl := hout hv
  rcases findSlot_cases hs.held hs.head_lt hu.ne hu.ids (u := restoreUbatch dest n last)
      fun _ => by rw [hfirsts]; exact nodup_singleton _ with
    ⟨hno, -⟩ | ⟨-, hno, -⟩ | ⟨-, ⟨s, hsm, hno⟩, -⟩ | ⟨hno, -⟩ | ⟨m4, lo, len, -, hp, e⟩
  · cases hno
  · exact absurd hv hno
  · rw [hfirsts, List.mem_singleton] at hsm
    exact absurd ((h.unshared _).fit (by rw [hl.frame.size]; omega)) hno
  · exact absurd hs.selfSrc hno
  · have hcell := hp.cell 0 _ rfl
    have hlt : lo < m.size := by
      have h1 : 1 ≤ len := hp.range.1
      have h2 := hp.range.2
      have h3 := hl.frame.size
      omega
    obtain ⟨k, s, hk, -, ht⟩ := hp.tail dest.toNat (by simp [restoreUbatch, RsUbatch.seqs])
    obtain rfl : k = 0 := by
      have h1 := (List.getElem?_eq_some_iff.mp hk).1
      have h2 : (restoreUbatch dest n last).sets.length = 1 := rfl
      omega
    exact ⟨_, e, hp.staged_held hl hu hv, hp.frame.size.trans hl.frame.size, hlt,
      hcell.1.trans (by simp), hcell.2, ht⟩

theorem Steady.findSlot_none (hs : m.Steady) (n : Nat) (last : Int)
    (hd : ¬ (0 ≤ dest ∧ dest < m.size)) :
    ∃ m', m.findSlot (restoreUbatch dest n last) = .ok (m', false) := by
  have hv : ¬ m.IdsValid (restoreUbatch dest n last).sets := fun hv =>
    hd (hv _ (mem_singleton_self _) dest (mem_singleton_self _))
  rcases findSlot_cases hs.held hs.head_lt (u := restoreUbatch dest n last)
      (by simp [restoreUbatch]) (by simp [restoreUbatch]) fun hv' => absurd hv' hv with
    ⟨hno, -⟩ | ⟨-, -, e⟩ | ⟨hv', -⟩ | ⟨hno, -⟩ | ⟨m4, lo, len, hv', -⟩
  · cases hno
  · exact ⟨_, e⟩
  · exact absurd hv' hv
  · exact absurd hs.selfSrc hno
  · exact absurd hv' hv

/-- `state_read_meta` of one sequence after the records were read. -/
theorem stateReadMeta_one {r : CellRecord} (hd : dest ≠ -1) (hids : ∀ x ∈ r :: rs, x.seqIds = []) :
    ∃ last, (r :: rs).getLast? = some last ∧ m.stateReadMeta (r :: rs) dest =
      match (m.seqRm dest (-1) (-1)).1.findSlot (restoreUbatch dest (rs.length + 1) last.pos) with
      | .error x => .error x
      | .ok (m', false) => .ok (m', false)
      | .ok (m', true) =>
        if m'.head + (rs.length + 1) ≤ m'.size ∧ m'.pos m'.head = r.pos ∧
            m'.pos (m'.head + rs.length) = last.pos ∧ m'.hasSeqId m'.head dest = true ∧
            m'.hasSeqId (m'.head + rs.length) dest = true then
          .ok (m'.ownSources (rs.length + 1), true)
        else .error .restored := by
  obtain ⟨last, hlast⟩ : ∃ last, (r :: rs).getLast? = some last :=
    ⟨_, getLast?_eq_some_getLast (by simp)⟩
  have hany : (r :: rs).any (fun r => decide (r.seqIds ≠ [])) = false := by
    rw [any_eq_false]
    intro x hx
    simp [hids x hx]
  refine ⟨last, hlast, ?_⟩
  unfold stateReadMeta
  rw [if_pos hd, hlast]
  dsimp only
  rw [hany, if_neg (by simp), restoreUbatch, length_cons]
  cases (m.seqRm dest (-1) (-1)).1.findSlot
      { nSeqTokens := rs.length + 1, sets := [⟨[dest], last.pos⟩] } with
  | error x => rfl
  | ok r =>
    obtain ⟨m', b⟩ := r
    cases b with
    | false => rfl
    | true => simp [← Nat.add_assoc]

theorem seqRm_restore (h : m.Inv) (hs : m.Steady) (h0 : 0 ≤ dest) :
    (m.seqRm dest (-1) (-1)).1.Inv ∧ (m.seqRm dest (-1) (-1)).1.Steady :=
  ⟨h.seqRm (.inl h0), hs.seqRm dest (-1) (-1)⟩

variable {r : CellRecord} {rsIdx : Nat → Nat}

/-- One cell is restored. -/
theorem stateReadMeta_single (h : m.Inv) (hs : m.Steady) (hd : 0 ≤ dest ∧ dest < m.size)
    (hids : r.seqIds = []) : ∃ m', m.stateReadMeta [r] dest = .ok (m', true) ∧
      m'.Lives dest.toNat ∧ m'.pos (m'.tail dest.toNat).toNat = r.pos := by
  obtain ⟨hi1, hs1⟩ := seqRm_restore h hs hd.1
  have hsize := seqRm_size m dest (-1) (-1)
  obtain ⟨last, hlast, e⟩ := @stateReadMeta_one m dest [] r (by omega) (by simpa using hids)
  obtain rfl : r = last := Option.some.inj hlast
  obtain ⟨m', e', hheld, hsize', hlt, hcell, hpos, ht⟩ := hs1.findSlot_one hi1
    ([].length + 1) r.pos (by rw [hsize]; exact hd)
  have hlive : m'.Lives dest.toNat := by
    refine hheld.lives (c := m'.head) (by omega) ?_
    rw [hcell]
    exact Finset.mem_singleton_self _
  have hhas : m'.hasSeqId m'.head dest = true := hasSeqId_iff.mpr ⟨hd.1, by
    rw [hcell]
    exact Finset.mem_singleton_self _⟩
  rw [e, e']
  refine ⟨m'.ownSources 1, if_pos ⟨?_, hpos, hpos, hhas, hhas⟩, hlive, ?_⟩
  · show m'.pos (m'.tail dest.toNat).toNat = r.pos
    rw [ht, toNat_natCast, hpos]
  · show m'.head + 1 ≤ m'.size
    omega

/-- With a second cell the checks of the restored cells fail: the sequence is in one cell only. -/
theorem stateReadMeta_second (h : m.Inv) (hs : m.Steady) (hd : 0 ≤ dest ∧ dest < m.size)
    (hne : rs ≠ []) (hids : ∀ x ∈ r :: rs, x.seqIds = []) :
    m.stateReadMeta (r :: rs) dest = .error .restored := by
  obtain ⟨hi1, hs1⟩ := seqRm_restore h hs hd.1
  have hsize := seqRm_size m dest (-1) (-1)
  obtain ⟨last, -, e⟩ := @stateReadMeta_one m dest rs r (by omega) hids
  obtain ⟨m', e', hheld, hsize', hlt, -, -, ht⟩ := hs1.findSlot_one hi1 (rs.length + 1)
    last.pos (by rw [hsize]; exact hd)
  have hlen := length_pos_iff.mpr hne
  rw [e, e']
  refine if_neg fun hall => ?_
  have hmem := (hasSeqId_iff.mp hall.2.2.2.2).2
  have := (hheld.own _ (by have := hall.1; omega) _ hmem).2
  omega

/-- An id that is not valid is rejected. -/
theorem stateReadMeta_invalid (hs : m.Steady) (hne : dest ≠ -1)
    (hd : ¬ (0 ≤ dest ∧ dest < m.size)) (hids : ∀ x ∈ r :: rs, x.seqIds = []) :
    ∃ m', m.stateReadMeta (r :: rs) dest = .ok (m', false) := by
  obtain ⟨last, -, e⟩ := @stateReadMeta_one m dest rs r hne hids
  obtain ⟨m', e'⟩ := (hs.seqRm dest (-1) (-1)).findSlot_none (rs.length + 1) last.pos
    (by rw [seqRm_size]; exact hd)
  exact ⟨m', by rw [e, e']⟩

/-! ## Clean restores -/

/-- The restored sequences are in cells with the positions of the records. -/
def Saved (m : RecurrentMemory) (rs : List CellRecord) (dest : Int) : Prop :=
  if dest = -1 then ∀ k r, rs[k]? = some r → m.pos k = r.pos ∧
    ∀ id ∈ r.seqIds, m.Lives id.toNat ∧ m.tail id.toNat = (k : Nat)
  else ∀ r ∈ rs.getLast?, m.Lives dest.toNat ∧ m.pos (m.tail dest.toNat).toNat = r.pos

/-- The call throws and leaves the metadata as they were, or it commits a memory whose tails are in
order, with the saved positions. -/
def Clean (m : RecurrentMemory) (dest : Int) (bytes : List UInt8) : ReadResult → Prop
  | .abort _ => False
  | .thrown m' => m.Untouched m'
  | .commit m' => m'.TailInvariant ∧ ∃ rs rest, Holds bytes rs rest ∧ m'.Saved rs dest

/-- The streams that `state_read` can take: one sequence has one cell at most, and every cell of a
whole restore comes with a sequence. -/
structure Restorable (m : RecurrentMemory) (data : Nat → List UInt8 → Bool) (dest : Int)
    (bytes : List UInt8) : Prop where
  whole : dest = -1 → ∀ rs rest, Holds bytes rs rest → rs.length ≤ m.size →
    (∀ id ∈ rs.flatMap CellRecord.seqIds, 0 ≤ id ∧ id < m.nSeqMax) →
    (rs.flatMap CellRecord.seqIds).Nodup → data rs.length rest = true → ∀ r ∈ rs, r.seqIds ≠ []
  one : 0 ≤ dest → dest < m.size → ∀ rs rest, Holds bytes rs rest → (∀ r ∈ rs, r.seqIds = []) →
    rs.length ≤ 1
  /-- With another negative id and no cells, all sequences are removed, which leaves tails over. -/
  negative : dest < -1 → ∀ rest, Holds bytes [] rest → data 0 rest = true → m.RmKeeps dest (-1) (-1)

theorem stateRead_of_meta {res : Bool} (dataOk : Bool)
    (e : m.stateReadMeta rs dest = .ok (m', res)) :
    ∃ rsIdx, m.stateRead rs dest dataOk =
      if (res && dataOk) = true then .ok ({ m' with rsIdx := rsIdx }, true)
      else .ok ({ m with n := m'.n }, false) := by
  obtain ⟨rsIdx, hrs⟩ : ∃ rsIdx, (if res = true ∧ m'.nRsSeq ≠ 0 then
      if dest = -1 then { m' with rsIdx := fun _ => 0 } else m'.setRsIdx dest 0 else m') =
      { m' with rsIdx := rsIdx } := by
    split
    · split
      · exact ⟨_, rfl⟩
      · exact ⟨_, setRsIdx_eq m' dest 0⟩
    · exact ⟨m'.rsIdx, rfl⟩
  refine ⟨rsIdx, ?_⟩
  unfold stateRead
  rw [e]
  dsimp only
  rw [hrs]

/-- The call when its metadata are read, and what is committed keeps the tails. -/
theorem clean_of_meta (h : m.Inv) (hh : Holds bytes rs rest) {res : Bool}
    (e : m.stateReadMeta rs dest = .ok (m', res))
    (hk : res = true → data rs.length rest = true → m.ReadKeeps rs dest ∧ m'.Saved rs dest) :
    m.Clean dest bytes (.of (m.stateRead rs dest (data rs.length rest))) := by
  obtain ⟨rsIdx, e'⟩ := stateRead_of_meta (data rs.length rest) e
  by_cases hc : (res && data rs.length rest) = true
  · rw [if_pos hc] at e'
    obtain ⟨hres, hdata⟩ := Bool.and_eq_true_iff.mp hc
    obtain ⟨hkeeps, hsaved⟩ := hk hres hdata
    have hinv := (h.stateRead hkeeps e').tailInvariant
    rw [e']
    exact ⟨hinv, rs, rest, hh, hsaved⟩
  · rw [if_neg hc] at e'
    rw [e']
    exact rfl

/-- A whole restore that goes in. -/
theorem whole_saved (hmax : m.nSeqMax ≤ m.size) (hlen : rs.length ≤ m.size)
    (e : m.clear.readCells 0 rs = (m', true)) :
    ({ m' with head := 0, used := rs.length }.ownSources rs.length).Saved rs (-1) := by
  obtain ⟨hl, heq, -, hcell⟩ := readWhole_spec hmax hlen e
  have hsize : m'.size = m.size := by rw [heq]; rfl
  rw [Saved, if_pos rfl]
  intro k r hk
  obtain ⟨hpos, hseq⟩ := hcell k r hk
  have hkl := (List.getElem?_eq_some_iff.mp hk).1
  refine ⟨hpos, fun id hid => ?_⟩
  have hmem : id.toNat ∈ m'.seqId k := by
    rw [hseq, List.mem_toFinset]
    exact mem_map_of_mem hid
  have ht := (hl.own k (by omega) _ hmem).2
  exact ⟨⟨by show 0 ≤ m'.tail id.toNat; omega, by
    show m'.tail id.toNat < m'.size
    omega, by show id.toNat ∈ m'.seqId (m'.tail id.toNat).toNat; rwa [ht, toNat_natCast]⟩, ht⟩

theorem clean_whole (h : m.Inv) (hh : Holds bytes rs rest) (ht : m.Taken rs (-1))
    (hr : m.Restorable data (-1) bytes) :
    m.Clean (-1) bytes (.of (m.stateRead rs (-1) (data rs.length rest))) := by
  obtain ⟨hlen, hok⟩ := ht
  obtain ⟨m', hm'⟩ : ∃ m', m.clear.readCells 0 rs = (m', true) := ⟨_, Prod.ext rfl hok⟩
  obtain ⟨hvalid, hnd⟩ := (readCells_ok rs).mp hok
  refine clean_of_meta h hh (stateReadMeta_whole hlen hm') fun _ hdata =>
    ⟨?_, whole_saved h.seqs_le hlen hm'⟩
  rw [ReadKeeps, if_pos rfl]
  exact hr.whole rfl rs rest hh hlen (fun id hid => ⟨(hvalid id hid).1, (hvalid id hid).2.1⟩) hnd
    hdata

theorem clean_one (h : m.Inv) (hs : m.Steady) (hne : dest ≠ -1) (hh : Holds bytes rs rest)
    (ht : m.Taken rs dest) (hr : m.Restorable data dest bytes) :
    m.Clean dest bytes (.of (m.stateRead rs dest (data rs.length rest))) := by
  rw [Taken, if_neg hne] at ht
  have hkeeps : 0 ≤ dest → m.ReadKeeps rs dest := fun h0 => by
    rw [ReadKeeps, if_neg hne]
    exact .inl h0
  cases rs with
  | nil =>
    have e : m.stateReadMeta [] dest = .ok ((m.seqRm dest (-1) (-1)).1, true) := by
      unfold stateReadMeta
      rw [if_pos hne]
      rfl
    refine clean_of_meta h hh e fun _ hdata => ⟨?_, ?_⟩
    · by_cases h0 : 0 ≤ dest
      · exact hkeeps h0
      · rw [ReadKeeps, if_neg hne]
        exact hr.negative (by omega) rest hh hdata
    · rw [Saved, if_neg hne]
      simp
  | cons r rs =>
    by_cases hd : 0 ≤ dest ∧ dest < m.size
    · have hlen := hr.one hd.1 hd.2 _ rest hh ht
      obtain rfl : rs = [] := length_eq_zero_iff.mp (by simpa using hlen)
      obtain ⟨m', e, hlive, hpos⟩ := stateReadMeta_single h hs hd (ht r List.mem_cons_self)
      refine clean_of_meta h hh e fun _ _ => ⟨hkeeps hd.1, ?_⟩
      rw [Saved, if_neg hne]
      simpa using ⟨hlive, hpos⟩
    · obtain ⟨m', e⟩ := stateReadMeta_invalid hs hne hd ht
      exact clean_of_meta h hh e fun hf => Bool.noConfusion hf

/-- A committed whole restore with a cell without sequences counts too many cells. -/
theorem whole_used (hmax : m.nSeqMax ≤ m.size) (hlen : rs.length ≤ m.size)
    (e : m.clear.readCells 0 rs = (m', true))
    (ht : ({ { m' with head := 0, used := rs.length }.ownSources rs.length with
      rsIdx := rsIdx } : RecurrentMemory).TailInvariant) : ∀ r ∈ rs, r.seqIds ≠ [] := by
  obtain ⟨-, heq, hempty, hcell⟩ := readWhole_spec hmax hlen e
  have hsize : m'.size = m.size := by rw [heq]; rfl
  intro r hr hids
  obtain ⟨k, hk⟩ := getElem?_of_mem hr
  have hkl := (List.getElem?_eq_some_iff.mp hk).1
  have hsub : ((Finset.range m'.size).filter fun c => m'.seqId c ≠ ∅) ⊆
      (Finset.range rs.length).erase k := by
    intro c hc
    obtain ⟨hcs, hne⟩ := Finset.mem_filter.mp hc
    rw [Finset.mem_range, hsize] at hcs
    refine Finset.mem_erase.mpr ⟨?_, Finset.mem_range.mpr ?_⟩
    · rintro rfl
      exact hne (by rw [(hcell c r hk).2, hids]; rfl)
    · by_contra hcl
      exact hne (hempty c hcs (by omega)).1
  have hcard := Finset.card_le_card hsub
  rw [Finset.card_erase_of_mem (Finset.mem_range.mpr hkl), Finset.card_range] at hcard
  have hused : rs.length = ((Finset.range m'.size).filter fun c => m'.seqId c ≠ ∅).card := ht.used
  omega

/-- The removal of all sequences leaves the tails of those that it removes. -/
theorem seqRm_negative_keeps (h : m.Inv) (hd : dest < 0)
    (ht : ({ (m.seqRm dest (-1) (-1)).1 with rsIdx := rsIdx } : RecurrentMemory).TailInvariant) :
    m.RmKeeps dest (-1) (-1) := by
  have e : (m.seqRm dest (-1) (-1)).1 =
      { m with rsIdx := fun _ => 0 }.rmCells dest (lower (-1)) (upper (-1)) := by
    have hcan : m.canSeqRm dest (-1) (-1) = true := by
      unfold canSeqRm
      rw [if_neg (by omega), if_pos hd]
      decide
    have hlower : lower (-1) = 0 := rfl
    have hupper : upper (-1) = INT32_MAX := rfl
    have h0 : ¬ 0 ≤ dest := by omega
    have hsize : ¬ (m.size : Int) ≤ dest := by omega
    simp [seqRm, hcan, hlower, hupper, h0, hsize]
  refine .inr fun c hc hne hin => ?_
  obtain ⟨s, hs⟩ := Finset.nonempty_iff_ne_empty.mpr hne
  obtain ⟨hlt, htail⟩ := h.tails.own c hc s hs
  rw [e] at ht
  have hgone : (({ m with rsIdx := fun _ => 0 } : RecurrentMemory).rmCells dest (lower (-1))
      (upper (-1))).seqId c = ∅ := by
    rw [rmCells_seqId (m := { m with rsIdx := fun _ => 0 }) hc, keptBy, if_pos hin, if_pos hd]
  rcases ht.tail s hlt with ⟨hno, -⟩ | ⟨d, -, hd', hmem, -⟩
  · have : m.tail s = -1 := hno
    omega
  · have : m.tail s = (d : Nat) := hd'
    obtain rfl : c = d := by omega
    exact Finset.notMem_empty s (hgone ▸ hmem)

/-- Along every run whose calls leave the tails in order, `state_read` throws and leaves the
metadata as they were, or commits a memory whose tails are in order with the saved positions,
exactly if the stream is restorable. -/
theorem stateRead_clean_iff (hr : sys.Reach (fun m op => op.Keeps m) m)
    (data : Nat → List UInt8 → Bool) (dest : Int) (bytes : List UInt8) :
    m.Clean dest bytes (m.stateReadBytes data dest bytes) ↔ m.Restorable data dest bytes := by
  have h := hr.inv inv_inductive
  have hs := (hr.mono fun _ _ _ => trivial).inv steady_inductive
  refine ⟨fun hc => ⟨?_, fun h0 hlt rs rest hh hids => ?_, fun hneg rest hh hdata => ?_⟩,
    fun hres => ?_⟩
  · rintro rfl rs rest hh hlen hvalid hnd hdata
    have hok : (m.clear.readCells 0 rs).2 = true := by
      refine (readCells_ok rs).mpr ⟨fun id hid => ?_, hnd⟩
      have hv := hvalid id hid
      have := h.seqs_le
      exact ⟨hv.1, hv.2, if_pos (by omega)⟩
    obtain ⟨m', hm'⟩ : ∃ m', m.clear.readCells 0 rs = (m', true) := ⟨_, Prod.ext rfl hok⟩
    obtain ⟨rsIdx, e⟩ := stateRead_of_meta true (stateReadMeta_whole hlen hm')
    rw [stateReadBytes_holds hh (by rw [Taken, if_pos rfl]; exact ⟨hlen, hok⟩), hdata, e] at hc
    exact whole_used h.seqs_le hlen hm' hc.1
  · rw [stateReadBytes_holds hh (by rw [Taken, if_neg (by omega)]; exact hids)] at hc
    match rs, hids, hc with
    | [], _, _ => exact Nat.zero_le 1
    | [_], _, _ => exact le_rfl
    | r :: x :: rs, hids, hc =>
      have e := stateReadMeta_second h hs ⟨h0, hlt⟩ (cons_ne_nil x rs) hids
      unfold stateRead at hc
      rw [e] at hc
      exact hc.elim
  · have e : m.stateReadMeta [] dest = .ok ((m.seqRm dest (-1) (-1)).1, true) := by
      unfold stateReadMeta
      rw [if_pos (by omega)]
      rfl
    obtain ⟨rsIdx, e'⟩ := stateRead_of_meta true e
    rw [stateReadBytes_holds hh (by rw [Taken, if_neg (by omega)]; simp), length_nil, hdata,
      e'] at hc
    exact seqRm_negative_keeps h (by omega) hc.1
  · rcases stateReadBytes_cases m data dest bytes with ⟨m', e, hun⟩ | ⟨rs, rest, hh, ht, e⟩
    · rw [e]
      exact hun
    · rw [e]
      by_cases hd : dest = -1
      · subst hd
        exact clean_whole h hh ht hres
      · exact clean_one h hs hd hh ht hres

/-- The call ends in a commit. -/
def ReadResult.commits : ReadResult → Bool
  | .commit _ => true
  | _ => false

/-- The call fails at an assert. -/
def ReadResult.aborts : ReadResult → Bool
  | .abort _ => true
  | _ => false

/-- A cell at position `7`, without sequence ids. -/
def oneCell : List UInt8 := [1, 0, 0, 0, 7, 0, 0, 0, 0, 0, 0, 0]

/-- A cell at position `0` and a cell at position `1`, without sequence ids. -/
def twoCells : List UInt8 := [2, 0, 0, 0, 0, 0, 0, 0, 0, 0, 0, 0, 1, 0, 0, 0, 0, 0, 0, 0]

/-- Sequence `0`, which shares its cell with sequence `1`, is restored at position `7`. -/
theorem stateRead_clean_oneCell :
    (((create 2 2 1).run shareCell).stateReadBytes (fun _ _ => true) 0 oneCell).commits = true ∧
      ((create 2 2 1).run shareCell).Clean 0 oneCell
        (((create 2 2 1).run shareCell).stateReadBytes (fun _ _ => true) 0 oneCell) := by
  refine ⟨by decide +kernel, (stateRead_clean_iff reach_shareCell _ _ _).mpr
    ⟨fun h => absurd h (by decide), fun _ _ rs rest hh _ => ?_, fun h => absurd h (by decide)⟩⟩
  have hone : number 4 ⟨0, oneCell⟩ = some (1, ⟨4, oneCell.drop 4⟩) := rfl
  have hcount := hh.count
  rw [hh.eq, number_append (by omega)] at hone
  have := (Prod.mk.inj (Option.some.inj hone)).1
  omega

/-- The restore of a sequence from two cells fails at an assert. -/
theorem stateRead_not_clean :
    ¬ ∀ m, sys.Reach (fun _ _ => True) m → ∀ (data : Nat → List UInt8 → Bool) (dest : Int)
      (bytes : List UInt8), m.Clean dest bytes (m.stateReadBytes data dest bytes) := by
  intro h
  have hc := h _ (.init create_init) (fun _ _ => true) 0 twoCells
  have ha : ((create 2 2 1).stateReadBytes (fun _ _ => true) 0 twoCells).aborts = true := by
    decide +kernel
  cases e : (create 2 2 1).stateReadBytes (fun _ _ => true) 0 twoCells with
  | abort x =>
    rw [e] at hc
    exact hc
  | thrown m' =>
    rw [e] at ha
    cases ha
  | commit m' =>
    rw [e] at ha
    cases ha

end RecurrentMemory
end BeeLlama
