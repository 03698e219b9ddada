import BeeLlama.Kv.TailBatch
import BeeLlama.Lib.Newest

/-!
# The tail keeps the newest rows

A run of commits and batches, from a store without entries. `committed` are the rows that went to
a sequence, and the store should retain the newest `limit` of them (`RetainsNewest`).

Outside a batch, and always in the compact store, `commit` of a full list evicts the first entry
before it looks at the new row. `retainsNewest_iff`: the newest rows are retained if and only if no
such row is before the entry that it evicts (`Op.InOrder`).
-/

namespace BeeLlama

open List TailStore

/-! ## Rows -/

/-- What a commit gives to the tail: a cell, its position and the insertion ordinal. -/
structure TailRow where
  identity : TailIdentity
  position : Int
  ordinal : Nat
  deriving DecidableEq, Repr

/-- The order by position and insertion ordinal. -/
def TailRow.Le (a b : TailRow) : Prop :=
  a.position < b.position ∨ (a.position = b.position ∧ a.ordinal ≤ b.ordinal)

instance (a b : TailRow) : Decidable (a.Le b) := inferInstanceAs (Decidable (_ ∨ _))

/-- The row of an entry. -/
def TailEntry.row (e : TailEntry) : TailRow := ⟨e.identity, e.position, e.ordinal⟩

/-- The rows of the retained entries. -/
def SeqTail.rows (t : SeqTail) : List TailRow := t.entries.map fun n => n.toTailEntry.row

theorem TailRow.Le.trans (a b c : TailRow) (h : a.Le b) (h' : b.Le c) : a.Le c := by
  unfold TailRow.Le at *
  omega

theorem TailEntry.le_iff (a b : TailEntry) : a.Le b ↔ a.row.Le b.row := by
  simp only [TailEntry.Le, TailEntry.Before, TailRow.Le, TailEntry.row]
  omega

namespace SeqTail

/-! ## One commit -/

section Commit

variable {cfg : TailCfg} {s : Nat} {t t' : SeqTail} {inBatch : Bool} {identity : TailIdentity}
  {position : Int} {ordinal : Nat}

/-- The insertion of `commit` is at some place of the list. -/
theorem insert_place (ns : List TailNode) (n : TailNode) :
    ∃ pre suf, ns = pre ++ suf ∧ TailNode.insert ns n = pre ++ n :: suf := by
  unfold TailNode.insert
  cases ns.getLast? with
  | none => exact ⟨ns, [], by simp, rfl⟩
  | some b =>
    dsimp only
    split
    · exact ⟨ns, [], by simp, rfl⟩
    · exact ⟨_, _, takeWhile_append_dropWhile.symm, orderedInsert_eq_take_drop _ n ns⟩

/-- The first entry goes before the insertion. -/
def Evicts (cfg : TailCfg) (inBatch : Bool) (t : SeqTail) : Prop :=
  (cfg.compactStorage = true ∨ inBatch = false) ∧ cfg.limit ≤ t.entries.length ∧ t.entries ≠ []

instance (cfg : TailCfg) (inBatch : Bool) (t : SeqTail) : Decidable (Evicts cfg inBatch t) :=
  inferInstanceAs (Decidable (_ ∧ _ ∧ _))

/-- What the insertion of a new cell does to the list. -/
theorem commitNew_entries (h : EntryInv cfg s t)
    (e : t.commitNew cfg s inBatch identity position ordinal = (t', .ok ())) :
    ∃ pre suf n, n.toTailEntry.row = ⟨identity, position, ordinal⟩ ∧
      (pre ++ n :: suf).Pairwise (fun a b => a.toTailEntry.Le b.toTailEntry) ∧
      ((Evicts cfg inBatch t ∧ ∃ v, t.entries = v :: (pre ++ suf)) ∨
        (¬ Evicts cfg inBatch t ∧ t.entries = pre ++ suf)) ∧
      t'.entries = if inBatch then pre ++ n :: suf else newest cfg.limit (pre ++ n :: suf) := by
  unfold commitNew at e
  split at e
  · cases e
  · next t1 slot ht =>
    obtain ⟨h1, -, -⟩ := entryInv_takeSlot h ht
    obtain ⟨pre, suf, hsplit, hins⟩ := insert_place t1.entries
      ⟨⟨identity, position, ordinal, slot⟩, TailNode.fresh t1.entries⟩
    have hsorted := Sorted.insert h1.sorted
      ⟨⟨identity, position, ordinal, slot⟩, TailNode.fresh t1.entries⟩
    rw [hins] at hsorted
    refine ⟨pre, suf, _, rfl, hsorted, ?_, ?_⟩
    · rcases takeSlot_cases cfg s inBatch t with ⟨v, ns, he, hb, hlen, hv⟩ | ⟨hn, ha⟩
      · left
        refine ⟨⟨hb, hlen, by simp [he]⟩, v, ?_⟩
        rw [hv] at ht
        cases ht
        have hpop := congrArg (fun t : SeqTail => t.entries) (popFront_eq h.toListInv he)
        rw [popFront_entries, he, tail_cons, eraseEntry_entries] at hpop
        rw [eraseEntry_entries, ← hpop] at hsplit
        rw [he, ← hsplit]
      · right
        refine ⟨fun ⟨hb, hlen, hne⟩ => hn ⟨hb, hlen, hne⟩, ?_⟩
        rw [← hsplit]
        rw [ha] at ht
        rcases acquire_cases cfg s t with ⟨l, hl, hf, hq⟩ | hq
        · rw [hq] at ht
          cases ht
          rfl
        · rw [hq] at ht
          cases ht
    · cases e
      cases inBatch with
      | true => simpa [addEntry] using hins
      | false =>
        simp only [Bool.false_eq_true, if_false]
        rw [trim_entries, recover_entries, newest]
        simp only [addEntry, hins]

/-- What a commit of a new cell does to the list. -/
theorem commit_entries (h : EntryInv cfg s t) (hkey : identity.key ∉ t.entries.map (·.key))
    (e : t.commit cfg s inBatch identity position ordinal = (t', .ok ())) :
    ∃ pre suf n, n.toTailEntry.row = ⟨identity, position, ordinal⟩ ∧
      (pre ++ n :: suf).Pairwise (fun a b => a.toTailEntry.Le b.toTailEntry) ∧
      ((Evicts cfg inBatch t ∧ ∃ v, t.entries = v :: (pre ++ suf)) ∨
        (¬ Evicts cfg inBatch t ∧ t.entries = pre ++ suf)) ∧
      t'.entries = if inBatch then pre ++ n :: suf else newest cfg.limit (pre ++ n :: suf) := by
  unfold commit at e
  rw [(find_eq_none h).mpr hkey] at e
  exact commitNew_entries h e

theorem rows_nodup (h : EntryInv cfg s t) : t.rows.Nodup := by
  refine List.Nodup.of_map (fun r : TailRow => r.identity.key) ?_
  rw [rows, map_map]
  exact h.keys

theorem rows_sorted (h : EntryInv cfg s t) : t.rows.Pairwise TailRow.Le :=
  pairwise_map.mpr (h.sorted.imp fun hab => (TailEntry.le_iff _ _).mp hab)

/-- A commit keeps the newest rows if and only if the row is not before the one that it evicts from
a list with just as many entries as it retains. -/
def Ordered (cfg : TailCfg) (inBatch : Bool) (row : TailRow) (t : SeqTail) : Prop :=
  Evicts cfg inBatch t → t.entries.length = cfg.limit → ∀ v ∈ t.rows.head?, v.Le row

instance (cfg : TailCfg) (inBatch : Bool) (row : TailRow) (t : SeqTail) :
    Decidable (Ordered cfg inBatch row t) :=
  inferInstanceAs (Decidable (_ → _ → _))

theorem commit_rows {all : List TailRow} (h : EntryInv cfg s t)
    (hkey : identity.key ∉ t.entries.map (·.key)) (hsub : ∀ a ∈ t.rows, a ∈ all)
    (hx : (⟨identity, position, ordinal⟩ : TailRow) ∉ all)
    (e : t.commit cfg s inBatch identity position ordinal = (t', .ok ())) :
    (∀ a ∈ t'.rows, a ∈ (⟨identity, position, ordinal⟩ : TailRow) :: all) ∧
    (IsNewest TailRow.Le cfg.limit all (newest cfg.limit t.rows) →
      (IsNewest TailRow.Le cfg.limit (⟨identity, position, ordinal⟩ :: all)
        (newest cfg.limit t'.rows) ↔ Ordered cfg inBatch ⟨identity, position, ordinal⟩ t)) := by
  obtain ⟨pre, suf, n, hn, hsorted, hold, hnew⟩ := commit_entries h hkey e
  generalize (⟨identity, position, ordinal⟩ : TailRow) = x at hn hx ⊢
  obtain ⟨P, hP⟩ : ∃ P, P = pre.map fun n => n.toTailEntry.row := ⟨_, rfl⟩
  obtain ⟨S, hS⟩ : ∃ S, S = suf.map fun n => n.toTailEntry.row := ⟨_, rfl⟩
  have hmap : (pre ++ n :: suf).map (fun n => n.toTailEntry.row) = P ++ x :: S := by
    rw [map_append, map_cons, hn, hP, hS]
  have hs : (P ++ x :: S).Pairwise TailRow.Le := by
    rw [← hmap]
    exact pairwise_map.mpr (hsorted.imp fun hab => (TailEntry.le_iff _ _).mp hab)
  have hcut : newest cfg.limit t'.rows = newest cfg.limit (P ++ x :: S) ∧
      ∀ a ∈ t'.rows, a ∈ P ++ x :: S := by
    rw [rows, hnew, ← hmap]
    cases inBatch with
    | true => exact ⟨rfl, fun a ha => ha⟩
    | false =>
      simp only [Bool.false_eq_true, if_false]
      rw [← newest_map, newest_newest]
      exact ⟨rfl, fun a ha => mem_of_mem_drop ha⟩
  have hnd := rows_nodup h
  have hxt : x ∉ t.rows := fun hm => hx (hsub x hm)
  rw [hcut.1]
  rcases hold with ⟨hev, v, hv⟩ | ⟨hnev, hv⟩
  · have hrows : t.rows = v.toTailEntry.row :: (P ++ S) := by
      rw [rows, hv, map_cons, map_append, hP, hS]
    have hlen : t.entries.length = (v.toTailEntry.row :: (P ++ S)).length := by
      rw [← hrows, rows, length_map]
    rw [hrows] at hnd hxt hsub ⊢
    have hnd' : (v.toTailEntry.row :: (P ++ x :: S)).Nodup := by
      have hp : (v.toTailEntry.row :: (P ++ x :: S)).Perm (x :: v.toTailEntry.row :: (P ++ S)) :=
        (perm_middle.cons _).trans (List.Perm.swap _ _ _)
      exact hp.nodup_iff.mpr (nodup_cons.mpr ⟨hxt, hnd⟩)
    refine ⟨fun a ha => ?_, fun hall => ?_⟩
    · rcases mem_insert_place.mp (hcut.2 a ha) with rfl | ha
      · exact mem_cons_self
      · exact mem_cons_of_mem _ (hsub a (mem_cons_of_mem _ ha))
    · rw [isNewest_evict_iff hall (hlen ▸ hev.2.1) TailRow.Le.trans (hrows ▸ rows_sorted h) hs
        hnd' hx, ← hlen]
      have hle := hev.2.1
      unfold Ordered
      simp only [hev, forall_true_left, hrows, head?_cons, Option.mem_def, Option.some.injEq,
        forall_eq']
      refine ⟨fun ho he => ho.resolve_left (by omega), fun ho => ?_⟩
      rcases Nat.lt_or_ge cfg.limit t.entries.length with hlt | hge
      · exact .inl hlt
      · exact .inr (ho (by omega))
  · have hrows : t.rows = P ++ S := by rw [rows, hv, map_append, hP, hS]
    rw [hrows] at hnd hxt hsub ⊢
    refine ⟨fun a ha => ?_, fun hall => ?_⟩
    · rcases mem_insert_place.mp (hcut.2 a ha) with rfl | ha
      · exact mem_cons_self
      · exact mem_cons_of_mem _ (hsub a ha)
    · have hnd' : (P ++ x :: S).Nodup :=
        perm_middle.nodup_iff.mpr (nodup_cons.mpr ⟨hxt, hnd⟩)
      exact iff_of_true (hall.insert TailRow.Le.trans hs hnd' hx) fun hev => absurd hev hnev

end Commit

end SeqTail

namespace TailStore

open SeqTail

/-! ## Runs of commits -/

/-- The calls of these runs: commits, in batches that succeed or outside. -/
def Op.Commits : Op → Prop
  | .beginBatch => True
  | .commit .. => True
  | .finishBatch success _ => success = true
  | _ => False

/-- The row that the call gives to sequence `s`. -/
def Op.rowFor (s : Nat) : Op → Option TailRow
  | .commit seqId identity position ordinal _ =>
    if seqId = s then some ⟨identity, position, ordinal⟩ else none
  | _ => none

/-- The rows that the calls give to sequence `s`. -/
def committed (s : Nat) (ops : List Op) : List TailRow := ops.filterMap (Op.rowFor s)

/-- The commit does not evict a row that its own is before. A store that has a limit, but no
tokens, drops every row. -/
def Op.InOrder (s : Nat) (st : TailStore) (op : Op) : Prop :=
  ∀ x ∈ op.rowFor s, if st.cfg.nTokens = 0 then st.cfg.limit = 0
    else SeqTail.Ordered st.cfg st.inBatch x (st.seqs s)

instance (s : Nat) (st : TailStore) (op : Op) : Decidable (op.InOrder s st) :=
  inferInstanceAs (Decidable (∀ x ∈ op.rowFor s, _))

/-- After the following `begin_batch`, of the present batch's end or at once, the sequence retains
the newest of the rows. -/
structure RetainsNewest (st : TailStore) (s : Nat) (all : List TailRow) : Prop where
  begun : ∀ st', st.beginBatch = (st', .ok ()) →
    IsNewest TailRow.Le st.cfg.limit all (st'.seqs s).rows
  ended : ∀ payload st₁ st', st.finishBatch true payload = (st₁, .ok ()) →
    st₁.beginBatch = (st', .ok ()) → IsNewest TailRow.Le st.cfg.limit all (st'.seqs s).rows

section Step

variable {st st' : TailStore} {s : Nat}

theorem beginBatch_rows (e : st.beginBatch = (st', .ok ())) (hs : s < st.cfg.nSeqMax) :
    st'.cfg = st.cfg ∧ (st'.seqs s).rows = newest st.cfg.limit (st.seqs s).rows := by
  unfold beginBatch at e
  split at e
  · cases e
  · cases e
    refine ⟨rfl, ?_⟩
    show ((st.mapSeqs fun s t => t.trim st.cfg s st.cfg.limit).seqs s).rows = _
    rw [mapSeqs_seqs st hs, rows, trim_entries, rows, newest_map]
    rfl

theorem finishBatch_rows {payload : Bool} (e : st.finishBatch true payload = (st', .ok ())) :
    st'.cfg = st.cfg ∧ st'.seqs = st.seqs := by
  unfold finishBatch at e
  split at e
  · cases e
    exact ⟨rfl, rfl⟩
  · split at e
    · cases e
      exact ⟨rfl, rfl⟩
    · cases e
      exact ⟨rfl, rfl⟩

/-- A batch that succeeds can be followed by the next one. -/
theorem exists_begin (st : TailStore) : ∃ st₁ st', st.finishBatch true false = (st₁, .ok ()) ∧
    st₁.beginBatch = (st', .ok ()) := by
  unfold finishBatch
  cases hc : st.cfg.compactStorage with
  | false => exact ⟨_, _, rfl, by simp [beginBatch, hc]; rfl⟩
  | true =>
    cases hb : st.batchTransaction with
    | none => exact ⟨_, _, rfl, by simp [beginBatch, hb]; rfl⟩
    | some b => exact ⟨_, _, rfl, by simp [beginBatch]; rfl⟩

variable {all : List TailRow} {op : Op}

theorem retainsNewest_iff_newest (hs : s < st.cfg.nSeqMax) : st.RetainsNewest s all ↔
      IsNewest TailRow.Le st.cfg.limit all (newest st.cfg.limit (st.seqs s).rows) := by
  constructor
  · intro h
    obtain ⟨st1, st', e1, e'⟩ := exists_begin st
    have hn := h.ended false st1 st' e1 e'
    obtain ⟨hcfg, hseqs⟩ := finishBatch_rows e1
    rwa [(beginBatch_rows e' (hcfg ▸ hs)).2, hseqs, hcfg] at hn
  · intro h
    refine ⟨fun st' e => ?_, fun payload st1 st' e1 e' => ?_⟩
    · rwa [(beginBatch_rows e hs).2]
    · obtain ⟨hcfg, hseqs⟩ := finishBatch_rows e1
      rwa [(beginBatch_rows e' (hcfg ▸ hs)).2, hseqs, hcfg]

theorem Op.Commits.source (h : op.Commits) : op.source = none := by
  cases op with
  | clone o => exact absurd h id
  | _ => rfl

theorem Op.Commits.cfg (h : op.Commits) (e : op.apply st = (st', .ok ())) : st'.cfg = st.cfg := by
  cases op with
  | beginBatch =>
    rw [Op.apply, TailStore.beginBatch] at e
    split at e
    · cases e
    · cases e
      rfl
  | finishBatch success payload =>
    obtain rfl : success = true := h
    exact (finishBatch_rows e).1
  | commit seqId identity position ordinal row =>
    obtain ⟨a, e⟩ := Out.void_ok e
    have hcfg : (st.commit seqId identity position ordinal row).1.cfg = st.cfg := commit_cfg ..
    rwa [e] at hcfg
  | _ => exact absurd h id

/-- What the store has of the rows of sequence `s`. -/
structure HasRows (st : TailStore) (s : Nat) (all : List TailRow) : Prop where
  sub : ∀ a ∈ (st.seqs s).rows, a ∈ all
  off : st.cfg.nTokens = 0 → (st.seqs s).entries = []

/-- A commit changes its own sequence only. -/
theorem commit_seqs (hs : s < st.cfg.nSeqMax) (seqId : Int) (identity : TailIdentity)
    (position : Int) (ordinal row : Nat) :
    (st.commit seqId identity position ordinal row).1.seqs s =
      if seqId = s ∧ st.cfg.nTokens ≠ 0 then
        ((st.seqs s).commit st.cfg s st.inBatch identity position ordinal).1 else st.seqs s := by
  by_cases hv : st.validSeq seqId = true ∧ st.cfg.nTokens ≠ 0
  · obtain ⟨hid, -⟩ := validSeq_iff.mp hv.1
    have hset : ∀ t : SeqTail, (st.setSeq seqId.toNat t).seqs s =
        if seqId = s then t else st.seqs s := by
      intro t
      split
      · next he =>
        have hn : seqId.toNat = s := by omega
        rw [setSeq, hn]
        exact Function.update_self ..
      · next he => exact Function.update_of_ne (by omega) _ _
    simp only [hv.2, ne_eq, not_false_eq_true, and_true]
    rcases commit_eq identity position ordinal row hv.1 hv.2 with ⟨t, er, ht, e⟩ | ⟨t, ht, e⟩
    · rw [e, hset]
      split
      · next he => rw [he, Int.toNat_natCast] at ht; rw [ht]
      · rfl
    · rw [e, (noteCurrent_seqs _ _ _ _).1, hset]
      split
      · next he => rw [he, Int.toNat_natCast] at ht; rw [ht]
      · rfl
  · rw [commit_invalid hv, if_neg]
    rintro ⟨rfl, hn⟩
    exact hv ⟨validSeq_iff.mpr ⟨by omega, by omega⟩, hn⟩

/-- A call that gives no row to the sequence leaves the newest ones of what it has. -/
theorem step_rows_none (hop : op.Commits) (e : op.apply st = (st', .ok ()))
    (hs : s < st.cfg.nSeqMax) (hn : op.rowFor s = none) :
    st'.cfg = st.cfg ∧ (∀ a ∈ (st'.seqs s).rows, a ∈ (st.seqs s).rows) ∧
      newest st.cfg.limit (st'.seqs s).rows = newest st.cfg.limit (st.seqs s).rows := by
  cases op with
  | beginBatch =>
    obtain ⟨hcfg, hrows⟩ := beginBatch_rows e hs
    rw [hrows, newest_newest]
    exact ⟨hcfg, fun a ha => mem_of_mem_drop ha, rfl⟩
  | finishBatch success payload =>
    obtain rfl : success = true := hop
    obtain ⟨hcfg, hseqs⟩ := finishBatch_rows e
    rw [hseqs]
    exact ⟨hcfg, fun a ha => ha, rfl⟩
  | commit seqId identity position ordinal row =>
    obtain ⟨a, e⟩ := Out.void_ok e
    have hne : seqId ≠ s := fun h => by
      rw [Op.rowFor, if_pos h] at hn
      cases hn
    have hseq := commit_seqs hs seqId identity position ordinal row
    have hcfg : (st.commit seqId identity position ordinal row).1.cfg = st.cfg := commit_cfg ..
    rw [e, if_neg fun h => hne h.1] at hseq
    rw [e] at hcfg
    have hsame : st'.seqs s = st.seqs s := hseq
    rw [hsame]
    exact ⟨hcfg, fun a ha => ha, rfl⟩
  | _ => exact absurd hop id

/-- A cell that no row has is none of an entry. -/
theorem HasRows.fresh_key (h : st.HasRows s all) {x : TailRow}
    (hx : ∀ a ∈ all, a.identity.key ≠ x.identity.key) :
    x.identity.key ∉ (st.seqs s).entries.map (·.key) := fun hm => by
  obtain ⟨n, hn, hk⟩ := mem_map.mp hm
  exact hx _ (h.sub _ (mem_map.mpr ⟨n, hn, rfl⟩)) hk

/-- What a commit does to its sequence. -/
theorem commit_seq {seqId position a : Int} {identity : TailIdentity} {ordinal row : Nat}
    (e : st.commit seqId identity position ordinal row = (st', .ok a)) (hid : seqId = s)
    (hs : s < st.cfg.nSeqMax) (hn : st.cfg.nTokens ≠ 0) :
    (st.seqs s).commit st.cfg s st.inBatch identity position ordinal = (st'.seqs s, .ok ()) ∧
      st'.cfg = st.cfg := by
  have hv : st.validSeq seqId = true := validSeq_iff.mpr ⟨by omega, by omega⟩
  rcases commit_eq identity position ordinal row hv hn with ⟨t, er, ht, ec⟩ | ⟨t, ht, ec⟩
  · rw [ec] at e
    cases e
  · have hfst := congrArg Prod.fst (ec.symm.trans e)
    obtain ⟨hseqs, hcfg⟩ := noteCurrent_seqs (st.setSeq seqId.toNat t) seqId.toNat
      ⟨identity, position, ordinal, t.retained identity⟩ row
    rw [hfst] at hseqs hcfg
    have hsn : seqId.toNat = s := by omega
    rw [hsn] at ht hseqs
    have hsame : st'.seqs s = t := by
      rw [hseqs]
      exact Function.update_self ..
    rw [hsame]
    exact ⟨ht, hcfg⟩

/-- The step lemma: a call keeps the newest rows of a sequence if and only if it is in order. -/
theorem Inv.step_rows (h : st.Inv) (hop : op.Commits)
    (e : op.apply st = (st', .ok ())) (hs : s < st.cfg.nSeqMax) (hr : st.HasRows s all)
    (hx : ∀ x ∈ op.rowFor s, ∀ a ∈ all, a.identity.key ≠ x.identity.key) :
    st'.cfg = st.cfg ∧ st'.HasRows s (all ++ (op.rowFor s).toList) ∧
      (IsNewest TailRow.Le st.cfg.limit all (newest st.cfg.limit (st.seqs s).rows) →
        (IsNewest TailRow.Le st.cfg.limit (all ++ (op.rowFor s).toList)
          (newest st.cfg.limit (st'.seqs s).rows) ↔ op.InOrder s st)) := by
  cases hrow : op.rowFor s with
  | none =>
    obtain ⟨hcfg, hsub, hnew⟩ := step_rows_none hop e hs hrow
    rw [Option.toList_none, append_nil, hnew]
    refine ⟨hcfg, ⟨fun a ha => hr.sub a (hsub a ha), fun hn => ?_⟩, fun hall =>
      iff_of_true hall fun x hx => ?_⟩
    · have hrows : (st'.seqs s).rows = [] := eq_nil_iff_forall_not_mem.mpr fun a ha => by
        have := hsub a ha
        rw [rows, hr.off (hcfg ▸ hn)] at this
        exact absurd this not_mem_nil
      exact map_eq_nil_iff.mp hrows
    · rw [hrow] at hx
      cases hx
  | some x =>
    have hxr := hx x hrow
    cases op with
    | commit seqId identity position ordinal row =>
      obtain ⟨a, e⟩ := Out.void_ok e
      rw [Op.rowFor] at hrow
      split at hrow
      · next hid =>
        cases hrow
        have hperm : ((⟨identity, position, ordinal⟩ : TailRow) :: all).Perm
            (all ++ [⟨identity, position, ordinal⟩]) := (perm_append_singleton _ _).symm
        have horder : (Op.commit seqId identity position ordinal row).InOrder s st ↔
            if st.cfg.nTokens = 0 then st.cfg.limit = 0
              else SeqTail.Ordered st.cfg st.inBatch ⟨identity, position, ordinal⟩ (st.seqs s) := by
          simp [Op.InOrder, Op.rowFor, hid]
        rw [horder, Option.toList_some]
        by_cases hn : st.cfg.nTokens = 0
        · rw [commit_invalid fun hv => hv.2 hn] at e
          cases e
          have hrows : (st.seqs s).rows = [] := by rw [rows, hr.off hn, map_nil]
          refine ⟨rfl, ⟨fun a ha => mem_append_left _ (hr.sub a ha), hr.off⟩, fun hall => ?_⟩
          rw [if_pos hn, hrows]
          constructor
          · intro hnew
            have := hnew.length
            rw [length_newest, length_append] at this
            simp at this
            omega
          · intro hl
            refine ⟨by simp [newest], by simp [newest], by simp [newest, hl], fun a _ _ b hb => ?_⟩
            simp [newest] at hb
        · obtain ⟨ht, hcfg⟩ := commit_seq e hid hs hn
          obtain ⟨hsub, hiff⟩ := commit_rows (h.seq s hs) (hr.fresh_key hxr) hr.sub
            (fun hm => hxr _ hm rfl) ht
          rw [if_neg hn]
          refine ⟨hcfg, ⟨fun a ha => hperm.mem_iff.mp (hsub a ha),
            fun h0 => absurd (hcfg ▸ h0) hn⟩, fun hall => ?_⟩
          rw [← hiff hall]
          exact ⟨fun h => h.perm hperm.symm, fun h => h.perm hperm⟩
      · cases hrow
    | _ => cases hrow

end Step

section Run

variable {st₀ : TailStore} {ops : List Op} {s : Nat}

/-- What holds at first, and is kept by a step just when the step is good, holds all along just when
all steps are good. -/
theorem forall_le_iff_of_step {J G : Nat → Prop} {m : Nat} (h0 : J 0)
    (hs : ∀ n < m, J n → (J (n + 1) ↔ G n)) : (∀ n ≤ m, J n) ↔ ∀ n < m, G n := by
  constructor
  · exact fun h n hn => (hs n hn (h n hn.le)).mp (h (n + 1) hn)
  · intro h n hn
    induction n with
    | zero => exact h0
    | succ n ih => exact (hs n hn (ih (by omega))).mpr (h n hn)

variable {op : Op} {n : Nat}

theorem runOps_take_succ (e : ops[n]? = some op) :
    runOps (ops.take (n + 1)) st₀ = (op.apply (runOps (ops.take n) st₀)).1 := by
  rw [take_add_one, e, Option.toList_some, runOps, foldl_append]
  rfl

theorem Runs.apply_ok {ok : TailStore → Op → Prop} (h : Runs ok ops st₀)
    (e : ops[n]? = some op) : (op.apply (runOps (ops.take n) st₀)).2 = .ok () := by
  induction ops generalizing st₀ n with
  | nil => simp at e
  | cons o ops ih =>
    obtain ⟨-, hr, -, hops⟩ := h
    cases n with
    | zero =>
      cases e
      exact hr
    | succ n => exact ih hops e

theorem committed_take_succ (e : ops[n]? = some op) :
    committed s (ops.take (n + 1)) = committed s (ops.take n) ++ (op.rowFor s).toList := by
  rw [committed, List.take_add_one, e, Option.toList_some, List.filterMap_append]
  cases h : op.rowFor s <;> simp [committed, h]

/-- The calls of the run: commits of distinct cells and batches that succeed, from a store without
entries. -/
structure CommitRun (st₀ : TailStore) (ops : List Op) : Prop where
  inv : st₀.Inv
  empty : ∀ s < st₀.cfg.nSeqMax, (st₀.seqs s).entries = []
  commits : ∀ op ∈ ops, op.Commits
  runs : Runs (fun _ _ => True) ops st₀
  cells : ∀ s < st₀.cfg.nSeqMax, ((committed s ops).map (·.identity.key)).Nodup

/-- A row of a later call is for another cell. -/
theorem CommitRun.fresh (h : CommitRun st₀ ops) (hs : s < st₀.cfg.nSeqMax) (e : ops[n]? = some op) :
    ∀ x ∈ op.rowFor s, ∀ a ∈ committed s (ops.take n), a.identity.key ≠ x.identity.key := by
  intro x hx a ha hk
  have hnd := h.cells s hs
  have hsplit : committed s ops = committed s (ops.take n) ++ committed s (ops.drop n) := by
    rw [committed, committed, committed, ← filterMap_append, take_append_drop]
  rw [hsplit, map_append] at hnd
  have hlt := (List.getElem?_eq_some_iff.mp e).1
  have hmem : x ∈ committed s (ops.drop n) := by
    refine List.mem_filterMap.mpr ⟨op, ?_, hx⟩
    rw [List.drop_eq_getElem_cons hlt, (List.getElem?_eq_some_iff.mp e).2]
    exact mem_cons_self
  exact (nodup_append.mp hnd).2.2 _ (mem_map_of_mem ha) _ (mem_map_of_mem hmem) hk

/-- Along the run. -/
theorem CommitRun.at (h : CommitRun st₀ ops) (hn : n ≤ ops.length) :
    (runOps (ops.take n) st₀).Inv ∧ (runOps (ops.take n) st₀).cfg = st₀.cfg ∧
      ∀ s < st₀.cfg.nSeqMax, (runOps (ops.take n) st₀).HasRows s (committed s (ops.take n)) := by
  induction n with
  | zero =>
    refine ⟨h.inv, rfl, fun s hs => ⟨fun a ha => ?_, fun _ => h.empty s hs⟩⟩
    have hrows : (st₀.seqs s).rows = [] := by rw [rows, h.empty s hs, map_nil]
    exact absurd (hrows ▸ ha) not_mem_nil
  | succ n ih =>
    obtain ⟨hinv, hcfg, hrows⟩ := ih (by omega)
    have e : ops[n]? = some ops[n] := getElem?_eq_getElem hn
    have hop := h.commits _ (mem_of_getElem? e)
    have hok : ops[n].apply (runOps (ops.take n) st₀) =
        ((ops[n].apply (runOps (ops.take n) st₀)).1, .ok ()) := Prod.ext rfl (h.runs.apply_ok e)
    rw [runOps_take_succ e]
    refine ⟨hinv.apply (fun o ho => ?_) hok, ?_, fun s hs => ?_⟩
    · rw [hop.source] at ho
      cases ho
    · rw [hop.cfg hok, hcfg]
    · rw [committed_take_succ e]
      exact (hinv.step_rows hop hok (hcfg ▸ hs) (hrows s hs) (h.fresh hs e)).2.1

/-- The newest rows are retained at every moment of the run. -/
structure RunRetains (st₀ : TailStore) (ops : List Op) : Prop where
  /-- After the following `begin_batch`. -/
  begun : ∀ n ≤ ops.length, ∀ s < st₀.cfg.nSeqMax,
    (runOps (ops.take n) st₀).RetainsNewest s (committed s (ops.take n))
  /-- Immediately, outside a batch. -/
  now : ∀ n op, ops[n]? = some op → (runOps (ops.take n) st₀).inBatch = false →
    ∀ s < st₀.cfg.nSeqMax, (op.rowFor s).isSome = true →
      IsNewest TailRow.Le st₀.cfg.limit (committed s (ops.take (n + 1)))
        ((runOps (ops.take (n + 1)) st₀).seqs s).rows

/-- Outside a batch a commit leaves no more than it should. -/
theorem commit_rows_length {st st' : TailStore} (h : st.Inv)
    (e : op.apply st = (st', .ok ())) (hs : s < st.cfg.nSeqMax) (hrow : (op.rowFor s).isSome = true)
    (hb : st.inBatch = false) {all : List TailRow} (hr : st.HasRows s all)
    (hx : ∀ x ∈ op.rowFor s, ∀ a ∈ all, a.identity.key ≠ x.identity.key) :
    (st'.seqs s).rows.length ≤ st.cfg.limit := by
  obtain ⟨x, hrow⟩ := Option.isSome_iff_exists.mp hrow
  have hxr := hx x hrow
  cases op with
  | commit seqId identity position ordinal row =>
    obtain ⟨a, e⟩ := Out.void_ok e
    rw [Op.rowFor] at hrow
    split at hrow
    · next hid =>
      cases hrow
      by_cases hn : st.cfg.nTokens = 0
      · rw [commit_invalid fun hv => hv.2 hn] at e
        cases e
        rw [rows, hr.off hn]
        exact Nat.zero_le _
      · obtain ⟨ht, -⟩ := commit_seq e hid hs hn
        obtain ⟨pre, suf, n, -, -, -, hent⟩ := commit_entries (h.seq s hs) (hr.fresh_key hxr) ht
        rw [rows, length_map, hent, hb, if_neg Bool.false_ne_true, length_newest]
        exact Nat.min_le_left _ _
    · cases hrow
  | _ => cases hrow

/-- A run of commits retains the newest rows all along if and only if no commit is before the row
that it evicts. -/
theorem retainsNewest_iff (h : CommitRun st₀ ops) :
    RunRetains st₀ ops ↔ ∀ n (op : Op), ops[n]? = some op → ∀ s < st₀.cfg.nSeqMax,
      op.InOrder s (runOps (ops.take n) st₀) := by
  have key : (∀ n ≤ ops.length, ∀ s < st₀.cfg.nSeqMax,
      (runOps (ops.take n) st₀).RetainsNewest s (committed s (ops.take n))) ↔
      ∀ n < ops.length, ∀ s < st₀.cfg.nSeqMax, ∀ op, ops[n]? = some op →
        op.InOrder s (runOps (ops.take n) st₀) := by
    refine forall_le_iff_of_step (fun s hs => ?_) fun n hn hJ => ?_
    · have hrows : (st₀.seqs s).rows = [] := by rw [rows, h.empty s hs, map_nil]
      refine (retainsNewest_iff_newest hs).mpr ?_
      show IsNewest _ _ [] (newest _ (st₀.seqs s).rows)
      rw [hrows, newest, drop_nil]
      exact IsNewest.nil _ _
    · obtain ⟨hinv, hcfg, hrows⟩ := h.at hn.le
      have e : ops[n]? = some ops[n] := getElem?_eq_getElem hn
      have hok : ops[n].apply (runOps (ops.take n) st₀) =
          ((ops[n].apply (runOps (ops.take n) st₀)).1, .ok ()) := Prod.ext rfl (h.runs.apply_ok e)
      have hop := h.commits _ (mem_of_getElem? e)
      rw [e]
      refine forall₂_congr fun s hs => ?_
      obtain ⟨hcfg', -, hiff⟩ := hinv.step_rows hop hok (hcfg ▸ hs) (hrows s hs) (h.fresh hs e)
      rw [runOps_take_succ e, committed_take_succ e,
        retainsNewest_iff_newest (by rw [hcfg', hcfg]; exact hs), hcfg',
        hiff ((retainsNewest_iff_newest (hcfg ▸ hs)).mp (hJ s hs))]
      simp
  constructor
  · intro hr n op e s hs
    exact key.mp hr.begun n (List.getElem?_eq_some_iff.mp e).1 s hs op e
  · intro ho
    have hbegun := key.mpr fun n _ s hs op e => ho n op e s hs
    refine ⟨hbegun, fun n op e hb s hs hrow => ?_⟩
    have hn := (List.getElem?_eq_some_iff.mp e).1
    obtain ⟨hinv, hcfg, hrows⟩ := h.at hn.le
    obtain ⟨-, hcfg', -⟩ := h.at (n := n + 1) hn
    have hok : op.apply (runOps (ops.take n) st₀) =
        ((op.apply (runOps (ops.take n) st₀)).1, .ok ()) := Prod.ext rfl (h.runs.apply_ok e)
    have hlen := commit_rows_length hinv hok (hcfg ▸ hs) hrow hb (hrows s hs) (h.fresh hs e)
    have hnew := (retainsNewest_iff_newest (hcfg' ▸ hs)).mp (hbegun (n + 1) hn s hs)
    rw [← runOps_take_succ e] at hlen
    rwa [hcfg', newest_of_length_le (hcfg ▸ hlen)] at hnew

/-- The commits of sequence `0` in an order of their positions. -/
def positionOps (positions : List Int) : List Op :=
  positions.zipIdx.map fun p => .commit 0 ⟨0, p.2, 1⟩ p.1 p.2 UINT32_MAX

theorem commitRun_positions {positions : List Int}
    (h : Runs (fun _ _ => True) (positionOps positions) twoSeqs)
    (hc : ∀ s < 2, ((committed s (positionOps positions)).map (·.identity.key)).Nodup) :
    CommitRun twoSeqs (positionOps positions) where
  inv := inv_of_new (sys_init twoSeqs_init).1 (sys_init twoSeqs_init).2
  empty _ _ := rfl
  commits op hop := by
    obtain ⟨p, -, rfl⟩ := mem_map.mp hop
    trivial
  runs := h
  cells := hc

theorem positions_retained : RunRetains twoSeqs (positionOps [5, 6, 7]) := by
  refine (retainsNewest_iff (commitRun_positions ?_ (by decide))).mpr fun n op e s hs => ?_
  · exact ⟨rfl, rfl, trivial, rfl, rfl, trivial, rfl, rfl, trivial, trivial⟩
  · have hn : n < 3 := (List.getElem?_eq_some_iff.mp e).1
    have hs' : s < 2 := hs
    interval_cases n <;> obtain rfl := Option.some.inj e <;> interval_cases s <;> decide

/-- The commit of position `3` evicts the row at position `5`. -/
theorem not_runRetains : ¬ ∀ st₀ ops, CommitRun st₀ ops → RunRetains st₀ ops := by
  intro h
  have hr := h twoSeqs (positionOps [5, 6, 3]) (commitRun_positions
    ⟨rfl, rfl, trivial, rfl, rfl, trivial, rfl, rfl, trivial, trivial⟩ (by decide))
  have hn := hr.now 2 _ rfl rfl 0 (by decide) rfl
  exact absurd (hn.le ⟨⟨0, 0, 1⟩, 5, 0⟩ (by decide) (by decide) ⟨⟨0, 2, 1⟩, 3, 2⟩ (by decide))
    (by decide)

end Run

end TailStore
end BeeLlama
