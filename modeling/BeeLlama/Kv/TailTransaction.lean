import BeeLlama.Kv.TailNewest
import BeeLlama.Kv.TailProvenance

/-!
# A sequence copy is a transaction

`prepare_seq_cp` marks slots of the destination's arena, and nothing else: `cancel_seq_cp`, or a
throw, gives them back (`Acquires`). With `commit_seq_cp` the destination has the newest `limit` of
its own entries outside the range and the copied ones of the source (`Copied`).

* `assignSlots_spec`: the slots that the loop of `prepare_seq_cp` gives are those of the surviving
  entries, then reused ones of dropped entries, then free ones.
* `seqCp_transaction`: the copy can be committed, with each slot marked for one entry, if and only
  if the retained cells differ and the slots of the destination that are kept were marked, each for
  one entry (`CopySafe`).
-/

namespace BeeLlama.TailStore

open List Function TailStore SeqTail

variable {cfg : TailCfg} {d : Nat} {t t' u : SeqTail}

/-! ## Marked slots -/

/-- Free slots were marked, nothing else changed. -/
structure Acquires (cfg : TailCfg) (d : Nat) (xs : List Int) (t t' : SeqTail) : Prop where
  entries : t'.entries = t.entries
  index : t'.index = t.index
  prov : prov t' = prov t
  used : ∀ l, t'.used l = true ↔ t.used l = true ∨ slotOf cfg d l ∈ xs
  nodup : xs.Nodup
  free : ∀ x ∈ xs, ∃ l, l < cfg.arenaStride ∧ x = slotOf cfg d l ∧ t.used l = false

theorem Acquires.refl (cfg : TailCfg) (d : Nat) (t : SeqTail) : Acquires cfg d [] t t where
  entries := rfl
  index := rfl
  prov := rfl
  used _ := by simp
  nodup := nodup_nil
  free _ hx := absurd hx not_mem_nil

theorem Acquires.acquire {xs : List Int} (h : Acquires cfg d xs t t') {l : Nat}
    (hl : l < cfg.arenaStride) (hf : t'.used l = false) (c : Nat) :
    Acquires cfg d (xs ++ [slotOf cfg d l]) t
      { t' with used := Function.update t'.used l true, cursor := c } where
  entries := h.entries
  index := h.index
  prov := h.prov
  used k := by
    by_cases hk : k = l
    · subst hk
      simp
    · have hne : slotOf cfg d k ≠ slotOf cfg d l := fun e => hk (slotOf_inj.mp e)
      show Function.update t'.used l true k = true ↔ _
      rw [update_of_ne hk, h.used k]
      simp [hne]
  nodup := by
    refine nodup_append.mpr ⟨h.nodup, nodup_singleton _, fun a ha b hb => ?_⟩
    obtain rfl := mem_singleton.mp hb
    rintro rfl
    have := (h.used l).mpr (.inr ha)
    rw [hf] at this
    cases this
  free x hx := by
    rcases mem_append.mp hx with hx | hx
    · exact h.free x hx
    · refine ⟨l, hl, mem_singleton.mp hx, ?_⟩
      by_contra hu
      have := (h.used l).mpr (.inl (by simpa using hu))
      rw [hf] at this
      cases this

theorem Acquires.arena {xs : List Int} (h : Acquires cfg d xs t t') :
    ∀ x ∈ xs, InArena cfg d x := fun x hx => by
  obtain ⟨l, hl, rfl, -⟩ := h.free x hx
  exact ⟨l, hl, rfl⟩

/-- The two tails differ in the cursor at most. -/
structure SameTail (t t' : SeqTail) : Prop where
  entries : t'.entries = t.entries
  index : t'.index = t.index
  used : t'.used = t.used
  degradation : t'.degradation = t.degradation
  recovery : t'.recovery = t.recovery

theorem SameTail.refl (t : SeqTail) : SameTail t t := ⟨rfl, rfl, rfl, rfl, rfl⟩

/-- What was marked is released again. -/
theorem Acquires.releaseAll {xs : List Int} (h : Acquires cfg d xs t t') :
    SameTail t (t'.releaseAll cfg d xs) where
  entries := (releaseAll_entries xs).trans h.entries
  index := (releaseAll_index xs).trans h.index
  used := by
    funext l
    refine Bool.eq_iff_iff.mpr ?_
    rw [releaseAll_used h.arena, h.used l]
    refine ⟨fun hu => hu.1.resolve_right hu.2, fun hu => ⟨.inl hu, fun hx => ?_⟩⟩
    obtain ⟨k, -, hk, hfree⟩ := h.free _ hx
    rw [slotOf_inj.mp hk, hfree] at hu
    cases hu
  degradation := (releaseAll_degradation xs).trans (Prod.mk.inj h.prov).1
  recovery := (releaseAll_recovery xs).trans (Prod.mk.inj h.prov).2

/-! ## The loop of `prepare_seq_cp` -/

/-- The copied ones among the candidates. -/
def copiedCount (cs : List Candidate) : Nat := (cs.filter (·.copied)).length

/-- The slots of the destination that the loop keeps: of the surviving entries, and of dropped ones
that copied entries take over, the last one first. -/
def keptOrReused (cs : List Candidate) (reusable : List Int) : List Int :=
  keptSlots cs ++ reusable.reverse.take (copiedCount cs)

/-- What the loop has added: each candidate got a slot. -/
structure Assigns (cfg : TailCfg) (d : Nat) (cs : List Candidate) (reusable : List Int)
    (a a' : Assigned) (zs : List (Candidate × Int)) (xs : List Int) : Prop where
  fst : zs.map (·.1) = cs
  destination : a'.destination = a.destination ++ zs.map fun z => { z.1.entry with slot := z.2 }
  copies : a'.copies = a.copies ++ (zs.filter fun z => z.1.copied).map fun z => ⟨z.1.srcSlot, z.2⟩
  acquired : a'.acquired = a.acquired ++ xs
  kept : ∀ z ∈ zs, z.1.copied = false → z.2 = z.1.entry.slot
  slots : (zs.map (·.2)).Perm (keptOrReused cs reusable ++ xs)

/-- The loop of `prepare_seq_cp`. -/
theorem assignSlots_spec (cs : List Candidate) :
    ∀ (reusable : List Int) (a : Assigned) (u : SeqTail), Acquires cfg d a.acquired t u →
      (∀ t' er, assignSlots cfg d cs reusable a u = (t', .error er) → SameTail t t') ∧
      (∀ t' a', assignSlots cfg d cs reusable a u = (t', .ok a') →
        Acquires cfg d a'.acquired t t' ∧ ∃ zs xs, Assigns cfg d cs reusable a a' zs xs) := by
  induction cs with
  | nil =>
    intro reusable a u h
    unfold assignSlots
    refine ⟨fun t' er e => (by cases (Prod.mk.inj e).2), fun t' a' e => ?_⟩
    obtain ⟨rfl, hr⟩ := Prod.mk.inj e
    cases hr
    refine ⟨h, [], [], rfl, by simp, by simp, by simp, by simp, ?_⟩
    simp [keptOrReused, keptSlots, copiedCount]
  | cons c cs ih =>
    intro reusable a u h
    unfold assignSlots
    cases hc : c.copied with
    | false =>
      rw [if_neg Bool.false_ne_true]
      obtain ⟨herr, hok⟩ := ih reusable { a with destination := a.destination ++ [c.entry] } u h
      refine ⟨herr, fun t' a' e => ?_⟩
      obtain ⟨hacq, zs, xs, hz⟩ := hok t' a' e
      refine ⟨hacq, (c, c.entry.slot) :: zs, xs, ?_⟩
      exact
        { fst := by rw [map_cons, hz.fst]
          destination := by rw [hz.destination]; simp
          copies := by rw [hz.copies]; simp [hc]
          acquired := hz.acquired
          kept := by
            intro z hm hzc
            rcases mem_cons.mp hm with rfl | hm
            · rfl
            · exact hz.kept z hm hzc
          slots := by
            rw [map_cons]
            have e : keptOrReused (c :: cs) reusable =
                c.entry.slot :: keptOrReused cs reusable := by
              simp [keptOrReused, keptSlots, copiedCount, hc]
            rw [e]
            exact hz.slots.cons _ }
    | true =>
      rw [if_pos rfl]
      cases hl : reusable.getLast? with
      | some slot =>
        obtain ⟨rest, rfl⟩ := getLast?_eq_some_iff.mp hl
        rw [dropLast_concat]
        obtain ⟨herr, hok⟩ := ih rest (a.copy c slot) u h
        refine ⟨herr, fun t' a' e => ?_⟩
        obtain ⟨hacq, zs, xs, hz⟩ := hok t' a' e
        refine ⟨hacq, (c, slot) :: zs, xs, ?_⟩
        exact
          { fst := by rw [map_cons, hz.fst]
            destination := by rw [hz.destination]; simp [Assigned.copy]
            copies := by rw [hz.copies]; simp [hc, Assigned.copy]
            acquired := hz.acquired
            kept := by
              intro z hm hzc
              rcases mem_cons.mp hm with rfl | hm
              · rw [hc] at hzc
                cases hzc
              · exact hz.kept z hm hzc
            slots := by
              have e : keptOrReused (c :: cs) (rest ++ [slot]) =
                  keptSlots cs ++ slot :: rest.reverse.take (copiedCount cs) := by
                simp [keptOrReused, keptSlots, copiedCount, hc]
              rw [map_cons, e]
              exact (hz.slots.cons _).trans (perm_middle.symm.append_right xs) }
      | none =>
        obtain rfl := getLast?_eq_none_iff.mp hl
        rcases acquire_cases cfg d u with ⟨l, hlt, hf, hq⟩ | hq
        · rw [hq]
          obtain ⟨herr, hok⟩ := ih [] { a.copy c (slotOf cfg d l) with
            acquired := a.acquired ++ [slotOf cfg d l] } _ (h.acquire hlt hf _)
          refine ⟨herr, fun t' a' e => ?_⟩
          obtain ⟨hacq, zs, xs, hz⟩ := hok t' a' e
          refine ⟨hacq, (c, slotOf cfg d l) :: zs, slotOf cfg d l :: xs, ?_⟩
          exact
            { fst := by rw [map_cons, hz.fst]
              destination := by rw [hz.destination]; simp [Assigned.copy]
              copies := by rw [hz.copies]; simp [hc, Assigned.copy]
              acquired := by rw [hz.acquired]; simp
              kept := by
                intro z hm hzc
                rcases mem_cons.mp hm with rfl | hm
                · rw [hc] at hzc
                  cases hzc
                · exact hz.kept z hm hzc
              slots := by
                have e : keptOrReused (c :: cs) [] = keptOrReused cs [] := by
                  simp [keptOrReused, keptSlots, hc]
                rw [map_cons, e]
                exact (hz.slots.cons _).trans perm_middle.symm }
        · rw [hq]
          refine ⟨fun t' er e => ?_, fun t' a' e => (by cases (Prod.mk.inj e).2)⟩
          cases e
          exact h.releaseAll

/-! ## The candidates -/

/-- An entry of the source as an entry of the destination. -/
def movedRow (dstStream : Nat) (r : TailRow) : TailRow :=
  { r with identity := { r.identity with stream := dstStream } }

/-- The rows of which the destination retains the newest: its own ones outside the range, and those
of the source in the range, moved to the stream of the destination. -/
def copyRows (src dst : List TailNode) (srcStream dstStream : Nat) (p0 p1 : Int) : List TailRow :=
  ((dst.filter fun n => decide (¬ n.toTailEntry.InRange p0 p1)).map fun n => n.toTailEntry.row) ++
  ((src.filter fun n => decide (n.identity.stream = srcStream ∧
    n.toTailEntry.InRange p0 p1)).map fun n => movedRow dstStream n.toTailEntry.row)

section Candidates

variable {src dst : List TailNode} {srcStream dstStream : Nat} {p0 p1 : Int}

theorem candidates_rows : ((candidates src dst srcStream dstStream p0 p1).map
    fun c => c.entry.row).Perm (copyRows src dst srcStream dstStream p0 p1) := by
  refine ((perm_insertionSort _ _).map _).trans (List.Perm.of_eq ?_)
  rw [map_append, map_map, map_map]
  rfl

/-- A candidate is an entry of the destination outside the range, or one of the source in it. -/
theorem mem_candidates {c : Candidate} (h : c ∈ candidates src dst srcStream dstStream p0 p1) :
    (c.copied = false ∧ ¬ c.entry.InRange p0 p1 ∧ ∃ n ∈ dst, n.toTailEntry = c.entry) ∨
    (c.copied = true ∧ c.entry.InRange p0 p1 ∧ ∃ n ∈ src, n.identity.stream = srcStream ∧
      c.entry.row = movedRow dstStream n.toTailEntry.row ∧ c.srcSlot = n.slot) := by
  rcases mem_append.mp ((perm_insertionSort _ _).mem_iff.mp h) with h | h
  · obtain ⟨n, hn, rfl⟩ := mem_map.mp h
    obtain ⟨hn, hr⟩ := mem_filter.mp hn
    exact .inl ⟨rfl, of_decide_eq_true hr, n, hn, rfl⟩
  · obtain ⟨n, hn, rfl⟩ := mem_map.mp h
    obtain ⟨hn, hr⟩ := mem_filter.mp hn
    obtain ⟨hst, hr⟩ := of_decide_eq_true hr
    exact .inr ⟨rfl, hr, n, hn, hst, rfl, rfl⟩

end Candidates

/-! ## The transaction -/

/-- The entries in their order. -/
def listOf (t : SeqTail) : List TailEntry := t.entries.map fun n => n.toTailEntry

/-- No sequence is changed, but for the write cursor. -/
def SameSeqs (st st' : TailStore) : Prop :=
  st'.pendingSeqCp = none ∧ ∀ r, SameTail (st.seqs r) (st'.seqs r)

/-- What a copy from `s` to `d` should do. -/
structure Copied (st st' : TailStore) (s d srcStream dstStream : Nat) (p0 p1 : Int)
    (copies : List TailSlotCopy) : Prop where
  others : ∀ r, r ≠ d → st'.seqs r = st.seqs r
  newest : IsNewest TailRow.Le st.cfg.limit
    (copyRows (st.seqs s).entries (st.seqs d).entries srcStream dstStream p0 p1) (st'.seqs d).rows
  slots : ((listOf (st'.seqs d)).map (·.slot)).Nodup
  arena : ∀ e ∈ listOf (st'.seqs d), InArena st.cfg d e.slot
  used : ∀ l, l < st.cfg.arenaStride →
    ((st'.seqs d).used l = true ↔ slotOf st.cfg d l ∈ (listOf (st'.seqs d)).map (·.slot))
  /-- A surviving entry of the destination stays as it is. -/
  survive : ∀ e ∈ listOf (st'.seqs d), ¬ e.InRange p0 p1 → e ∈ listOf (st.seqs d)
  /-- One pair for each retained copied entry. -/
  pairs : List.Forall₂ (fun e c => c.dstSlot = e.slot ∧ ∃ n ∈ (st.seqs s).entries,
      n.identity.stream = srcStream ∧ e.row = movedRow dstStream n.toTailEntry.row ∧
      c.srcSlot = n.slot)
    ((listOf (st'.seqs d)).filter fun e => decide (e.InRange p0 p1)) copies
  sources : ∀ c ∈ copies, ∀ c' ∈ copies, c.dstSlot ≠ c'.srcSlot
  survivors : ∀ c ∈ copies, ∀ e ∈ listOf (st'.seqs d), ¬ e.InRange p0 p1 → c.dstSlot ≠ e.slot

/-- The retained cells differ; the slots that the destination keeps were marked, each for one entry,
and no other slot was. -/
structure CopySafe (st : TailStore) (s d srcStream dstStream : Nat) (p0 p1 : Int) : Prop where
  cells : ((st.retainedCandidates s d srcStream dstStream p0 p1).1.map (·.entry.key)).Nodup
  nodup : (keptOrReused (st.retainedCandidates s d srcStream dstStream p0 p1).1
    (st.retainedCandidates s d srcStream dstStream p0 p1).2).Nodup
  marked : ∀ l, l < st.cfg.arenaStride → slotOf st.cfg d l ∈
    keptOrReused (st.retainedCandidates s d srcStream dstStream p0 p1).1
      (st.retainedCandidates s d srcStream dstStream p0 p1).2 → (st.seqs d).used l = true
  owned : ∀ l, l < st.cfg.arenaStride → (st.seqs d).used l = true →
    slotOf st.cfg d l ∈ (st.seqs d).entries.map (·.slot)

section Transaction

variable {st st₁ : TailStore} {s srcStream dstStream : Nat} {p0 p1 : Int}
  {copies : List TailSlotCopy}

/-- `prepare_seq_cp` between two sequences of the store. -/
theorem prepareSeqCp_eq (hp : st.pendingSeqCp = none) (hs : s < st.cfg.nSeqMax)
    (hd : d < st.cfg.nSeqMax) (hne : s ≠ d) :
    st.prepareSeqCp s d srcStream dstStream p0 p1 =
      match assignSlots st.cfg d (st.retainedCandidates s d srcStream dstStream p0 p1).1
        (st.retainedCandidates s d srcStream dstStream p0 p1).2 {} (st.seqs d) with
      | (t, .error e) => (st.setSeq d t, .error e)
      | (t, .ok a) =>
        ({ st.setSeq d t with
            pendingSeqCp := some
              { src := s
                dst := d
                destination := a.destination
                copies := a.copies
                acquiredSlots := a.acquired
                degradationFlags := (st.seqs d).degradation ||| (st.seqs s).degradation
                recoveryCommits :=
                  if (st.seqs d).degradation ||| (st.seqs s).degradation = 0 then
                    min (st.seqs d).recovery (st.seqs s).recovery else 0 } }, .ok a.copies) := by
  have hvs : st.validSeq s = true := validSeq_iff.mpr ⟨by omega, by omega⟩
  have hvd : st.validSeq d = true := validSeq_iff.mpr ⟨by omega, by omega⟩
  have hsd : ((s : Int) == d) = false := by simpa using hne
  obtain ⟨t, r, hr⟩ : ∃ t r, assignSlots st.cfg d
      (st.retainedCandidates s d srcStream dstStream p0 p1).1
      (st.retainedCandidates s d srcStream dstStream p0 p1).2 {} (st.seqs d) = (t, r) := ⟨_, _, rfl⟩
  unfold prepareSeqCp
  cases r with
  | error er => simp [hvs, hvd, hsd, hp, hr]
  | ok a => simp [hvs, hvd, hsd, hp, hr]

/-- What `prepare_seq_cp` leaves. -/
theorem prepareSeqCp_assigns (hp : st.pendingSeqCp = none) (hs : s < st.cfg.nSeqMax)
    (hd : d < st.cfg.nSeqMax) (hne : s ≠ d)
    (e : st.prepareSeqCp s d srcStream dstStream p0 p1 = (st₁, .ok copies)) :
    ∃ p t zs xs, st₁ = { st.setSeq d t with pendingSeqCp := some p } ∧ p.dst = d ∧
      Acquires st.cfg d p.acquiredSlots (st.seqs d) t ∧
      Assigns st.cfg d (st.retainedCandidates s d srcStream dstStream p0 p1).1
        (st.retainedCandidates s d srcStream dstStream p0 p1).2 {}
        ⟨p.destination, copies, p.acquiredSlots⟩ zs xs := by
  rw [prepareSeqCp_eq hp hs hd hne] at e
  split at e
  · cases e
  · next t a ha =>
    obtain ⟨hacq, zs, xs, hz⟩ := (assignSlots_spec _ _ {} _
      (Acquires.refl st.cfg d (st.seqs d))).2 t a ha
    obtain ⟨rfl, hc⟩ := Prod.mk.inj e
    cases hc
    exact ⟨_, t, zs, xs, rfl, rfl, hacq, hz⟩

theorem setSeq_self (st : TailStore) (d : Nat) (t : SeqTail) : (st.setSeq d t).seqs d = t :=
  update_self ..

theorem setSeq_other (st : TailStore) {r : Nat} (hr : r ≠ d) (t : SeqTail) :
    (st.setSeq d t).seqs r = st.seqs r := update_of_ne hr _ _

theorem sameSeqs_setSeq (h : SameTail (st.seqs d) t) :
    ∀ r, SameTail (st.seqs r) ((st.setSeq d t).seqs r) := by
  intro r
  by_cases hr : r = d
  · subst hr
    rw [setSeq_self]
    exact h
  · rw [setSeq_other st hr]
    exact SameTail.refl _

/-- A `prepare_seq_cp` that throws changes nothing. -/
theorem prepareSeqCp_error (hp : st.pendingSeqCp = none) (hs : s < st.cfg.nSeqMax)
    (hd : d < st.cfg.nSeqMax) (hne : s ≠ d) {er : TailError}
    (e : st.prepareSeqCp s d srcStream dstStream p0 p1 = (st₁, .error er)) : SameSeqs st st₁ := by
  rw [prepareSeqCp_eq hp hs hd hne] at e
  split at e
  · next t e' ha =>
    obtain ⟨rfl, -⟩ := Prod.mk.inj e
    exact ⟨hp, sameSeqs_setSeq ((assignSlots_spec _ _ {} _
      (Acquires.refl st.cfg d (st.seqs d))).1 t e' ha)⟩
  · cases e

/-- `cancel_seq_cp` takes back what `prepare_seq_cp` has done. -/
theorem prepareSeqCp_cancel (hp : st.pendingSeqCp = none) (hs : s < st.cfg.nSeqMax)
    (hd : d < st.cfg.nSeqMax) (hne : s ≠ d)
    (e : st.prepareSeqCp s d srcStream dstStream p0 p1 = (st₁, .ok copies)) :
    SameSeqs st st₁.cancelSeqCp := by
  obtain ⟨p, t, zs, xs, rfl, rfl, hacq, -⟩ := prepareSeqCp_assigns hp hs hd hne e
  refine ⟨rfl, fun r => ?_⟩
  show SameTail (st.seqs r) (((st.setSeq p.dst t).setSeq p.dst
    (((st.setSeq p.dst t).seqs p.dst).releaseAll st.cfg p.dst p.acquiredSlots)).seqs r)
  rw [setSeq_self]
  by_cases hr : r = p.dst
  · subst hr
    rw [setSeq_self]
    exact hacq.releaseAll
  · rw [setSeq_other _ hr, setSeq_other _ hr]
    exact SameTail.refl _

/-! ## The committed copy -/

theorem installCp_used {p : PendingCp} (h : ∀ n ∈ t.entries, InArena cfg p.dst n.slot) (l : Nat) :
    (installCp cfg p t).used l = true ↔ t.used l = true ∧
      (slotOf cfg p.dst l ∈ t.entries.map (·.slot) →
        slotOf cfg p.dst l ∈ p.destination.map (·.slot)) := by
  have ha : ∀ x ∈ (t.entries.map (·.slot)).filter fun x =>
      decide (x ∉ p.destination.map (·.slot)), InArena cfg p.dst x := by
    intro x hx
    obtain ⟨n, hn, rfl⟩ := mem_map.mp (mem_of_mem_filter hx)
    exact h n hn
  refine (releaseAll_used ha l).trans (and_congr_right fun _ => ?_)
  rw [mem_filter, decide_eq_true_eq]
  tauto

theorem commitSeqCp_ok {p : PendingCp} (hp : st.pendingSeqCp = some p)
    (hk : (p.destination.map (·.key)).Nodup) : ∃ st₂, st.commitSeqCp = (st₂, .ok ()) := by
  have he : (installCp st.cfg p (st.seqs p.dst)).entries.map (·.key) =
      p.destination.map (·.key) := ofEntries_map (·.key) _
  have hok := rebuildIndex_ok_iff.mpr (he ▸ hk)
  have hr : (installCp st.cfg p (st.seqs p.dst)).rebuildIndex = (_, .ok ()) := Prod.ext rfl hok
  have hc : st.commitSeqCp.2 = .ok () := by
    unfold commitSeqCp
    rw [hp]
    dsimp only
    rw [hr]
  exact ⟨_, Prod.ext rfl hc⟩

/-- What the committed copy leaves: the slots and the marks of the destination. -/
structure Installed (st st₂ : TailStore) (d : Nat) (destination : List TailEntry)
    (xs : List Int) : Prop where
  others : ∀ r, r ≠ d → st₂.seqs r = st.seqs r
  list : listOf (st₂.seqs d) = destination
  used : ∀ l, (st₂.seqs d).used l = true ↔
    ((st.seqs d).used l = true ∨ slotOf st.cfg d l ∈ xs) ∧
      (slotOf st.cfg d l ∈ (st.seqs d).entries.map (·.slot) →
        slotOf st.cfg d l ∈ destination.map (·.slot))

theorem installed_commitSeqCp {p : PendingCp} (h : st.Inv) (hd : p.dst < st.cfg.nSeqMax)
    (hacq : Acquires st.cfg p.dst p.acquiredSlots (st.seqs p.dst) t) {st₂ : TailStore}
    (e : commitSeqCp { st.setSeq p.dst t with pendingSeqCp := some p } = (st₂, .ok ())) :
    Installed st st₂ p.dst p.destination p.acquiredSlots := by
  obtain ⟨-, rfl⟩ := commitSeqCp_eq rfl e
  have hself := setSeq_self st p.dst t
  have harena : ∀ n ∈ t.entries, InArena st.cfg p.dst n.slot := by
    rw [hacq.entries]
    exact (h.seq p.dst hd).arena
  refine ⟨fun r hr => ?_, ?_, fun l => ?_⟩
  · exact (update_of_ne hr _ _).trans (setSeq_other st hr t)
  · show listOf ((setSeq _ p.dst _).seqs p.dst) = _
    rw [setSeq_self]
    exact (ofEntries_map id _).trans (map_id _)
  · show ((setSeq _ p.dst _).seqs p.dst).used l = true ↔ _
    rw [setSeq_self]
    show (installCp st.cfg p ((st.setSeq p.dst t).seqs p.dst)).used l = true ↔ _
    rw [hself, installCp_used harena, hacq.used l, hacq.entries]

section Assigned

variable {a : Assigned} {zs : List (Candidate × Int)} {xs : List Int} {cs : List Candidate}
  {reusable : List Int}

theorem Assigns.slots_perm (h : Assigns cfg d cs reusable {} a zs xs) :
    (a.destination.map (·.slot)).Perm (keptOrReused cs reusable ++ xs) := by
  rw [h.destination, nil_append, map_map]
  exact h.slots

theorem Assigns.rows (h : Assigns cfg d cs reusable {} a zs xs) :
    a.destination.map (·.row) = cs.map (·.entry.row) := by
  rw [h.destination, nil_append, ← h.fst, map_map, map_map]
  rfl

theorem Assigns.keys (h : Assigns cfg d cs reusable {} a zs xs) :
    a.destination.map (·.key) = cs.map (·.entry.key) := by
  rw [h.destination, nil_append, ← h.fst, map_map, map_map]
  rfl

end Assigned

/-- The slots that the loop keeps are slots of the destination. -/
theorem keptOrReused_subset (s : Nat) : ∀ x ∈ keptOrReused
    (st.retainedCandidates s d srcStream dstStream p0 p1).1
    (st.retainedCandidates s d srcStream dstStream p0 p1).2,
    x ∈ (st.seqs d).entries.map (·.slot) := by
  intro x hx
  rcases mem_append.mp hx with hx | hx
  · exact (keptSlots_retained ..).subset hx
  · have hr := mem_reverse.mp (mem_of_mem_take hx)
    exact mem_of_mem_filter hr

section Iff

variable {a : Assigned} {zs : List (Candidate × Int)} {xs : List Int} {st₂ : TailStore}

theorem Installed.copySafe (hi : Installed st st₂ d a.destination xs)
    (hacq : Acquires st.cfg d xs (st.seqs d) t)
    (hz : Assigns st.cfg d (st.retainedCandidates s d srcStream dstStream p0 p1).1
      (st.retainedCandidates s d srcStream dstStream p0 p1).2 {} a zs xs)
    (hk : (a.destination.map (·.key)).Nodup)
    (hc : Copied st st₂ s d srcStream dstStream p0 p1 copies) :
    st.CopySafe s d srcStream dstStream p0 p1 := by
  have hnd : (keptOrReused (st.retainedCandidates s d srcStream dstStream p0 p1).1
      (st.retainedCandidates s d srcStream dstStream p0 p1).2 ++ xs).Nodup := by
    rw [← hz.slots_perm.nodup_iff, ← hi.list]
    exact hc.slots
  have hfinal : ∀ l, l < st.cfg.arenaStride → ((st₂.seqs d).used l = true ↔
      slotOf st.cfg d l ∈ keptOrReused (st.retainedCandidates s d srcStream dstStream p0 p1).1
        (st.retainedCandidates s d srcStream dstStream p0 p1).2 ++ xs) := by
    intro l hl
    rw [hc.used l hl, hi.list, hz.slots_perm.mem_iff]
  refine ⟨hz.keys ▸ hk, (nodup_append.mp hnd).1, fun l hl hm => ?_, fun l hl hu => ?_⟩
  · have hu := ((hi.used l).mp ((hfinal l hl).mpr (mem_append_left _ hm))).1
    exact hu.resolve_right fun hx => (nodup_append.mp hnd).2.2 _ hm _ hx rfl
  · by_contra hout
    have hin := (hfinal l hl).mp ((hi.used l).mpr ⟨.inl hu, fun hm => absurd hm hout⟩)
    rcases mem_append.mp hin with hm | hx
    · exact hout (keptOrReused_subset s _ hm)
    · obtain ⟨k, -, hk, hfree⟩ := hacq.free _ hx
      rw [slotOf_inj.mp hk, hfree] at hu
      cases hu

theorem rows_retained (hi : Installed st st₂ d a.destination xs)
    (hz : Assigns st.cfg d (st.retainedCandidates s d srcStream dstStream p0 p1).1
      (st.retainedCandidates s d srcStream dstStream p0 p1).2 {} a zs xs) :
    (st₂.seqs d).rows = newest st.cfg.limit ((candidates (st.seqs s).entries (st.seqs d).entries
      srcStream dstStream p0 p1).map fun c => c.entry.row) := by
  have hl : (st₂.seqs d).rows = (listOf (st₂.seqs d)).map (·.row) := by
    rw [listOf, map_map]
    rfl
  rw [hl, hi.list, hz.rows, newest_map]
  rfl

theorem Installed.copied (h : st.Inv) (hs : s < st.cfg.nSeqMax) (hd : d < st.cfg.nSeqMax)
    (hne : s ≠ d) (hi : Installed st st₂ d a.destination xs)
    (hacq : Acquires st.cfg d xs (st.seqs d) t)
    (hz : Assigns st.cfg d (st.retainedCandidates s d srcStream dstStream p0 p1).1
      (st.retainedCandidates s d srcStream dstStream p0 p1).2 {} a zs xs)
    (hc : st.CopySafe s d srcStream dstStream p0 p1) :
    Copied st st₂ s d srcStream dstStream p0 p1 a.copies := by
  have harena : ∀ x ∈ keptOrReused (st.retainedCandidates s d srcStream dstStream p0 p1).1
      (st.retainedCandidates s d srcStream dstStream p0 p1).2, InArena st.cfg d x := by
    intro x hx
    obtain ⟨n, hn, rfl⟩ := mem_map.mp (keptOrReused_subset s x hx)
    exact (h.seq d hd).arena n hn
  have hnd : (keptOrReused (st.retainedCandidates s d srcStream dstStream p0 p1).1
      (st.retainedCandidates s d srcStream dstStream p0 p1).2 ++ xs).Nodup := by
    refine nodup_append.mpr ⟨hc.nodup, hacq.nodup, fun x hx y hy => ?_⟩
    rintro rfl
    obtain ⟨l, hl, rfl, hfree⟩ := hacq.free x hy
    rw [hc.marked l hl hx] at hfree
    cases hfree
  have hcand : ∀ z ∈ zs, z.1 ∈ candidates (st.seqs s).entries (st.seqs d).entries srcStream
      dstStream p0 p1 := fun z hm =>
    mem_of_mem_drop (hz.fst ▸ mem_map_of_mem hm : z.1 ∈ List.drop _ _)
  have hrange : ∀ z ∈ zs, (z.1.entry.InRange p0 p1 ↔ z.1.copied = true) := by
    intro z hm
    rcases mem_candidates (hcand z hm) with ⟨hcp, hr, -⟩ | ⟨hcp, hr, -⟩
    · exact iff_of_false hr (by rw [hcp]; exact Bool.false_ne_true)
    · exact iff_of_true hr hcp
  have hdest : listOf (st₂.seqs d) = zs.map fun z => { z.1.entry with slot := z.2 } := by
    rw [hi.list, hz.destination, nil_append]
  have hcopies : a.copies = (zs.filter fun z => z.1.copied).map fun z => ⟨z.1.srcSlot, z.2⟩ := by
    rw [hz.copies, nil_append]
  have hmem : ∀ z ∈ zs, z.2 ∈ keptOrReused (st.retainedCandidates s d srcStream dstStream p0 p1).1
      (st.retainedCandidates s d srcStream dstStream p0 p1).2 ++ xs := fun z hm =>
    hz.slots.mem_iff.mp (mem_map_of_mem hm)
  have hin : ∀ z ∈ zs, InArena st.cfg d z.2 := fun z hm =>
    (mem_append.mp (hmem z hm)).elim (harena _) (hacq.arena _)
  refine ⟨hi.others, ?_, ?_, ?_, fun l hl => ?_, ?_, ?_, ?_, ?_⟩
  · rw [rows_retained hi hz]
    refine (isNewest_newest ?_ ?_).perm candidates_rows
    · rw [pairwise_map]
      exact (candidates_sorted _ _ _ _ _ _).imp fun hab => (TailEntry.le_iff _ _).mp hab
    · rw [newest_map]
      refine List.Nodup.of_map (fun r : TailRow => r.identity.key) ?_
      rw [map_map]
      exact hc.cells
  · rw [hi.list, hz.slots_perm.nodup_iff]
    exact hnd
  · rw [hdest]
    intro e he
    obtain ⟨z, hm, rfl⟩ := mem_map.mp he
    exact hin z hm
  · rw [hi.used l, hi.list, hz.slots_perm.mem_iff]
    constructor
    · rintro ⟨hu | hx, hD⟩
      · exact hD (hc.owned l hl hu)
      · exact mem_append_right _ hx
    · intro hm
      refine ⟨?_, fun _ => hm⟩
      exact (mem_append.mp hm).imp (hc.marked l hl) id
  · rw [hdest]
    intro e he hout
    obtain ⟨z, hm, rfl⟩ := mem_map.mp he
    rcases mem_candidates (hcand z hm) with ⟨hcp, -, n, hn, hne⟩ | ⟨-, hr, -⟩
    · rw [hz.kept z hm hcp]
      exact mem_map.mpr ⟨n, hn, hne⟩
    · exact absurd hr hout
  · have hf : (zs.map fun z => { z.1.entry with slot := z.2 }).filter
        (fun e => decide (e.InRange p0 p1)) =
        (zs.filter fun z => z.1.copied).map fun z => { z.1.entry with slot := z.2 } := by
      rw [filter_map]
      congr 1
      refine filter_congr fun z hm => ?_
      exact Bool.eq_iff_iff.mpr (decide_eq_true_iff.trans (hrange z hm))
    rw [hdest, hf, hcopies, List.forall₂_map_left_iff, List.forall₂_map_right_iff,
      List.forall₂_same]
    intro z hm
    obtain ⟨hm, hcp⟩ := mem_filter.mp hm
    rcases mem_candidates (hcand z hm) with ⟨hcp', -⟩ | ⟨-, -, n, hn, hst, hrow, hslot⟩
    · rw [hcp'] at hcp
      cases hcp
    · exact ⟨rfl, n, hn, hst, hrow, hslot⟩
  · rw [hcopies]
    intro c hcm c' hcm' e
    obtain ⟨z, hm, rfl⟩ := mem_map.mp hcm
    obtain ⟨z', hm', rfl⟩ := mem_map.mp hcm'
    obtain ⟨hm', hcp'⟩ := mem_filter.mp hm'
    rcases mem_candidates (hcand z' hm') with ⟨hf, -⟩ | ⟨-, -, n, hn, -, -, hslot⟩
    · rw [hf] at hcp'
      cases hcp'
    · have hsrc := (h.seq s hs).arena n hn
      have hdst := hin z (mem_of_mem_filter hm)
      have e' : z.2 = n.slot := e.trans hslot
      rw [← e'] at hsrc
      exact hne (hsrc.eq hdst)
  · rw [hcopies, hdest]
    intro c hcm e he hout hslot
    obtain ⟨z, hm, rfl⟩ := mem_map.mp hcm
    obtain ⟨hm, hcp⟩ := mem_filter.mp hm
    obtain ⟨z', hm', rfl⟩ := mem_map.mp he
    have hzs : (zs.map (·.2)).Nodup := hz.slots.nodup_iff.mpr hnd
    obtain rfl := inj_on_of_nodup_map hzs hm hm' hslot
    exact hout ((hrange z hm).mpr hcp)

end Iff

/-- From any reachable store without a pending copy: a copy that is cancelled, or that throws,
leaves all sequences as they are; and one that is committed does what it should if and only if it
is safe. -/
theorem seqCp_transaction (hr : sys.Reach (fun _ _ => True) st) (hp : st.pendingSeqCp = none)
    (hs : s < st.cfg.nSeqMax) (hd : d < st.cfg.nSeqMax) (hne : s ≠ d) :
    (∀ st₁ er, st.prepareSeqCp s d srcStream dstStream p0 p1 = (st₁, .error er) → SameSeqs st st₁) ∧
    ∀ st₁ copies, st.prepareSeqCp s d srcStream dstStream p0 p1 = (st₁, .ok copies) →
      SameSeqs st st₁.cancelSeqCp ∧
      ((∃ st₂, st₁.commitSeqCp = (st₂, .ok ()) ∧
        Copied st st₂ s d srcStream dstStream p0 p1 copies) ↔
          st.CopySafe s d srcStream dstStream p0 p1) := by
  have h : st.Inv := hr.inv (inv_inductive _)
  refine ⟨fun st₁ er e => prepareSeqCp_error hp hs hd hne e, fun st₁ copies e =>
    ⟨prepareSeqCp_cancel hp hs hd hne e, ?_⟩⟩
  obtain ⟨p, t, zs, xs, rfl, rfl, hacq, hz⟩ := prepareSeqCp_assigns hp hs hd hne e
  obtain rfl : p.acquiredSlots = xs := hz.acquired
  constructor
  · rintro ⟨st₂, e2, hc⟩
    exact (installed_commitSeqCp h hd hacq e2).copySafe hacq hz (commitSeqCp_eq rfl e2).1 hc
  · intro hc
    have hpend : ({ st.setSeq p.dst t with pendingSeqCp := some p } : TailStore).pendingSeqCp =
      some p := rfl
    obtain ⟨st₂, e2⟩ := commitSeqCp_ok hpend (hz.keys ▸ hc.cells)
    exact ⟨st₂, e2, (installed_commitSeqCp h hd hacq e2).copied h hs hd hne hacq hz hc⟩

/-- One entry for each of the two sequences. -/
def twoEntries : TailStore :=
  runOps [.commit 0 ⟨0, 0, 1⟩ 0 0 UINT32_MAX, .commit 1 ⟨0, 1, 1⟩ 5 1 UINT32_MAX] twoSeqs

theorem twoEntries_copied : ∃ st₁ st₂, twoEntries.prepareSeqCp 0 1 0 0 0 1 = (st₁, .ok [⟨0, 3⟩]) ∧
    SameSeqs twoEntries st₁.cancelSeqCp ∧ st₁.commitSeqCp = (st₂, .ok ()) ∧
    Copied twoEntries st₂ 0 1 0 0 0 1 [⟨0, 3⟩] := by
  have hr : sys.Reach (fun _ _ => True) twoEntries :=
    reach_runOps (.init twoSeqs_init) ⟨rfl, rfl, trivial, rfl, rfl, trivial, trivial⟩
  have e : twoEntries.prepareSeqCp 0 1 0 0 0 1 =
      ((twoEntries.prepareSeqCp 0 1 0 0 0 1).1, .ok [⟨0, 3⟩]) := Prod.ext rfl rfl
  have hsafe : twoEntries.CopySafe 0 1 0 0 0 1 := ⟨by decide, by decide, by decide, by decide⟩
  obtain ⟨hcancel, hiff⟩ :=
    (seqCp_transaction hr rfl (by decide) (by decide) (by decide)).2 _ _ e
  obtain ⟨st₂, e2, hc⟩ := hiff.mpr hsafe
  exact ⟨_, st₂, e, hcancel, e2, hc⟩

/-- The destination has an entry whose slot is not marked: it lost the entry between the two calls
of an earlier copy. -/
theorem not_seqCp_transaction : ¬ ∀ st s d srcStream dstStream p0 p1,
    sys.Reach (fun _ _ => True) st → st.pendingSeqCp = none → s < st.cfg.nSeqMax →
    d < st.cfg.nSeqMax → s ≠ d → ∀ st₁ copies,
    st.prepareSeqCp s d srcStream dstStream p0 p1 = (st₁, .ok copies) →
    SameSeqs st st₁.cancelSeqCp ∧ ∃ st₂, st₁.commitSeqCp = (st₂, .ok ()) ∧
      Copied st st₂ s d srcStream dstStream p0 p1 copies := by
  intro h
  have hr : sys.Reach (fun _ _ => True)
      (runOps (copyOps ++ [.seqRm 1 5 6, .commitSeqCp]) twoSeqs) :=
    reach_runOps (.init twoSeqs_init)
      ⟨rfl, rfl, trivial, rfl, rfl, trivial, rfl, rfl, trivial, rfl, rfl, trivial, rfl, rfl,
        trivial, trivial⟩
  obtain ⟨-, st₂, e2, hc⟩ := h _ 0 1 0 0 10 11 hr rfl (by decide) (by decide) (by decide)
    _ _ (Prod.ext rfl rfl)
  have hst : st₂ = _ := (congrArg Prod.fst e2).symm
  have hu := (hc.used 0 (by decide)).mpr (by rw [hst]; decide)
  rw [hst] at hu
  exact absurd hu (by decide)

end Transaction

end BeeLlama.TailStore
