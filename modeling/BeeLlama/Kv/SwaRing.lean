import BeeLlama.Kv.ReadPlan
import BeeLlama.Lib.ByteReader

/-!
# The record ring of a sliding window (`kvarn_record_groups_per_stream`)

With a sliding window the record of a group of 128 positions is in slot `group % depth` of a ring.
A record is written when its group is complete; the group that is not complete yet is in the stage.

* `recordGroups_ge`: the depth covers the window and a ubatch.
* `SwaStep.apart`: a group that is complete after a ubatch shares its slot with no group that the
  ubatch needs.
* `copyGroups_spec`: the loop of `read_kvarn_swa_records`.
* `SavedRing.restores`: the groups that a restore retains, and where they go.
-/

namespace BeeLlama

open List Nat

/-! ## The depth -/

/-- `kvarn_swa_visible_groups`. -/
def kvarnSwaVisibleGroups (kvSize nSwa : Nat) : Nat :=
  let windowCells := if nSwa > 0 then min kvSize nSwa else kvSize
  u32 (windowCells + KVAR_N_GROUP - 1) / KVAR_N_GROUP + 1

/-- `kvarn_record_groups_per_stream`. -/
def kvarnRecordGroupsPerStream (kvSize nUbatch nSwa : Nat) (isSwa : Bool) : Nat :=
  if !isSwa then u32 (kvSize + KVAR_N_GROUP - 1) / KVAR_N_GROUP
  else
    let visibleGroups := kvarnSwaVisibleGroups kvSize nSwa
    let inFlightGroups := max 1 (u32 (nUbatch + KVAR_N_GROUP - 1) / KVAR_N_GROUP)
    max 1 (visibleGroups + inFlightGroups - 1)

/-- The roundings of the depth do not wrap around. -/
def DepthFits (kvSize nSwa nUbatch : Nat) : Prop :=
  min kvSize nSwa + KVAR_N_GROUP - 1 < 2 ^ 32 ∧ nUbatch + KVAR_N_GROUP - 1 < 2 ^ 32

theorem recordGroups_ge {kvSize nSwa nUbatch : Nat} (hn : 0 < nSwa)
    (h : DepthFits kvSize nSwa nUbatch) :
    min kvSize nSwa + max 1 nUbatch ≤
      kvarnRecordGroupsPerStream kvSize nUbatch nSwa true * KVAR_N_GROUP := by
  obtain ⟨hw, hu⟩ := h
  simp only [kvarnRecordGroupsPerStream, kvarnSwaVisibleGroups, Bool.not_true, Bool.false_eq_true,
    if_false, if_pos hn, u32, mod_eq_of_lt hw, mod_eq_of_lt hu]
  simp only [KVAR_N_GROUP] at hw hu ⊢
  omega

/-! ## Runs on one stream -/

/-- The positions `first .. next` of a stream are in its cells. -/
structure SwaSpan where
  first : Nat
  next : Nat
  deriving DecidableEq, Repr

/-- A ubatch of `tokens` positions, for which the cells of the positions before `first` are used
again. -/
structure SwaUbatch where
  tokens : Nat
  first : Nat
  deriving DecidableEq, Repr

section Runs

variable {kvSize nSwa nUbatch : Nat} {swaType : SwaType}

/-- A ubatch is placed: a cell is used again only if the window of the next position masks it, and
the positions fit into the cells. -/
structure SwaStep (kvSize nSwa nUbatch : Nat) (swaType : SwaType) (st : SwaSpan) (u : SwaUbatch)
    (st' : SwaSpan) : Prop where
  pos : 0 < u.tokens
  le : u.tokens ≤ nUbatch
  ge : st.first ≤ u.first
  le_next : u.first ≤ st.next
  masked : ∀ p, st.first ≤ p → p < u.first → isMaskedSwa nSwa swaType p st.next = true
  room : st.next + u.tokens - u.first ≤ kvSize
  first_eq : st'.first = u.first
  next_eq : st'.next = st.next + u.tokens

/-- Contiguous ubatches on one stream, which starts empty at some position. -/
def swaSys (kvSize nSwa nUbatch : Nat) (swaType : SwaType) : Sys SwaSpan SwaUbatch where
  init st := st.first = st.next
  step := SwaStep kvSize nSwa nUbatch swaType

/-- The group has a position that the ubatch writes, or one in the cells that a query of the ubatch
sees. -/
def NeededGroup (nSwa : Nat) (swaType : SwaType) (st st' : SwaSpan) (g : Nat) : Prop :=
  ∃ p, st'.first ≤ p ∧ p < st'.next ∧ p / KVAR_N_GROUP = g ∧
    (st.next ≤ p ∨ ∃ q, st.next ≤ q ∧ q < st'.next ∧ isMaskedSwa nSwa swaType p q = false)

/-- All positions of the group have been written. -/
def CompleteGroup (st' : SwaSpan) (g : Nat) : Prop := (g + 1) * KVAR_N_GROUP ≤ st'.next

/-- What a query sees is inside the window. -/
theorem window_of_visible (hn : 0 < nSwa) (ht : swaType ≠ .none) {p q : Nat}
    (h : isMaskedSwa nSwa swaType p q = false) : q < p + nSwa := by
  cases swaType with
  | none => exact absurd rfl ht
  | standard =>
    have := of_decide_eq_false h
    omega
  | chunked =>
    have := of_decide_eq_false h
    have hq := div_add_mod' q nSwa
    have hlt := mod_lt q hn
    rw [Int.toNat_natCast] at this
    omega
  | symmetric =>
    have := of_decide_eq_false h
    omega

/-- Two groups that a ubatch needs have different slots if the later one is complete after it. -/
theorem SwaStep.apart (hn : 0 < nSwa) (ht : swaType ≠ .none)
    (hfit : DepthFits kvSize nSwa nUbatch) {st st' : SwaSpan} {u : SwaUbatch}
    (hs : SwaStep kvSize nSwa nUbatch swaType st u st') {g g' : Nat}
    (hg : NeededGroup nSwa swaType st st' g) (hlt : g < g') (hc : CompleteGroup st' g') :
    g % kvarnRecordGroupsPerStream kvSize nUbatch nSwa true ≠
      g' % kvarnRecordGroupsPerStream kvSize nUbatch nSwa true := by
  have hdepth := recordGroups_ge hn hfit
  generalize kvarnRecordGroupsPerStream kvSize nUbatch nSwa true = depth at hdepth ⊢
  intro he
  -- the groups are a depth apart
  have hge : g + depth ≤ g' := Nat.ModEq.add_le_of_lt he hlt
  have hmul := Nat.mul_le_mul_right KVAR_N_GROUP hge
  obtain ⟨p, hpf, hpn, rfl, hvis⟩ := hg
  have hp := div_add_mod' p KVAR_N_GROUP
  have hmod := mod_lt p (show 0 < KVAR_N_GROUP by decide)
  rw [Nat.add_mul] at hmul
  unfold CompleteGroup at hc
  rw [succ_mul] at hc
  have hroom := hs.room
  have hle := hs.le
  have hfirst := hs.first_eq
  have hnext := hs.next_eq
  rcases Nat.le_total kvSize nSwa with hkv | hkv
  · rw [Nat.min_eq_left hkv] at hdepth
    omega
  · rw [Nat.min_eq_right hkv] at hdepth
    rcases hvis with hw | ⟨q, hq, -, hm⟩
    · omega
    · have := window_of_visible hn ht hm
      omega

end Runs

/-! ## Restoring a ring -/

/-- `io.read`. -/
def ioRead (n : Nat) (input : List UInt8) : Except String (List UInt8 × List UInt8) :=
  if n ≤ input.length then .ok (input.take n, input.drop n)
  else .error "unexpectedly reached end of buffer"

/-- A write into a tensor. -/
def tensorSet (tensor : List UInt8) (offset : Nat) (data : List UInt8) :
    Except String (List UInt8) :=
  match writeFrom tensor offset data with
  | some tensor => .ok tensor
  | none => .error "tensor write out of bounds"

/-- The loop over the groups that are retained. -/
def copyGroups (saved : List UInt8) (groupBytes savedGroups currentGroups : Nat) :
    List Nat → List UInt8 → Except String (List UInt8)
  | [], tensor => .ok tensor
  | group :: groups, tensor => do
    let src := group % savedGroups
    let dst := group % currentGroups
    let tensor ← tensorSet tensor (dst * groupBytes) (slot saved groupBytes src)
    copyGroups saved groupBytes savedGroups currentGroups groups tensor

/-- The groups of the loop: `first_current .. last_complete`. -/
def retainedGroups (savedGroups currentGroups : Nat) (savedPosMax : Int) : List Nat :=
  let lastComplete := (savedPosMax + 1) / KVAR_N_GROUP - 1
  let firstSaved := max 0 (lastComplete - savedGroups + 1)
  let firstCurrent := max firstSaved (lastComplete - currentGroups + 1)
  List.range' firstCurrent.toNat (lastComplete + 1 - firstCurrent).toNat

/-- `read_kvarn_swa_records`: the tensor, and what is left of the input. -/
def readKvarnSwaRecords (groupBytes savedGroups currentGroups : Nat) (savedPosMax : Int)
    (onDevice : Bool) (tensor input : List UInt8) : Except String (List UInt8 × List UInt8) := do
  let (size, input) ← ioRead 8 input
  let savedSize := ofLe size
  if savedSize ≠ savedGroups * groupBytes then
    .error "mismatched KVarN SWA record tensor size"
  else if onDevice then
    if savedGroups ≠ currentGroups then
      .error "on-device KVarN SWA state cannot remap record-ring depth"
    else do
      let (data, input) ← ioRead savedSize input
      let tensor ← tensorSet tensor 0 data
      return (tensor, input)
  else do
    let (saved, input) ← ioRead savedSize input
    let tensor := List.replicate tensor.length 0
    if savedPosMax < KVAR_N_GROUP - 1 then return (tensor, input)
    else do
      let tensor ← copyGroups saved groupBytes savedGroups currentGroups
        (retainedGroups savedGroups currentGroups savedPosMax) tensor
      return (tensor, input)

/-- The number of complete groups when the highest position is `savedPosMax`. -/
def completedGroups (savedPosMax : Int) : Nat := ((savedPosMax + 1) / KVAR_N_GROUP).toNat

/-- The group is one of the newest `n` complete ones. -/
def NewestGroup (savedPosMax : Int) (n g : Nat) : Prop :=
  g < completedGroups savedPosMax ∧ completedGroups savedPosMax ≤ g + n

section Restore

variable {groupBytes savedGroups currentGroups : Nat} {savedPosMax : Int}
  {saved tensor : List UInt8}

theorem mem_retainedGroups (h0 : 0 ≤ savedPosMax) {g : Nat} :
    g ∈ retainedGroups savedGroups currentGroups savedPosMax ↔
      NewestGroup savedPosMax (min savedGroups currentGroups) g := by
  unfold retainedGroups NewestGroup completedGroups
  rw [mem_range'_1]
  generalize (savedPosMax + 1) / KVAR_N_GROUP = c at *
  omega

/-- Groups that are retained have different slots. -/
theorem retainedGroups_slots : (retainedGroups savedGroups currentGroups savedPosMax).Pairwise
      fun a b => a % currentGroups ≠ b % currentGroups := by
  unfold retainedGroups
  generalize (savedPosMax + 1) / KVAR_N_GROUP - 1 = c
  refine List.Pairwise.imp_of_mem ?_ pairwise_lt_range'
  intro a b ha hb hlt he
  have h1 := mem_range'_1.mp ha
  have h2 := mem_range'_1.mp hb
  have := Nat.ModEq.add_le_of_lt he hlt
  omega

/-- The loop copies each group from its slot in the saved ring to its slot in the current one. -/
theorem copyGroups_spec (hs : saved.length = savedGroups * groupBytes) {groups : List Nat}
    (hsav : groups ≠ [] → 0 < savedGroups) (hcur : groups ≠ [] → 0 < currentGroups)
    (hd : groups.Pairwise fun a b => a % currentGroups ≠ b % currentGroups)
    (ht : tensor.length = currentGroups * groupBytes) :
    ∃ tensor', copyGroups saved groupBytes savedGroups currentGroups groups tensor = .ok tensor' ∧
      tensor'.length = tensor.length ∧
      (∀ g ∈ groups, slot tensor' groupBytes (g % currentGroups) =
        slot saved groupBytes (g % savedGroups)) ∧
      ∀ i, (∀ g ∈ groups, g % currentGroups ≠ i) →
        slot tensor' groupBytes i = slot tensor groupBytes i := by
  induction groups generalizing tensor with
  | nil =>
    exact ⟨tensor, rfl, rfl, fun g hg => absurd hg not_mem_nil, fun i _ => rfl⟩
  | cons g groups ih =>
    obtain ⟨hne, hd⟩ := pairwise_cons.mp hd
    have hsav' := hsav (cons_ne_nil g groups)
    have hcur' := hcur (cons_ne_nil g groups)
    have hsrc : (slot saved groupBytes (g % savedGroups)).length = groupBytes := by
      refine slot_length ?_
      rw [hs]
      exact Nat.mul_le_mul_right _ (mod_lt g hsav')
    have hdst : (g % currentGroups + 1) * groupBytes ≤ tensor.length := by
      rw [ht]
      exact Nat.mul_le_mul_right _ (mod_lt g hcur')
    obtain ⟨tensor₁, h1, hlen1, hself, hother⟩ := slot_writeFrom hsrc hdst
    obtain ⟨tensor₂, h2, hlen2, hin, hout⟩ :=
      ih (fun _ => hsav') (fun _ => hcur') hd (hlen1.trans ht)
    refine ⟨tensor₂, ?_, hlen2.trans hlen1, fun g' hg' => ?_, fun i hi => ?_⟩
    · simp only [copyGroups, tensorSet, h1]
      exact h2
    · rcases mem_cons.mp hg' with rfl | hg'
      · rw [hout _ fun g hg => (hne g hg).symm, hself]
      · exact hin g' hg'
    · obtain ⟨hgi, hi⟩ := forall_mem_cons.mp hi
      rw [hout i hi, hother i (Ne.symm hgi)]

end Restore

/-- The saved rings that a restore takes: of their size, and of the current depth on the device. -/
structure SavedRing (groupBytes savedGroups currentGroups : Nat) (onDevice : Bool)
    (tensor saved : List UInt8) : Prop where
  size : savedGroups * groupBytes < 2 ^ 64
  saved_length : saved.length = savedGroups * groupBytes
  tensor_length : tensor.length = currentGroups * groupBytes
  device : onDevice = true → savedGroups = currentGroups

/-- A restore of a ring: it takes exactly the bytes of the saved ring, the newest groups that both
rings have go from their slots in the saved ring to their slots in the current one, and when the
ring is read from the host the other slots are zero. -/
def RestoresRing (groupBytes savedGroups currentGroups : Nat) (savedPosMax : Int) (onDevice : Bool)
    (tensor saved rest : List UInt8) : Prop :=
  ∃ tensor', readKvarnSwaRecords groupBytes savedGroups currentGroups savedPosMax onDevice tensor
      (le 8 (savedGroups * groupBytes) ++ saved ++ rest) = .ok (tensor', rest) ∧
    tensor'.length = tensor.length ∧
    (∀ g, NewestGroup savedPosMax (min savedGroups currentGroups) g →
      slot tensor' groupBytes (g % currentGroups) = slot saved groupBytes (g % savedGroups)) ∧
    (onDevice = false → ∀ i < currentGroups,
      (∀ g, NewestGroup savedPosMax (min savedGroups currentGroups) g → g % currentGroups ≠ i) →
        slot tensor' groupBytes i = List.replicate groupBytes 0)

section Restore

variable {groupBytes savedGroups currentGroups : Nat} {savedPosMax : Int} {onDevice : Bool}
  {saved tensor rest : List UInt8}

theorem ioRead_append (data rest : List UInt8) :
    ioRead data.length (data ++ rest) = .ok (data, rest) := by
  rw [ioRead, if_pos (by rw [length_append]; omega), take_left, drop_left]

/-- Before group `0` is complete nothing is retained. -/
theorem not_newestGroup (h : savedPosMax < KVAR_N_GROUP - 1) {n g : Nat} :
    ¬NewestGroup savedPosMax n g := by
  rintro ⟨hlt, -⟩
  have : (savedPosMax + 1) / KVAR_N_GROUP < 1 := Int.ediv_lt_of_lt_mul (by decide) (by omega)
  unfold completedGroups at hlt
  omega

theorem SavedRing.restores (h : SavedRing groupBytes savedGroups currentGroups onDevice tensor
      saved) :
    RestoresRing groupBytes savedGroups currentGroups savedPosMax onDevice tensor saved rest := by
  obtain ⟨h64, hs, ht, hdev⟩ := h
  have hsize : ioRead 8 (le 8 (savedGroups * groupBytes) ++ saved ++ rest) =
      .ok (le 8 (savedGroups * groupBytes), saved ++ rest) := by
    have := ioRead_append (le 8 (savedGroups * groupBytes)) (saved ++ rest)
    rwa [length_le, ← append_assoc] at this
  have hof : ofLe (le 8 (savedGroups * groupBytes)) = savedGroups * groupBytes := by
    rw [ofLe_le_mod]
    exact mod_eq_of_lt h64
  have hread : ioRead (savedGroups * groupBytes) (saved ++ rest) = .ok (saved, rest) := by
    rw [← hs]
    exact ioRead_append saved rest
  unfold RestoresRing
  simp only [readKvarnSwaRecords, hsize, bind, Except.bind, hof, ne_eq, not_true, if_false, hread]
  cases onDevice with
  | true =>
    obtain rfl := hdev rfl
    have hset : tensorSet tensor 0 saved = .ok saved := by
      rw [tensorSet, writeFrom_eq (by omega)]
      simp [hs, ht]
    simp only [hset, not_true, if_true, if_false]
    exact ⟨saved, rfl, hs.trans ht.symm, fun g _ => rfl, fun h => absurd h (by decide)⟩
  | false =>
    simp only [Bool.false_eq_true, if_false]
    by_cases hpos : savedPosMax < KVAR_N_GROUP - 1
    · rw [if_pos hpos]
      refine ⟨_, rfl, length_replicate, fun g hg => absurd hg (not_newestGroup hpos),
        fun _ i hi _ => slot_replicate _ ?_⟩
      rw [ht]
      exact Nat.mul_le_mul_right _ hi
    · have h0 : 0 ≤ savedPosMax := by
        have : (0 : Int) < KVAR_N_GROUP := by decide
        omega
      have hnew : ∀ g ∈ retainedGroups savedGroups currentGroups savedPosMax,
          0 < savedGroups ∧ 0 < currentGroups := fun g hg => by
        obtain ⟨h1, h2⟩ := (mem_retainedGroups h0).mp hg
        omega
      have hne : retainedGroups savedGroups currentGroups savedPosMax ≠ [] →
          0 < savedGroups ∧ 0 < currentGroups := fun hne => by
        obtain ⟨g, hg⟩ := exists_mem_of_ne_nil _ hne
        exact hnew g hg
      obtain ⟨tensor', hc, hlen, hin, hout⟩ := @copyGroups_spec groupBytes savedGroups
        currentGroups saved (List.replicate tensor.length 0) hs _ (fun h => (hne h).1)
        (fun h => (hne h).2) (@retainedGroups_slots savedGroups currentGroups savedPosMax)
        (length_replicate.trans ht)
      rw [if_neg hpos, hc]
      refine ⟨tensor', rfl, hlen.trans length_replicate,
        fun g hg => hin g ((mem_retainedGroups h0).mpr hg), fun _ i hi hi' => ?_⟩
      rw [hout i fun g hg => hi' g ((mem_retainedGroups h0).mp hg)]
      refine slot_replicate _ ?_
      rw [ht]
      exact Nat.mul_le_mul_right _ hi

end Restore

/-- In every run each ubatch leaves its complete groups in slots of their own, and a restore takes
the newest groups to their slots. -/
theorem swaRing_holds {kvSize nSwa nUbatch : Nat} {swaType : SwaType} (hn : 0 < nSwa)
    (ht : swaType ≠ .none) (hfit : DepthFits kvSize nSwa nUbatch) :
    (∀ st, (swaSys kvSize nSwa nUbatch swaType).Reach (fun _ _ => True) st →
      ∀ u st', SwaStep kvSize nSwa nUbatch swaType st u st' →
        ∀ g g', NeededGroup nSwa swaType st st' g → NeededGroup nSwa swaType st st' g' → g < g' →
          CompleteGroup st' g' →
          g % kvarnRecordGroupsPerStream kvSize nUbatch nSwa true ≠
            g' % kvarnRecordGroupsPerStream kvSize nUbatch nSwa true) ∧
    (∀ groupBytes savedGroups currentGroups savedPosMax onDevice tensor saved rest,
      SavedRing groupBytes savedGroups currentGroups onDevice tensor saved →
        RestoresRing groupBytes savedGroups currentGroups savedPosMax onDevice tensor saved rest) :=
  ⟨fun _ _ _ _ hs _ _ hg _ hlt hc => hs.apart hn ht hfit hg hlt hc,
    fun _ _ _ _ _ _ _ _ h => h.restores⟩

/-- A window and ubatches of 128 positions. -/
theorem swaRing_holds_small : (∀ st, (swaSys 512 128 128 .standard).Reach (fun _ _ => True) st →
      ∀ u st', SwaStep 512 128 128 .standard st u st' →
        ∀ g g', NeededGroup 128 .standard st st' g → NeededGroup 128 .standard st st' g' → g < g' →
          CompleteGroup st' g' →
          g % kvarnRecordGroupsPerStream 512 128 128 true ≠
            g' % kvarnRecordGroupsPerStream 512 128 128 true) ∧
    (∀ groupBytes savedGroups currentGroups savedPosMax onDevice tensor saved rest,
      SavedRing groupBytes savedGroups currentGroups onDevice tensor saved →
        RestoresRing groupBytes savedGroups currentGroups savedPosMax onDevice tensor saved rest) :=
  swaRing_holds (by decide) (by decide) ⟨by decide, by decide⟩

/-- With a window and ubatches of 128 positions the depth is two, and the ubatch of the positions
`228 .. 355` needs the groups `0`, `1` and `2`. -/
theorem not_all_needed_apart : ¬∀ st, (swaSys 512 128 128 .standard).Reach (fun _ _ => True) st →
    ∀ u st', SwaStep 512 128 128 .standard st u st' →
      ∀ g g', NeededGroup 128 .standard st st' g → NeededGroup 128 .standard st st' g' → g < g' →
        g % kvarnRecordGroupsPerStream 512 128 128 true ≠
          g' % kvarnRecordGroupsPerStream 512 128 128 true := by
  intro h
  have hstep : ∀ n next, 0 < n → n ≤ 128 → next + n ≤ 512 →
      SwaStep 512 128 128 .standard ⟨0, next⟩ ⟨n, 0⟩ ⟨0, next + n⟩ := fun n next h1 h2 h3 =>
    ⟨h1, h2, Nat.le_refl 0, Nat.zero_le _, fun p _ hp => absurd hp (Nat.not_lt_zero p), h3,
      rfl, rfl⟩
  have h0 : (swaSys 512 128 128 .standard).Reach (fun _ _ => True) ⟨0, 0⟩ := .init rfl
  have h1 : (swaSys 512 128 128 .standard).Reach (fun _ _ => True) ⟨0, 100⟩ :=
    .step h0 (fun _ h => h.elim) (hstep 100 0 (by decide) (by decide) (by decide)) trivial
  have h2 : (swaSys 512 128 128 .standard).Reach (fun _ _ => True) ⟨0, 228⟩ :=
    .step h1 (fun _ h => h.elim) (hstep 128 100 (by decide) (by decide) (by decide)) trivial
  refine h ⟨0, 228⟩ h2 ⟨128, 0⟩ ⟨0, 356⟩ (hstep 128 228 (by decide) (by decide) (by decide)) 0 2
    ⟨110, by decide, by decide, by decide, .inr ⟨228, by decide, by decide, by decide⟩⟩
    ⟨300, by decide, by decide, by decide, .inl (by decide)⟩ (by decide) (by decide)

end BeeLlama
