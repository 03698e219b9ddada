import BeeLlama.Lib.Run
import BeeLlama.Server.Tokens
import Mathlib.Algebra.Order.BigOperators.Group.Finset

/-!
# The prompt cache in memory (`server_prompt_cache`)

The cache keeps prompts with their serialized states, the oldest one first. A prompt that is
admitted replaces the prompts that it begins with, and old prompts are dropped until the payload is
within the limit.

* `PromptCache`: the operations. Buffers of checkpoints are shared, and are given by their storage.
* `payload`: the payload with every storage counted once. `accountedSize_eq` says that it is what
  `accounted_size` counts.
* `admit_cases`: what an admission does.
* `promptCache_sound`: the invariants of every run, and every insertion in it.
-/

namespace BeeLlama.Server

open List

/-- `common_prompt_checkpoint`, as far as the cache reads it: the storage of `data_tgt` and of
`data_dft`, and `data_spec`. -/
structure PromptCheckpoint where
  dataTgt : Nat
  dataDft : Nat
  dataSpec : List UInt8 := []
  deriving DecidableEq, Repr

/-- `server_prompt`. -/
structure ServerPrompt (hasMtmd : Bool) where
  tokens : ServerTokens hasMtmd
  checkpoints : List PromptCheckpoint := []
  deriving DecidableEq

/-- `server_prompt_data`. -/
structure PromptData where
  main : List UInt8 := []
  drft : List UInt8 := []
  spec : List UInt8 := []
  deriving DecidableEq, Repr

/-- `server_prompt_data::size`. -/
def PromptData.size (d : PromptData) : Nat := d.main.length + d.drft.length + d.spec.length

/-- `server_prompt_cache_state`. -/
structure CacheState (hasMtmd : Bool) where
  prompt : ServerPrompt hasMtmd
  data : PromptData := {}
  deriving DecidableEq

/-- `server_prompt_cache`: the nodes of the list with their addresses, and the next address. -/
structure PromptCache (hasMtmd : Bool) where
  states : List (Nat × CacheState hasMtmd) := []
  nextNode : Nat := 0
  limitSize : Nat
  limitTokens : Nat
  admissionAttempts : Nat := 0
  admissionSuccesses : Nat := 0
  admissionFailures : Nat := 0
  deriving DecidableEq

section Sizes

variable (storageSize : Nat → Nat) {hasMtmd : Bool}

/-- `common_prompt_checkpoint::size`. -/
def PromptCheckpoint.size (ckpt : PromptCheckpoint) : Nat :=
  storageSize ckpt.dataTgt + storageSize ckpt.dataDft + ckpt.dataSpec.length

/-- `server_prompt_cache_state::accounted_size`. -/
def CacheState.accountedSize (s : CacheState hasMtmd) : Nat :=
  s.prompt.checkpoints.foldl (fun res ckpt => res + ckpt.size storageSize) s.data.size

/-- A buffer that is not empty is counted if its storage is new. -/
def countBuffer (acc : Nat × List Nat) (storage : Nat) : Nat × List Nat :=
  if storageSize storage ≠ 0 ∧ storage ∉ acc.2 then
    (acc.1 + storageSize storage, storage :: acc.2)
  else acc

/-- A checkpoint is counted. -/
def countCheckpoint (acc : Nat × List Nat) (ckpt : PromptCheckpoint) : Nat × List Nat :=
  let acc := countBuffer storageSize (countBuffer storageSize acc ckpt.dataTgt) ckpt.dataDft
  (acc.1 + ckpt.dataSpec.length, acc.2)

/-- An entry is counted. -/
def countState (acc : Nat × List Nat) (s : CacheState hasMtmd) : Nat × List Nat :=
  s.prompt.checkpoints.foldl (countCheckpoint storageSize) (acc.1 + s.data.size, acc.2)

/-- `server_prompt_cache::accounted_size`. -/
def accountedSize (states : List (CacheState hasMtmd)) : Nat :=
  (states.foldl (countState storageSize) (0, [])).1

end Sizes

/-- `while (!states.empty() && ...) states.pop_front()`. -/
def popWhile {α : Type} (full : List α → Bool) : List α → List α
  | [] => []
  | s :: states => if full (s :: states) then popWhile full states else s :: states

namespace PromptCache

variable (storageSize : Nat → Nat) {hasMtmd : Bool}

/-- `accounted_size`. -/
def accounted (states : List (Nat × CacheState hasMtmd)) : Nat :=
  accountedSize storageSize (states.map Prod.snd)

/-- `n_tokens`. -/
def nTokens (states : List (Nat × CacheState hasMtmd)) : Nat :=
  (states.map fun s => s.2.prompt.tokens.size).sum

/-- The storage of the checkpoints of the entries. -/
def retainedStorage (c : PromptCache hasMtmd) : List Nat :=
  c.states.flatMap fun s => s.2.prompt.checkpoints.flatMap fun ckpt => [ckpt.dataTgt, ckpt.dataDft]

/-- An admission that fails. -/
def fail (c : PromptCache hasMtmd) : Option Nat × PromptCache hasMtmd :=
  (none, { c with
    admissionAttempts := c.admissionAttempts + 1
    admissionFailures := c.admissionFailures + 1 })

/-- `admit`: the address of the entry and the cache. `allocated` says whether the list node can be
allocated. -/
def admitEntry (c : PromptCache hasMtmd) (candidate : CacheState hasMtmd) (allocated : Bool) :
    Option Nat × PromptCache hasMtmd :=
  if c.states.any fun s =>
      s.2.prompt.tokens.commonPrefix candidate.prompt.tokens = candidate.prompt.tokens.size then
    c.fail
  else
    let checkpointsSize :=
      (candidate.prompt.checkpoints.foldl (countCheckpoint storageSize) (0, c.retainedStorage)).1
    let stateSizeNew := candidate.data.size + checkpointsSize
    let standaloneSize := candidate.accountedSize storageSize
    if 0 < c.limitSize ∧ (c.limitSize < stateSizeNew ∨ c.limitSize < standaloneSize) then c.fail
    else if !allocated then c.fail
    else
      let states := (c.states.filter fun s =>
        s.2.prompt.tokens.commonPrefix candidate.prompt.tokens ≠ s.2.prompt.tokens.size) ++
          [(c.nextNode, candidate)]
      let states :=
        if 0 < c.limitSize then popWhile (fun s => c.limitSize < accounted storageSize s) states
        else states
      (some c.nextNode, { c with
        states
        nextNode := c.nextNode + 1
        admissionAttempts := c.admissionAttempts + 1
        admissionSuccesses := c.admissionSuccesses + 1 })

/-- `insert`. -/
def insert (c : PromptCache hasMtmd) (prompt : ServerPrompt hasMtmd) (data : PromptData)
    (allocated : Bool) : Option Nat × PromptCache hasMtmd :=
  c.admitEntry storageSize { prompt, data } allocated

/-- `alloc`; `resized` says whether the data can be allocated. -/
def alloc (c : PromptCache hasMtmd) (prompt : ServerPrompt hasMtmd)
    (stateSizeTgt stateSizeDft : Nat)
    (resized allocated : Bool) : Option Nat × PromptCache hasMtmd :=
  if !resized then c.fail
  else c.insert storageSize prompt
    { main := List.replicate stateSizeTgt 0, drft := List.replicate stateSizeDft 0 } allocated

/-- `erase`. -/
def erase (c : PromptCache hasMtmd) (entry : Nat) : Bool × PromptCache hasMtmd :=
  (c.states.any fun s => s.1 = entry, { c with states := c.states.eraseP fun s => s.1 = entry })

/-- `update`; `estimate` is `limit_size/size_per_token`, which is a `float` before the cast. -/
def update (c : PromptCache hasMtmd) (estimate : Nat) : PromptCache hasMtmd :=
  let states :=
    if 0 < c.limitSize then popWhile (fun s => c.limitSize < accounted storageSize s) c.states
    else c.states
  let limitTokensCur := if 0 < c.limitSize then max c.limitTokens estimate else c.limitTokens
  let states :=
    if 0 < c.limitTokens then popWhile (fun s => limitTokensCur < nTokens s) states else states
  { c with states }

end PromptCache

/-- The calls. -/
inductive CacheOp (hasMtmd : Bool) where
  | insert (prompt : ServerPrompt hasMtmd) (data : PromptData) (allocated : Bool)
  | alloc (prompt : ServerPrompt hasMtmd) (stateSizeTgt stateSizeDft : Nat)
      (resized allocated : Bool)
  | erase (entry : Nat)
  | update (estimate : Nat)

/-- The cache after a call. -/
def PromptCache.step (storageSize : Nat → Nat) {hasMtmd : Bool} (c : PromptCache hasMtmd) :
    CacheOp hasMtmd → PromptCache hasMtmd
  | .insert prompt data allocated => (c.insert storageSize prompt data allocated).2
  | .alloc prompt n m resized allocated => (c.alloc storageSize prompt n m resized allocated).2
  | .erase entry => (c.erase entry).2
  | .update estimate => c.update storageSize estimate

/-- The runs of a cache with any limits. -/
def cacheSys (storageSize : Nat → Nat) (hasMtmd : Bool) :
    Sys (PromptCache hasMtmd) (CacheOp hasMtmd) where
  init c := ∃ limitSize limitTokens, c = { limitSize, limitTokens }
  step c op c' := c' = c.step storageSize op

/-! ## The payload -/

section Payload

variable (storageSize : Nat → Nat) {hasMtmd : Bool}

/-- The storage of the buffers of a list of checkpoints. -/
def checkpointBuffers (ckpts : List PromptCheckpoint) : List Nat :=
  ckpts.flatMap fun ckpt => [ckpt.dataTgt, ckpt.dataDft]

/-- The storage of the buffers of some entries. -/
def buffers (states : List (CacheState hasMtmd)) : List Nat :=
  states.flatMap fun s => checkpointBuffers s.prompt.checkpoints

/-- What an entry has for itself. -/
def ownSize (s : CacheState hasMtmd) : Nat :=
  s.data.size + (s.prompt.checkpoints.map fun ckpt => ckpt.dataSpec.length).sum

/-- The payload of some entries, with every storage counted once. -/
def payload (states : List (CacheState hasMtmd)) : Nat :=
  (states.map ownSize).sum + ∑ b ∈ (buffers states).toFinset, storageSize b

/-- What was counted: the size of something else and that of the storage that was seen. -/
structure Counted (acc : Nat × List Nat) (base : Nat) (seen : List Nat) : Prop where
  sum : acc.1 = base + ∑ b ∈ seen.toFinset, storageSize b
  seen_of_mem : ∀ b ∈ acc.2, b ∈ seen
  mem_of_seen : ∀ b ∈ seen, storageSize b ≠ 0 → b ∈ acc.2

variable {storageSize} {acc : Nat × List Nat} {base : Nat} {seen : List Nat}

theorem Counted.add (h : Counted storageSize acc base seen) (n : Nat) :
    Counted storageSize (acc.1 + n, acc.2) (base + n) seen :=
  ⟨by rw [h.sum]; exact Nat.add_right_comm _ _ _, h.seen_of_mem, h.mem_of_seen⟩

theorem Counted.buffer (h : Counted storageSize acc base seen) (b : Nat) :
    Counted storageSize (countBuffer storageSize acc b) base (seen ++ [b]) := by
  have hfin : (seen ++ [b]).toFinset = insert b seen.toFinset := by
    rw [toFinset_append, Finset.union_comm]
    rfl
  unfold countBuffer
  split
  · next hnew =>
    have hb : b ∉ seen.toFinset := fun hb =>
      hnew.2 (h.mem_of_seen b (mem_toFinset.mp hb) hnew.1)
    refine ⟨?_, fun b' hb' => ?_, fun b' hb' hne => ?_⟩
    · rw [hfin, Finset.sum_insert hb, h.sum]
      omega
    · rcases mem_cons.mp hb' with rfl | hb'
      · exact mem_append_right _ mem_cons_self
      · exact mem_append_left _ (h.seen_of_mem b' hb')
    · rcases mem_append.mp hb' with hb' | hb'
      · exact mem_cons_of_mem _ (h.mem_of_seen b' hb' hne)
      · exact mem_singleton.mp hb' ▸ mem_cons_self
  · next hold =>
    refine ⟨?_, fun b' hb' => mem_append_left _ (h.seen_of_mem b' hb'), fun b' hb' hne => ?_⟩
    · rw [hfin, Finset.sum_insert_of_eq_zero_if_notMem fun hb => ?_, h.sum]
      by_contra hne
      exact hb (mem_toFinset.mpr (h.seen_of_mem b (by_contra fun hn => hold ⟨hne, hn⟩)))
    · rcases mem_append.mp hb' with hb' | hb'
      · exact h.mem_of_seen b' hb' hne
      · obtain rfl := mem_singleton.mp hb'
        exact by_contra fun hn => hold ⟨hne, hn⟩

theorem Counted.checkpoints (h : Counted storageSize acc base seen)
    (ckpts : List PromptCheckpoint) :
    Counted storageSize (ckpts.foldl (countCheckpoint storageSize) acc)
      (base + (ckpts.map fun ckpt => ckpt.dataSpec.length).sum)
      (seen ++ checkpointBuffers ckpts) := by
  induction ckpts generalizing acc base seen with
  | nil => simpa [checkpointBuffers] using h
  | cons ckpt ckpts ih =>
    have := ih (((h.buffer ckpt.dataTgt).buffer ckpt.dataDft).add ckpt.dataSpec.length)
    rw [map_cons, sum_cons, ← Nat.add_assoc]
    simpa [checkpointBuffers, countCheckpoint] using this

theorem Counted.states (h : Counted storageSize acc base seen)
    (states : List (CacheState hasMtmd)) :
    Counted storageSize (states.foldl (countState storageSize) acc)
      (base + (states.map ownSize).sum)
      (seen ++ buffers states) := by
  induction states generalizing acc base seen with
  | nil => simpa [buffers] using h
  | cons s states ih =>
    have := ih ((h.add s.data.size).checkpoints s.prompt.checkpoints)
    rw [map_cons, sum_cons, ownSize, ← Nat.add_assoc, ← Nat.add_assoc]
    simpa [buffers, countState] using this

/-- `accounted_size` counts every storage once. -/
theorem accountedSize_eq (states : List (CacheState hasMtmd)) :
    accountedSize storageSize states = payload storageSize states := by
  have h : Counted storageSize (0, []) 0 [] := ⟨by simp, by simp, by simp⟩
  have := (h.states states).sum
  rwa [Nat.zero_add, nil_append] at this

/-- Fewer entries have less payload. -/
theorem payload_mono {states states' : List (CacheState hasMtmd)} (h : states.Sublist states') :
    payload storageSize states ≤ payload storageSize states' := by
  refine Nat.add_le_add ((h.map ownSize).sum_le_sum (fun _ _ => Nat.zero_le _)) ?_
  refine Finset.sum_le_sum_of_subset fun b hb => ?_
  rw [mem_toFinset, buffers, mem_flatMap] at hb ⊢
  obtain ⟨s, hs, hb⟩ := hb
  exact ⟨s, h.subset hs, hb⟩

theorem sum_toFinset_le (f : Nat → Nat) (l : List Nat) : ∑ b ∈ l.toFinset, f b ≤ (l.map f).sum := by
  induction l with
  | nil => simp
  | cons a l ih =>
    rw [toFinset_cons, map_cons, sum_cons]
    by_cases ha : a ∈ l.toFinset
    · rw [Finset.insert_eq_of_mem ha]
      omega
    · rw [Finset.sum_insert ha]
      omega

/-- An entry alone has at most the payload that is accounted for it. -/
theorem payload_singleton_le (s : CacheState hasMtmd) :
    payload storageSize [s] ≤ s.accountedSize storageSize := by
  have hfold : ∀ (ckpts : List PromptCheckpoint) (n : Nat),
      ckpts.foldl (fun res ckpt => res + ckpt.size storageSize) n =
        n + (ckpts.map fun ckpt => ckpt.dataSpec.length).sum +
          ((checkpointBuffers ckpts).map storageSize).sum := by
    intro ckpts
    induction ckpts with
    | nil => simp [checkpointBuffers]
    | cons ckpt ckpts ih =>
      intro n
      rw [foldl_cons, ih]
      simp [checkpointBuffers, PromptCheckpoint.size]
      omega
  have hsum := sum_toFinset_le storageSize (checkpointBuffers s.prompt.checkpoints)
  rw [CacheState.accountedSize, hfold, payload]
  simp only [buffers, flatMap_cons, flatMap_nil, append_nil, map_cons,
    map_nil, sum_cons, sum_nil, Nat.add_zero, ownSize]
  omega

end Payload

/-! ## What an admission does -/

/-- The entries are popped from the front until the rest is not over the limit. -/
theorem popWhile_spec {α : Type} (full : List α → Bool) (l : List α) :
    ∃ k ≤ l.length, popWhile full l = l.drop k ∧ (∀ j < k, full (l.drop j) = true) ∧
      (l.drop k = [] ∨ full (l.drop k) = false) := by
  induction l with
  | nil => exact ⟨0, Nat.le_refl 0, rfl, fun j hj => absurd hj (Nat.not_lt_zero j), .inl rfl⟩
  | cons a l ih =>
    unfold popWhile
    split
    · next hover =>
      obtain ⟨k, hk, hpop, hlt, hdone⟩ := ih
      refine ⟨k + 1, Nat.succ_le_succ hk, hpop, fun j hj => ?_, hdone⟩
      cases j with
      | zero => exact hover
      | succ j => exact hlt j (Nat.lt_of_succ_lt_succ hj)
    · next hover =>
      exact ⟨0, Nat.zero_le _, rfl, fun j hj => absurd hj (Nat.not_lt_zero j),
        .inr (Bool.eq_false_iff.mpr hover)⟩

theorem popWhile_sublist {α : Type} (full : List α → Bool) (l : List α) :
    (popWhile full l).Sublist l := by
  obtain ⟨k, -, hpop, -⟩ := popWhile_spec full l
  exact hpop ▸ drop_sublist k l

section Admit

variable (storageSize : Nat → Nat) {hasMtmd : Bool}

/-- The entries that are not prefixes of a new one. -/
def notPrefixes (states : List (Nat × CacheState hasMtmd)) (entry : CacheState hasMtmd) :
    List (Nat × CacheState hasMtmd) :=
  states.filter fun s => ¬ s.2.prompt.tokens.IsPrefix entry.prompt.tokens

/-- `c'` is the cache `c` after `entry` was inserted at the address `p`: the entries that are
prefixes of it are gone, and of the others the oldest ones, as long as the rest is over the limit.
-/
structure Inserted (c : PromptCache hasMtmd) (entry : CacheState hasMtmd) (p : Nat)
    (c' : PromptCache hasMtmd) : Prop where
  fresh : p ∉ c.states.map Prod.fst
  mem : (p, entry) ∈ c'.states
  only_oldest : ∃ k, c'.states = (notPrefixes c.states entry).drop k ++ [(p, entry)] ∧
    ∀ j < k, 0 < c.limitSize ∧ c.limitSize <
      payload storageSize (((notPrefixes c.states entry).drop j ++ [(p, entry)]).map Prod.snd)

/-- What a call that inserts `entry` in `c` returns and leaves. -/
def AdmitSpec (c : PromptCache hasMtmd) (entry : CacheState hasMtmd)
    (r : Option Nat × PromptCache hasMtmd) : Prop :=
  match r.1 with
  | none => r.2.states = c.states
  | some p => Inserted storageSize c entry p r.2

/-- The invariants of the cache. -/
structure CacheInv (c : PromptCache hasMtmd) : Prop where
  prefix_free : c.states.Pairwise fun s s' =>
    ¬ s.2.prompt.tokens.IsPrefix s'.2.prompt.tokens ∧
      ¬ s'.2.prompt.tokens.IsPrefix s.2.prompt.tokens
  payload_le : 0 < c.limitSize → payload storageSize (c.states.map Prod.snd) ≤ c.limitSize
  attempts : c.admissionAttempts = c.admissionSuccesses + c.admissionFailures
  nodes_nodup : (c.states.map Prod.fst).Nodup
  nodes_lt : ∀ s ∈ c.states, s.1 < c.nextNode

variable {storageSize} {c : PromptCache hasMtmd}

/-- Entries may go. -/
theorem CacheInv.sublist (h : CacheInv storageSize c) {states : List (Nat × CacheState hasMtmd)}
    (hs : states.Sublist c.states) : CacheInv storageSize { c with states } where
  prefix_free := h.prefix_free.sublist hs
  payload_le hlim := Nat.le_trans (payload_mono (hs.map Prod.snd)) (h.payload_le hlim)
  attempts := h.attempts
  nodes_nodup := h.nodes_nodup.sublist (hs.map Prod.fst)
  nodes_lt s hmem := h.nodes_lt s (hs.subset hmem)

theorem CacheInv.fail (h : CacheInv storageSize c) : CacheInv storageSize c.fail.2 where
  prefix_free := h.prefix_free
  payload_le := h.payload_le
  attempts := by
    have := h.attempts
    simp only [PromptCache.fail]
    omega
  nodes_nodup := h.nodes_nodup
  nodes_lt := h.nodes_lt

/-- The eviction stops before the new entry, which is within the limit alone. -/
theorem evict_spec {limit : Nat} (kept : List (Nat × CacheState hasMtmd))
    (new : Nat × CacheState hasMtmd)
    (hnew : 0 < limit → new.2.accountedSize storageSize ≤ limit) :
    ∃ k, (if 0 < limit then
          popWhile (fun s => limit < PromptCache.accounted storageSize s) (kept ++ [new])
        else kept ++ [new]) = kept.drop k ++ [new] ∧
      (∀ j < k, 0 < limit ∧ limit < payload storageSize ((kept.drop j ++ [new]).map Prod.snd)) ∧
      (0 < limit → payload storageSize ((kept.drop k ++ [new]).map Prod.snd) ≤ limit) := by
  split
  · next hlim =>
    obtain ⟨k, hk, hpop, hover, hdone⟩ := popWhile_spec
      (fun s => decide (limit < PromptCache.accounted storageSize s)) (kept ++ [new])
    simp only [PromptCache.accounted, accountedSize_eq, decide_eq_true_eq, decide_eq_false_iff_not,
      Nat.not_lt] at hover hdone hpop
    have hle : k ≤ kept.length := by
      by_contra hgt
      have hlast := hover kept.length (Nat.lt_of_not_le hgt)
      rw [drop_left] at hlast
      have hsingle : payload storageSize [new.2] ≤ limit :=
        Nat.le_trans (payload_singleton_le new.2) (hnew hlim)
      exact absurd hlast (Nat.not_lt.mpr hsingle)
    have hdrop : ∀ {j}, j ≤ k → (kept ++ [new]).drop j = kept.drop j ++ [new] := fun hj =>
      drop_append_of_le_length (Nat.le_trans hj hle)
    refine ⟨k, ?_, fun j hj => ⟨hlim, hdrop hj.le ▸ hover j hj⟩, fun _ => ?_⟩
    · simp only [PromptCache.accounted, accountedSize_eq]
      rw [hpop, hdrop (Nat.le_refl k)]
    · rcases hdone with hnil | hdone
      · rw [hdrop (Nat.le_refl k)] at hnil
        exact absurd hnil (append_ne_nil_of_right_ne_nil _ (cons_ne_nil _ _))
      · exact hdrop (Nat.le_refl k) ▸ hdone
  · next hlim =>
    exact ⟨0, rfl, fun j hj => absurd hj (Nat.not_lt_zero j), fun h => absurd h hlim⟩

/-- The cache after `entry` was admitted and the `k` oldest of the entries that stay were evicted.
-/
def PromptCache.admitted (c : PromptCache hasMtmd) (entry : CacheState hasMtmd) (k : Nat) :
    PromptCache hasMtmd :=
  { c with
    states := (notPrefixes c.states entry).drop k ++ [(c.nextNode, entry)]
    nextNode := c.nextNode + 1
    admissionAttempts := c.admissionAttempts + 1
    admissionSuccesses := c.admissionSuccesses + 1 }

/-- What an admission does: it fails, or no entry begins with the candidate, and the oldest entries
go as long as the rest is over the limit. -/
theorem admit_cases (storageSize : Nat → Nat) (c : PromptCache hasMtmd)
    (candidate : CacheState hasMtmd) (allocated : Bool) :
    c.admitEntry storageSize candidate allocated = c.fail ∨
      (∀ s ∈ c.states, ¬ candidate.prompt.tokens.IsPrefix s.2.prompt.tokens) ∧
      ∃ k, c.admitEntry storageSize candidate allocated =
        (some c.nextNode, c.admitted candidate k) ∧
        (∀ j < k, 0 < c.limitSize ∧ c.limitSize < payload storageSize
          (((notPrefixes c.states candidate).drop j ++ [(c.nextNode, candidate)]).map Prod.snd)) ∧
        (0 < c.limitSize → payload storageSize
          ((c.admitted candidate k).states.map Prod.snd) ≤ c.limitSize) := by
  unfold PromptCache.admitEntry
  dsimp only
  split
  · exact .inl rfl
  next hold =>
  split
  · exact .inl rfl
  next hlim =>
  split
  · exact .inl rfl
  refine .inr ⟨fun s hs hpre => ?_, ?_⟩
  · exact hold (any_eq_true.mpr ⟨s, hs, decide_eq_true (s.2.prompt.tokens.commonPrefix_eq_right
      candidate.prompt.tokens |>.mpr hpre)⟩)
  · have hnew : 0 < c.limitSize → candidate.accountedSize storageSize ≤ c.limitSize := fun hpos =>
      Nat.le_of_not_lt fun hgt => hlim ⟨hpos, .inr hgt⟩
    obtain ⟨k, hevict, hover, hfits⟩ :=
      evict_spec (notPrefixes c.states candidate) (c.nextNode, candidate) hnew
    refine ⟨k, ?_, hover, hfits⟩
    rw [PromptCache.admitted, ← hevict]
    simp only [notPrefixes, ServerTokens.commonPrefix_eq_left, ne_eq]

/-- An admission keeps the invariants. -/
theorem CacheInv.admitEntry (h : CacheInv storageSize c) (candidate : CacheState hasMtmd)
    (allocated : Bool) : CacheInv storageSize (c.admitEntry storageSize candidate allocated).2 := by
  rcases admit_cases storageSize c candidate allocated with
    heq | ⟨hnot, k, heq, -, hfits⟩
  · exact heq ▸ h.fail
  rw [heq]
  have hsub : ((notPrefixes c.states candidate).drop k).Sublist c.states :=
    (drop_sublist k _).trans filter_sublist
  have hlt : ∀ s ∈ (notPrefixes c.states candidate).drop k, s.1 < c.nextNode := fun s hs =>
    h.nodes_lt s (hsub.subset hs)
  refine ⟨?_, hfits, ?_, ?_, fun s hs => ?_⟩
  · refine pairwise_append.mpr ⟨h.prefix_free.sublist hsub, pairwise_singleton _ _, ?_⟩
    intro s hs s' hs'
    obtain rfl := mem_singleton.mp hs'
    have hkept := mem_of_mem_drop hs
    exact ⟨of_decide_eq_true (mem_filter.mp hkept).2, hnot s (hsub.subset hs)⟩
  · have := h.attempts
    simp only [PromptCache.admitted]
    omega
  · simp only [PromptCache.admitted, map_append, map_cons, map_nil]
    refine nodup_append'.mpr ⟨h.nodes_nodup.sublist (hsub.map Prod.fst), nodup_singleton _, ?_⟩
    rw [disjoint_singleton]
    intro hmem
    obtain ⟨s, hs, heq⟩ := mem_map.mp hmem
    exact absurd heq (Nat.ne_of_lt (hlt s hs))
  · rcases mem_append.mp hs with hs | hs
    · exact Nat.lt_succ_of_lt (hlt s hs)
    · obtain rfl := mem_singleton.mp hs
      exact Nat.lt_succ_self _

/-- What an admission returns. -/
theorem CacheInv.admit_spec (h : CacheInv storageSize c) (candidate : CacheState hasMtmd)
    (allocated : Bool) :
    AdmitSpec storageSize c candidate (c.admitEntry storageSize candidate allocated) := by
  rcases admit_cases storageSize c candidate allocated with
    heq | ⟨-, k, heq, hover, -⟩
  · exact heq ▸ rfl
  · rw [heq]
    refine ⟨fun hmem => ?_, mem_append_right _ (mem_singleton_self _), k, rfl, hover⟩
    obtain ⟨s, hs, heq⟩ := mem_map.mp hmem
    exact absurd heq (Nat.ne_of_lt (h.nodes_lt s hs))

theorem CacheInv.alloc_spec (h : CacheInv storageSize c) (prompt : ServerPrompt hasMtmd)
    (n m : Nat) (resized allocated : Bool) :
    AdmitSpec storageSize c
      { prompt, data := { main := List.replicate n 0, drft := List.replicate m 0 } }
      (c.alloc storageSize prompt n m resized allocated) := by
  unfold PromptCache.alloc
  split
  · rfl
  · exact h.admit_spec _ allocated

/-- Every call keeps the invariants. -/
theorem CacheInv.step (h : CacheInv storageSize c) (op : CacheOp hasMtmd) :
    CacheInv storageSize (c.step storageSize op) := by
  cases op with
  | insert prompt data allocated => exact h.admitEntry { prompt, data } allocated
  | alloc prompt n m resized allocated =>
    unfold PromptCache.step PromptCache.alloc
    dsimp only
    split
    · exact h.fail
    · exact h.admitEntry _ allocated
  | erase entry => exact h.sublist eraseP_sublist
  | update estimate =>
    refine h.sublist ?_
    split_ifs
    · exact (popWhile_sublist _ _).trans (popWhile_sublist _ _)
    · exact popWhile_sublist _ _
    · exact popWhile_sublist _ _
    · exact List.Sublist.refl _

end Admit

/-! ## Runs -/

section Runs

variable {storageSize : Nat → Nat} {hasMtmd : Bool}

theorem cacheInv_inductive :
    Sys.Inductive (cacheSys storageSize hasMtmd) (fun _ _ => True) (CacheInv storageSize) where
  init := by
    rintro c ⟨limitSize, limitTokens, rfl⟩
    exact ⟨.nil, fun _ => Nat.zero_le _, rfl, .nil, fun s hs => absurd hs not_mem_nil⟩
  step c op c' h _ hstep _ := hstep ▸ h.step op

/-- In every run the cached prompts are not prefixes of each other, the payload is within the limit
and the attempts are counted. A call that returns null leaves the entries, and a call that returns
an address leaves the new entry there; only prefixes of it and the oldest entries that were over the
limit are gone. -/
theorem promptCache_sound {c : PromptCache hasMtmd}
    (h : (cacheSys storageSize hasMtmd).Reach (fun _ _ => True) c) :
    CacheInv storageSize c ∧
      (∀ prompt data allocated,
        AdmitSpec storageSize c { prompt, data } (c.insert storageSize prompt data allocated)) ∧
      ∀ prompt n m resized allocated,
        AdmitSpec storageSize c
          { prompt, data := { main := List.replicate n 0, drft := List.replicate m 0 } }
          (c.alloc storageSize prompt n m resized allocated) :=
  have hinv := h.inv cacheInv_inductive
  ⟨hinv, fun prompt data allocated => hinv.admit_spec { prompt, data } allocated,
    fun prompt n m resized allocated => hinv.alloc_spec prompt n m resized allocated⟩

/-- A prompt of two tokens with a checkpoint. -/
def promptA : ServerPrompt false :=
  { tokens := ⟨[1, 2], [], .text (fun h => absurd h Bool.false_ne_true)
      (.text (fun h => absurd h Bool.false_ne_true) .nil)⟩
    checkpoints := [⟨4, 0, []⟩] }

/-- Another prompt with the same checkpoint. -/
def promptB : ServerPrompt false :=
  { tokens := ⟨[3], [], .text (fun h => absurd h Bool.false_ne_true) .nil⟩
    checkpoints := [⟨4, 0, []⟩] }

/-- The first prompt is cached in ten bytes, and then the second one: the checkpoint is shared, and
there is room for both until the data of the second one has six bytes. -/
theorem promptCache_sound_shared :
    let c := (({ limitSize := 10, limitTokens := 0 } : PromptCache false).insert id promptA
      { main := [0] } true).2
    (CacheInv id c ∧
      (∀ prompt data allocated,
        AdmitSpec id c { prompt, data } (c.insert id prompt data allocated)) ∧
      ∀ prompt n m resized allocated,
        AdmitSpec id c
          { prompt, data := { main := List.replicate n 0, drft := List.replicate m 0 } }
          (c.alloc id prompt n m resized allocated)) ∧
      (c.alloc id promptB 5 0 true true).1 = some 1 ∧
      (c.alloc id promptB 5 0 true true).2.states.map Prod.fst = [0, 1] ∧
      (c.alloc id promptB 6 0 true true).2.states.map Prod.fst = [1] ∧
      (c.alloc id promptB 7 0 true true).1 = none :=
  have hstep : (cacheSys id false).step { limitSize := 10, limitTokens := 0 }
    (.insert promptA { main := [0] } true) _ := rfl
  ⟨promptCache_sound (.step (.init ⟨10, 0, rfl⟩) (fun _ ho => ho.elim) hstep trivial),
    by decide +kernel⟩

end Runs

end BeeLlama.Server
