import BeeLlama.Lib.Run
import Mathlib.Data.List.Nodup
import Mathlib.Data.List.Perm.Subperm

/-!
# Results and their readers

`server_response` keeps the results that are sent for an id that waits. A reader registers its ids,
takes its results one by one, and unregisters its ids in `stop`: all at once, and, if results are
still to come, one by one again, which also drops the results that are there.

* `ServerResponse`: what is guarded by `mutex_results`, with its operations.
* `ResponseRun.step`: the steps of any number of readers and senders.
* `Inv`: kept by every step in which a reader that has all its results stops with none pending.
* `readers_leave_nothing`: such a reader leaves nothing behind, and no reader gets or loses a result
  of another one.
-/

namespace BeeLlama.Server

open List

/-- `server_task_result`: its id, `is_error()` and `is_stop()`. -/
structure TaskResult where
  id : Int
  isError : Bool := false
  isStop : Bool := true
  deriving DecidableEq, Repr

/-- `server_response`: the ids that wait, in some order, and the results. -/
structure ServerResponse where
  waitingTaskIds : List Int := []
  queueResults : List TaskResult := []
  deriving DecidableEq, Repr

namespace ServerResponse

/-- `add_waiting_task_ids`. -/
def addWaitingTaskIds (r : ServerResponse) (idTasks : List Int) : ServerResponse :=
  { r with waitingTaskIds := idTasks.foldl (fun ids id => ids.insert id) r.waitingTaskIds }

/-- `remove_waiting_task_id`. -/
def removeWaitingTaskId (r : ServerResponse) (idTask : Int) : ServerResponse :=
  { waitingTaskIds := r.waitingTaskIds.filter (· ≠ idTask)
    queueResults := r.queueResults.filter (·.id ≠ idTask) }

/-- `remove_waiting_task_ids`: the results stay. -/
def removeWaitingTaskIds (r : ServerResponse) (idTasks : List Int) : ServerResponse :=
  { r with waitingTaskIds := r.waitingTaskIds.filter (· ∉ idTasks) }

/-- `recv_with_timeout`: the first result for one of the ids, if there is one. -/
def recv (r : ServerResponse) (idTasks : List Int) : Option (TaskResult × ServerResponse) :=
  (r.queueResults.find? (·.id ∈ idTasks)).map fun result =>
    (result, { r with queueResults := r.queueResults.eraseP (·.id ∈ idTasks) })

/-- The results that `send` adds. -/
def sent (r : ServerResponse) (result : TaskResult) : List TaskResult :=
  if result.id ∈ r.waitingTaskIds then [result] else []

/-- The results that `broadcast` adds: one for every id, in the order of the set. -/
def broadcasted (order : List Int) (result : TaskResult) : List TaskResult :=
  order.map fun id => { result with id }

/-- Results are added. -/
def push (r : ServerResponse) (results : List TaskResult) : ServerResponse :=
  { r with queueResults := r.queueResults ++ results }

end ServerResponse

/-- Where a reader stands: it may be used, it has got an error and stops, it unregisters these ids
one by one, or `stop` has returned. -/
inductive ReaderPhase where
  | running
  | failed
  | removing (ids : List Int)
  | stopped
  deriving DecidableEq, Repr

/-- `server_response_reader`, with the results it has received. -/
structure ResponseReader where
  idTasks : List Int := []
  receivedCount : Nat := 0
  cancelled : Bool := false
  phase : ReaderPhase := .running
  received : List TaskResult := []
  deriving DecidableEq, Repr

namespace ResponseReader

/-- `has_next`. -/
def hasNext (r : ResponseReader) : Bool := !r.cancelled && r.receivedCount < r.idTasks.length

/-- `next` has got a result. -/
def take (r : ResponseReader) (result : TaskResult) : ResponseReader :=
  if result.isError then { r with received := r.received ++ [result], phase := .failed }
  else { r with received := r.received ++ [result]
                receivedCount := if result.isStop then r.receivedCount + 1 else r.receivedCount }

end ResponseReader

/-- The results, the readers, and all results that were ever added. -/
structure ResponseRun where
  response : ServerResponse := {}
  readers : List ResponseReader := []
  pushed : List TaskResult := []
  deriving DecidableEq, Repr

/-- The steps; the orders are those in which a set is iterated. -/
inductive ResponseOp where
  | reader
  | post (i : Nat) (idTasks : List Int)
  | send (result : TaskResult)
  | broadcast (order : List Int) (result : TaskResult)
  | recv (i : Nat)
  | stop (i : Nat) (order : List Int)
  | remove (i : Nat)
  deriving DecidableEq, Repr

namespace ResponseRun

/-- Results are added. -/
def push (s : ResponseRun) (results : List TaskResult) : ResponseRun :=
  { s with response := s.response.push results, pushed := s.pushed ++ results }

/-- A step of a reader. -/
def setReader (s : ResponseRun) (i : Nat) (r : ResponseReader) (response : ServerResponse) :
    ResponseRun :=
  { s with response, readers := s.readers.set i r }

/-- A step. Readers have disjoint ids. -/
def step (s : ResponseRun) : ResponseOp → Option ResponseRun
  | .reader => some { s with readers := s.readers ++ [{}] }
  | .post i idTasks =>
    s.readers[i]?.bind fun r =>
      -- `post_tasks() can only be called once per reader`
      if r.idTasks = [] ∧ (r.phase = .running ∨ r.phase = .stopped) ∧ idTasks.Nodup ∧
          ∀ r' ∈ s.readers, ∀ id ∈ idTasks, id ∉ r'.idTasks then
        some (s.setReader i { r with idTasks, phase := .running }
          (s.response.addWaitingTaskIds idTasks))
      else none
  | .send result => some (s.push (s.response.sent result))
  | .broadcast order result =>
    if order.Perm s.response.waitingTaskIds then
      some (s.push (ServerResponse.broadcasted order result))
    else none
  | .recv i =>
    s.readers[i]?.bind fun r =>
      if r.phase = .running ∨ r.phase = .stopped then
        (s.response.recv r.idTasks).map fun p => s.setReader i (r.take p.1) p.2
      else none
  | .stop i order =>
    s.readers[i]?.bind fun r =>
      if (r.phase = .running ∨ r.phase = .failed ∨ r.phase = .stopped) ∧
          order.Perm r.idTasks then
        some (s.setReader i
          (if r.hasNext then { r with cancelled := true, phase := .removing order }
            else { r with phase := .stopped })
          (s.response.removeWaitingTaskIds r.idTasks))
      else none
  | .remove i =>
    s.readers[i]?.bind fun r =>
      match r.phase with
      | .removing [] => some (s.setReader i { r with phase := .stopped } s.response)
      | .removing (id :: ids) =>
        some (s.setReader i { r with phase := .removing ids }
          (s.response.removeWaitingTaskId id))
      | _ => none

end ResponseRun

/-- The runs of a response queue. -/
def responseSys : Sys ResponseRun ResponseOp := .ofStep (fun s => s = {}) ResponseRun.step

/-- A reader that has all its results stops when none of its ids has another one. -/
def StopClean (s : ResponseRun) : ResponseOp → Prop
  | .stop i _ => ∀ r ∈ s.readers[i]?, r.cancelled = false → r.hasNext = false →
      ∀ result ∈ s.response.queueResults, result.id ∉ r.idTasks
  | _ => True

/-! ## What a reader sees -/

/-- The results for some ids. -/
def resultsFor (idTasks : List Int) (results : List TaskResult) : List TaskResult :=
  results.filter (·.id ∈ idTasks)

theorem resultsFor_eq_nil_iff {idTasks : List Int} {results : List TaskResult} :
    resultsFor idTasks results = [] ↔ ∀ result ∈ results, result.id ∉ idTasks := by
  simp [resultsFor]

/-- The results for the ids are the same, and no other id of them waits. -/
structure SameFor (idTasks : List Int) (r r' : ServerResponse) : Prop where
  results : resultsFor idTasks r'.queueResults = resultsFor idTasks r.queueResults
  waiting : ∀ id ∈ idTasks, id ∈ r'.waitingTaskIds → id ∈ r.waitingTaskIds

/-- A reader: one that has stopped has left nothing behind, and one that has not begun to stop has
received, or will receive, all results for its ids. -/
structure ResponseReader.Ok (response : ServerResponse) (pushed : List TaskResult)
    (r : ResponseReader) : Prop where
  nodup : r.idTasks.Nodup
  received : ∀ result ∈ r.received, result.id ∈ r.idTasks
  stopped : r.phase = .stopped → resultsFor r.idTasks response.queueResults = []
  removing : ∀ ids, r.phase = .removing ids → (∀ id ∈ ids, id ∈ r.idTasks) ∧
    ∀ result ∈ resultsFor r.idTasks response.queueResults, result.id ∈ ids
  waiting : r.phase ≠ .running → r.phase ≠ .failed → ∀ id ∈ r.idTasks, id ∉ response.waitingTaskIds
  cancelled : r.cancelled = true → r.phase ≠ .running ∧ r.phase ≠ .failed ∧ r.idTasks ≠ []
  final : r.phase ≠ .running → r.phase ≠ .failed → r.hasNext = false
  kept : r.phase = .running ∨ r.phase = .failed →
    r.received ++ resultsFor r.idTasks response.queueResults = resultsFor r.idTasks pushed

section Ok

variable {response response' : ServerResponse} {pushed results : List TaskResult}
  {r r' : ResponseReader} {idTasks : List Int}

/-- A reader only depends on the results for its ids. -/
theorem ResponseReader.Ok.frame (h : r.Ok response pushed)
    (hs : SameFor r.idTasks response response') : r.Ok response' pushed where
  nodup := h.nodup
  received := h.received
  stopped := fun hp => hs.results.trans (h.stopped hp)
  removing := fun ids hp => by
    rw [hs.results]
    exact h.removing ids hp
  waiting := fun h1 h2 id hid hw => h.waiting h1 h2 id hid (hs.waiting id hid hw)
  cancelled := h.cancelled
  final := h.final
  kept := fun hp => by
    rw [hs.results]
    exact h.kept hp

/-- Results are only added for ids that wait. -/
theorem ResponseReader.Ok.push (h : r.Ok response pushed)
    (hw : ∀ result ∈ results, result.id ∈ response.waitingTaskIds) :
    r.Ok (response.push results) (pushed ++ results) := by
  have hadd : resultsFor r.idTasks (response.push results).queueResults =
      resultsFor r.idTasks response.queueResults ++ resultsFor r.idTasks results :=
    filter_append ..
  have hnone : r.phase ≠ .running → r.phase ≠ .failed → resultsFor r.idTasks results = [] :=
    fun h1 h2 => resultsFor_eq_nil_iff.mpr fun result hr hid =>
      h.waiting h1 h2 _ hid (hw result hr)
  refine ⟨h.nodup, h.received, fun hp => ?_, fun ids hp => ?_, h.waiting, h.cancelled,
    h.final, fun hp => ?_⟩
  · rw [hadd, hnone (by simp [hp]) (by simp [hp]), append_nil]
    exact h.stopped hp
  · rw [hadd, hnone (by simp [hp]) (by simp [hp]), append_nil]
    exact h.removing ids hp
  · rw [hadd, ← append_assoc, h.kept hp]
    exact (filter_append ..).symm

theorem resultsFor_eraseP {ids : List Int} (hd : ∀ id ∈ ids, id ∉ idTasks)
    (results : List TaskResult) :
    resultsFor ids (results.eraseP (·.id ∈ idTasks)) = resultsFor ids results := by
  induction results with
  | nil => rfl
  | cons a results ih =>
    by_cases ha : a.id ∈ idTasks
    · have hna : a.id ∉ ids := fun hid => hd _ hid ha
      rw [eraseP_cons_of_pos (by simpa using ha)]
      exact (filter_cons_of_neg (by simpa using hna)).symm
    · rw [eraseP_cons_of_neg (by simpa using ha)]
      unfold resultsFor at ih ⊢
      rw [filter_cons, ih, filter_cons]

theorem resultsFor_ne {id : Int} (hid : id ∉ idTasks) (results : List TaskResult) :
    resultsFor idTasks (results.filter (·.id ≠ id)) = resultsFor idTasks results := by
  unfold resultsFor
  rw [filter_filter]
  refine filter_congr fun result _ => ?_
  by_cases h : result.id ∈ idTasks
  · have hne : result.id ≠ id := fun e => hid (e ▸ h)
    simp [h, hne]
  · simp [h]

/-- The result that is received is the first one for the ids. -/
theorem recv_spec {result : TaskResult} (e : response.recv idTasks = some (result, response')) :
    resultsFor idTasks response.queueResults = result :: resultsFor idTasks response'.queueResults ∧
    response' = { response with
      queueResults := response.queueResults.eraseP (·.id ∈ idTasks) } := by
  obtain ⟨first, hf, he⟩ := Option.map_eq_some_iff.mp e
  obtain ⟨rfl, rfl⟩ := Prod.mk.inj he
  obtain ⟨hp, as, bs, hq, has⟩ := find?_eq_some_iff_append.mp hf
  have herase : response.queueResults.eraseP (fun t => decide (t.id ∈ idTasks)) = as ++ bs := by
    rw [hq, eraseP_append_right _ (by simpa using has)]
    exact congrArg (as ++ ·) (eraseP_cons_of_pos hp)
  have hnil : resultsFor idTasks as = [] :=
    resultsFor_eq_nil_iff.mpr (by simpa using has)
  have hcons : resultsFor idTasks (first :: bs) = first :: resultsFor idTasks bs :=
    filter_cons_of_pos hp
  have happ : ∀ l, resultsFor idTasks (as ++ l) = resultsFor idTasks l := fun l => by
    unfold resultsFor at hnil ⊢
    rw [filter_append, hnil, nil_append]
  refine ⟨?_, rfl⟩
  rw [herase, hq, happ, happ, hcons]

theorem ResponseReader.Ok.take {result : TaskResult} (h : r.Ok response pushed)
    (hp : r.phase = .running ∨ r.phase = .stopped)
    (e : response.recv r.idTasks = some (result, response')) :
    (r.take result).Ok response' pushed := by
  obtain ⟨hfirst, -⟩ := recv_spec e
  rcases hp with hp | hp
  · have hmem : result.id ∈ r.idTasks := by
      have : result ∈ resultsFor r.idTasks response.queueResults := by
        rw [hfirst]
        exact mem_cons_self
      simpa using (mem_filter.mp this).2
    have hnc : r.cancelled = false := by
      by_contra hc
      exact (h.cancelled (by simpa using hc)).1 hp
    have hrec : ∀ x ∈ r.received ++ [result], x.id ∈ r.idTasks := fun x hx => by
      rcases mem_append.mp hx with hx | hx
      · exact h.received x hx
      · exact mem_singleton.mp hx ▸ hmem
    have hkept : r.received ++ [result] ++ resultsFor r.idTasks response'.queueResults =
        resultsFor r.idTasks pushed := by
      rw [append_assoc, singleton_append, ← hfirst]
      exact h.kept (.inl hp)
    unfold ResponseReader.take
    split
    · exact ⟨h.nodup, hrec, fun hp' => (by cases hp'), fun _ hp' => (by cases hp'),
        fun _ h2 => absurd rfl h2, fun hc => absurd (hnc.symm.trans hc) (by decide),
        fun _ h2 => absurd rfl h2, fun _ => hkept⟩
    · refine ⟨h.nodup, hrec, fun hp' => ?_, fun _ hp' => ?_, fun h1 => absurd hp h1,
        fun hc => absurd (hnc.symm.trans hc) (by decide), fun h1 => absurd hp h1, fun _ => hkept⟩
      · exact absurd (hp.symm.trans hp') (by simp)
      · exact absurd (hp.symm.trans hp') (by simp)
  · rw [h.stopped hp] at hfirst
    cases hfirst

/-- `stop` before the ids are removed one by one. -/
theorem ResponseReader.Ok.stop {order : List Int} (h : r.Ok response pushed)
    (ho : order.Perm r.idTasks)
    (hclean : r.cancelled = false → r.hasNext = false →
      resultsFor r.idTasks response.queueResults = [])
    (hp : r.phase = .running ∨ r.phase = .failed ∨ r.phase = .stopped) :
    (if r.hasNext then { r with cancelled := true, phase := .removing order }
      else { r with phase := ReaderPhase.stopped }).Ok
      (response.removeWaitingTaskIds r.idTasks) pushed := by
  have hw : ∀ id ∈ r.idTasks, id ∉ (response.removeWaitingTaskIds r.idTasks).waitingTaskIds := by
    intro id hid hmem
    exact (by simpa using (mem_filter.mp hmem).2 : id ∉ r.idTasks) hid
  split
  · next hnext =>
    have hnil : r.idTasks ≠ [] := fun e => by simp [ResponseReader.hasNext, e] at hnext
    refine ⟨h.nodup, h.received, fun hp => (by cases hp), fun ids hids => ?_,
      fun _ _ => hw, fun _ => ⟨by simp, by simp, hnil⟩,
      fun _ _ => (by simp [ResponseReader.hasNext]),
      fun hp => (by rcases hp with hp | hp <;> cases hp)⟩
    obtain rfl : order = ids := by simpa using hids
    exact ⟨fun id hid => ho.mem_iff.mp hid, fun result hr =>
      ho.mem_iff.mpr (by simpa using (mem_filter.mp hr).2)⟩
  · next hnext =>
    refine ⟨h.nodup, h.received, fun _ => ?_, fun ids hids => (by cases hids), fun _ _ => hw,
      fun hc => ⟨by simp, by simp, (h.cancelled hc).2.2⟩, fun _ _ => (Bool.not_eq_true _).mp hnext,
      fun hp => (by rcases hp with hp | hp <;> cases hp)⟩
    by_cases hc : r.cancelled = true
    · obtain ⟨h1, h2, -⟩ := h.cancelled hc
      exact h.stopped ((hp.resolve_left h1).resolve_left h2)
    · exact hclean (by simpa using hc) (by simpa using hnext)

/-- `stop` removes one id. -/
theorem ResponseReader.Ok.remove {id : Int} {ids : List Int} (h : r.Ok response pushed)
    (hp : r.phase = .removing (id :: ids)) :
    ({ r with phase := .removing ids } : ResponseReader).Ok
      (response.removeWaitingTaskId id) pushed := by
  have hw := h.waiting (by simp [hp]) (by simp [hp])
  refine ⟨h.nodup, h.received, fun hp => (by cases hp), fun ids' hids => ?_,
    fun _ _ id' hid hmem => hw id' hid (mem_filter.mp hmem).1,
    fun hc => ⟨by simp, by simp, (h.cancelled hc).2.2⟩,
    fun _ _ => h.final (by simp [hp]) (by simp [hp]),
    fun hp => (by rcases hp with hp | hp <;> cases hp)⟩
  obtain rfl : ids = ids' := by simpa using hids
  obtain ⟨hsub, hall⟩ := h.removing _ hp
  refine ⟨fun id' hid => hsub id' (mem_cons_of_mem _ hid), fun result hr => ?_⟩
  obtain ⟨hmem, hid⟩ := mem_filter.mp hr
  obtain ⟨hmem, hne⟩ := mem_filter.mp hmem
  have := hall result (mem_filter.mpr ⟨hmem, hid⟩)
  exact (mem_cons.mp this).resolve_left (by simpa using hne)

/-- `stop` returns. -/
theorem ResponseReader.Ok.stopped' (h : r.Ok response pushed) (hp : r.phase = .removing []) :
    ({ r with phase := .stopped } : ResponseReader).Ok response pushed := by
  refine ⟨h.nodup, h.received, fun _ => ?_, fun ids hids => (by cases hids), fun _ _ => ?_,
    fun hc => ⟨by simp, by simp, (h.cancelled hc).2.2⟩,
    fun _ _ => h.final (by simp [hp]) (by simp [hp]),
    fun hp => (by rcases hp with hp | hp <;> cases hp)⟩
  · refine eq_nil_iff_forall_not_mem.mpr fun result hr => ?_
    exact absurd ((h.removing _ hp).2 result hr) not_mem_nil
  · exact h.waiting (by simp [hp]) (by simp [hp])

end Ok

/-! ## Runs -/

namespace ResponseRun

variable {s s' : ResponseRun}

/-- The invariant. -/
structure Inv (s : ResponseRun) : Prop where
  disjoint : ∀ (i j : Nat) (r r' : ResponseReader), s.readers[i]? = some r →
    s.readers[j]? = some r' → i ≠ j → ∀ id ∈ r.idTasks, id ∉ r'.idTasks
  ok : ∀ r ∈ s.readers, r.Ok s.response s.pushed
  waiting : ∀ id ∈ s.response.waitingTaskIds, ∃ r ∈ s.readers, id ∈ r.idTasks
  pushed : ∀ result ∈ s.pushed, ∃ r ∈ s.readers, result.id ∈ r.idTasks
  queue : ∀ result ∈ s.response.queueResults, result ∈ s.pushed

variable {response : ServerResponse}

/-- A reader that was replaced, and the others. -/
theorem getElem?_setReader {i j : Nat} {r r' x : ResponseReader}
    (hi : s.readers[i]? = some r) (hj : (s.setReader i r' response).readers[j]? = some x) :
    (j = i ∧ x = r') ∨ (j ≠ i ∧ s.readers[j]? = some x) := by
  have hlt : i < s.readers.length := (List.getElem?_eq_some_iff.mp hi).1
  unfold setReader at hj
  by_cases hij : i = j
  · subst hij
    rw [getElem?_set_self hlt] at hj
    exact .inl ⟨rfl, (Option.some.inj hj).symm⟩
  · rw [getElem?_set_ne hij] at hj
    exact .inr ⟨Ne.symm hij, hj⟩

/-- The ids of the readers stay where one of them is replaced by one with the same ids. -/
theorem exists_setReader {i : Nat} {r r' : ResponseReader} {id : Int} (hi : s.readers[i]? = some r)
    (hids : ∀ id ∈ r.idTasks, id ∈ r'.idTasks) (h : ∃ r ∈ s.readers, id ∈ r.idTasks) :
    ∃ r ∈ (s.setReader i r' response).readers, id ∈ r.idTasks := by
  have hlt : i < s.readers.length := (List.getElem?_eq_some_iff.mp hi).1
  obtain ⟨x, hx, hid⟩ := h
  obtain ⟨j, hj⟩ := mem_iff_getElem?.mp hx
  unfold setReader
  by_cases hij : i = j
  · subst hij
    obtain rfl : r = x := Option.some.inj (hi.symm.trans hj)
    exact ⟨r', mem_of_getElem? (getElem?_set_self hlt), hids id hid⟩
  · exact ⟨x, mem_of_getElem? ((getElem?_set_ne hij).trans hj), hid⟩

/-- A step of a reader that the others do not see. -/
theorem Inv.setReader (h : Inv s) {i : Nat} {r r' : ResponseReader}
    (hi : s.readers[i]? = some r) (hids : r'.idTasks = r.idTasks) (hr : r'.Ok response s.pushed)
    (hsame : ∀ ids : List Int, (∀ id ∈ r.idTasks, id ∉ ids) → SameFor ids s.response response)
    (hw : ∀ id ∈ response.waitingTaskIds, id ∈ s.response.waitingTaskIds)
    (hq : ∀ result ∈ response.queueResults, result ∈ s.response.queueResults) :
    Inv (s.setReader i r' response) where
  disjoint := fun j k x y hj hk hne => by
    rcases getElem?_setReader hi hj with ⟨rfl, rfl⟩ | ⟨-, hj'⟩
    · rcases getElem?_setReader hi hk with ⟨rfl, rfl⟩ | ⟨-, hk'⟩
      · exact absurd rfl hne
      · rw [hids]
        exact h.disjoint _ _ _ _ hi hk' hne
    · rcases getElem?_setReader hi hk with ⟨rfl, rfl⟩ | ⟨-, hk'⟩
      · rw [hids]
        exact h.disjoint _ _ _ _ hj' hi hne
      · exact h.disjoint _ _ _ _ hj' hk' hne
  ok := fun x hx => by
    obtain ⟨j, hj⟩ := mem_iff_getElem?.mp hx
    rcases getElem?_setReader hi hj with ⟨rfl, rfl⟩ | ⟨hji, hj⟩
    · exact hr
    · exact (h.ok x (mem_of_getElem? hj)).frame
        (hsame _ fun id hid hid' => h.disjoint _ _ _ _ hj hi hji id hid' hid)
  waiting := fun id hid => exists_setReader hi (fun id h => hids ▸ h) (h.waiting id (hw id hid))
  pushed := fun result hres => exists_setReader hi (fun id h => hids ▸ h) (h.pushed result hres)
  queue := fun result hres => h.queue result (hq result hres)

theorem Inv.push (h : Inv s) {results : List TaskResult}
    (hw : ∀ result ∈ results, result.id ∈ s.response.waitingTaskIds) : Inv (s.push results) where
  disjoint := h.disjoint
  ok := fun r hr => (h.ok r hr).push hw
  waiting := h.waiting
  pushed := fun result hres => by
    rcases mem_append.mp hres with hres | hres
    · exact h.pushed result hres
    · exact h.waiting _ (hw result hres)
  queue := fun result hres => by
    rcases mem_append.mp hres with hres | hres
    · exact mem_append_left _ (h.queue result hres)
    · exact mem_append_right _ hres

theorem mem_addWaiting {id : Int} (idTasks ids : List Int) :
    id ∈ idTasks.foldl (fun ids id => ids.insert id) ids ↔ id ∈ idTasks ∨ id ∈ ids := by
  induction idTasks generalizing ids with
  | nil => simp
  | cons a idTasks ih =>
    rw [foldl_cons, ih, mem_insert_iff, mem_cons]
    tauto

theorem Inv.post (h : Inv s) {i : Nat} {r : ResponseReader} {idTasks : List Int}
    (hi : s.readers[i]? = some r) (hnil : r.idTasks = []) (hnd : idTasks.Nodup)
    (hnew : ∀ r' ∈ s.readers, ∀ id ∈ idTasks, id ∉ r'.idTasks) :
    Inv (s.setReader i { r with idTasks, phase := .running }
      (s.response.addWaitingTaskIds idTasks)) := by
  have hr := h.ok r (mem_of_getElem? hi)
  have hother : ∀ (j : Nat) (x : ResponseReader), s.readers[j]? = some x →
      ∀ id ∈ x.idTasks, id ∉ idTasks :=
    fun j x hj id hid hid' => hnew x (mem_of_getElem? hj) id hid' hid
  have hw : ∀ id, id ∈ (s.response.addWaitingTaskIds idTasks).waitingTaskIds ↔
      id ∈ idTasks ∨ id ∈ s.response.waitingTaskIds := fun id => mem_addWaiting _ _
  have hfresh : ∀ results : List TaskResult, (∀ x ∈ results, x ∈ s.pushed) →
      resultsFor idTasks results = [] := fun results hsub =>
    resultsFor_eq_nil_iff.mpr fun x hx hid => by
      obtain ⟨r', hr', hid'⟩ := h.pushed x (hsub x hx)
      exact hnew r' hr' _ hid hid'
  have hexists : ∀ id, (id ∈ idTasks ∨ ∃ r ∈ s.readers, id ∈ r.idTasks) →
      ∃ x ∈ (s.setReader i { r with idTasks, phase := .running }
        (s.response.addWaitingTaskIds idTasks)).readers, id ∈ x.idTasks := by
    rintro id (hid | hid)
    · have hlt : i < s.readers.length := (List.getElem?_eq_some_iff.mp hi).1
      exact ⟨_, mem_of_getElem? (getElem?_set_self hlt), hid⟩
    · exact exists_setReader hi (by simp [hnil]) hid
  refine ⟨fun j k x y hj hk hne => ?_, fun x hx => ?_, fun id hid => ?_, fun result hres => ?_,
    h.queue⟩
  · rcases getElem?_setReader hi hj with ⟨rfl, rfl⟩ | ⟨-, hj'⟩
    · rcases getElem?_setReader hi hk with ⟨rfl, rfl⟩ | ⟨-, hk'⟩
      · exact absurd rfl hne
      · exact fun id hid hid' => hother _ _ hk' id hid' hid
    · rcases getElem?_setReader hi hk with ⟨rfl, rfl⟩ | ⟨-, hk'⟩
      · exact hother _ _ hj'
      · exact h.disjoint _ _ _ _ hj' hk' hne
  · obtain ⟨j, hj⟩ := mem_iff_getElem?.mp hx
    rcases getElem?_setReader hi hj with ⟨rfl, rfl⟩ | ⟨hji, hj⟩
    · have hnone : r.received = [] := eq_nil_iff_forall_not_mem.mpr fun x hx => by
        have := hr.received x hx
        rw [hnil] at this
        cases this
      refine ⟨hnd, by simp [hnone], fun hp => (by cases hp), fun _ hp => (by cases hp),
        fun h1 => absurd rfl h1, fun hc => absurd hnil (hr.cancelled hc).2.2,
        fun h1 => absurd rfl h1, fun _ => ?_⟩
      · dsimp only
        rw [hnone]
        exact (hfresh _ h.queue).trans (hfresh s.pushed fun _ h => h).symm
    · refine (h.ok x (mem_of_getElem? hj)).frame ⟨rfl, fun id hid hmem => ?_⟩
      exact ((hw id).mp hmem).resolve_left (hother _ _ hj id hid)
  · exact hexists id (((hw id).mp hid).imp_right (h.waiting id))
  · exact hexists _ (.inr (h.pushed result hres))

theorem Inv.reader (h : Inv s) :
    Inv { s with readers := s.readers ++ [({} : ResponseReader)] } := by
  have hget : ∀ (j : Nat) (x : ResponseReader),
      (s.readers ++ [({} : ResponseReader)])[j]? = some x →
      s.readers[j]? = some x ∨ x = {} := fun j x hj => by
    by_cases hlt : j < s.readers.length
    · rw [getElem?_append_left hlt] at hj
      exact .inl hj
    · exact .inr (by
        rw [getElem?_append_right (by omega)] at hj
        simpa using mem_of_getElem? hj)
  have hexists : ∀ id, (∃ r ∈ s.readers, id ∈ r.idTasks) →
      ∃ r ∈ s.readers ++ [({} : ResponseReader)], id ∈ r.idTasks :=
    fun id ⟨r, hr, hid⟩ => ⟨r, mem_append_left _ hr, hid⟩
  refine ⟨fun i j r r' hi hj hne id hid hid' => ?_, fun r hr => ?_,
    fun id hid => hexists id (h.waiting id hid), fun x hx => hexists _ (h.pushed x hx), h.queue⟩
  · rcases hget i r hi with hi | rfl
    · rcases hget j r' hj with hj | rfl
      · exact h.disjoint i j r r' hi hj hne id hid hid'
      · cases hid'
    · cases hid
  · rcases mem_append.mp hr with hr | hr
    · exact h.ok r hr
    · obtain rfl := mem_singleton.mp hr
      have hnil : ∀ results, resultsFor [] results = [] := fun results =>
        resultsFor_eq_nil_iff.mpr fun _ _ => not_mem_nil
      exact ⟨nodup_nil, by simp, fun hp => (by cases hp), fun _ hp => (by cases hp),
        fun h1 => absurd rfl h1, fun hc => (by cases hc), fun h1 => absurd rfl h1,
        fun _ => by rw [hnil, hnil]; rfl⟩

theorem Inv.step (h : Inv s) {op : ResponseOp} (e : s.step op = some s')
    (hok : StopClean s op) : Inv s' := by
  cases op with
  | reader =>
    cases e
    exact h.reader
  | post i idTasks =>
    obtain ⟨r, hi, e⟩ := Option.bind_eq_some_iff.mp e
    split at e
    · next hc =>
      cases e
      exact h.post hi hc.1 hc.2.2.1 hc.2.2.2
    · cases e
  | send result =>
    cases e
    refine h.push fun x hx => ?_
    unfold ServerResponse.sent at hx
    split at hx
    · next hw => exact mem_singleton.mp hx ▸ hw
    · cases hx
  | broadcast order result =>
    simp only [ResponseRun.step] at e
    split at e
    · next ho =>
      cases e
      refine h.push fun x hx => ?_
      obtain ⟨id, hid, rfl⟩ := mem_map.mp hx
      exact ho.mem_iff.mp hid
    · cases e
  | recv i =>
    obtain ⟨r, hi, e⟩ := Option.bind_eq_some_iff.mp e
    have hr := h.ok r (mem_of_getElem? hi)
    split at e
    · next hp =>
      obtain ⟨⟨result, response⟩, hrecv, rfl⟩ := Option.map_eq_some_iff.mp e
      obtain ⟨-, heq⟩ := recv_spec hrecv
      have hids : (r.take result).idTasks = r.idTasks := by
        unfold ResponseReader.take
        split <;> rfl
      refine h.setReader hi hids (hr.take hp hrecv) (fun ids hd => ?_) (fun id hid => ?_)
        (fun x hx => ?_)
      · rw [heq]
        exact ⟨resultsFor_eraseP (fun id hid hid' => hd id hid' hid) _, fun _ _ h => h⟩
      · rwa [heq] at hid
      · rw [heq] at hx
        exact mem_of_mem_eraseP hx
    · cases e
  | stop i order =>
    obtain ⟨r, hi, e⟩ := Option.bind_eq_some_iff.mp e
    have hr := h.ok r (mem_of_getElem? hi)
    split at e
    · next hp =>
      cases e
      refine h.setReader hi (by split <;> rfl) (hr.stop hp.2 (fun hc hn => ?_) hp.1)
        (fun ids _ => ⟨rfl, fun id _ hid => (mem_filter.mp hid).1⟩)
        (fun id hid => (mem_filter.mp hid).1) (fun _ hx => hx)
      exact resultsFor_eq_nil_iff.mpr (hok r hi hc hn)
    · cases e
  | remove i =>
    obtain ⟨r, hi, e⟩ := Option.bind_eq_some_iff.mp e
    have hr := h.ok r (mem_of_getElem? hi)
    split at e
    · next hp =>
      cases e
      exact h.setReader hi rfl (hr.stopped' hp) (fun ids _ => ⟨rfl, fun _ _ h => h⟩)
        (fun _ h => h) (fun _ hx => hx)
    · next id ids hp =>
      cases e
      have hid := (hr.removing _ hp).1 id mem_cons_self
      exact h.setReader hi rfl (hr.remove hp)
        (fun ids' hd => ⟨resultsFor_ne (hd id hid) _, fun _ _ h => (mem_filter.mp h).1⟩)
        (fun _ h => (mem_filter.mp h).1) (fun _ hx => (mem_filter.mp hx).1)
    · cases e

/-- A reader whose `stop` has returned stays as it is. -/
theorem Inv.stays (h : Inv s) {op : ResponseOp} (e : s.step op = some s') {j : Nat}
    {r : ResponseReader} (hj : s.readers[j]? = some r) (hp : r.phase = .stopped)
    (hne : r.idTasks ≠ []) :
    ∃ r' : ResponseReader, s'.readers[j]? = some r' ∧ r'.phase = .stopped ∧
      r'.idTasks = r.idTasks := by
  have hr := h.ok r (mem_of_getElem? hj)
  have hset : ∀ (i : Nat) (x x' : ResponseReader) (response : ServerResponse),
      s.readers[i]? = some x → (i = j → x'.phase = .stopped ∧ x'.idTasks = r.idTasks) →
      ∃ r' : ResponseReader, (s.setReader i x' response).readers[j]? = some r' ∧
        r'.phase = .stopped ∧ r'.idTasks = r.idTasks := by
    intro i x x' response hi hx
    unfold ResponseRun.setReader
    by_cases hij : i = j
    · subst hij
      exact ⟨x', List.getElem?_set_self (List.getElem?_eq_some_iff.mp hi).1, hx rfl⟩
    · exact ⟨r, (getElem?_set_ne hij).trans hj, hp, rfl⟩
  cases op with
  | reader =>
    cases e
    exact ⟨r, (List.getElem?_append_left (List.getElem?_eq_some_iff.mp hj).1).trans hj, hp, rfl⟩
  | post i idTasks =>
    obtain ⟨x, hi, e⟩ := Option.bind_eq_some_iff.mp e
    split at e
    · next hc =>
      cases e
      refine hset i x _ _ hi fun hij => ?_
      obtain rfl : r = x := Option.some.inj (hj.symm.trans (hij ▸ hi))
      exact absurd hc.1 hne
    · cases e
  | send result =>
    cases e
    exact ⟨r, hj, hp, rfl⟩
  | broadcast order result =>
    simp only [ResponseRun.step] at e
    split at e
    · cases e
      exact ⟨r, hj, hp, rfl⟩
    · cases e
  | recv i =>
    obtain ⟨x, hi, e⟩ := Option.bind_eq_some_iff.mp e
    split at e
    · obtain ⟨⟨result, response⟩, hrecv, rfl⟩ := Option.map_eq_some_iff.mp e
      refine hset i x _ _ hi fun hij => ?_
      -- no result is there for a reader that has stopped
      obtain rfl : r = x := Option.some.inj (hj.symm.trans (hij ▸ hi))
      have hfirst := (recv_spec hrecv).1
      rw [hr.stopped hp] at hfirst
      cases hfirst
    · cases e
  | stop i order =>
    obtain ⟨x, hi, e⟩ := Option.bind_eq_some_iff.mp e
    split at e
    · cases e
      refine hset i x _ _ hi fun hij => ?_
      obtain rfl : r = x := Option.some.inj (hj.symm.trans (hij ▸ hi))
      rw [if_neg (by simp [hr.final (by simp [hp]) (by simp [hp])])]
      exact ⟨rfl, rfl⟩
    · cases e
  | remove i =>
    obtain ⟨x, hi, e⟩ := Option.bind_eq_some_iff.mp e
    have hx : ∀ ids, x.phase = .removing ids → i ≠ j := fun ids hids hij => by
      obtain rfl : r = x := Option.some.inj (hj.symm.trans (hij ▸ hi))
      rw [hp] at hids
      cases hids
    split at e
    · next hids =>
      cases e
      exact hset i x _ _ hi fun hij => absurd hij (hx _ hids)
    · next hids =>
      cases e
      exact hset i x _ _ hi fun hij => absurd hij (hx _ hids)
    · cases e

theorem inv_inductive : responseSys.Inductive StopClean Inv where
  init := fun s hs => by
    obtain rfl : s = {} := hs
    exact ⟨by simp, by simp, by simp, by simp, by simp⟩
  step := fun _ _ _ h _ e hok => h.step e hok

end ResponseRun

/-- In a run in which every reader that has all its results stops when none of its ids has another
one: once `stop` has returned, no result for one of the reader's ids is there, none of them waits
for one, and this stays so in every step; a reader only receives results for its ids; and until it
stops it has received, or will receive, all results that were ever added for them, in order. -/
theorem readers_leave_nothing {s : ResponseRun} (h : responseSys.Reach StopClean s) :
    ∀ (i : Nat) (r : ResponseReader), s.readers[i]? = some r →
      (r.phase = .stopped → (∀ result ∈ s.response.queueResults, result.id ∉ r.idTasks) ∧
        (∀ id ∈ r.idTasks, id ∉ s.response.waitingTaskIds) ∧
        (r.idTasks ≠ [] → ∀ op s', s.step op = some s' → ∃ r' : ResponseReader,
          s'.readers[i]? = some r' ∧ r'.phase = .stopped ∧ r'.idTasks = r.idTasks)) ∧
      (∀ result ∈ r.received, result.id ∈ r.idTasks) ∧
      (r.phase = .running ∨ r.phase = .failed →
        r.received ++ s.response.queueResults.filter (·.id ∈ r.idTasks) =
          s.pushed.filter (·.id ∈ r.idTasks)) := by
  intro i r hi
  have hinv := h.inv ResponseRun.inv_inductive
  have hr := hinv.ok r (mem_of_getElem? hi)
  exact ⟨fun hp => ⟨resultsFor_eq_nil_iff.mp (hr.stopped hp),
    hr.waiting (by simp [hp]) (by simp [hp]), fun hne op s' e => hinv.stays e hi hp hne⟩,
    hr.received, hr.kept⟩

/-! ## Senders -/

instance (s : ResponseRun) : (op : ResponseOp) → Decidable (StopClean s op)
  | .stop i _ => inferInstanceAs (Decidable (∀ r ∈ s.readers[i]?, r.cancelled = false →
      r.hasNext = false → ∀ result ∈ s.response.queueResults, result.id ∉ r.idTasks))
  | .reader => .isTrue trivial
  | .post _ _ => .isTrue trivial
  | .send _ => .isTrue trivial
  | .broadcast _ _ => .isTrue trivial
  | .recv _ => .isTrue trivial
  | .remove _ => .isTrue trivial

/-- One reader with one id, which has got its result and has stopped. -/
def oneReader : ResponseRun where
  readers := [{ idTasks := [0], receivedCount := 1, phase := .stopped, received := [{ id := 0 }] }]
  pushed := [{ id := 0 }]

theorem readers_leave_nothing_oneReader : responseSys.Reach StopClean oneReader ∧
    ∀ id ∈ ([0] : List Int), id ∉ oneReader.response.waitingTaskIds := by
  have h : responseSys.Reach (fun s op => decide (StopClean s op) = true) oneReader :=
    Sys.reach_runSteps (.init rfl)
      (show Sys.runSteps ResponseRun.step (fun s op => decide (StopClean s op))
        [.reader, .post 0 [0], .send { id := 0 }, .recv 0, .stop 0 [0]] _ = some oneReader by
          decide +kernel)
  have hreach := h.mono fun _ _ hok => of_decide_eq_true hok
  exact ⟨hreach, ((readers_leave_nothing hreach 0 _ rfl).1 rfl).2.1⟩

/-- A result that is broadcast behind the last one for an id is left behind. -/
theorem reader_leaves_broadcast : ∃ s, responseSys.Reach (fun _ _ => True) s ∧
    ∃ r ∈ s.readers, r.phase = .stopped ∧
      ∃ result ∈ s.response.queueResults, result.id ∈ r.idTasks := by
  have h : responseSys.Reach (fun _ _ => true = true)
      { oneReader with
        response := { queueResults := [{ id := 0 }] }, pushed := [{ id := 0 }, { id := 0 }] } :=
    Sys.reach_runSteps (.init rfl)
      (show Sys.runSteps ResponseRun.step (fun _ _ => true)
        [.reader, .post 0 [0], .send { id := 0 }, .broadcast [0] { id := -1 }, .recv 0,
          .stop 0 [0]] _ = some _ by decide +kernel)
  exact ⟨_, h.mono fun _ _ _ => trivial, _, mem_singleton_self _, rfl, _,
    mem_singleton_self _, mem_singleton_self _⟩

end BeeLlama.Server
