import BeeLlama.Server.TaskQueue
import Mathlib.Data.List.Nodup

/-!
# Runs of the task queue

* `Conserved`: every task that was posted and whose id was not cancelled is in one of the queues, in
  the hands of a thread, or it was kept. It is kept by every step.
* `Yield`: outside of a yield no task is set aside and the worker holds none; the tasks that are set
  aside stand in the order in which the worker has taken them.
* `queue_conserves`: both in every run.
* `cancelled_not_accepted`: a task that is cancelled while no thread holds it is not kept any more.
-/

namespace BeeLlama.Server

open List Bool WorkerPc TaskQueue QueueRun

namespace TaskQueue

variable {q : TaskQueue}

/-- How often the task is in the queues. -/
def count (q : TaskQueue) (k : ServerTask) : Nat :=
  q.queueTasks.count k + q.queueTasksDeferred.count k + q.queueTasksUnhandled.count k

/-- The task is in one of the queues. -/
def Mem (q : TaskQueue) (k : ServerTask) : Prop :=
  k ∈ q.queueTasks ∨ k ∈ q.queueTasksDeferred ∨ k ∈ q.queueTasksUnhandled

variable {k : ServerTask}

theorem count_cleanup {t : Int} (h : k.id ≠ t) : (q.cleanupPendingTask t).count k = q.count k := by
  have hcount : ∀ l : List ServerTask, (l.filter (·.id ≠ t)).count k = l.count k :=
    fun l => count_filter (by simpa using h)
  unfold count cleanupPendingTask
  rw [hcount, hcount, hcount]

theorem mem_cleanup {t : Int} : (q.cleanupPendingTask t).Mem k ↔ q.Mem k ∧ k.id ≠ t := by
  unfold Mem cleanupPendingTask
  simp only [mem_filter, decide_eq_true_eq]
  tauto

theorem count_enqueue {task k : ServerTask} {front : Bool}
    (h : task.type = .cancel → k.id ≠ task.idTarget) :
    (q.enqueue task front).count k = q.count k + [task].count k := by
  have hpush : ∀ q' : TaskQueue, count (if front then
      { q' with queueTasks := task :: q'.queueTasks }
      else { q' with queueTasks := q'.queueTasks ++ [task] }) k = q'.count k + [task].count k := by
    intro q'
    cases front
    · simp only [false_eq_true, if_false, count, count_append]
      omega
    · simp only [if_true, count, count_cons, count_nil]
      omega
  unfold enqueue
  rw [hpush]
  split
  · next hc => rw [count_cleanup (h hc)]
  · rfl

theorem mem_enqueue {task k : ServerTask} {front : Bool} : (q.enqueue task front).Mem k ↔
      k = task ∨ (q.Mem k ∧ (task.type = .cancel → k.id ≠ task.idTarget)) := by
  have hpush : ∀ q' : TaskQueue, Mem (if front then
      { q' with queueTasks := task :: q'.queueTasks }
      else { q' with queueTasks := q'.queueTasks ++ [task] }) k ↔ k = task ∨ q'.Mem k := by
    intro q'
    cases front
    · simp only [false_eq_true, if_false, Mem, mem_append, mem_singleton]
      tauto
    · simp only [if_true, Mem, mem_cons]
      tauto
  unfold enqueue
  rw [hpush]
  split
  · next hc => simp [mem_cleanup, hc]
  · next hc => simp [hc]

theorem mem_iff_count : q.Mem k ↔ 0 < q.count k := by
  unfold Mem count
  simp only [← count_pos_iff]
  omega

/-- A deferred task moves to the front of the main queue. -/
theorem count_popDeferred (idSlot : Int) (k : ServerTask) :
    (q.popDeferredTask idSlot).count k = q.count k := by
  unfold popDeferredTask
  split
  · rfl
  · next first rest hd =>
    split
    · next task hf =>
      obtain ⟨hp, as, bs, he, has⟩ := find?_eq_some_iff_append.mp hf
      have herase : q.queueTasksDeferred.eraseP (fun t => decide (t.idSlot = idSlot)) =
          as ++ bs := by
        rw [he, eraseP_append_right _ (by simpa using has)]
        exact congrArg (as ++ ·) (eraseP_cons_of_pos hp)
      unfold count
      rw [herase, he]
      simp only [count_append, count_cons]
      omega
    · simp only [count, hd, count_cons]
      omega

theorem popDeferred_unhandled (idSlot : Int) :
    (q.popDeferredTask idSlot).queueTasksUnhandled = q.queueTasksUnhandled := by
  unfold popDeferredTask
  split
  · rfl
  · split <;> rfl

/-- The tasks that were set aside stand before all others, in their order. -/
theorem putBack_eq : q.putBack.queueTasks = q.queueTasksUnhandled ++ q.queueTasks := by
  unfold putBack
  rw [foldr_cons_eq_append']

theorem count_putBack (k : ServerTask) : q.putBack.count k = q.count k := by
  have h : q.putBack.count k = (q.queueTasksUnhandled ++ q.queueTasks).count k +
      q.queueTasksDeferred.count k + 0 := by
    rw [← putBack_eq]
    rfl
  rw [h, count_append, count]
  omega

end TaskQueue

/-! ## Conservation -/

namespace QueueRun

variable {s s' : QueueRun}

/-- Every task whose id was not cancelled is as often in the queues, in the hands of a thread and
among those the callback has kept as it was posted. -/
def Conserved (s : QueueRun) : Prop :=
  ∀ k : ServerTask, k.id ∉ s.cancelled →
    s.posted.count k = s.queue.count k + s.held.count k + s.accepted.count k

/-- Ids are handed out in order and posted once. -/
structure Fresh (s : QueueRun) : Prop where
  lt : ∀ k ∈ s.posted, k.id < s.queue.id
  nodup : (s.posted.map (·.id)).Nodup

variable {task : ServerTask} {b : Bool} {front : Bool}

/-- What posting one task does: it gets an id that is new, and the queue may have counted on. -/
theorem postOne_cases (e : s.postOne task front = some s') :
    ∃ (k : ServerTask) (id : Int), s.queue.id ≤ id ∧ k.id < id ∧ k.id ∉ s.posted.map (·.id) ∧
      k.type = task.type ∧ k.idTarget = task.idTarget ∧
      s' = { s with
        queue := ({ s.queue with id } : TaskQueue).enqueue k front
        posted := s.posted ++ [k]
        cancelled := if k.type = .cancel then k.idTarget :: s.cancelled else s.cancelled
        dead := if k.type = .cancel ∧ k.idTarget ∈ s.posted.map (·.id) ∧
          k.idTarget ∉ s.accepted.map (·.id) then k.idTarget :: s.dead else s.dead } := by
  unfold postOne assignId at e
  by_cases hid : task.id = -1
  · simp only [hid, if_true] at e
    split at e
    · next h =>
      exact ⟨{ task with id := s.queue.id }, s.queue.id + 1, by omega, h.2.1, h.2.2, rfl, rfl,
        (Option.some.inj e).symm⟩
    · cases e
  · simp only [hid, if_false] at e
    split at e
    · next h => exact ⟨task, s.queue.id, le_rfl, h.2.1, h.2.2, rfl, rfl, (Option.some.inj e).symm⟩
    · cases e

theorem Fresh.postOne (h : Fresh s) (e : s.postOne task front = some s') : Fresh s' := by
  obtain ⟨k, id, hle, hlt, hnew, -, -, rfl⟩ := postOne_cases e
  have hid : ∀ (q : TaskQueue) (b : Bool), (q.enqueue k b).id = q.id := fun q b => by
    unfold enqueue cleanupPendingTask
    split_ifs <;> rfl
  refine ⟨fun k' hk' => ?_, ?_⟩
  · rw [hid]
    rcases mem_append.mp hk' with hk' | hk'
    · exact lt_of_lt_of_le (h.lt k' hk') hle
    · rw [mem_singleton.mp hk']
      exact hlt
  · rw [map_append, nodup_append]
    refine ⟨h.nodup, nodup_cons.mpr ⟨not_mem_nil, .nil⟩, fun a ha b hb => ?_⟩
    rw [mem_singleton.mp hb]
    rintro rfl
    exact hnew ha

theorem Conserved.postOne (h : Conserved s)
    (e : s.postOne task front = some s') : Conserved s' := by
  obtain ⟨k, id, -, -, -, -, -, rfl⟩ := postOne_cases e
  intro t ht
  dsimp only at ht ⊢
  have hold : t.id ∉ s.cancelled := fun hm => ht (by split <;> simp [hm])
  have hcancel : k.type = .cancel → t.id ≠ k.idTarget := fun hk e => ht (by simp [hk, e])
  have hq := h t hold
  rw [TaskQueue.count_enqueue hcancel, count_append]
  change _ = s.queue.count t + [k].count t + s.held.count t + _
  omega

/-- What every task of a post keeps is kept by the post. -/
theorem postAll_induction {I : QueueRun → Prop} {tasks : List ServerTask}
    (hI : ∀ {s s' : QueueRun}, ∀ task ∈ tasks, I s → s.postOne task front = some s' → I s')
    (h : I s) (e : s.postAll front tasks = some s') : I s' := by
  induction tasks generalizing s with
  | nil => exact Option.some.inj e ▸ h
  | cons task tasks ih =>
    obtain ⟨t, ht, e⟩ := Option.bind_eq_some_iff.mp e
    exact ih (fun task htask => hI task (mem_cons_of_mem _ htask))
      (hI task mem_cons_self h ht) e

/-- What a step that is no post does to the tasks: they stay as often as they are in the queues and
in the hands of the threads, or a thread keeps one. -/
structure Moves (s s' : QueueRun) : Prop where
  posted : s'.posted = s.posted
  cancelled : s'.cancelled = s.cancelled
  dead : s'.dead = s.dead
  id : s.queue.id ≤ s'.queue.id
  count : ∀ k, s'.queue.count k + s'.held.count k + s'.accepted.count k =
    s.queue.count k + s.held.count k + s.accepted.count k
  accepted : ∀ k ∈ s'.accepted, k ∈ s.accepted ∨ k ∈ s.held

/-- Only the place of a thread that holds no task changes, or a field of the queue that no task is
in. -/
theorem Moves.of_eq (hp : s'.posted = s.posted) (hc : s'.cancelled = s.cancelled)
    (hd : s'.dead = s.dead) (hid : s.queue.id ≤ s'.queue.id)
    (hq : ∀ k, s'.queue.count k = s.queue.count k) (hh : s'.held = s.held)
    (ha : s'.accepted = s.accepted) : Moves s s' where
  posted := hp
  cancelled := hc
  dead := hd
  id := hid
  count := fun k => by rw [hq, hh, ha]
  accepted := fun k hk => .inl (ha ▸ hk)

theorem moves_main (e : s.stepMain = some s') : Moves s s' := by
  unfold stepMain at e
  cases hm : s.main with
  | processing =>
    simp only [hm] at e
    split at e
    · cases e
      exact .of_eq rfl rfl rfl le_rfl (fun _ => rfl) (by simp [held, hm, MainPc.held]) rfl
    · split at e
      · cases e
        exact .of_eq rfl rfl rfl le_rfl (fun _ => rfl) (by simp [held, hm, MainPc.held]) rfl
      · next task tasks hq =>
        cases e
        refine ⟨rfl, rfl, rfl, le_rfl, fun k => ?_, fun k hk => .inl hk⟩
        simp only [held, hm, MainPc.held, TaskQueue.count, hq, count_cons, count_append, count_nil]
        omega
  | updating =>
    simp only [hm] at e
    cases e
    exact .of_eq rfl rfl rfl le_rfl (fun _ => rfl) (by simp [held, hm, MainPc.held]) rfl
  | awaiting =>
    simp only [hm] at e
    split at e
    · cases e
    · cases e
      exact .of_eq rfl rfl rfl le_rfl TaskQueue.count_putBack (by simp [held, hm, MainPc.held]) rfl
  | joining =>
    simp only [hm] at e
    split at e
    · cases e
      exact .of_eq rfl rfl rfl le_rfl (fun _ => rfl) (by simp [held, hm, MainPc.held]) rfl
    · cases e
  | outside => simp [hm] at e
  | callback task => simp [hm] at e
  | working => simp [hm] at e

theorem moves_worker (e : s.stepWorker = some s') : Moves s s' := by
  unfold stepWorker at e
  cases hw : s.worker with
  | waiting =>
    simp only [hw] at e
    split at e
    · cases e
      exact .of_eq rfl rfl rfl le_rfl (fun _ => rfl) (by simp [held, hw, WorkerPc.held]) rfl
    · split at e
      · cases e
        exact .of_eq rfl rfl rfl le_rfl (fun _ => rfl) (by simp [held, hw, WorkerPc.held]) rfl
      · cases e
  | processing =>
    simp only [hw] at e
    split at e
    · cases e
      exact .of_eq rfl rfl rfl le_rfl (fun _ => rfl) (by simp [held, hw, WorkerPc.held]) rfl
    · split at e
      · cases e
        exact .of_eq rfl rfl rfl le_rfl (fun _ => rfl) (by simp [held, hw, WorkerPc.held]) rfl
      · next task tasks hq =>
        cases e
        refine ⟨rfl, rfl, rfl, le_rfl, fun k => ?_, fun k hk => .inl hk⟩
        simp only [held, hw, WorkerPc.held, TaskQueue.count, hq, count_cons,
          count_append, count_nil]
        omega
  | declined task =>
    simp only [hw] at e
    cases e
    refine ⟨rfl, rfl, rfl, le_rfl, fun k => ?_, fun k hk => .inl hk⟩
    simp only [held, hw, WorkerPc.held, TaskQueue.count, count_append, count_nil]
    omega
  | processed =>
    simp only [hw] at e
    split at e
    · cases e
      exact .of_eq rfl rfl rfl le_rfl (fun _ => rfl) (by simp [held, hw, WorkerPc.held]) rfl
    · split at e
      all_goals
        cases e
        exact .of_eq rfl rfl rfl le_rfl (fun _ => rfl) (by simp [held, hw, WorkerPc.held]) rfl
  | resting =>
    simp only [hw] at e
    split at e
    · cases e
      exact .of_eq rfl rfl rfl le_rfl (fun _ => rfl) (by simp [held, hw, WorkerPc.held]) rfl
    · cases e
  | leaving =>
    simp only [hw] at e
    cases e
    exact .of_eq rfl rfl rfl le_rfl (fun _ => rfl) (by simp [held, hw, WorkerPc.held]) rfl
  | outside => simp [hw] at e
  | callback task => simp [hw] at e

/-- The callback of a thread gives up the task that it holds. -/
theorem callbackTask_cases {o : Option ServerTask} (h : s.callbackTask b = some o) :
    (b = true ∧ s.worker = .callback o) ∨ (b = false ∧ s.main = .callback o) := by
  unfold callbackTask at h
  cases b with
  | true =>
    simp only [if_true] at h
    split at h
    · next hw => exact .inl ⟨rfl, Option.some.inj h ▸ hw⟩
    · cases h
  | false =>
    simp only [false_eq_true, if_false] at h
    split at h
    · next hm => exact .inr ⟨rfl, Option.some.inj h ▸ hm⟩
    · cases h

theorem count_release (h : s.callbackTask b = some (some task))
    (k : ServerTask) : s.held.count k = [task].count k + (s.release b).held.count k := by
  rcases callbackTask_cases h with ⟨rfl, hw⟩ | ⟨rfl, hm⟩
  · simp only [held, release, if_true, hw, WorkerPc.held, count_append, count_nil]
    omega
  · simp only [held, release, false_eq_true, if_false, hm, MainPc.held, count_append, count_nil]
    omega

theorem release_eq (b : Bool) : (s.release b).queue = s.queue ∧ (s.release b).posted = s.posted ∧
    (s.release b).accepted = s.accepted ∧ (s.release b).cancelled = s.cancelled ∧
    (s.release b).dead = s.dead := by
  cases b <;> exact ⟨rfl, rfl, rfl, rfl, rfl⟩

/-- The tasks that a step posts. -/
def posts : QueueOp → List ServerTask
  | .post task _ => [task]
  | .postAll tasks _ => tasks
  | _ => []

/-- A step posts tasks, or it moves them. -/
theorem step_cases {op : QueueOp} (e : s.step op = some s') :
    (∃ front, s.postAll front (posts op) = some s') ∨ Moves s s' := by
  cases op with
  | post task front =>
    simp only [step] at e
    split at e
    · cases e
    · exact .inl ⟨front, by simp [posts, postAll, e]⟩
  | postAll tasks front => exact .inl ⟨front, e⟩
  | getNewId =>
    cases e
    exact .inr (.of_eq rfl rfl rfl (Int.le_add_one le_rfl) (fun _ => rfl) rfl rfl)
  | popDeferredTask idSlot =>
    cases e
    refine .inr (.of_eq rfl rfl rfl ?_ (count_popDeferred idSlot) rfl rfl)
    dsimp only [TaskQueue.popDeferredTask]
    split
    · exact le_rfl
    · split <;> exact le_rfl
  | terminate =>
    cases e
    exact .inr (.of_eq rfl rfl rfl le_rfl (fun _ => rfl) rfl rfl)
  | startLoop =>
    simp only [step] at e
    split at e
    · next hm =>
      cases e
      exact .inr (.of_eq rfl rfl rfl le_rfl (fun _ => rfl)
        (by simp [held, hm, MainPc.held, WorkerPc.held]) rfl)
    · cases e
  | main => exact .inr (moves_main e)
  | worker => exact .inr (moves_worker e)
  | yieldToQueue =>
    simp only [step] at e
    split at e
    · next hm =>
      cases e
      exact .inr (.of_eq rfl rfl rfl le_rfl (fun _ => rfl) (by simp [held, hm.1, MainPc.held]) rfl)
    · cases e
  | workDone =>
    simp only [step] at e
    split at e
    · next hm =>
      cases e
      exact .inr (.of_eq rfl rfl rfl le_rfl (fun _ => rfl) (by simp [held, hm, MainPc.held]) rfl)
    · cases e
  | accept onWorker =>
    simp only [step] at e
    split at e
    · next task hc =>
      cases e
      obtain ⟨hq, hp, ha, hcan, hd⟩ := s.release_eq onWorker
      have hcount := count_release hc
      refine .inr ⟨hp, hcan, hd, by rw [hq], fun k => ?_, fun k hk => ?_⟩
      · have := hcount k
        change (s.release onWorker).queue.count k + (s.release onWorker).held.count k +
          (s.accepted ++ [task]).count k = _
        rw [hq, count_append]
        omega
      · rcases mem_append.mp hk with hk | hk
        · exact .inl hk
        · refine .inr (count_pos_iff.mp ?_)
          rw [hcount, ← count_pos_iff] at *
          omega
    · cases e
  | defer onWorker =>
    simp only [step] at e
    split at e
    · next task hc =>
      cases e
      obtain ⟨hq, hp, ha, hcan, hd⟩ := s.release_eq onWorker
      have hcount := count_release hc
      refine .inr ⟨hp, hcan, hd, le_rfl, fun k => ?_, fun k hk => .inl (ha ▸ hk)⟩
      have := hcount k
      change (s.queue.defer task).count k + (s.release onWorker).held.count k +
        (s.release onWorker).accepted.count k = _
      rw [ha]
      simp only [TaskQueue.count, TaskQueue.defer, count_append]
      omega
    · cases e
  | handled onWorker =>
    simp only [step] at e
    split at e
    · next hc =>
      cases e
      refine .inr ?_
      rcases callbackTask_cases hc with ⟨rfl, hw⟩ | ⟨rfl, hm⟩
      · exact .of_eq rfl rfl rfl le_rfl (fun _ => rfl) (by simp [held, hw, WorkerPc.held]) rfl
      · exact .of_eq rfl rfl rfl le_rfl (fun _ => rfl) (by simp [held, hm, MainPc.held]) rfl
    · cases e
  | decline =>
    simp only [step] at e
    split at e
    · next task hc =>
      cases e
      refine .inr ?_
      rcases callbackTask_cases hc with ⟨-, hw⟩ | ⟨h, -⟩
      · exact .of_eq rfl rfl rfl le_rfl (fun _ => rfl) (by simp [held, hw, WorkerPc.held]) rfl
      · cases h
    · cases e
  | throw =>
    simp only [step] at e
    split at e
    · next hc =>
      cases e
      refine .inr ?_
      rcases callbackTask_cases hc with ⟨-, hw⟩ | ⟨h, -⟩
      · exact .of_eq rfl rfl rfl le_rfl (fun _ => rfl) (by simp [held, hw, WorkerPc.held]) rfl
      · cases h
    · cases e

/-! ## Yields -/

/-- Outside of a yield no task is set aside; the worker only works while it is busy; and the tasks
set aside, and the one in its hands, stand in the order in which it has taken them. -/
structure Yield (s : QueueRun) : Prop where
  unhandled : s.main ≠ .working → s.main ≠ .awaiting → s.queue.queueTasksUnhandled = []
  busy : s.main ≠ .working → s.main ≠ .awaiting → s.queue.busy = false
  worker : s.queue.busy = false → s.worker = .outside ∨ s.worker = .waiting
  taken : (s.queue.queueTasksUnhandled ++ s.worker.held).Sublist s.taken

theorem Yield.postOne (h : Yield s) (e : s.postOne task front = some s') : Yield s' := by
  obtain ⟨k, id, -, -, -, -, -, rfl⟩ := postOne_cases e
  have hun : ∀ q : TaskQueue, (q.enqueue k front).queueTasksUnhandled.Sublist
      q.queueTasksUnhandled ∧ (q.enqueue k front).busy = q.busy := fun q => by
    unfold enqueue cleanupPendingTask
    split_ifs
    all_goals first
      | exact ⟨filter_sublist, rfl⟩
      | exact ⟨List.Sublist.refl _, rfl⟩
  obtain ⟨hsub, hbusy⟩ := hun { s.queue with id }
  refine ⟨fun h1 h2 => ?_, fun h1 h2 => ?_, fun hb => ?_, ?_⟩
  · have := h.unhandled h1 h2
    exact sublist_nil.mp (this ▸ hsub)
  · exact hbusy.trans (h.busy h1 h2)
  · exact h.worker (hbusy ▸ hb)
  · exact (hsub.append_right _).trans h.taken

/-- The main thread moves on outside of a yield. -/
theorem Yield.of_main (h : Yield s) (hm : s.main ≠ .working ∧ s.main ≠ .awaiting)
    (hb : s'.queue.busy = s.queue.busy)
    (hu : s'.queue.queueTasksUnhandled = s.queue.queueTasksUnhandled) (hw : s'.worker = s.worker)
    (ht : s'.taken = s.taken) : Yield s' where
  unhandled := fun _ _ => hu.trans (h.unhandled hm.1 hm.2)
  busy := fun _ _ => hb.trans (h.busy hm.1 hm.2)
  worker := fun hb' => hw ▸ h.worker (hb ▸ hb')
  taken := by
    rw [hu, hw, ht]
    exact h.taken

/-- The worker moves on while it is busy. -/
theorem Yield.of_worker (h : Yield s) (hw : s.worker ≠ .outside ∧ s.worker ≠ .waiting)
    (hm : s'.main = s.main) (hb : s'.queue.busy = s.queue.busy)
    (ht : (s'.queue.queueTasksUnhandled ++ s'.worker.held).Sublist s'.taken) : Yield s' := by
  have hbusy : s.queue.busy ≠ false := fun hb => (h.worker hb).elim hw.1 hw.2
  refine ⟨fun h1 h2 => ?_, fun h1 h2 => ?_, fun hb' => absurd (hb ▸ hb') hbusy, ht⟩
  · rw [hm] at h1 h2
    exact absurd (h.busy h1 h2) hbusy
  · rw [hm] at h1 h2
    exact absurd (h.busy h1 h2) hbusy

theorem Yield.main (h : Yield s) (e : s.stepMain = some s') : Yield s' := by
  unfold stepMain at e
  cases hm : s.main with
  | processing =>
    have hm' : s.main ≠ .working ∧ s.main ≠ .awaiting := by simp [hm]
    simp only [hm] at e
    split at e
    · cases e
      exact h.of_main hm' rfl rfl rfl rfl
    · split at e
      all_goals
        cases e
        exact h.of_main hm' rfl rfl rfl rfl
  | updating =>
    simp only [hm] at e
    cases e
    exact h.of_main (by simp [hm]) rfl rfl rfl rfl
  | awaiting =>
    simp only [hm] at e
    split at e
    · cases e
    · next hb =>
      cases e
      rw [not_eq_true] at hb
      refine ⟨fun _ _ => rfl, fun _ _ => hb, fun _ => h.worker hb, ?_⟩
      have hheld : s.worker.held = [] := by
        rcases h.worker hb with hw | hw <;> rw [hw] <;> rfl
      rw [hheld]
      exact nil_sublist _
  | joining =>
    simp only [hm] at e
    split at e
    · cases e
      exact h.of_main (by simp [hm]) rfl rfl rfl rfl
    · cases e
  | outside => simp [hm] at e
  | callback task => simp [hm] at e
  | working => simp [hm] at e

theorem Yield.ofWorker (h : Yield s) (e : s.stepWorker = some s') : Yield s' := by
  have ht := h.taken
  unfold stepWorker at e
  cases hw : s.worker with
  | waiting =>
    simp only [hw, held] at e ht
    split at e
    · cases e
      exact ⟨h.unhandled, h.busy, fun _ => .inl rfl, ht⟩
    · split at e
      · next hb =>
        cases e
        exact ⟨h.unhandled, h.busy, fun hb' => absurd (hb.symm.trans hb') (by decide), ht⟩
      · cases e
  | processing =>
    have hw' : s.worker ≠ .outside ∧ s.worker ≠ .waiting := by simp [hw]
    simp only [hw, WorkerPc.held] at e ht
    split at e
    · cases e
      exact h.of_worker hw' rfl rfl ht
    · split at e
      · cases e
        exact h.of_worker hw' rfl rfl ht
      · cases e
        rw [append_nil] at ht
        exact h.of_worker hw' rfl rfl (ht.append_right _)
  | declined task =>
    have hw' : s.worker ≠ .outside ∧ s.worker ≠ .waiting := by simp [hw]
    simp only [hw, held] at e ht
    cases e
    refine h.of_worker hw' rfl rfl ?_
    dsimp only [WorkerPc.held]
    rwa [append_nil]
  | processed =>
    have hw' : s.worker ≠ .outside ∧ s.worker ≠ .waiting := by simp [hw]
    simp only [hw, held] at e ht
    split at e
    · cases e
      exact h.of_worker hw' rfl rfl ht
    · split at e
      all_goals
        cases e
        exact h.of_worker hw' rfl rfl ht
  | resting =>
    have hw' : s.worker ≠ .outside ∧ s.worker ≠ .waiting := by simp [hw]
    simp only [hw, held] at e ht
    split at e
    · cases e
      exact h.of_worker hw' rfl rfl ht
    · cases e
  | leaving =>
    have hbusy : s.queue.busy ≠ false := fun hb => by
      rcases h.worker hb with h | h <;> rw [hw] at h <;> cases h
    simp only [hw, held] at e ht
    cases e
    exact ⟨fun h1 h2 => absurd (h.busy h1 h2) hbusy, fun _ _ => rfl, fun _ => .inr rfl, ht⟩
  | outside => simp [hw] at e
  | callback task => simp [hw] at e

theorem Yield.release (h : Yield s)
    (hc : s.callbackTask b = some (some task)) : Yield (s.release b) := by
  rcases callbackTask_cases hc with ⟨rfl, hw⟩ | ⟨rfl, hm⟩
  · refine h.of_worker (by simp [hw]) rfl rfl ?_
    exact ((append_sublist_append_left _).mpr (nil_sublist _)).trans h.taken
  · exact h.of_main (by simp [hm]) rfl rfl rfl rfl

theorem Yield.step {op : QueueOp} (h : Yield s) (e : s.step op = some s') : Yield s' := by
  cases op with
  | post task front =>
    simp only [QueueRun.step] at e
    split at e
    · cases e
    · exact h.postOne e
  | postAll tasks front => exact postAll_induction (fun _ _ h e => h.postOne e) h e
  | getNewId =>
    cases e
    exact ⟨h.unhandled, h.busy, h.worker, h.taken⟩
  | popDeferredTask idSlot =>
    cases e
    have hu := s.queue.popDeferred_unhandled idSlot
    have hb : (s.queue.popDeferredTask idSlot).busy = s.queue.busy := by
      dsimp only [popDeferredTask]
      split
      · rfl
      · split <;> rfl
    exact ⟨fun h1 h2 => hu.trans (h.unhandled h1 h2), fun h1 h2 => hb.trans (h.busy h1 h2),
      fun hb' => h.worker (hb ▸ hb'), hu ▸ h.taken⟩
  | terminate =>
    cases e
    exact ⟨h.unhandled, h.busy, h.worker, h.taken⟩
  | startLoop =>
    simp only [QueueRun.step] at e
    split at e
    · next hm =>
      cases e
      have ht := h.taken
      rw [hm.2] at ht
      exact ⟨fun _ _ => h.unhandled (by simp [hm]) (by simp [hm]), fun _ _ => rfl,
        fun _ => .inr rfl, ht⟩
    · cases e
  | main => exact h.main e
  | worker => exact h.ofWorker e
  | yieldToQueue =>
    simp only [QueueRun.step] at e
    split at e
    · next hm =>
      cases e
      have hheld : s.worker.held = [] := by
        rcases h.worker hm.2 with hw | hw <;> rw [hw] <;> rfl
      have hu := h.unhandled (by simp [hm]) (by simp [hm])
      refine ⟨fun h1 _ => absurd rfl h1, fun h1 _ => absurd rfl h1, fun hb => (by cases hb), ?_⟩
      rw [hu, hheld]
      exact nil_sublist _
    · cases e
  | workDone =>
    simp only [QueueRun.step] at e
    split at e
    · next hm =>
      cases e
      exact ⟨fun _ h2 => absurd rfl h2, fun _ h2 => absurd rfl h2, h.worker, h.taken⟩
    · cases e
  | accept onWorker =>
    simp only [QueueRun.step] at e
    split at e
    · next task hc =>
      cases e
      have hr := h.release hc
      exact ⟨hr.unhandled, hr.busy, hr.worker, hr.taken⟩
    · cases e
  | defer onWorker =>
    simp only [QueueRun.step] at e
    split at e
    · next task hc =>
      cases e
      have hr := h.release hc
      obtain ⟨hq, -⟩ := s.release_eq onWorker
      have hu : (s.queue.defer task).queueTasksUnhandled =
          (s.release onWorker).queue.queueTasksUnhandled := by rw [hq]; rfl
      have hb : (s.queue.defer task).busy = (s.release onWorker).queue.busy := by rw [hq]; rfl
      exact ⟨fun h1 h2 => hu.trans (hr.unhandled h1 h2), fun h1 h2 => hb.trans (hr.busy h1 h2),
        fun hb' => hr.worker (hb ▸ hb'), hu ▸ hr.taken⟩
    · cases e
  | handled onWorker =>
    simp only [QueueRun.step] at e
    split at e
    · next hc =>
      cases e
      have ht := h.taken
      rcases callbackTask_cases hc with ⟨rfl, hw⟩ | ⟨rfl, hm⟩
      · rw [hw] at ht
        exact h.of_worker (by simp [hw]) rfl rfl ht
      · exact h.of_main (by simp [hm]) rfl rfl rfl rfl
    · cases e
  | decline =>
    simp only [QueueRun.step] at e
    split at e
    · next task hc =>
      cases e
      have ht := h.taken
      rcases callbackTask_cases hc with ⟨-, hw⟩ | ⟨h, -⟩
      · rw [hw] at ht
        exact h.of_worker (by simp [hw]) rfl rfl ht
      · cases h
    · cases e
  | throw =>
    simp only [QueueRun.step] at e
    split at e
    · next hc =>
      cases e
      have ht := h.taken
      rcases callbackTask_cases hc with ⟨-, hw⟩ | ⟨h, -⟩
      · rw [hw] at ht
        exact h.of_worker (by simp [hw]) rfl rfl ht
      · cases h
    · cases e

/-! ## Runs -/

/-- The invariant. -/
structure Inv (s : QueueRun) : Prop where
  fresh : Fresh s
  conserved : Conserved s
  yield : Yield s

theorem inv_inductive (ok : QueueRun → QueueOp → Prop) : queueSys.Inductive ok Inv where
  init := fun s hs => by
    obtain rfl : s = {} := hs
    exact ⟨⟨by simp, nodup_nil⟩, fun k _ => rfl,
      ⟨fun _ _ => rfl, fun _ _ => rfl, fun _ => .inl rfl, nil_sublist _⟩⟩
  step := fun s op s' h _ e _ => by
    have hy := h.yield.step e
    rcases step_cases e with ⟨front, e⟩ | hmoves
    · obtain ⟨hf, hc⟩ := postAll_induction (I := fun s => Fresh s ∧ Conserved s)
        (fun _ _ h e => ⟨h.1.postOne e, h.2.postOne e⟩) ⟨h.fresh, h.conserved⟩ e
      exact ⟨hf, hc, hy⟩
    · refine ⟨⟨fun k hk => ?_, hmoves.posted ▸ h.fresh.nodup⟩, fun k hk => ?_, hy⟩
      · exact lt_of_lt_of_le (h.fresh.lt k (hmoves.posted ▸ hk)) hmoves.id
      · rw [hmoves.posted, hmoves.count]
        exact h.conserved k (hmoves.cancelled ▸ hk)

end QueueRun

/-! ## What every run keeps -/

/-- In every run each task that was posted and whose id was not cancelled is in exactly one place:
the main queue, the deferred tasks, those that a yield has set aside, the hands of a thread, or the
tasks the callback has kept; and at the end of a yield the tasks that were set aside stand before
all others, in the order in which the worker has taken them. -/
theorem queue_conserves {s : QueueRun} (h : queueSys.Reach (fun _ _ => True) s) :
    (∀ k ∈ s.posted, k.id ∉ s.cancelled →
      s.queue.queueTasks.count k + s.queue.queueTasksDeferred.count k +
        s.queue.queueTasksUnhandled.count k + s.held.count k + s.accepted.count k = 1) ∧
    ∀ s', s.main = .awaiting → s.step .main = some s' →
      s.queue.queueTasksUnhandled.Sublist s.taken ∧
      s'.queue.queueTasks = s.queue.queueTasksUnhandled ++ s.queue.queueTasks := by
  have hinv := h.inv (inv_inductive _)
  refine ⟨fun k hk hc => ?_, fun s' hm e => ⟨?_, ?_⟩⟩
  · have hone : s.posted.count k = 1 :=
      count_eq_one_of_mem (List.Nodup.of_map _ hinv.fresh.nodup) hk
    have := hinv.conserved k hc
    rw [hone] at this
    exact this.symm
  · exact (sublist_append_left _ _).trans hinv.yield.taken
  · simp only [step, stepMain, hm] at e
    split at e
    · cases e
    · cases e
      exact s.queue.putBack_eq

/-- A completion that has no id yet, and a cancel task. -/
def completionTask : ServerTask := { type := .completion }

def cancelTask (idTarget : Int) : ServerTask := { type := .cancel, idTarget }

/-- Two tasks that are posted during a yield. -/
def twoPosted : List QueueOp :=
  [.startLoop, .main, .yieldToQueue, .postAll [completionTask, completionTask] false, .worker]

/-- The worker takes a task, and the callback declines it. -/
def takeAndDecline : List QueueOp := [.worker, .decline, .worker]

/-- The worker has declined both tasks and the yield is about to end. -/
def yieldEnds : QueueRun where
  queue := { id := 2, running := true, queueTasksUnhandled :=
    [{ type := .completion, id := 0 }, { type := .completion, id := 1 }] }
  main := .awaiting
  worker := .waiting
  posted := [{ type := .completion, id := 0 }, { type := .completion, id := 1 }]
  taken := [{ type := .completion, id := 0 }, { type := .completion, id := 1 }]

theorem queue_conserves_yieldEnds : queueSys.Reach (fun _ _ => True) yieldEnds ∧
    ∀ s', yieldEnds.step .main = some s' →
      s'.queue.queueTasks =
        [{ type := .completion, id := 0 }, { type := .completion, id := 1 }] := by
  have h : queueSys.Reach (fun _ _ => true = true) yieldEnds :=
    Sys.reach_runSteps (.init rfl)
      (show Sys.runSteps step (fun _ _ => true)
        (twoPosted ++ takeAndDecline ++ takeAndDecline ++
          [.worker, .workDone, .worker, .worker]) _ = some yieldEnds by decide +kernel)
  have hreach := h.mono fun _ _ _ => trivial
  exact ⟨hreach, fun s' e => ((queue_conserves hreach).2 s' rfl e).2⟩

/-- While a yield goes on, a task that was declined is in neither queue, in no callback and not
kept. -/
theorem declined_nowhere : ∃ s, queueSys.Reach (fun _ _ => True) s ∧ ∃ k ∈ s.posted,
    k.type ≠ .cancel ∧ s.cancelled = [] ∧ k ∉ s.queue.queueTasks ∧
      k ∉ s.queue.queueTasksDeferred ∧ k ∉ s.held ∧ k ∉ s.accepted := by
  have h : queueSys.Reach (fun _ _ => true = true) { yieldEnds with
      queue := { yieldEnds.queue with busy := true, yielding := true }
      main := .working, worker := .processed } :=
    Sys.reach_runSteps (.init rfl)
      (show Sys.runSteps step (fun _ _ => true)
        (twoPosted ++ takeAndDecline ++ takeAndDecline ++ [.worker]) _ = some _ by decide +kernel)
  exact ⟨_, h.mono fun _ _ _ => trivial, { type := .completion, id := 0 }, by decide,
    by decide, rfl,
    by decide, by decide, by decide, by decide⟩

/-! ## Cancelled tasks -/

/-- No task is cancelled while a thread holds it. -/
def CancelsUnheld (s : QueueRun) (op : QueueOp) : Prop :=
  ∀ k ∈ QueueRun.posts op, k.type = .cancel → ∀ held ∈ s.held, held.id ≠ k.idTarget

instance (s : QueueRun) (op : QueueOp) : Decidable (CancelsUnheld s op) :=
  inferInstanceAs (Decidable (∀ k ∈ QueueRun.posts op, k.type = .cancel →
    ∀ held ∈ s.held, held.id ≠ k.idTarget))

namespace QueueRun

variable {s s' : QueueRun}

/-- A task that was cancelled before it was kept is nowhere. -/
def Gone (s : QueueRun) : Prop :=
  ∀ t ∈ s.dead, t ∈ s.posted.map (·.id) ∧
    ∀ k, s.queue.Mem k ∨ k ∈ s.held ∨ k ∈ s.accepted → k.id ≠ t

theorem Gone.moves (h : Gone s) (hm : Moves s s') : Gone s' := by
  intro t ht
  obtain ⟨hp, hk⟩ := h t (hm.dead ▸ ht)
  refine ⟨hm.posted ▸ hp, fun k hmem => hk k ?_⟩
  have hcount := hm.count k
  rw [mem_iff_count, ← count_pos_iff, ← count_pos_iff] at hmem ⊢
  omega

theorem Gone.postOne {task : ServerTask} {front : Bool}
    (hc : task.type = .cancel → ∀ held ∈ s.held, held.id ≠ task.idTarget) (h : Gone s)
    (e : s.postOne task front = some s') : Gone s' := by
  obtain ⟨k, id, -, -, hnew, htype, htarget, rfl⟩ := postOne_cases e
  rw [← htype, ← htarget] at hc
  intro t ht
  dsimp only at ht ⊢
  have hmem : ∀ k', (enqueue { s.queue with id } k front).Mem k' →
      k' = k ∨ (s.queue.Mem k' ∧ (k.type = .cancel → k'.id ≠ k.idTarget)) :=
    fun k' => mem_enqueue.mp
  have hdead : t ∈ s.dead ∨ (k.type = .cancel ∧ k.idTarget ∈ s.posted.map (·.id) ∧
      k.idTarget ∉ s.accepted.map (·.id) ∧ t = k.idTarget) := by
    split at ht
    · next hd =>
      rcases mem_cons.mp ht with rfl | ht
      · exact .inr ⟨hd.1, hd.2.1, hd.2.2, rfl⟩
      · exact .inl ht
    · exact .inl ht
  rcases hdead with ht | ⟨hcan, hposted, hacc, rfl⟩
  · obtain ⟨hp, hk⟩ := h t ht
    refine ⟨by rw [map_append]; exact mem_append_left _ hp, fun k' hk' => ?_⟩
    rcases hk' with hk' | hk'
    · rcases hmem k' hk' with rfl | ⟨hk', -⟩
      · rintro rfl
        exact hnew hp
      · exact hk k' (.inl hk')
    · exact hk k' (.inr hk')
  · refine ⟨by rw [map_append]; exact mem_append_left _ hposted, fun k' hk' => ?_⟩
    rcases hk' with hk' | hk' | hk'
    · rcases hmem k' hk' with rfl | ⟨-, hk'⟩
      · exact fun e => hnew (e ▸ hposted)
      · exact hk' hcan
    · exact hc hcan k' hk'
    · exact fun e => hacc (e ▸ mem_map_of_mem hk')

theorem postOne_held {task : ServerTask} {front : Bool} (e : s.postOne task front = some s') :
    s'.held = s.held := by
  obtain ⟨k, id, -, -, -, -, -, rfl⟩ := postOne_cases e
  rfl

theorem gone_inductive : queueSys.Inductive CancelsUnheld Gone where
  init := fun s hs => by
    obtain rfl : s = {} := hs
    exact fun t ht => absurd ht not_mem_nil
  step := fun s op s' h _ e hok => by
    rcases step_cases e with ⟨front, e⟩ | hmoves
    · refine (postAll_induction (I := fun r => Gone r ∧ r.held = s.held)
        (fun task htask h e => ⟨h.1.postOne (fun hcan => ?_) e, (postOne_held e).trans h.2⟩)
        ⟨h, rfl⟩ e).1
      rw [h.2]
      exact hok task htask hcan
    · exact h.moves hmoves

end QueueRun

/-- In a run in which no task is cancelled while a thread holds it, a task that is cancelled behind
its post and before the callback keeps it is not kept any more. -/
theorem cancelled_not_accepted {s : QueueRun} (h : queueSys.Reach CancelsUnheld s) :
    ∀ k ∈ s.accepted, k.id ∉ s.dead :=
  fun k hk hdead => (h.inv gone_inductive k.id hdead).2 k (.inr (.inr hk)) rfl

/-- A deferred task is cancelled. -/
def deferredCancelled : QueueRun where
  queue := { id := 2, running := true
             queueTasks := [{ type := .cancel, id := 1, idTarget := 0 }] }
  main := .processing
  worker := .waiting
  posted := [{ type := .completion, id := 0 }, { type := .cancel, id := 1, idTarget := 0 }]
  cancelled := [0]
  dead := [0]

theorem cancelled_not_accepted_deferred : queueSys.Reach CancelsUnheld deferredCancelled ∧
    ∀ k ∈ deferredCancelled.accepted, k.id ∉ deferredCancelled.dead := by
  have h : queueSys.Reach (fun s op => decide (CancelsUnheld s op) = true) deferredCancelled :=
    Sys.reach_runSteps (.init rfl)
      (show Sys.runSteps step (fun s op => decide (CancelsUnheld s op))
        [.startLoop, .postAll [completionTask] false, .main, .defer false, .handled false,
          .postAll [cancelTask 0] true] _ = some deferredCancelled by decide +kernel)
  have hreach := h.mono fun _ _ hok => of_decide_eq_true hok
  exact ⟨hreach, cancelled_not_accepted hreach⟩

/-- A task that is cancelled in the hands of the callback, which then defers it, is kept later. -/
theorem cancelled_accepted : ∃ s, queueSys.Reach (fun _ _ => True) s ∧
    ∃ k ∈ s.accepted, k.id ∈ s.dead := by
  have h : queueSys.Reach (fun _ _ => true = true)
      { queue := { id := 2, running := true }, main := .callback none, worker := .waiting
        posted := deferredCancelled.posted, cancelled := [0], dead := [0]
        accepted := [{ type := .cancel, id := 1, idTarget := 0 },
          { type := .completion, id := 0 }] } :=
    Sys.reach_runSteps (.init rfl)
      (show Sys.runSteps step (fun _ _ => true)
        [.startLoop, .postAll [completionTask] false, .main, .postAll [cancelTask 0] true,
          .defer false, .handled false, .main, .accept false, .handled false,
          .popDeferredTask (-1), .main, .accept false] _ = some _ by decide +kernel)
  exact ⟨_, h.mono fun _ _ _ => trivial, { type := .completion, id := 0 }, by decide, by decide⟩

end BeeLlama.Server
