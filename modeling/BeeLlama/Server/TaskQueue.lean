import BeeLlama.Lib.Run

/-!
# The task queue of the server

The main thread takes tasks off the queue and gives them to the callback, which keeps a task, defers
it, or, while the queue is yielding, declines it. `yield_to_queue` lets a worker do the same while
the main thread works. The lock is released around every call of the callback.

* `TaskQueue`: what is guarded by `mutex_tasks`, with its operations.
* `MainPc`, `WorkerPc`: where the two threads stand between two releases of the lock.
* `QueueRun.step`: the steps of all threads, any number of producers among them.
-/

namespace BeeLlama.Server

/-- `server_task_type`. -/
inductive ServerTaskType where
  | completion
  | embedding
  | rerank
  | infill
  | cancel
  | control
  | nextResponse
  | metrics
  | slotGet
  | slotSave
  | slotRestore
  | slotErase
  | getLora
  | setLora
  deriving DecidableEq, Repr

/-- `server_task`: the fields that the queue reads. -/
structure ServerTask where
  id : Int := -1
  idTarget : Int := -1
  idSlot : Int := -1
  type : ServerTaskType
  deriving DecidableEq, Repr

/-- `server_queue`: the fields that are guarded by `mutex_tasks`, those of the worker among them. -/
structure TaskQueue where
  id : Int := 0
  running : Bool := false
  queueTasks : List ServerTask := []
  queueTasksDeferred : List ServerTask := []
  queueTasksUnhandled : List ServerTask := []
  stop : Bool := false
  busy : Bool := false
  yielding : Bool := false
  deriving DecidableEq, Repr

namespace TaskQueue

/-- `cleanup_pending_task`. -/
def cleanupPendingTask (q : TaskQueue) (idTarget : Int) : TaskQueue :=
  { q with queueTasks := q.queueTasks.filter (·.id ≠ idTarget)
           queueTasksDeferred := q.queueTasksDeferred.filter (·.id ≠ idTarget)
           queueTasksUnhandled := q.queueTasksUnhandled.filter (·.id ≠ idTarget) }

/-- The body of the loop of `post` for several tasks, for a task that has an id. -/
def enqueue (q : TaskQueue) (task : ServerTask) (front : Bool) : TaskQueue :=
  let q := if task.type = .cancel then q.cleanupPendingTask task.idTarget else q
  if front then { q with queueTasks := task :: q.queueTasks }
  else { q with queueTasks := q.queueTasks ++ [task] }

/-- The id of a task that has none. -/
def assignId (q : TaskQueue) (task : ServerTask) : TaskQueue × ServerTask :=
  if task.id = -1 then ({ q with id := q.id + 1 }, { task with id := q.id }) else (q, task)

/-- `get_new_id`. -/
def getNewId (q : TaskQueue) : TaskQueue × Int := ({ q with id := q.id + 1 }, q.id)

/-- `defer`. -/
def defer (q : TaskQueue) (task : ServerTask) : TaskQueue :=
  { q with queueTasksDeferred := q.queueTasksDeferred ++ [task] }

/-- `pop_deferred_task`. -/
def popDeferredTask (q : TaskQueue) (idSlot : Int) : TaskQueue :=
  match q.queueTasksDeferred with
  | [] => q
  | first :: rest =>
    match q.queueTasksDeferred.find? (·.idSlot = idSlot) with
    | some task =>
      { q with queueTasks := task :: q.queueTasks
               queueTasksDeferred := q.queueTasksDeferred.eraseP (·.idSlot = idSlot) }
    | none => { q with queueTasks := first :: q.queueTasks, queueTasksDeferred := rest }

/-- The end of `yield_to_queue`: the declined tasks go back, the last one first. -/
def putBack (q : TaskQueue) : TaskQueue :=
  { q with queueTasks := q.queueTasksUnhandled.foldr (· :: ·) q.queueTasks
           queueTasksUnhandled := [] }

end TaskQueue

/-- Where the thread of `start_loop` stands: outside of it, before the lock in `process_new_tasks`,
in the callback with the task it holds, in `callback_update_slots`, in the work of
`yield_to_queue`, where that waits for the worker, and in `worker_stop`. -/
inductive MainPc where
  | outside
  | processing
  | callback (task : Option ServerTask)
  | updating
  | working
  | awaiting
  | joining
  deriving DecidableEq, Repr

/-- Where the worker stands: not running, waiting for a yield, before the lock in
`process_new_tasks`, in the callback with the task it holds, with a task that the callback has
declined, behind `process_new_tasks`, waiting for tasks, and about to say that it is done. -/
inductive WorkerPc where
  | outside
  | waiting
  | processing
  | callback (task : Option ServerTask)
  | declined (task : ServerTask)
  | processed
  | resting
  | leaving
  deriving DecidableEq, Repr

/-- The task that the thread has taken off the queue. -/
def MainPc.held : MainPc → List ServerTask
  | .callback (some task) => [task]
  | _ => []

def WorkerPc.held : WorkerPc → List ServerTask
  | .callback (some task) => [task]
  | .declined task => [task]
  | _ => []

/-- The queue and its threads, with what has happened: the tasks that were posted, those the
callback has kept, those the worker has taken since the yield began, the targets of the cancel
tasks, and the targets that had been posted and were not kept when they were cancelled. -/
structure QueueRun where
  queue : TaskQueue := {}
  main : MainPc := .outside
  worker : WorkerPc := .outside
  posted : List ServerTask := []
  accepted : List ServerTask := []
  taken : List ServerTask := []
  cancelled : List Int := []
  dead : List Int := []
  deriving DecidableEq, Repr

/-- The steps. Those of the callback name the thread that runs it. -/
inductive QueueOp where
  | getNewId
  | post (task : ServerTask) (front : Bool)
  | postAll (tasks : List ServerTask) (front : Bool)
  | popDeferredTask (idSlot : Int)
  | terminate
  | startLoop
  | main
  | workDone
  | yieldToQueue
  | worker
  | accept (onWorker : Bool)
  | defer (onWorker : Bool)
  | handled (onWorker : Bool)
  | decline
  | throw
  deriving DecidableEq, Repr

namespace QueueRun

/-- The tasks that the threads have taken off the queue. -/
def held (s : QueueRun) : List ServerTask := s.main.held ++ s.worker.held

/-- One task is posted: its id is one of `get_new_id` and was not posted before, or the queue gives
it one. -/
def postOne (s : QueueRun) (task : ServerTask) (front : Bool) : Option QueueRun :=
  let (queue, task) := s.queue.assignId task
  if 0 ≤ task.id ∧ task.id < queue.id ∧ task.id ∉ s.posted.map (·.id) then
    some { s with
      queue := queue.enqueue task front
      posted := s.posted ++ [task]
      cancelled := if task.type = .cancel then task.idTarget :: s.cancelled else s.cancelled
      dead := if task.type = .cancel ∧ task.idTarget ∈ s.posted.map (·.id) ∧
          task.idTarget ∉ s.accepted.map (·.id) then task.idTarget :: s.dead else s.dead }
  else none

/-- `post` for several tasks: the lock is held for all of them. -/
def postAll (s : QueueRun) (front : Bool) : List ServerTask → Option QueueRun
  | [] => some s
  | task :: tasks => (s.postOne task front).bind fun s => s.postAll front tasks

/-- The task that the callback of a thread holds. -/
def callbackTask (s : QueueRun) (onWorker : Bool) : Option (Option ServerTask) :=
  if onWorker then
    match s.worker with
    | .callback task => some task
    | _ => none
  else
    match s.main with
    | .callback task => some task
    | _ => none

/-- The callback of a thread does not hold its task any more. -/
def release (s : QueueRun) (onWorker : Bool) : QueueRun :=
  if onWorker then { s with worker := .callback none } else { s with main := .callback none }

/-- One step of the thread of `start_loop`. -/
def stepMain (s : QueueRun) : Option QueueRun :=
  match s.main with
  | .processing =>
    if ¬ s.queue.running then
      some { s with main := .joining, queue := { s.queue with stop := true } }
    else
      match s.queue.queueTasks with
      | [] => some { s with main := .updating }
      | task :: tasks =>
        some { s with main := .callback (some task), queue := { s.queue with queueTasks := tasks } }
  -- the loop waits for tasks, or it wakes up from sleep without one
  | .updating => some { s with main := .processing }
  | .awaiting =>
    if s.queue.busy then none
    else some { s with main := .updating, queue := s.queue.putBack }
  | .joining => if s.worker = .outside then some { s with main := .outside } else none
  | _ => none

/-- One step of the worker. -/
def stepWorker (s : QueueRun) : Option QueueRun :=
  match s.worker with
  | .waiting =>
    if s.queue.stop then some { s with worker := .outside }
    else if s.queue.busy then some { s with worker := .processing }
    else none
  | .processing =>
    if ¬ s.queue.running then some { s with worker := .leaving }
    else
      match s.queue.queueTasks with
      | [] => some { s with worker := .processed }
      | task :: tasks =>
        some { s with worker := .callback (some task)
                      queue := { s.queue with queueTasks := tasks }
                      taken := s.taken ++ [task] }
  | .declined task =>
    some { s with worker := .processing
                  queue := { s.queue with
                    queueTasksUnhandled := s.queue.queueTasksUnhandled ++ [task] } }
  | .processed =>
    if s.queue.stop ∨ ¬ s.queue.yielding then some { s with worker := .leaving }
    else if s.queue.queueTasks ≠ [] then some { s with worker := .processing }
    else some { s with worker := .resting }
  | .resting =>
    if s.queue.stop ∨ ¬ s.queue.running ∨ ¬ s.queue.yielding ∨ s.queue.queueTasks ≠ [] then
      some { s with worker := .processing }
    else none
  | .leaving => some { s with worker := .waiting, queue := { s.queue with busy := false } }
  | _ => none

/-- A step. `none` where the thread is somewhere else, where it waits, or where the code asserts
that this does not happen. -/
def step (s : QueueRun) : QueueOp → Option QueueRun
  | .getNewId => some { s with queue := s.queue.getNewId.1 }
  | .post task front => if task.id = -1 then none else s.postOne task front
  | .postAll tasks front => s.postAll front tasks
  | .popDeferredTask idSlot => some { s with queue := s.queue.popDeferredTask idSlot }
  | .terminate => some { s with queue := { s.queue with running := false } }
  | .startLoop =>
    if s.main = .outside ∧ s.worker = .outside then
      some { s with main := .processing, worker := .waiting
                    queue := { s.queue with
                      running := true, stop := false, busy := false, yielding := false } }
    else none
  | .main => s.stepMain
  | .yieldToQueue =>
    if s.main = .updating ∧ s.queue.busy = false then
      some { s with main := .working, taken := []
                    queue := { s.queue with busy := true, yielding := true } }
    else none
  | .workDone =>
    if s.main = .working then
      some { s with main := .awaiting, queue := { s.queue with yielding := false } }
    else none
  | .worker => s.stepWorker
  | .accept onWorker =>
    match s.callbackTask onWorker with
    | some (some task) => some { s.release onWorker with accepted := s.accepted ++ [task] }
    | _ => none
  | .defer onWorker =>
    match s.callbackTask onWorker with
    | some (some task) => some { s.release onWorker with queue := s.queue.defer task }
    | _ => none
  | .handled onWorker =>
    match s.callbackTask onWorker with
    | some none => some (if onWorker then { s with worker := .processing }
        else { s with main := .processing })
    | _ => none
  | .decline =>
    match s.callbackTask true with
    | some (some task) => some { s with worker := .declined task }
    | _ => none
  -- the callback of the worker throws behind what it has done with the task
  | .throw =>
    match s.callbackTask true with
    | some none => some { s with worker := .leaving }
    | _ => none

end QueueRun

/-- The runs of a queue. -/
def queueSys : Sys QueueRun QueueOp := .ofStep (fun s => s = {}) QueueRun.step

end BeeLlama.Server
