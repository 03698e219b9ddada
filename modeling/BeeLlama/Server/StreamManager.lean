import BeeLlama.Server.Stream
import Mathlib.Data.List.AList

/-!
# The stream session manager

One map holds the live sessions by their conversation id. A request with an id makes a session and
keeps it to its end; a later request with the same id replaces it in the map, and from then on the
two requests run side by side. The steps are what is done under one lock: the calls of `cancel` and
`finalize` that follow a change of the map are steps of their own, so that any other step can come
between them.

* `Creator`: every session has exactly one request that made it.
* `LastCreated`, `Removed`: the map holds for an id the session that was made last with it, unless
  a step has taken it out.
* `SessionsKept`: the end of a request leaves the sessions of the other requests in the map and
  uncancelled. `on_complete` looks its session up by the id, so this needs `EvictsOwn`.
-/

namespace BeeLlama.Server

open List Option

def STREAM_SESSION_TTL_SECONDS : Int := 300

def STREAM_SESSION_MAX_BYTES : Nat := 4 * 1024 * 1024

/-- `stream_session`: the buffer, the id that it was made for, the flag that is read without a lock
and the time of its end, `0` while it lives. -/
structure ManagedSession extends StreamSession where
  conversationId : String
  cancelled : Bool := false
  completedTs : Int := 0
  deriving DecidableEq, Repr

namespace ManagedSession

/-- `append`, without its result: its callers do not read it. -/
def append (s : ManagedSession) (data : List UInt8) : ManagedSession :=
  { s with toStreamSession := (s.toStreamSession.append data).1 }

/-- `finalize` at the time `now`. -/
def finalize (s : ManagedSession) (now : Int) : ManagedSession :=
  if s.done then s
  else { s with toStreamSession := s.toStreamSession.finalize, completedTs := now }

/-- `cancel`. -/
def cancel (s : ManagedSession) : ManagedSession := { s with cancelled := true }

end ManagedSession

/-- A call that a thread still has to make after it has released the lock of the map. A session is
named by the number of sessions made before it. -/
inductive Signal where
  | cancel (session : Nat)
  | finalize (session : Nat)
  deriving DecidableEq, Repr

/-- `server_stream_conv_id_from_headers`: the value of the first header with this name, in the order
of the map, without regard to case. -/
def convIdFromHeaders (headers : List (String × String)) : String :=
  ((headers.find? fun kv => kv.1.toLower == "x-conversation-id").map Prod.snd).getD ""

/-- Where a request is: the handler and the calls of `next`; in `on_complete`, before a look at
`is_cancelled` or before a call of `next_orig`; after it; after its destructor. -/
inductive RequestPhase where
  | serving
  | draining
  | pulling
  | completed
  | destroyed
  deriving DecidableEq, Repr

/-- `server_res_spipe`: the headers of `req`, the session of `spipe`, whether `next_orig` is set. -/
structure StreamRequest where
  headers : List (String × String)
  spipe : Option Nat := none
  nextOrig : Bool := false
  nextFinished : Bool := false
  phase : RequestPhase := .serving
  todo : List Signal := []
  deriving DecidableEq, Repr

/-- `stream_session_manager`, the sessions that were made, the requests, and what the threads of
`DELETE`, of the collector and of `stop_gc` still have to call. -/
structure StreamManager where
  heap : List ManagedSession := []
  sessions : AList (fun _ : String => Nat) := ∅
  requests : List StreamRequest := []
  workers : List (List Signal) := []

/-- The steps; `chunk` and `hasNext` are what `next_orig` gives, `now` is what the clock says. -/
inductive ManagerOp where
  | setReq (headers : List (String × String))
  | setNext (r : Nat)
  | next (r : Nat) (chunk : List UInt8) (hasNext : Bool)
  | onComplete (r : Nat)
  | drain (r : Nat)
  | pull (r : Nat) (chunk : List UInt8) (hasNext : Bool)
  | destroy (r : Nat) (now : Int)
  | signal (r : Nat) (now : Int)
  | delete (conversationId : String)
  | collect (now : Int)
  | stop
  | work (w : Nat) (now : Int)
  deriving DecidableEq, Repr

namespace StreamManager

/-- `create_or_replace`: the new session, and the calls on the one it replaces. -/
def createOrReplace (m : StreamManager) (conversationId : String) :
    StreamManager × Nat × List Signal :=
  let fresh := m.heap.length
  let m' := { m with
    heap := m.heap ++ [{ conversationId, capBytes := STREAM_SESSION_MAX_BYTES }]
    sessions := m.sessions.insert conversationId fresh }
  match m.sessions.lookup conversationId with
  | some previous => (m', fresh, [.cancel previous, .finalize previous])
  | none => (m', fresh, [])

/-- `evict`. -/
def evict (m : StreamManager) (conversationId : String) : StreamManager × List Signal :=
  match m.sessions.lookup conversationId with
  | none => (m, [])
  | some s => ({ m with sessions := m.sessions.erase conversationId }, [.finalize s])

/-- `evict_and_cancel`. -/
def evictAndCancel (m : StreamManager) (conversationId : String) : StreamManager × List Signal :=
  match m.sessions.lookup conversationId with
  | none => (m, [])
  | some s => ({ m with sessions := m.sessions.erase conversationId }, [.cancel s, .finalize s])

/-- A session that was done at the cutoff. -/
def expired (m : StreamManager) (cutoff : Int) (s : Nat) : Bool :=
  match m.heap[s]? with
  | none => false
  | some session => session.completedTs ≠ 0 && session.completedTs ≤ cutoff

/-- `gc_loop`, one round: the expired sessions leave the map. -/
def collect (m : StreamManager) (now : Int) : StreamManager × List Signal :=
  let cutoff := now - STREAM_SESSION_TTL_SECONDS
  let toDrop := m.sessions.entries.filter fun kv => m.expired cutoff kv.2
  ({ m with sessions := toDrop.foldl (fun t kv => t.erase kv.1) m.sessions },
    toDrop.map fun kv => .finalize kv.2)

/-- `stop_gc`, once the collector has ended: all sessions leave the map. -/
def stop (m : StreamManager) : StreamManager × List Signal :=
  ({ m with sessions := ∅ }, m.sessions.entries.map fun kv => .finalize kv.2)

/-- A call on a session. -/
def onSession (m : StreamManager) (s : Nat) (f : ManagedSession → ManagedSession) : StreamManager :=
  { m with heap := m.heap.modify s f }

/-- A call that was still to be made. -/
def send (m : StreamManager) (now : Int) : Signal → StreamManager
  | .cancel s => m.onSession s .cancel
  | .finalize s => m.onSession s fun t => t.finalize now

/-- A call on the session of a request, if it has one. -/
def onPipe (m : StreamManager) (q : StreamRequest) (f : ManagedSession → ManagedSession) :
    StreamManager :=
  match q.spipe with
  | none => m
  | some s => m.onSession s f

/-- `is_cancelled` of the session of a request. -/
def isCancelled (m : StreamManager) (q : StreamRequest) : Bool :=
  ((q.spipe.bind fun s => m.heap[s]?).map ManagedSession.cancelled).getD false

def setRequest (m : StreamManager) (r : Nat) (q : StreamRequest) : StreamManager :=
  { m with requests := m.requests.set r q }

def addWorker (m : StreamManager × List Signal) : StreamManager :=
  { m.1 with workers := m.1.workers ++ [m.2] }

/-- A request in one of these phases that has no call to make. -/
def ready (m : StreamManager) (r : Nat) (phases : List RequestPhase) : Option StreamRequest :=
  m.requests[r]?.filter fun q => q.todo.isEmpty && phases.contains q.phase

/-- `set_req`. -/
def setReq (m : StreamManager) (headers : List (String × String)) : StreamManager :=
  let conversationId := convIdFromHeaders headers
  if conversationId.isEmpty then { m with requests := m.requests ++ [{ headers }] }
  else
    let (m', fresh, todo) := m.createOrReplace conversationId
    { m' with requests := m'.requests ++ [{ headers, spipe := some fresh, todo }] }

/-- `on_complete`, up to its loop. -/
def onComplete (m : StreamManager) (r : Nat) (q : StreamRequest) : StreamManager :=
  if q.spipe = none || q.nextFinished then m.setRequest r { q with phase := .completed }
  else if !q.nextOrig then
    -- the request failed before it had a stream: its session is looked up by the id
    let evicted := m.evict (convIdFromHeaders q.headers)
    evicted.1.setRequest r { q with phase := .completed, todo := evicted.2 }
  else m.setRequest r { q with phase := .draining }

/-- A step. -/
def step (m : StreamManager) : ManagerOp → Option StreamManager
  | .setReq headers => some (m.setReq headers)
  | .setNext r => (m.ready r [.serving]).map fun q => m.setRequest r { q with nextOrig := true }
  | .next r chunk hasNext => ((m.ready r [.serving]).filter StreamRequest.nextOrig).map fun q =>
    (m.onPipe q fun s => s.append chunk).setRequest r
      { q with nextFinished := q.nextFinished || !hasNext }
  | .onComplete r => (m.ready r [.serving]).map fun q => m.onComplete r q
  | .drain r => (m.ready r [.draining]).map fun q =>
    m.setRequest r { q with phase := if m.isCancelled q then .completed else .pulling }
  | .pull r chunk hasNext => (m.ready r [.pulling]).map fun q =>
    (m.onPipe q fun s => s.append chunk).setRequest r
      { q with phase := if hasNext then .draining else .completed }
  | .destroy r now => (m.ready r [.serving, .completed]).map fun q =>
    (m.onPipe q fun s => s.finalize now).setRequest r { q with phase := .destroyed }
  | .signal r now =>
    match m.requests[r]? with
    | none => none
    | some q =>
      match q.todo with
      | [] => none
      | s :: todo => some ((m.send now s).setRequest r { q with todo })
  | .delete conversationId =>
    some (if conversationId.isEmpty then m else addWorker (m.evictAndCancel conversationId))
  | .collect now => some (addWorker (m.collect now))
  | .stop => some (addWorker m.stop)
  | .work w now =>
    match m.workers[w]? with
    | none => none
    | some [] => none
    | some (s :: todo) => some { m.send now s with workers := m.workers.set w todo }

/-! ## Who made a session, and which one the map holds -/

/-- The id that a session was made for. -/
def conv (m : StreamManager) (s : Nat) : Option String :=
  m.heap[s]?.map ManagedSession.conversationId

/-- The flag of a session. -/
def cancelledAt (m : StreamManager) (s : Nat) : Option Bool :=
  m.heap[s]?.map ManagedSession.cancelled

/-- The request `r` made the session `s`. -/
def Creator (m : StreamManager) (s r : Nat) : Prop :=
  ∃ q, m.requests[r]? = some q ∧ q.spipe = some s

/-- The session `s` is in the map. -/
def Holds (m : StreamManager) (s : Nat) : Prop := ∃ k, m.sessions.lookup k = some s

/-- No session was made for the id `k` after `s`. -/
def LastCreated (m : StreamManager) (k : String) (s : Nat) : Prop :=
  m.conv s = some k ∧ ∀ t, m.conv t = some k → t ≤ s

/-- A call on a session. -/
inductive Call : ManagedSession → ManagedSession → Prop where
  | append (t : ManagedSession) (data : List UInt8) : Call t (t.append data)
  | finalize (t : ManagedSession) (now : Int) : Call t (t.finalize now)
  | cancel (t : ManagedSession) : Call t t.cancel

/-- What any step but the making of a session does: there are calls on sessions, the sessions keep
their requests, and the map gets no entry. -/
structure Quiet (m m' : StreamManager) : Prop where
  length : m'.heap.length = m.heap.length
  heap : ∀ (s : Nat) (t' : ManagedSession), m'.heap[s]? = some t' →
    ∃ t, m.heap[s]? = some t ∧ Relation.ReflTransGen Call t t'
  lookup : ∀ k s, m'.sessions.lookup k = some s → m.sessions.lookup k = some s
  creator : ∀ s r, m'.Creator s r ↔ m.Creator s r

/-- A session is made for the id `k`. -/
structure Created (m m' : StreamManager) (k : String) : Prop where
  heap : m'.heap = m.heap ++ [{ conversationId := k, capBytes := STREAM_SESSION_MAX_BYTES }]
  lookup : ∀ k', m'.sessions.lookup k' = if k' = k then some m.heap.length else m.sessions.lookup k'
  creator : ∀ s r, m'.Creator s r ↔ m.Creator s r ∨ s = m.heap.length ∧ r = m.requests.length

section Steps

variable {m m' m'' : StreamManager} {q q' : StreamRequest} {r s : Nat} {k : String}
  {f : ManagedSession → ManagedSession}

theorem Quiet.of_heap (h : m'.heap = m.heap)
    (hl : ∀ k s, m'.sessions.lookup k = some s → m.sessions.lookup k = some s)
    (hc : ∀ s r, m'.Creator s r ↔ m.Creator s r) : Quiet m m' :=
  ⟨congrArg List.length h, fun _ t ht => ⟨t, h ▸ ht, .refl⟩, hl, hc⟩

theorem Quiet.refl (m : StreamManager) : Quiet m m :=
  .of_heap rfl (fun _ _ h => h) fun _ _ => Iff.rfl

theorem Quiet.trans (h : Quiet m m') (h' : Quiet m' m'') : Quiet m m'' where
  length := h'.length.trans h.length
  heap := fun s t'' ht'' => by
    obtain ⟨t', ht', hcalls'⟩ := h'.heap s t'' ht''
    obtain ⟨t, ht, hcalls⟩ := h.heap s t' ht'
    exact ⟨t, ht, hcalls.trans hcalls'⟩
  lookup := fun k s e => h.lookup k s (h'.lookup k s e)
  creator := fun s r => (h'.creator s r).trans (h.creator s r)

theorem Created.length (h : Created m m' k) : m'.heap.length = m.heap.length + 1 := by
  rw [h.heap, length_append]
  rfl

theorem map_modify {β : Type} {g : ManagedSession → β} (hf : ∀ t, g (f t) = g t)
    (l : List ManagedSession) : (l.modify s f).map g = l.map g := by
  refine ext_getElem? fun i => ?_
  rw [getElem?_map, getElem?_map, getElem?_modify]
  cases l[i]? with
  | none => rfl
  | some t =>
    by_cases h : s = i
    · simp [h, hf]
    · simp [h]

theorem Quiet.onSession (hf : ∀ t, Call t (f t)) : Quiet m (m.onSession s f) where
  length := length_modify f m.heap s
  heap := fun i t' ht' => by
    unfold StreamManager.onSession at ht'
    rw [getElem?_modify] at ht'
    obtain ⟨t, ht, rfl⟩ := map_eq_some_iff.mp ht'
    refine ⟨t, ht, ?_⟩
    split
    · exact .single (hf t)
    · exact .refl
  lookup := fun _ _ h => h
  creator := fun _ _ => Iff.rfl

theorem Call.conversationId {t t' : ManagedSession} (h : Call t t') :
    t'.conversationId = t.conversationId := by
  cases h with
  | append data => rfl
  | finalize now =>
    unfold ManagedSession.finalize
    split <;> rfl
  | cancel => rfl

theorem Quiet.send (now : Int) (x : Signal) : Quiet m (m.send now x) := by
  cases x with
  | cancel s => exact .onSession .cancel
  | finalize s => exact .onSession fun t => .finalize t now

theorem Quiet.onPipe (hf : ∀ t, Call t (f t)) : Quiet m (m.onPipe q f) := by
  unfold StreamManager.onPipe
  split
  · exact .refl m
  · exact .onSession hf

theorem onPipe_requests : (m.onPipe q f).requests = m.requests := by
  unfold StreamManager.onPipe
  split <;> rfl

theorem send_requests (now : Int) (x : Signal) : (m.send now x).requests = m.requests := by
  cases x <;> rfl

/-- A request that changes without its session. -/
theorem Quiet.setRequest (h : m.requests[r]? = some q) (hq : q'.spipe = q.spipe) :
    Quiet m (m.setRequest r q') := by
  refine .of_heap rfl (fun _ _ h => h) fun s t => ?_
  unfold Creator StreamManager.setRequest
  rw [List.getElem?_set]
  by_cases ht : r = t
  · obtain rfl := ht
    obtain ⟨hlt, -⟩ := List.getElem?_eq_some_iff.mp h
    rw [if_pos rfl, if_pos hlt, h]
    exact ⟨fun ⟨p, hp, hs⟩ => ⟨q, rfl, hq ▸ Option.some.inj hp ▸ hs⟩,
      fun ⟨p, hp, hs⟩ => ⟨q', rfl, hq.trans (Option.some.inj hp ▸ hs)⟩⟩
  · rw [if_neg ht]

/-- A request that has made a call on its session. -/
theorem Quiet.pipeRequest (hf : ∀ t, Call t (f t))
    (h : m.requests[r]? = some q) (hq : q'.spipe = q.spipe) :
    Quiet m ((m.onPipe q f).setRequest r q') :=
  (Quiet.onPipe hf).trans (.setRequest ((congrArg (·[r]?) onPipe_requests).trans h) hq)

/-- The map loses entries. -/
theorem Quiet.sessions {t : AList fun _ : String => Nat}
    (h : ∀ k s, t.lookup k = some s → m.sessions.lookup k = some s) :
    Quiet m { m with sessions := t } := .of_heap rfl h fun _ _ => Iff.rfl

theorem erase_lookup {t : AList fun _ : String => Nat} {k k' : String}
    (h : (t.erase k').lookup k = some s) : t.lookup k = some s := by
  by_cases hk : k = k'
  · rw [hk, AList.lookup_erase] at h
    cases h
  · rwa [AList.lookup_erase_ne hk] at h

theorem eraseAll_lookup {l : List (Sigma fun _ : String => Nat)} :
    ∀ {t : AList fun _ : String => Nat},
      (l.foldl (fun t kv => t.erase kv.1) t).lookup k = some s → t.lookup k = some s := by
  induction l with
  | nil => exact fun h => h
  | cons kv l ih => exact fun h => erase_lookup (ih h)

theorem Quiet.evict (k : String) : Quiet m (m.evict k).1 := by
  unfold StreamManager.evict
  split
  · exact .refl m
  · exact .sessions fun _ _ => erase_lookup

theorem Quiet.evictAndCancel (k : String) : Quiet m (m.evictAndCancel k).1 := by
  unfold StreamManager.evictAndCancel
  split
  · exact .refl m
  · exact .sessions fun _ _ => erase_lookup

theorem evict_requests (k : String) : (m.evict k).1.requests = m.requests := by
  unfold StreamManager.evict
  split <;> rfl

theorem evict_finalizes : ∀ x ∈ (m.evict k).2, ∃ s, x = .finalize s := by
  intro x h
  unfold StreamManager.evict at h
  split at h
  · cases h
  · exact ⟨_, mem_singleton.mp h⟩

theorem ready_eq {phases : List RequestPhase} (h : m.ready r phases = some q) :
    m.requests[r]? = some q ∧ q.todo = [] ∧ q.phase ∈ phases := by
  obtain ⟨hq, h⟩ := filter_eq_some_iff.mp h
  obtain ⟨ht, hp⟩ := Bool.and_eq_true_iff.mp h
  exact ⟨hq, isEmpty_iff.mp ht, contains_iff_mem.mp hp⟩

theorem Quiet.onComplete (h : m.requests[r]? = some q) : Quiet m (m.onComplete r q) := by
  unfold StreamManager.onComplete
  split
  · exact .setRequest h rfl
  split
  · exact (Quiet.evict _).trans (.setRequest ((congrArg (·[r]?) (evict_requests _)).trans h) rfl)
  · exact .setRequest h rfl

theorem createOrReplace_eq (m : StreamManager) (k : String) : ∃ todo, m.createOrReplace k =
      ({ m with heap := m.heap ++ [{ conversationId := k, capBytes := STREAM_SESSION_MAX_BYTES }]
                sessions := m.sessions.insert k m.heap.length }, m.heap.length, todo) := by
  unfold StreamManager.createOrReplace
  split <;> exact ⟨_, rfl⟩

/-- A request is added; it has made `s`, if `s` is there. -/
theorem creator_append (hr : m'.requests = m.requests ++ [q]) (s r : Nat) :
    m'.Creator s r ↔ m.Creator s r ∨ q.spipe = some s ∧ r = m.requests.length := by
  unfold Creator
  rw [hr, getElem?_append]
  split
  · next h => exact ⟨fun h => .inl h, fun h' => h'.resolve_right fun ⟨_, e⟩ => by omega⟩
  · next h =>
    have hnone : m.requests[r]? = none := getElem?_eq_none (by omega)
    rw [hnone, getElem?_singleton]
    split
    · next h0 =>
      refine ⟨fun ⟨p, hp, hs⟩ => .inr ⟨Option.some.inj hp ▸ hs, by omega⟩, ?_⟩
      rintro (⟨p, hp, -⟩ | ⟨hs, -⟩)
      · cases hp
      · exact ⟨q, rfl, hs⟩
    · next h0 =>
      refine ⟨fun ⟨p, hp, _⟩ => (by cases hp), ?_⟩
      rintro (⟨p, hp, -⟩ | ⟨-, e⟩)
      · cases hp
      · omega

theorem setReq_cases (headers : List (String × String)) :
    Quiet m (m.setReq headers) ∨ ∃ k, Created m (m.setReq headers) k := by
  unfold StreamManager.setReq
  dsimp only
  split
  · exact .inl (.of_heap rfl (fun _ _ h => h) fun s r =>
      (creator_append rfl s r).trans (or_iff_left fun h => by cases h.1))
  · obtain ⟨todo, e⟩ := createOrReplace_eq m (convIdFromHeaders headers)
    rw [e]
    refine .inr ⟨convIdFromHeaders headers, rfl, fun k' => ?_, fun s r => ?_⟩
    · dsimp only
      split
      · next h => rw [h, AList.lookup_insert]
      · next h => rw [AList.lookup_insert_ne h]
    · rw [creator_append rfl, some_inj]
      exact or_congr_right (and_congr_left fun _ => eq_comm)

/-- What a step can do. -/
theorem step_cases {op : ManagerOp} (e : m.step op = some m') :
    Quiet m m' ∨ ∃ k, Created m m' k := by
  cases op with
  | setReq headers => exact Option.some.inj e ▸ setReq_cases headers
  | setNext r =>
    obtain ⟨q, hq, rfl⟩ := map_eq_some_iff.mp e
    exact .inl (.setRequest (ready_eq hq).1 rfl)
  | next r chunk hasNext =>
    obtain ⟨q, hq, rfl⟩ := map_eq_some_iff.mp e
    have hq := (ready_eq (filter_eq_some_iff.mp hq).1).1
    exact .inl (.pipeRequest (fun t => .append t chunk) hq rfl)
  | onComplete r =>
    obtain ⟨q, hq, rfl⟩ := map_eq_some_iff.mp e
    exact .inl (.onComplete (ready_eq hq).1)
  | drain r =>
    obtain ⟨q, hq, rfl⟩ := map_eq_some_iff.mp e
    exact .inl (.setRequest (ready_eq hq).1 rfl)
  | pull r chunk hasNext =>
    obtain ⟨q, hq, rfl⟩ := map_eq_some_iff.mp e
    exact .inl (.pipeRequest (fun t => .append t chunk) (ready_eq hq).1 rfl)
  | destroy r now =>
    obtain ⟨q, hq, rfl⟩ := map_eq_some_iff.mp e
    exact .inl (.pipeRequest (fun t => .finalize t now) (ready_eq hq).1 rfl)
  | signal r now =>
    simp only [step] at e
    split at e
    · cases e
    · next q hq =>
      split at e
      · cases e
      · next x todo _ =>
        cases e
        exact .inl ((Quiet.send now x).trans
          (.setRequest ((congrArg (·[r]?) (send_requests now x)).trans hq) rfl))
  | delete k =>
    cases e
    split
    · exact .inl (.refl m)
    · have h : Quiet m (m.evictAndCancel k).1 := .evictAndCancel k
      exact .inl ⟨h.length, h.heap, h.lookup, h.creator⟩
  | collect now =>
    cases e
    exact .inl (.of_heap rfl (fun _ _ => eraseAll_lookup) fun _ _ => Iff.rfl)
  | stop =>
    cases e
    exact .inl (.of_heap rfl (fun _ _ h => by cases h) fun _ _ => Iff.rfl)
  | work w now =>
    simp only [step] at e
    split at e
    · cases e
    · cases e
    · next x todo _ =>
      cases e
      have h : Quiet m (m.send now x) := .send now x
      exact .inl ⟨h.length, h.heap, h.lookup, h.creator⟩

end Steps

/-! ## The end of a request -/

/-- Once a request is in `on_complete` it cancels nothing. -/
def TodoOk (q : StreamRequest) : Prop :=
  q.phase ≠ .serving → ∀ x ∈ q.todo, ∃ s, x = .finalize s

/-- Every session has exactly one request that made it, and an entry of the map is a session that
was made for its key. -/
structure Inv (m : StreamManager) : Prop where
  made : ∀ s, s < m.heap.length ↔ ∃ r, m.Creator s r
  unique : ∀ s r r', m.Creator s r → m.Creator s r' → r = r'
  held : ∀ k s, m.sessions.lookup k = some s → m.conv s = some k
  todo : ∀ q ∈ m.requests, TodoOk q

section Inv

variable {m m' : StreamManager} {op : ManagerOp} {q q' : StreamRequest} {r s : Nat} {k : String}

theorem conv_lt (h : m.conv s = some k) : s < m.heap.length := by
  obtain ⟨t, ht, -⟩ := map_eq_some_iff.mp h
  exact (List.getElem?_eq_some_iff.mp ht).1

theorem calls_conversationId {t t' : ManagedSession} (h : Relation.ReflTransGen Call t t') :
    t'.conversationId = t.conversationId := by
  induction h with
  | refl => rfl
  | tail _ hc ih => exact hc.conversationId.trans ih

theorem Quiet.conv_iff (h : Quiet m m') (s : Nat) : m'.conv s = m.conv s := by
  unfold StreamManager.conv
  cases ht' : m'.heap[s]? with
  | none =>
    rw [getElem?_eq_none_iff, h.length, ← getElem?_eq_none_iff] at ht'
    rw [ht']
  | some t' =>
    obtain ⟨t, ht, hcalls⟩ := h.heap s t' ht'
    rw [ht, map_some, map_some, calls_conversationId hcalls]

theorem Created.conv_iff (h : Created m m' k) (s : Nat) :
    m'.conv s = if s = m.heap.length then some k else m.conv s := by
  unfold StreamManager.conv
  rw [h.heap, getElem?_append, getElem?_singleton]
  split
  · next hlt => rw [if_neg (by omega)]
  · next hge =>
    by_cases hs : s = m.heap.length
    · rw [if_pos hs, if_pos (by omega)]
      rfl
    · rw [if_neg hs, if_neg (by omega), getElem?_eq_none (by omega)]

/-- The requests that a step leaves, but for one that cancels nothing. -/
theorem todo_setRequest (h : ∀ q ∈ m.requests, TodoOk q) (hq : TodoOk q) :
    ∀ q' ∈ (m.setRequest r q).requests, TodoOk q' := fun q' hq' => by
  rcases mem_or_eq_of_mem_set hq' with hq' | rfl
  · exact h q' hq'
  · exact hq

theorem todo_nil (h : q.todo = []) : TodoOk q := fun _ x hx => by
  rw [h] at hx
  cases hx

theorem todo_onComplete (h : ∀ q ∈ m.requests, TodoOk q) (hq : q.todo = []) :
    ∀ q' ∈ (m.onComplete r q).requests, TodoOk q' := by
  unfold StreamManager.onComplete
  split
  · exact todo_setRequest h (todo_nil hq)
  split
  · exact todo_setRequest (by rwa [evict_requests]) fun _ => evict_finalizes
  · exact todo_setRequest h (todo_nil hq)

theorem setReq_requests (headers : List (String × String)) :
    ∃ q, (m.setReq headers).requests = m.requests ++ [q] ∧ q.phase = .serving := by
  unfold StreamManager.setReq
  dsimp only
  split
  · exact ⟨_, rfl, rfl⟩
  · obtain ⟨todo, e⟩ := createOrReplace_eq m (convIdFromHeaders headers)
    rw [e]
    exact ⟨_, rfl, rfl⟩

theorem todo_step (h : ∀ q ∈ m.requests, TodoOk q) (e : m.step op = some m') :
    ∀ q ∈ m'.requests, TodoOk q := by
  cases op with
  | setReq headers =>
    cases e
    obtain ⟨q, hq, hp⟩ := setReq_requests headers
    rw [hq]
    intro q' hq'
    rcases mem_append.mp hq' with hq' | hq'
    · exact h q' hq'
    · obtain rfl := mem_singleton.mp hq'
      exact fun hne => absurd hp hne
  | setNext r =>
    obtain ⟨q, hq, rfl⟩ := map_eq_some_iff.mp e
    exact todo_setRequest h (todo_nil (ready_eq hq).2.1)
  | next r chunk hasNext =>
    obtain ⟨q, hq, rfl⟩ := map_eq_some_iff.mp e
    have hq := (ready_eq (filter_eq_some_iff.mp hq).1).2.1
    exact todo_setRequest (by rwa [onPipe_requests]) (todo_nil hq)
  | onComplete r =>
    obtain ⟨q, hq, rfl⟩ := map_eq_some_iff.mp e
    exact todo_onComplete h (ready_eq hq).2.1
  | drain r =>
    obtain ⟨q, hq, rfl⟩ := map_eq_some_iff.mp e
    exact todo_setRequest h (todo_nil (ready_eq hq).2.1)
  | pull r chunk hasNext =>
    obtain ⟨q, hq, rfl⟩ := map_eq_some_iff.mp e
    exact todo_setRequest (by rwa [onPipe_requests]) (todo_nil (ready_eq hq).2.1)
  | destroy r now =>
    obtain ⟨q, hq, rfl⟩ := map_eq_some_iff.mp e
    exact todo_setRequest (by rwa [onPipe_requests]) (todo_nil (ready_eq hq).2.1)
  | signal r now =>
    simp only [step] at e
    split at e
    · cases e
    · next q hq =>
      split at e
      · cases e
      · next x todo ht =>
        cases e
        refine todo_setRequest (by rwa [send_requests]) fun hp y hy => ?_
        exact h q (mem_of_getElem? hq) hp y (ht ▸ mem_cons_of_mem x hy)
  | delete k =>
    cases e
    split
    · exact h
    · unfold addWorker evictAndCancel
      split <;> exact h
  | collect now => exact Option.some.inj e ▸ h
  | stop => exact Option.some.inj e ▸ h
  | work w now =>
    simp only [step] at e
    split at e
    · cases e
    · cases e
    · next x todo _ =>
      cases e
      exact (send_requests (m := m) now x).symm ▸ h

theorem Inv.step (h : Inv m) (e : m.step op = some m') : Inv m' := by
  have htodo := todo_step h.todo e
  rcases step_cases e with hq | ⟨k, hc⟩
  · refine ⟨fun s => ?_, fun s r r' h1 h2 => ?_, fun k s hs => ?_, htodo⟩
    · rw [hq.length, h.made s]
      exact exists_congr fun r => (hq.creator s r).symm
    · exact h.unique s r r' ((hq.creator s r).mp h1) ((hq.creator s r').mp h2)
    · rw [hq.conv_iff]
      exact h.held k s (hq.lookup k s hs)
  · refine ⟨fun s => ?_, fun s r r' h1 h2 => ?_, fun k' s hs => ?_, htodo⟩
    · rw [hc.length, Nat.lt_succ_iff_lt_or_eq, h.made s]
      refine ⟨?_, fun ⟨r, hr⟩ => ((hc.creator s r).mp hr).imp (fun h => ⟨r, h⟩) And.left⟩
      rintro (⟨r, hr⟩ | hs)
      · exact ⟨r, (hc.creator s r).mpr (.inl hr)⟩
      · exact ⟨_, (hc.creator s _).mpr (.inr ⟨hs, rfl⟩)⟩
    · -- a session that was there has its request, the new one has the new request
      have hold : ∀ {r}, m.Creator s r → s < m.heap.length := fun hr => (h.made s).mpr ⟨_, hr⟩
      rcases (hc.creator s r).mp h1 with h1 | ⟨hs, hr⟩
      · rcases (hc.creator s r').mp h2 with h2 | ⟨hs, -⟩
        · exact h.unique s r r' h1 h2
        · exact absurd (hold h1) (by omega)
      · rcases (hc.creator s r').mp h2 with h2 | ⟨-, hr'⟩
        · exact absurd (hold h2) (by omega)
        · rw [hr, hr']
    · rw [hc.lookup] at hs
      rw [hc.conv_iff]
      split at hs
      · next hk =>
        rw [if_pos (Option.some.inj hs).symm, hk]
      · have hv := h.held k' s hs
        rw [if_neg (conv_lt hv).ne]
        exact hv

end Inv

/-- The request to whose end a step belongs: `on_complete`, the destructor, and the calls that
`on_complete` has left. -/
def ending (m : StreamManager) : ManagerOp → Option Nat
  | .onComplete r => some r
  | .drain r => some r
  | .pull r _ _ => some r
  | .destroy r _ => some r
  | .signal r _ => if m.requests[r]?.map StreamRequest.phase = some .serving then none else some r
  | _ => none

/-- The sessions that other requests than `r` have made stay in the map and are not cancelled. -/
structure Spares (m m' : StreamManager) (r : Nat) : Prop where
  sessions : ∀ s r', m.Creator s r' → r' ≠ r → ∀ k, m.sessions.lookup k = some s →
    m'.sessions.lookup k = some s
  cancelled : ∀ s r', m.Creator s r' → r' ≠ r → m'.cancelledAt s = m.cancelledAt s

/-- A request that ends before it has a stream finds under its id no session but its own. -/
def EvictsOwn (m : StreamManager) : ManagerOp → Prop
  | .onComplete r => ∀ q ∈ m.requests[r]?, ∀ own ∈ q.spipe,
    q.nextFinished = false → q.nextOrig = false →
      ∀ s ∈ m.sessions.lookup (convIdFromHeaders q.headers), s = own
  | _ => True

instance (m : StreamManager) : (op : ManagerOp) → Decidable (m.EvictsOwn op)
  | .onComplete r => inferInstanceAs (Decidable (∀ q ∈ m.requests[r]?, ∀ own ∈ q.spipe,
    q.nextFinished = false → q.nextOrig = false →
      ∀ s ∈ m.sessions.lookup (convIdFromHeaders q.headers), s = own))
  | .setReq _ | .setNext _ | .next _ _ _ | .drain _ | .pull _ _ _ | .destroy _ _ | .signal _ _
  | .delete _ | .collect _ | .stop | .work _ _ => .isTrue trivial

section Ending

variable {m m' : StreamManager} {op : ManagerOp} {q q' : StreamRequest} {r s : Nat} {k : String}
  {f : ManagedSession → ManagedSession}

/-- Nothing leaves the map and nothing is cancelled. -/
structure Untouched (m m' : StreamManager) : Prop where
  sessions : m'.sessions = m.sessions
  cancelled : m'.heap.map ManagedSession.cancelled = m.heap.map ManagedSession.cancelled

theorem Untouched.spares (h : Untouched m m') (r : Nat) : Spares m m' r where
  sessions := fun _ _ _ _ _ hs => h.sessions ▸ hs
  cancelled := fun s _ _ _ => by
    unfold cancelledAt
    rw [← getElem?_map, ← getElem?_map, h.cancelled]

theorem setRequest_sessions : (m.setRequest r q).sessions = m.sessions := rfl

theorem setRequest_heap : (m.setRequest r q).heap = m.heap := rfl

theorem Untouched.setRequest (r : Nat) (q : StreamRequest) : Untouched m (m.setRequest r q) :=
  ⟨rfl, rfl⟩

theorem Untouched.onPipe (hf : ∀ t, (f t).cancelled = t.cancelled) :
    Untouched m (m.onPipe q f) := by
  unfold StreamManager.onPipe
  split
  · exact ⟨rfl, rfl⟩
  · exact ⟨rfl, map_modify hf _⟩

theorem finalize_cancelled (t : ManagedSession) (now : Int) :
    (t.finalize now).cancelled = t.cancelled := by
  unfold ManagedSession.finalize
  split <;> rfl

theorem evict_lookup (k k' : String) :
    (m.evict k).1.sessions.lookup k' = if k' = k then none else m.sessions.lookup k' := by
  unfold StreamManager.evict
  split
  · next h =>
    split
    · next hk => rw [hk, h]
    · rfl
  · next h =>
    split
    · next hk => rw [hk, AList.lookup_erase]
    · next hk => rw [AList.lookup_erase_ne hk]

theorem evict_heap (k : String) : (m.evict k).1.heap = m.heap := by
  unfold StreamManager.evict
  split <;> rfl

/-- The end of a request with a stream touches no session of another request. -/
theorem untouched_of_ending (h : Inv m) (e : m.step op = some m') (hr : m.ending op = some r)
    (hne : ∀ r, op ≠ .onComplete r) : Untouched m m' := by
  cases op with
  | onComplete r => exact absurd rfl (hne r)
  | drain r =>
    obtain ⟨q, hq, rfl⟩ := map_eq_some_iff.mp e
    exact .setRequest r _
  | pull r chunk hasNext =>
    obtain ⟨q, hq, rfl⟩ := map_eq_some_iff.mp e
    have hu : Untouched m (m.onPipe q fun s => s.append chunk) := .onPipe fun _ => rfl
    exact ⟨hu.sessions, hu.cancelled⟩
  | destroy r now =>
    obtain ⟨q, hq, rfl⟩ := map_eq_some_iff.mp e
    have hu : Untouched m (m.onPipe q fun s => s.finalize now) :=
      .onPipe fun t => finalize_cancelled t now
    exact ⟨hu.sessions, hu.cancelled⟩
  | signal r now =>
    simp only [step] at e
    split at e
    · cases e
    · next q hq =>
      split at e
      · cases e
      · next x todo ht =>
        cases e
        have hphase : q.phase ≠ .serving := fun hp => by
          rw [ending, hq, map_some, hp, if_pos rfl] at hr
          cases hr
        obtain ⟨s, rfl⟩ := h.todo q (mem_of_getElem? hq) hphase x (ht ▸ mem_cons_self)
        exact ⟨rfl, map_modify (fun t => finalize_cancelled t now) _⟩
  | setReq _ => cases hr
  | setNext _ => cases hr
  | next _ _ _ => cases hr
  | delete _ => cases hr
  | collect _ => cases hr
  | stop => cases hr
  | work _ _ => cases hr

/-- `on_complete` spares the sessions of the others exactly if it finds no session but its own. -/
theorem onComplete_spares_iff (h : Inv m) (hq : m.requests[r]? = some q) :
    Spares m (m.onComplete r q) r ↔ m.EvictsOwn (.onComplete r) := by
  unfold StreamManager.onComplete
  split
  · next hc =>
    refine iff_of_true ((Untouched.setRequest r _).spares r) fun p hp own hs hf => ?_
    obtain rfl : q = p := Option.some.inj (hq.symm.trans hp)
    rw [hs, hf] at hc
    cases hc
  next hc =>
  obtain ⟨hpipe, hfin⟩ : q.spipe ≠ none ∧ q.nextFinished = false := by simpa using hc
  split
  · next hn =>
    have hn : q.nextOrig = false := by simpa using hn
    refine ⟨fun hsp p hp own hown _ _ s hs => ?_, fun he => ⟨fun s r' hc hne k hs => ?_, ?_⟩⟩
    · obtain rfl : q = p := Option.some.inj (hq.symm.trans hp)
      by_contra hne
      -- the session that was found has another request, and it has left the map
      obtain ⟨r', hr'⟩ := (h.made s).mp (conv_lt (h.held _ s hs))
      have hrr : r' ≠ r := by
        rintro rfl
        obtain ⟨p, hp, hps⟩ := hr'
        rw [hq] at hp
        cases hp
        exact hne (Option.some.inj (hps.symm.trans hown))
      have hgone := hsp.sessions s r' hr' hrr _ hs
      rw [setRequest_sessions, evict_lookup, if_pos rfl] at hgone
      cases hgone
    · obtain ⟨own, hown⟩ := ne_none_iff_exists'.mp hpipe
      rw [setRequest_sessions, evict_lookup]
      split
      · next hk =>
        have hs' := he q hq own hown hfin hn s (hk ▸ hs)
        exact absurd (h.unique s r' r hc ⟨q, hq, hs'.symm ▸ hown⟩) hne
      · exact hs
    · intro s _ _ _
      unfold cancelledAt
      rw [setRequest_heap, evict_heap]
  · next hn =>
    refine iff_of_true ((Untouched.setRequest r _).spares r) fun p hp own _ _ hno => ?_
    obtain rfl : q = p := Option.some.inj (hq.symm.trans hp)
    rw [hno] at hn
    exact absurd rfl hn

theorem ending_spares_iff (h : Inv m) (e : m.step op = some m') :
    (∀ r, m.ending op = some r → Spares m m' r) ↔ m.EvictsOwn op := by
  by_cases hop : ∃ r, op = .onComplete r
  · obtain ⟨r, rfl⟩ := hop
    obtain ⟨q, hq, rfl⟩ := map_eq_some_iff.mp e
    have hiff := onComplete_spares_iff h (ready_eq hq).1
    refine ⟨fun hs => hiff.mp (hs r rfl), fun he r' hr' => ?_⟩
    cases hr'
    exact hiff.mpr he
  · have hne : ∀ r, op ≠ .onComplete r := fun r hr => hop ⟨r, hr⟩
    refine iff_of_true (fun r hr => (untouched_of_ending h e hr hne).spares r) ?_
    unfold EvictsOwn
    split
    · exact absurd rfl (hne _)
    · trivial

end Ending

end StreamManager

/-! ## Runs -/

open StreamManager

/-- The runs of the manager, with a log. -/
def managerSys : Sys (Sys.Recorded StreamManager ManagerOp) ManagerOp :=
  .recorded (fun m => m = {}) StreamManager.step

/-- A step has taken the session `s` out of the map. -/
def Removed (log : List (Sys.Event StreamManager ManagerOp)) (s : Nat) : Prop :=
  ∃ e ∈ log, e.before.Holds s ∧ ¬ e.after.Holds s

/-- The end of a request leaves the sessions of the other requests alone, and the map holds one
session for an id at most, the one that was made last with it and has not been removed. -/
structure SessionsKept (run : Sys.Recorded StreamManager ManagerOp) : Prop where
  spares : ∀ e ∈ run.log, ∀ r, e.before.ending e.op = some r → Spares e.before e.after r
  newest : ∀ k s, run.state.sessions.lookup k = some s ↔
    run.state.LastCreated k s ∧ ¬ Removed run.log s
  one : ∀ k k' s s', run.state.sessions.lookup k = some s →
    run.state.sessions.lookup k' = some s' → run.state.conv s = run.state.conv s' → s = s'

/-- A session as the runs of one session make it. -/
def Managed (t : ManagedSession) : Prop :=
  ∃ s, (streamSys STREAM_SESSION_MAX_BYTES).Reach (fun _ _ => True) s ∧
    s.session = t.toStreamSession

theorem Managed.call {t t' : ManagedSession} (h : Managed t) (hc : Call t t') : Managed t' := by
  obtain ⟨s, hs, e⟩ := h
  cases hc with
  | append data =>
    have hstep : (streamSys STREAM_SESSION_MAX_BYTES).step s (.append data) _ := rfl
    exact ⟨_, hs.step (fun _ ho => ho.elim) hstep trivial,
      congrArg (fun u => (StreamSession.append u data).1) e⟩
  | finalize now =>
    unfold ManagedSession.finalize
    split
    · exact ⟨s, hs, e⟩
    · have hstep : (streamSys STREAM_SESSION_MAX_BYTES).step s .finalize _ := rfl
      exact ⟨_, hs.step (fun _ ho => ho.elim) hstep trivial, congrArg StreamSession.finalize e⟩
  | cancel => exact ⟨s, hs, e⟩

theorem Managed.calls {t t' : ManagedSession} (h : Managed t)
    (hc : Relation.ReflTransGen Call t t') : Managed t' := by
  induction hc with
  | refl => exact h
  | tail _ hc ih => exact ih.call hc

theorem managed_fresh (k : String) :
    Managed { conversationId := k, capBytes := STREAM_SESSION_MAX_BYTES } :=
  ⟨_, .init rfl, rfl⟩

/-- What holds of the manager and its log. -/
structure ManagerInv (m : StreamManager) (log : List (Sys.Event StreamManager ManagerOp)) :
    Prop where
  inv : Inv m
  events : ∀ e ∈ log, Inv e.before ∧ e.before.step e.op = some e.after
  newest : ∀ k s, m.sessions.lookup k = some s ↔ m.LastCreated k s ∧ ¬ Removed log s
  removed : ∀ s, Removed log s → s < m.heap.length
  managed : ∀ t ∈ m.heap, Managed t

section Run

variable {m m' : StreamManager} {op : ManagerOp} {s : Nat} {k : String}
  {log : List (Sys.Event StreamManager ManagerOp)}

theorem removed_cons (e : Sys.Event StreamManager ManagerOp) :
    Removed (e :: log) s ↔ (e.before.Holds s ∧ ¬ e.after.Holds s) ∨ Removed log s := by
  unfold Removed
  rw [exists_mem_cons_iff]

theorem lastCreated_congr (h : Quiet m m') : m'.LastCreated k s ↔ m.LastCreated k s := by
  unfold LastCreated
  simp only [h.conv_iff]

theorem ManagerInv.lt (h : ManagerInv m log) (hs : m.Holds s) : s < m.heap.length :=
  let ⟨k, hk⟩ := hs
  conv_lt (h.inv.held k s hk)

/-- The map after a step that makes no session. -/
theorem ManagerInv.quiet (h : ManagerInv m log) (hq : Quiet m m') (k : String) (s : Nat) :
    m'.sessions.lookup k = some s ↔ m'.LastCreated k s ∧ ¬ Removed (⟨m, op, m'⟩ :: log) s := by
  rw [lastCreated_congr hq, removed_cons]
  constructor
  · intro hs
    obtain ⟨hl, hn⟩ := (h.newest k s).mp (hq.lookup k s hs)
    exact ⟨hl, fun hr => hr.elim (fun hr => hr.2 ⟨k, hs⟩) hn⟩
  · rintro ⟨hl, hn⟩
    have hs := (h.newest k s).mpr ⟨hl, fun hr => hn (.inr hr)⟩
    -- it was in the map, so it still is, and its key is the id that it was made for
    obtain ⟨k', hk'⟩ : m'.Holds s := by
      by_contra hno
      exact hn (.inl ⟨⟨k, hs⟩, hno⟩)
    have hv := h.inv.held k' s (hq.lookup k' s hk')
    rw [h.inv.held k s hs] at hv
    rwa [Option.some.inj hv]

/-- The map after a step that makes a session. -/
theorem ManagerInv.created (h : ManagerInv m log) {k₀ : String} (hc : Created m m' k₀) (k : String)
    (s : Nat) : m'.sessions.lookup k = some s ↔
      m'.LastCreated k s ∧ ¬ Removed (⟨m, op, m'⟩ :: log) s := by
  rw [hc.lookup, removed_cons]
  unfold LastCreated
  simp only [hc.conv_iff]
  by_cases hk : k = k₀
  · obtain rfl := hk
    rw [if_pos rfl]
    constructor
    · rintro hs
      cases hs
      refine ⟨⟨if_pos rfl, fun t ht => ?_⟩, ?_⟩
      · split at ht
        · next e => exact e.le
        · exact (conv_lt ht).le
      · rintro (⟨hb, -⟩ | hr)
        · exact absurd (h.lt hb) (lt_irrefl _)
        · exact absurd (h.removed _ hr) (lt_irrefl _)
    · rintro ⟨⟨hs, hl⟩, -⟩
      have hle := hl m.heap.length (if_pos rfl)
      split at hs
      · next e => rw [e]
      · exact absurd (conv_lt hs) (by omega)
  · rw [if_neg hk]
    have hconv : ∀ t, (if t = m.heap.length then some k₀ else m.conv t) = some k ↔
        m.conv t = some k := by
      intro t
      split
      · next e =>
        refine ⟨fun he => absurd (Option.some.inj he).symm hk, fun he => ?_⟩
        exact absurd (conv_lt he) (by omega)
      · rfl
    simp only [hconv]
    have hnew := h.newest k s
    unfold LastCreated at hnew
    rw [hnew]
    refine and_congr_right fun hl => not_congr ⟨.inr, ?_⟩
    rintro (⟨⟨k', hb⟩, ha⟩ | hr)
    · -- an entry of another id stays
      have hv := h.inv.held k' s hb
      rw [hl.1] at hv
      cases hv
      exact absurd ⟨k, (hc.lookup k).trans ((if_neg hk).trans hb)⟩ ha
    · exact hr

theorem ManagerInv.step (h : ManagerInv m log) (e : m.step op = some m') :
    ManagerInv m' (⟨m, op, m'⟩ :: log) := by
  have hcases := step_cases e
  refine ⟨h.inv.step e, fun ev hev => ?_, fun k s => ?_, fun s hs => ?_, fun t' ht' => ?_⟩
  · rcases mem_cons.mp hev with rfl | hev
    · exact ⟨h.inv, e⟩
    · exact h.events ev hev
  · rcases hcases with hq | ⟨k0, hc⟩
    · exact h.quiet hq k s
    · exact h.created hc k s
  · have hlt : s < m.heap.length := by
      rcases (removed_cons _).mp hs with ⟨hb, -⟩ | hs
      · exact h.lt hb
      · exact h.removed s hs
    rcases hcases with hq | ⟨k0, hc⟩
    · rwa [hq.length]
    · exact hlt.trans (by rw [hc.length]; omega)
  · rcases hcases with hq | ⟨k0, hc⟩
    · obtain ⟨s, hs⟩ := getElem?_of_mem ht'
      obtain ⟨t, ht, hcalls⟩ := hq.heap s t' hs
      exact (h.managed t (mem_of_getElem? ht)).calls hcalls
    · rw [hc.heap] at ht'
      rcases mem_append.mp ht' with ht' | ht'
      · exact h.managed t' ht'
      · exact mem_singleton.mp ht' ▸ managed_fresh k0

theorem managerInv_init : ManagerInv {} [] where
  inv := ⟨fun s => iff_of_false (Nat.not_lt_zero s) fun ⟨r, q, hq, _⟩ => (by cases hq),
    fun s r r' ⟨q, hq, _⟩ => (by cases hq), fun k s hs => (by cases hs), fun q hq => (by cases hq)⟩
  events := fun e he => (by cases he)
  newest := fun k s => iff_of_false (fun hs => by cases hs) fun ⟨⟨hs, _⟩, _⟩ => (by cases hs)
  removed := fun s ⟨e, he, _⟩ => (by cases he)
  managed := fun t ht => (by cases ht)

theorem managerInv_inductive (ok : StreamManager → ManagerOp → Prop) :
    managerSys.Inductive (fun run op => ok run.state op) fun run => ManagerInv run.state run.log :=
  Sys.recorded_inductive ok (fun _ hs => hs ▸ managerInv_init) fun _ _ _ _ h e _ => h.step e

end Run

/-- In every run the sessions are kept if and only if each request that ends before it has a stream
finds under its id no session but its own. -/
theorem sessionsKept_iff {run : Sys.Recorded StreamManager ManagerOp}
    (h : managerSys.Reach (fun _ _ => True) run) :
    SessionsKept run ↔ ∀ e ∈ run.log, e.before.EvictsOwn e.op := by
  have hinv : ManagerInv run.state run.log := h.inv (managerInv_inductive fun _ _ => True)
  constructor
  · intro hk e he
    obtain ⟨hb, hs⟩ := hinv.events e he
    exact (ending_spares_iff hb hs).mp (hk.spares e he)
  · intro ho
    refine ⟨fun e he => ?_, hinv.newest, fun k k' s s' hs hs' hv => ?_⟩
    · obtain ⟨hb, hs⟩ := hinv.events e he
      exact (ending_spares_iff hb hs).mpr (ho e he)
    · rw [hinv.inv.held k s hs, hinv.inv.held k' s' hs'] at hv
      rw [Option.some.inj hv] at hs
      exact Option.some.inj (hs.symm.trans hs')

/-! ## Two requests with one id -/

/-- The header with the id `a`. -/
def headersA : List (String × String) := [("X-Conversation-Id", "a")]

/-- A stream that is replaced while it is sent, and read to its end behind its client. -/
def replacedOps : List ManagerOp :=
  [.setReq headersA, .setNext 0, .next 0 [1, 2] true, .setReq headersA, .onComplete 0, .drain 0,
    .pull 0 [3] true, .signal 1 7, .drain 0, .signal 1 8, .setNext 1, .destroy 0 9,
    .next 1 [4] false, .onComplete 1, .destroy 1 10, .collect 310]

/-- A request that fails after another has taken its place. -/
def failedOps : List ManagerOp := [.setReq headersA, .setReq headersA, .onComplete 0]

def recordOps (ops : List ManagerOp) : Option (Sys.Recorded StreamManager ManagerOp) :=
  Sys.runSteps (Sys.recordStep StreamManager.step) (fun _ _ => true) ops ⟨{}, []⟩

theorem recordOps_reach {ops : List ManagerOp} {run : Sys.Recorded StreamManager ManagerOp}
    (e : recordOps ops = some run) : managerSys.Reach (fun _ _ => True) run := by
  have hinit : managerSys.Reach (fun _ _ => true = true) ⟨{}, []⟩ := .init ⟨rfl, rfl⟩
  exact (Sys.reach_runSteps hinit e).mono fun _ _ _ => trivial

theorem sessionsKept_replacedOps : ∃ run, recordOps replacedOps = some run ∧ SessionsKept run := by
  have hrun : (recordOps replacedOps).isSome = true := by decide +kernel
  have howns : ∀ run ∈ recordOps replacedOps, ∀ e ∈ run.log, e.before.EvictsOwn e.op := by
    decide +kernel
  obtain ⟨run, e⟩ := isSome_iff_exists.mp hrun
  exact ⟨run, e, (sessionsKept_iff (recordOps_reach e)).mpr (howns run e)⟩

/-- In every run the map holds, under each id, the last session made with it, until it is removed;
and a session drops bytes only when it is full. -/
theorem reach_sessions {run : Sys.Recorded StreamManager ManagerOp}
    (h : managerSys.Reach (fun _ _ => True) run) :
    (∀ k s, run.state.sessions.lookup k = some s ↔
      run.state.LastCreated k s ∧ ¬ Removed run.log s) ∧
    ∀ t ∈ run.state.heap, t.buffer.length ≤ STREAM_SESSION_MAX_BYTES ∧
      (t.prefixDropped ≠ 0 → t.buffer.length = STREAM_SESSION_MAX_BYTES) := by
  have hinv := h.inv (managerInv_inductive fun _ _ => True)
  refine ⟨hinv.newest, fun t ht => ?_⟩
  obtain ⟨s, hs, e⟩ := hinv.managed t ht
  obtain ⟨hcap, hw, -⟩ := hs.inv (StreamState.inv_inductive STREAM_SESSION_MAX_BYTES _)
  have hlen := congrArg length hw.buffer
  have htot := hw.length
  rw [List.rtake, length_drop, hcap] at hlen
  rw [e] at hlen htot
  omega

theorem reach_sessions_replacedOps : ∃ run, recordOps replacedOps = some run ∧
    ∀ t ∈ run.state.heap, t.buffer.length ≤ STREAM_SESSION_MAX_BYTES := by
  have hrun : (recordOps replacedOps).isSome = true := by decide +kernel
  obtain ⟨run, e⟩ := isSome_iff_exists.mp hrun
  exact ⟨run, e, fun t ht => ((reach_sessions (recordOps_reach e)).2 t ht).1⟩

/-- The first request evicts the session of the second. -/
theorem not_sessionsKept : ¬ ∀ run : Sys.Recorded StreamManager ManagerOp,
    managerSys.Reach (fun _ _ => True) run → SessionsKept run := by
  intro h
  have hlast : ((recordOps failedOps).bind fun run => run.log.head?).map (fun e =>
      (e.op, e.before.requests[1]?.map StreamRequest.spipe, e.before.sessions.lookup "a",
        e.after.sessions.lookup "a")) =
      some (.onComplete 0, some (some 1), some 1, none) := by decide +kernel
  obtain ⟨e, he, hf⟩ := map_eq_some_iff.mp hlast
  obtain ⟨run, hrun, he⟩ := bind_eq_some_iff.mp he
  simp only [Prod.mk.injEq] at hf
  obtain ⟨hop, hpipe, hbefore, hafter⟩ := hf
  obtain ⟨q, hq, hs⟩ := map_eq_some_iff.mp hpipe
  have hkept := h run (recordOps_reach hrun)
  have hsp := hkept.spares e (mem_of_head? he) 0 (hop ▸ rfl)
  have hstays := hsp.sessions 1 1 ⟨q, hq, hs⟩ (by decide) "a" hbefore
  rw [hafter] at hstays
  cases hstays

end BeeLlama.Server
