import BeeLlama.Lib.Run
import Mathlib.Data.List.DropRight

/-!
# Stream sessions

A session keeps the last bytes of a stream, up to a cap, and the number of bytes it has dropped
before them. Readers hold the absolute offset of the next byte they want; they copy what is there
under the lock and hand it to their sink without it.

* `Window`: the buffer holds the end of the stream. It is kept by `append`.
* `Read.Ok`: what a reader has handed to its sink is the stream from its first offset on, without
  a gap or a repeat. It is kept by every turn of every reader and by every `append`.
* `stream_faithful`: both hold in every run, and a reader that ends because the session is done has
  handed over everything from its first offset on.
-/

namespace BeeLlama.Server

open List

/-- `stream_session`: what is guarded by its lock. -/
structure StreamSession where
  buffer : List UInt8 := []
  prefixDropped : Nat := 0
  capBytes : Nat
  done : Bool := false
  deriving DecidableEq, Repr

namespace StreamSession

/-- `append`. -/
def append (s : StreamSession) (data : List UInt8) : StreamSession × Bool :=
  if data.length = 0 then (s, true)
  else if s.done then (s, false)
  else if s.capBytes ≤ data.length then
    -- only the tail of the chunk fits
    let skip := data.length - s.capBytes
    ({ s with prefixDropped := s.prefixDropped + (s.buffer.length + skip)
              buffer := data.drop skip }, true)
  else
    let needed := s.buffer.length + data.length
    if s.capBytes < needed then
      let toDrop := needed - s.capBytes
      ({ s with buffer := s.buffer.drop toDrop ++ data
                prefixDropped := s.prefixDropped + toDrop }, true)
    else ({ s with buffer := s.buffer ++ data }, true)

/-- `finalize`. -/
def finalize (s : StreamSession) : StreamSession := { s with done := true }

end StreamSession

/-- `stream_read_status`. -/
inductive StreamReadStatus where
  | ok
  | offsetLost
  deriving DecidableEq, Repr

/-- Where `read_from` returns: `should_stop` holds, the sink refuses a chunk, the offset is lost, or
the session is done and no byte is left. -/
inductive ReadEnd where
  | stopped
  | refused
  | lost
  | finished
  deriving DecidableEq, Repr

/-- The status that is returned. -/
def ReadEnd.status : ReadEnd → StreamReadStatus
  | .lost => .offsetLost
  | _ => .ok

/-- A call of `read_from`: its first offset, the offset now, the chunks that the sink has got, the
chunk that is on its way to the sink while the lock is released, and the end. -/
structure Read where
  start : Nat
  offset : Nat
  received : List (List UInt8) := []
  chunk : Option (List UInt8) := none
  ended : Option ReadEnd := none
  deriving DecidableEq, Repr

namespace Read

/-- One turn of the loop under the lock; `stop` is what `should_stop` says. -/
def turn (s : StreamSession) (stop : Bool) (r : Read) : Read :=
  if stop then { r with ended := some .stopped }
  else if r.offset < s.prefixDropped then { r with ended := some .lost }
  else
    let logicalEnd := s.prefixDropped + s.buffer.length
    if r.offset < logicalEnd then
      let localOff := r.offset - s.prefixDropped
      let n := s.buffer.length - localOff
      { r with chunk := some ((s.buffer.drop localOff).take n), offset := r.offset + n }
    else if s.done then { r with ended := some .finished }
    else r

/-- The sink gets the chunk; `keepGoing` is its answer. -/
def deliver (keepGoing : Bool) (chunk : List UInt8) (r : Read) : Read :=
  { r with received := r.received ++ [chunk], chunk := none
           ended := if keepGoing then none else some .refused }

end Read

/-- A session, the bytes that were appended to it, and its readers. -/
structure StreamState where
  session : StreamSession
  total : List UInt8 := []
  readers : List Read := []
  deriving DecidableEq, Repr

/-- The steps: whole calls that hold the lock, and the turns of the readers between two releases. -/
inductive StreamOp where
  | append (data : List UInt8)
  | finalize
  | read (offset : Nat)
  | turn (i : Nat) (stop : Bool)
  | deliver (i : Nat) (keepGoing : Bool)
  deriving DecidableEq, Repr

namespace StreamState

/-- A step. A turn needs a reader at the lock, a delivery one that has copied a chunk. -/
def step (s : StreamState) : StreamOp → Option StreamState
  | .append data =>
    let (session, accepted) := s.session.append data
    some { s with session, total := if accepted then s.total ++ data else s.total }
  | .finalize => some { s with session := s.session.finalize }
  | .read offset => some { s with readers := s.readers ++ [⟨offset, offset, [], none, none⟩] }
  | .turn i stop =>
    match s.readers[i]? with
    | none => none
    | some r =>
      if r.ended = none ∧ r.chunk = none then
        some { s with readers := s.readers.set i (r.turn s.session stop) }
      else none
  | .deliver i keepGoing =>
    match s.readers[i]? with
    | none => none
    | some r =>
      match r.chunk with
      | none => none
      | some chunk => some { s with readers := s.readers.set i (r.deliver keepGoing chunk) }

end StreamState

/-- The runs of a session with a cap. -/
def streamSys (capBytes : Nat) : Sys StreamState StreamOp :=
  .ofStep (fun s => s = { session := { capBytes } }) StreamState.step

/-! ## Invariants -/

/-- The session holds the end of the stream. -/
structure Window (s : StreamSession) (total : List UInt8) : Prop where
  buffer : s.buffer = total.rtake s.capBytes
  length : s.prefixDropped + s.buffer.length = total.length

/-- What a reader has copied so far. -/
def Read.copied (r : Read) : List UInt8 := r.received.flatten ++ r.chunk.getD []

/-- What the reader has copied is the stream from its first offset on, up to its offset now, and all
of it if the reader has ended normally. -/
structure Read.Ok (s : StreamSession) (total : List UInt8) (r : Read) : Prop where
  copied : r.copied <+: total.drop r.start
  offset : r.offset = r.start + r.copied.length
  ended : r.ended ≠ none → r.chunk = none
  finished : r.ended = some .finished → s.done = true ∧ total.length ≤ r.offset

/-- The invariant. -/
structure StreamState.Inv (capBytes : Nat) (s : StreamState) : Prop where
  cap : s.session.capBytes = capBytes
  window : Window s.session s.total
  readers : ∀ r ∈ s.readers, r.Ok s.session s.total

section Append

variable {s : StreamSession} {total data : List UInt8}

theorem append_cap : (s.append data).1.capBytes = s.capBytes := by
  unfold StreamSession.append
  dsimp only
  split_ifs <;> rfl

theorem append_done : (s.append data).1.done = s.done := by
  unfold StreamSession.append
  dsimp only
  split_ifs <;> rfl

/-- A session that is done takes no more bytes. -/
theorem append_of_done (h : s.done = true) :
    (if (s.append data).2 then total ++ data else total) = total := by
  unfold StreamSession.append
  by_cases hd : data.length = 0
  · simp [length_eq_zero_iff.mp hd]
  · simp [hd, h]

/-- The end of a stream that has grown is a part of the end before and what was appended. -/
theorem rtake_append (l m : List UInt8) (n : Nat) :
    (l ++ m).rtake n = l.rtake (n - m.length) ++ m.rtake n := by
  unfold List.rtake
  rw [drop_append, length_append]
  have hm : l.length + m.length - n - l.length = m.length - n := by omega
  rw [hm]
  congr 1
  by_cases hn : n ≤ m.length
  · rw [drop_of_length_le (by omega), drop_of_length_le (by omega)]
  · congr 1
    omega

theorem Window.append (h : Window s total) : Window (s.append data).1
    (if (s.append data).2 then total ++ data else total) := by
  have hlen : s.buffer.length = min s.capBytes total.length := by
    rw [h.buffer, List.rtake, length_drop]
    omega
  have hpre := h.length
  unfold StreamSession.append
  by_cases hd : data.length = 0
  · simpa [length_eq_zero_iff.mp hd] using h
  rw [if_neg hd]
  by_cases hdone : s.done = true
  · simpa [hdone] using h
  rw [if_neg hdone]
  by_cases hcap : s.capBytes ≤ data.length
  · rw [if_pos hcap]
    refine ⟨?_, ?_⟩
    · -- the end of the stream is the end of the chunk
      have hzero : s.capBytes - data.length = 0 := by omega
      simp only [if_true]
      rw [rtake_append, hzero, rtake_zero, nil_append]
      rfl
    · simp only [if_true, length_drop, length_append]
      omega
  · rw [if_neg hcap]
    have hdata : data.rtake s.capBytes = data := by
      unfold List.rtake
      rw [Nat.sub_eq_zero_of_le (by omega), drop_zero]
    by_cases hneed : s.capBytes < s.buffer.length + data.length
    · rw [if_pos hneed]
      refine ⟨?_, ?_⟩
      · simp only [if_true]
        rw [rtake_append, hdata, List.rtake]
        nth_rewrite 2 [h.buffer]
        rw [List.rtake, drop_drop]
        congr 2
        omega
      · simp only [if_true, length_drop, length_append]
        omega
    · rw [if_neg hneed]
      refine ⟨?_, ?_⟩
      · simp only [if_true]
        rw [rtake_append, hdata, h.buffer, List.rtake, List.rtake]
        congr 2
        omega
      · simp only [if_true, length_append]
        omega

/-- The buffer begins behind the bytes that were dropped. -/
theorem Window.eq_drop (h : Window s total) : s.buffer = total.drop s.prefixDropped := by
  have hlen := h.length
  rw [h.buffer, List.rtake, length_drop] at hlen
  rw [h.buffer, List.rtake]
  congr 1
  omega

end Append

section Read

variable {s s' : StreamSession} {total : List UInt8} {r : Read}

/-- The stream may grow under a reader, but not once the session is done. -/
theorem Read.Ok.grow (h : r.Ok s total) {data : List UInt8} (hd : s'.done = s.done)
    (hdone : s.done = true → data = []) : r.Ok s' (total ++ data) := by
  refine ⟨?_, h.offset, h.ended, fun hf => ?_⟩
  · rw [drop_append]
    exact h.copied.trans (prefix_append _ _)
  · obtain ⟨hs, hl⟩ := h.finished hf
    rw [hdone hs, append_nil]
    exact ⟨hd ▸ hs, hl⟩

theorem Read.Ok.append (h : r.Ok s total) (data : List UInt8) : r.Ok (s.append data).1
    (if (s.append data).2 then total ++ data else total) := by
  by_cases hdone : s.done = true
  · rw [append_of_done hdone, ← append_nil total]
    exact h.grow append_done fun _ => rfl
  · split
    · exact h.grow append_done fun hd => absurd hd hdone
    · rw [← append_nil total]
      exact h.grow append_done fun _ => rfl

theorem Read.Ok.turn (hw : Window s total) (h : r.Ok s total) (he : r.ended = none)
    (hc : r.chunk = none) (stop : Bool) : (r.turn s stop).Ok s total := by
  unfold Read.turn
  by_cases hstop : stop = true
  · rw [if_pos hstop]
    exact ⟨h.copied, h.offset, fun _ => hc, fun hf => by cases hf⟩
  rw [if_neg hstop]
  by_cases hlost : r.offset < s.prefixDropped
  · rw [if_pos hlost]
    exact ⟨h.copied, h.offset, fun _ => hc, fun hf => by cases hf⟩
  rw [if_neg hlost]
  have hlen := hw.length
  have hcopied : r.copied = r.received.flatten := by simp [Read.copied, hc]
  by_cases hbytes : r.offset < s.prefixDropped + s.buffer.length
  · rw [if_pos hbytes]
    -- the chunk is all of the stream from the offset on
    have hchunk : (s.buffer.drop (r.offset - s.prefixDropped)).take
        (s.buffer.length - (r.offset - s.prefixDropped)) = total.drop r.offset := by
      rw [take_of_length_le (by rw [length_drop]), hw.eq_drop, drop_drop]
      congr 1
      omega
    obtain ⟨rest, hrest⟩ := h.copied
    have hdrop : total.drop r.offset = rest := by
      rw [h.offset, ← drop_drop, ← hrest, drop_left]
    have hrestLen : rest.length = s.buffer.length - (r.offset - s.prefixDropped) := by
      rw [← hdrop, length_drop]
      omega
    have hnew : ∀ offset, Read.copied
        { r with chunk := some rest, offset } = r.copied ++ rest := fun _ => by
      rw [hcopied]
      rfl
    dsimp only
    rw [hchunk, hdrop]
    refine ⟨?_, ?_, ?_, ?_⟩
    · simp only [hnew, hrest, prefix_rfl]
    · rw [hnew, length_append, ← Nat.add_assoc, ← h.offset, hrestLen]
    · exact fun hne => absurd he hne
    · exact fun hf => by rw [he] at hf; cases hf
  · rw [if_neg hbytes]
    by_cases hdone : s.done = true
    · rw [if_pos hdone]
      exact ⟨h.copied, h.offset, fun _ => hc, fun _ => ⟨hdone, hlen ▸ Nat.not_lt.mp hbytes⟩⟩
    · rw [if_neg hdone]
      exact h

theorem Read.Ok.deliver (h : r.Ok s total) {chunk : List UInt8} (hc : r.chunk = some chunk)
    (keepGoing : Bool) : (r.deliver keepGoing chunk).Ok s total := by
  have hcopied : (r.deliver keepGoing chunk).copied = r.copied := by
    simp [Read.copied, Read.deliver, hc]
  refine ⟨hcopied ▸ h.copied, hcopied ▸ h.offset, fun _ => rfl, fun hf => ?_⟩
  cases keepGoing <;> cases hf

end Read

/-! ## Runs -/

namespace StreamState

variable {capBytes : Nat} {s s' : StreamState}

theorem Inv.append (h : Inv capBytes s) (data : List UInt8) : Inv capBytes
    { s with session := (s.session.append data).1
             total := if (s.session.append data).2 then s.total ++ data else s.total } :=
  ⟨append_cap.trans h.cap, h.window.append, fun r hr => (h.readers r hr).append data⟩

theorem Inv.setReader (h : Inv capBytes s) {r : Read} (hr : r.Ok s.session s.total) (i : Nat) :
    Inv capBytes { s with readers := s.readers.set i r } := by
  refine ⟨h.cap, h.window, fun r' hr' => ?_⟩
  rcases mem_or_eq_of_mem_set hr' with hr' | rfl
  · exact h.readers r' hr'
  · exact hr

theorem Inv.step (h : Inv capBytes s) {op : StreamOp} (e : s.step op = some s') :
    Inv capBytes s' := by
  cases op with
  | append data =>
    cases e
    exact h.append data
  | finalize =>
    cases e
    refine ⟨h.cap, ⟨h.window.buffer, h.window.length⟩, fun r hr => ?_⟩
    have hr := h.readers r hr
    exact ⟨hr.copied, hr.offset, hr.ended, fun hf => ⟨rfl, (hr.finished hf).2⟩⟩
  | read offset =>
    cases e
    refine ⟨h.cap, h.window, fun r hr => ?_⟩
    rcases mem_append.mp hr with hr | hr
    · exact h.readers r hr
    · obtain rfl := mem_singleton.mp hr
      exact ⟨ nil_prefix, rfl, fun _ => rfl, fun hf => by cases hf⟩
  | turn i stop =>
    simp only [StreamState.step] at e
    split at e
    · cases e
    · next r hi =>
      split at e
      · next hc =>
        cases e
        have hr := h.readers r (mem_of_getElem? hi)
        exact h.setReader (hr.turn h.window hc.1 hc.2 stop) i
      · cases e
  | deliver i keepGoing =>
    simp only [StreamState.step] at e
    split at e
    · cases e
    · next r hi =>
      split at e
      · cases e
      · next chunk hc =>
        cases e
        exact h.setReader ((h.readers r (mem_of_getElem? hi)).deliver hc keepGoing) i

theorem inv_inductive (capBytes : Nat) (ok : StreamState → StreamOp → Prop) :
    (streamSys capBytes).Inductive ok (Inv capBytes) where
  init := fun s hs => by
    obtain rfl : s = { session := { capBytes } } := hs
    exact ⟨rfl, ⟨by simp, rfl⟩, by simp⟩
  step := fun _ _ _ h _ e _ => h.step e

end StreamState

/-- In every run the session holds the last bytes of the stream, up to its cap, and the number of
bytes before them; what a reader has handed to its sink is the stream from its first offset on, and
all of it if the reader has ended because the session is done. -/
theorem stream_faithful (capBytes : Nat) {s : StreamState}
    (h : (streamSys capBytes).Reach (fun _ _ => True) s) :
    s.session.prefixDropped + s.session.buffer.length = s.total.length ∧
    s.session.buffer = s.total.rtake (min capBytes s.total.length) ∧
    ∀ r ∈ s.readers,
      (∃ k, r.received.flatten = (s.total.drop r.start).take k ∧ r.received.flatten.length = k) ∧
      (r.ended = some .finished → s.session.done = true ∧
        r.received.flatten = s.total.drop r.start) := by
  have hinv := h.inv (StreamState.inv_inductive capBytes _)
  refine ⟨hinv.window.length, ?_, fun r hr => ?_⟩
  · rw [hinv.window.buffer, hinv.cap, List.rtake, List.rtake]
    congr 1
    omega
  · have hr := hinv.readers r hr
    have hpre : r.received.flatten <+: s.total.drop r.start := (prefix_append _ _).trans hr.copied
    refine ⟨⟨_, prefix_iff_eq_take.mp hpre, rfl⟩, fun hf => ?_⟩
    obtain ⟨hdone, hlen⟩ := hr.finished hf
    have hcopied : r.copied = r.received.flatten := by
      simp [Read.copied, hr.ended (by rw [hf]; exact Option.some_ne_none _)]
    have hoff := hr.offset
    rw [hcopied] at hoff
    refine ⟨hdone, hpre.eq_of_length_le ?_⟩
    rw [length_drop]
    omega

/-- Three chunks through a buffer of four bytes: a reader that begins at the second byte gets two
chunks and ends with the session. -/
def threeChunks : StreamState where
  session := { buffer := [4, 5, 6, 7], prefixDropped := 3, capBytes := 4, done := true }
  total := [1, 2, 3, 4, 5, 6, 7]
  readers :=
    [{ start := 1, offset := 7, received := [[2, 3, 4], [5, 6, 7]], ended := some .finished }]

theorem stream_faithful_threeChunks : (streamSys 4).Reach (fun _ _ => True) threeChunks ∧
    threeChunks.session.buffer = threeChunks.total.rtake 4 := by
  have h : (streamSys 4).Reach (fun _ _ => true = true) threeChunks :=
    Sys.reach_runSteps (.init rfl)
      (show Sys.runSteps StreamState.step (fun _ _ => true)
        [.append [1, 2], .append [3, 4], .read 1, .turn 0 false, .deliver 0 true, .turn 0 false,
          .append [5, 6, 7], .finalize, .turn 0 false, .deliver 0 true, .turn 0 false] _ =
            some threeChunks by decide +kernel)
  have hreach := h.mono fun _ _ _ => trivial
  exact ⟨hreach, (stream_faithful 4 hreach).2.1⟩

end BeeLlama.Server
