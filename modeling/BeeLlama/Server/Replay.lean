import BeeLlama.Server.Stream

/-!
# Replay over HTTP (the GET handler)

Each call of `next` is a `read_from` whose sink refuses. It ends with a chunk, which is written and
followed by the next call from the offset behind it, or with none, which ends the response as
complete. `replay_complete_iff` says when the client has then got the whole stream.
-/

namespace BeeLlama.Server

open List

/-- A session, the bytes that were appended to it, and a GET request. -/
structure ReplayState where
  session : StreamSession
  total : List UInt8 := []
  /-- The bytes that were written, and `offset_ptr`. -/
  response : Option Read := none
  /-- `sink.done()` was called. -/
  done : Bool := false
  deriving DecidableEq, Repr

/-- The calls of the producer, the request, the turns of `read_from` in `next`, and the writes. -/
inductive ReplayOp where
  | append (data : List UInt8)
  | finalize
  | get (start : Nat)
  | turn (stop : Bool)
  | write (ok : Bool)

namespace ReplayState

/-- A step. A write that fails closes the connection, without `sink.done()`. -/
def step (s : ReplayState) : ReplayOp → Option ReplayState
  | .append data =>
    let (session, accepted) := s.session.append data
    some { s with session, total := if accepted then s.total ++ data else s.total }
  | .finalize => some { s with session := s.session.finalize }
  | .get start =>
    -- a lost offset gets a 400
    if s.response.isSome ∨ start < s.session.prefixDropped then none
    else some { s with response := some ⟨start, start, [], none, none⟩, done := false }
  | .turn stop =>
    match s.response with
    | some ⟨start, offset, received, none, none⟩ =>
      let r := Read.turn s.session stop ⟨start, offset, received, none, none⟩
      some { s with response := some r, done := r.ended.isSome }
    | _ => none
  | .write ok =>
    match s.response with
    | some ⟨start, offset, received, some chunk, none⟩ =>
      let r := Read.deliver ok chunk ⟨start, offset, received, some chunk, none⟩
      some { s with response := some r, done := false }
    | _ => none

end ReplayState

/-- The runs of a session with a cap and of a request. -/
def replaySys (capBytes : Nat) : Sys ReplayState ReplayOp :=
  .ofStep (fun s => s = { session := { capBytes } }) ReplayState.step

theorem prefixDropped_append (s : StreamSession) (data : List UInt8) :
    s.prefixDropped ≤ (s.append data).1.prefixDropped := by
  unfold StreamSession.append
  dsimp only
  split_ifs <;> simp

theorem Read.turn_ended (s : StreamSession) (stop : Bool) {r : Read} (h : r.ended = none) :
    (r.turn s stop).ended ≠ some .refused ∧
      ((r.turn s stop).ended = some .lost → (r.turn s stop).offset < s.prefixDropped) := by
  unfold Read.turn
  dsimp only
  split_ifs <;> simp [*]

namespace ReplayState

/-- The invariant. -/
structure Inv (s : ReplayState) : Prop where
  window : Window s.session s.total
  response : ∀ r ∈ s.response, r.Ok s.session s.total
  done : s.done = true → ∀ r ∈ s.response, r.ended ≠ none ∧ r.ended ≠ some .refused
  lost : ∀ r ∈ s.response, r.ended = some .lost → r.offset < s.session.prefixDropped

theorem Inv.step {s s' : ReplayState} (h : s.Inv) {op : ReplayOp} (e : s.step op = some s') :
    s'.Inv := by
  cases op with
  | append data =>
    cases e
    exact ⟨h.window.append, fun r hr => (h.response r hr).append data, h.done,
      fun r hr hl => (h.lost r hr hl).trans_le (prefixDropped_append ..)⟩
  | finalize =>
    cases e
    refine ⟨⟨h.window.buffer, h.window.length⟩, fun r hr => ?_, h.done, h.lost⟩
    have hr := h.response r hr
    exact ⟨hr.copied, hr.offset, hr.ended, fun hf => ⟨rfl, (hr.finished hf).2⟩⟩
  | get start =>
    simp only [ReplayState.step] at e
    split at e <;> cases e
    refine ⟨h.window, ?_, fun hd => (by cases hd), ?_⟩ <;> rintro r ⟨⟩
    · exact ⟨ nil_prefix, rfl, fun _ => rfl, fun hf => by cases hf⟩
    · exact fun hl => by cases hl
  | turn stop =>
    simp only [ReplayState.step] at e
    split at e <;> cases e
    next start offset received hr =>
    have hended := Read.turn_ended s.session stop (r := ⟨start, offset, received, none, none⟩) rfl
    refine ⟨h.window, ?_, ?_, ?_⟩
    · rintro r ⟨⟩
      exact (h.response _ hr).turn h.window rfl rfl stop
    · rintro hd r ⟨⟩
      exact ⟨Option.isSome_iff_ne_none.mp hd, hended.1⟩
    · rintro r ⟨⟩
      exact hended.2
  | write ok =>
    simp only [ReplayState.step] at e
    split at e <;> cases e
    next start offset received chunk hr =>
    refine ⟨h.window, ?_, fun hd => (by cases hd), ?_⟩ <;> rintro r ⟨⟩
    · exact (h.response _ hr).deliver rfl ok
    · cases ok <;> exact fun hl => by cases hl

end ReplayState

theorem replaySys_inductive (capBytes : Nat) (ok : ReplayState → ReplayOp → Prop) :
    (replaySys capBytes).Inductive ok ReplayState.Inv where
  init := fun s hs => by
    obtain rfl : s = { session := { capBytes } } := hs
    exact ⟨⟨by simp, rfl⟩, by simp, by simp, by simp⟩
  step := fun _ _ _ h _ e _ => h.step e

/-- A response that ended as complete, unasked, has written the stream from its first offset on to
the end, exactly if the bytes behind what it wrote were not dropped. -/
theorem replay_complete_iff (capBytes : Nat) {s : ReplayState}
    (h : (replaySys capBytes).Reach (fun _ _ => True) s) {r : Read} (hr : s.response = some r)
    (hd : s.done = true) (hs : r.ended ≠ some .stopped) :
    s.session.done = true ∧ r.received.flatten = s.total.drop r.start ↔
      s.session.prefixDropped ≤ r.offset := by
  have hinv := h.inv (replaySys_inductive capBytes _)
  have hok := hinv.response r hr
  obtain ⟨hne, href⟩ := hinv.done hd r hr
  have hlen := hinv.window.length
  have hoff := hok.offset
  have hcopied : r.copied = r.received.flatten := by simp [Read.copied, hok.ended hne]
  rw [hcopied] at hoff
  constructor
  · rintro ⟨-, hw⟩
    rw [hw, length_drop] at hoff
    omega
  · intro hle
    obtain ⟨e, he⟩ := Option.ne_none_iff_exists'.mp hne
    cases e with
    | stopped => exact absurd he hs
    | refused => exact absurd he href
    | lost => exact absurd (hinv.lost r hr he) (Nat.not_lt.mpr hle)
    | finished =>
      obtain ⟨hdone, hend⟩ := hok.finished he
      have hpre : r.received.flatten <+: s.total.drop r.start := hcopied ▸ hok.copied
      refine ⟨hdone, hpre.eq_of_length_le ?_⟩
      rw [length_drop]
      omega

/-- A buffer of two bytes: after the first byte was written the stream goes on with three. -/
def overtaken : ReplayState where
  session := { buffer := [3, 4], prefixDropped := 2, capBytes := 2, done := true }
  total := [1, 2, 3, 4]
  response := some { start := 0, offset := 1, received := [[1]], ended := some .lost }
  done := true

theorem overtaken_reach : (replaySys 2).Reach (fun _ _ => True) overtaken :=
  (show (replaySys 2).Reach (fun _ _ => true = true) overtaken from
    Sys.reach_runSteps (.init rfl)
      (show Sys.runSteps ReplayState.step (fun _ _ => true)
        [.get 0, .append [1], .turn false, .write true, .append [2, 3, 4], .turn false,
          .finalize] _ = some overtaken by decide +kernel)).mono fun _ _ _ => trivial

theorem replay_complete_iff_overtaken : ¬ (overtaken.session.done = true ∧ [1] = overtaken.total) :=
  (replay_complete_iff 2 overtaken_reach rfl rfl (by decide)).not.mpr (by decide)

/-- The response ends as complete, with one byte of four. -/
theorem replay_incomplete : ∃ s r, (replaySys 2).Reach (fun _ _ => True) s ∧
    s.response = some r ∧ s.done = true ∧ r.ended ≠ some .stopped ∧
    r.received.flatten ≠ s.total.drop r.start :=
  ⟨overtaken, _, overtaken_reach, rfl, rfl, by decide, by decide⟩

end BeeLlama.Server
