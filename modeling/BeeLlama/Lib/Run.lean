import Mathlib.Algebra.GroupWithZero.Nat
import Mathlib.Data.Set.Basic

/-!
# Runs of an object and their invariants

A `Sys σ ω` is an object with states `σ` and operations `ω`: the initial states, the steps, and
the other objects whose state an operation reads (a copy, a restore). `Sys.Reach ok` are the
states that a run reaches when each operation meets `ok`; the objects that an operation reads
come from runs of the same kind.

* `Sys.Reach.inv`: a property that holds initially and that every step keeps holds in every
  reachable state.
* `Sys.Reach.mono`: fewer steps reach fewer states.
* `Sys.ofStep`: an object whose steps are computed. `reach_runSteps` says that what is computed for
  a list of operations is reachable.
* `Sys.recorded`: such an object with a log of its operations, for properties of a whole run.
-/

namespace BeeLlama

/-- An object: initial states, steps, and the objects that an operation reads. -/
structure Sys (σ ω : Type) where
  init : σ → Prop
  step : σ → ω → σ → Prop
  sources : ω → Set σ := fun _ => ∅

namespace Sys

variable {σ ω : Type} {S : Sys σ ω} {ok : σ → ω → Prop} {I : σ → Prop}

/-- The states that a run reaches, each operation called with `ok`. -/
inductive Reach (S : Sys σ ω) (ok : σ → ω → Prop) : σ → Prop where
  | init {s : σ} : S.init s → Reach S ok s
  | step {s s' : σ} {op : ω} : Reach S ok s → (∀ o ∈ S.sources op, Reach S ok o) →
      S.step s op s' → ok s op → Reach S ok s'

/-- What an inductive invariant has to show. -/
structure Inductive (S : Sys σ ω) (ok : σ → ω → Prop) (I : σ → Prop) : Prop where
  init : ∀ s, S.init s → I s
  step : ∀ s op s', I s → (∀ o ∈ S.sources op, I o) → S.step s op s' → ok s op → I s'

/-- An inductive invariant holds in every reachable state. -/
theorem Reach.inv (hI : Inductive S ok I) {s : σ} (h : Reach S ok s) : I s := by
  induction h with
  | init h => exact hI.init _ h
  | step _ _ hstep hok ih iho => exact hI.step _ _ _ ih iho hstep hok

theorem Reach.mono {ok' : σ → ω → Prop} (hle : ∀ s op, ok s op → ok' s op) {s : σ}
    (h : Reach S ok s) : Reach S ok' s := by
  induction h with
  | init h => exact .init h
  | step _ _ hstep hok ih iho => exact .step ih iho hstep (hle _ _ hok)

/-- The object whose steps a function computes. -/
def ofStep (init : σ → Prop) (f : σ → ω → Option σ) : Sys σ ω where
  init := init
  step := fun s op s' => f s op = some s'

/-- The state after a list of operations, if each of them can be made and meets `ok`. -/
def runSteps (f : σ → ω → Option σ) (ok : σ → ω → Bool) : List ω → σ → Option σ
  | [], s => some s
  | op :: ops, s => if ok s op then (f s op).bind (runSteps f ok ops) else none

theorem reach_runSteps {init : σ → Prop} {f : σ → ω → Option σ} {ok : σ → ω → Bool} {ops : List ω}
    {s s' : σ} (h : Reach (ofStep init f) (fun s op => ok s op = true) s)
    (e : runSteps f ok ops s = some s') :
    Reach (ofStep init f) (fun s op => ok s op = true) s' := by
  induction ops generalizing s with
  | nil => exact Option.some.inj e ▸ h
  | cons op ops ih =>
    unfold runSteps at e
    split at e
    · next hok =>
      obtain ⟨t, ht, e⟩ := Option.bind_eq_some_iff.mp e
      exact ih (.step h (fun _ ho => ho.elim) ht hok) e
    · cases e

/-! ## Logs -/

/-- An operation that was made, with the states before and after it. -/
structure Event (σ ω : Type) where
  before : σ
  op : ω
  after : σ
  deriving DecidableEq

/-- A state and the operations that led to it, the last one first. -/
structure Recorded (σ ω : Type) where
  state : σ
  log : List (Event σ ω) := []
  deriving DecidableEq

/-- A step that is logged. -/
def recordStep (f : σ → ω → Option σ) (r : Recorded σ ω) (op : ω) : Option (Recorded σ ω) :=
  (f r.state op).map fun s => { state := s, log := ⟨r.state, op, s⟩ :: r.log }

/-- The object whose steps a function computes, with a log. -/
def recorded (init : σ → Prop) (f : σ → ω → Option σ) : Sys (Recorded σ ω) ω :=
  ofStep (fun r => init r.state ∧ r.log = []) (recordStep f)

/-- What holds of a state and its log: it holds of the initial states, and every step with its event
keeps it. -/
theorem recorded_inductive {init : σ → Prop} {f : σ → ω → Option σ} (ok : σ → ω → Prop)
    {I : σ → List (Event σ ω) → Prop} (hinit : ∀ s, init s → I s [])
    (hstep : ∀ s log op s', I s log → f s op = some s' → ok s op → I s' (⟨s, op, s'⟩ :: log)) :
    Inductive (recorded init f) (fun r op => ok r.state op) fun r => I r.state r.log where
  init := fun r hr => hr.2.symm ▸ hinit r.state hr.1
  step := fun r op r' hI _ hs hok => by
    obtain ⟨s', hs', rfl⟩ := Option.map_eq_some_iff.mp hs
    exact hstep r.state r.log op s' hI hs' hok

/-- A list of operations that can be made is a run with a log. -/
theorem reach_recorded (init : σ → Prop) (f : σ → ω → Option σ) (ok : σ → ω → Bool) (ops : List ω)
    {s : σ} (hs : init s)
    (h : (runSteps (recordStep f) (fun r op => ok r.state op) ops ⟨s, []⟩).isSome) :
    Reach (recorded init f) (fun r op => ok r.state op = true)
      ((runSteps (recordStep f) (fun r op => ok r.state op) ops ⟨s, []⟩).get h) :=
  reach_runSteps (.init ⟨hs, rfl⟩) (Option.some_get h).symm

end Sys
end BeeLlama
