import DeltaReplica.Delta

/-!
# Outcomes of changes

Merging a delta can fail part-way.  What was merged before the failure stays, so the
outcome has a state in any case, and next to it the diagnostics met on the way and
the failure, if there was one.
-/

namespace DeltaReplica

/-- The ways in which a delta can be refused. -/
inductive DeltaError
  /-- A register is to be created by a delta that carries no value. -/
  | registerWithoutValue
  /-- The delta belongs to data of another kind. -/
  | wrongKind (expected found : Kind)
  /-- Data of this kind is never created by a delta. -/
  | notCreatable (kind : Kind)
  /-- A payload in the delta cannot be read. -/
  | decode (error : DecodeError)
deriving DecidableEq, Inhabited

/-- The wording of an error. -/
def DeltaError.message : DeltaError → String
  | .registerWithoutValue => "invalid argument: a register can only be created with a value"
  | .wrongKind expected found =>
    s!"cannot apply {found.name} delta, expected a {expected.name} delta"
  | .notCreatable kind => s!"unknown replicated data type: {kind.name}"
  | .decode error => "cannot decode value: " ++ error.message

/-- The error that lies behind an error. -/
def DeltaError.source? : DeltaError → Option DecodeError
  | .decode error => some error
  | _ => none

/-- What the diagnostics report. -/
inductive Remark
  /-- A key comes back before its removal was shipped. -/
  | keyReturns
  /-- The value of a key that peers know is replaced. -/
  | valueReplaced
  /-- A delta removes a key that is not there. -/
  | removesMissingKey
  /-- A delta adds a key that is there. -/
  | addsPresentKey
  /-- A delta updates a key that is not there. -/
  | updatesMissingKey
  /-- A delta removes an element that is not there. -/
  | removesMissingElement
  /-- A delta adds an element that is there. -/
  | addsPresentElement
deriving DecidableEq, Inhabited

/-- How grave a remark is. -/
inductive Severity
  /-- Of interest when something is being traced. -/
  | debug
  /-- A sign that replicas have diverged. -/
  | warning
deriving DecidableEq, Inhabited

/-- Local changes are worth a trace, deltas that do not fit a warning. -/
def Remark.severity : Remark → Severity
  | .keyReturns | .valueReplaced => .debug
  | _ => .warning

/-- The wording of a remark. -/
def Remark.message : Remark → String
  | .keyReturns =>
    "key was removed and added again before the delta was harvested, "
      ++ "the proxy will merge the new value into the old one"
  | .valueReplaced => "replacing the value of an existing key, shipping it as removed and added"
  | .removesMissingKey => "delta removes a key that is not in the map"
  | .addsPresentKey =>
    "delta adds a key that is already in the map, merging into the existing value"
  | .updatesMissingKey => "delta updates a key that is not in the map"
  | .removesMissingElement => "delta removes an element that is not in the set"
  | .addsPresentElement => "delta adds an element that is already in the set"

/-- A remark about a key or an element. -/
structure Notice where
  /-- What is reported. -/
  remark : Remark
  /-- What it is about. -/
  key : Key
deriving DecidableEq, Inhabited

/-- A result together with the notices given on the way to it. -/
structure Noted (α : Type) where
  /-- The result. -/
  result : α
  /-- The notices, in the order in which they were given. -/
  notices : List Notice := []

/-- Notices given before a result. -/
def Noted.after {α : Type} (notices : List Notice) (n : Noted α) : Noted α :=
  { n with notices := notices ++ n.notices }

/-- The outcome of merging a delta into a state. -/
structure Outcome (σ : Type) where
  /-- The state afterwards, also after a failure. -/
  state : σ
  /-- The notices, in the order in which they were given. -/
  notices : List Notice := []
  /-- Why the merge stopped early. -/
  failure : Option DeltaError := none

namespace Outcome

variable {σ τ α : Type}

/-- The outcome of a merge that fails before it changes anything. -/
def fail (s : σ) (e : DeltaError) : Outcome σ := { state := s, failure := some e }

/-- The outcome of a merge that goes through silently. -/
def done (s : σ) : Outcome σ := { state := s }

/-- The same outcome, of a state that is seen as another one. -/
def map (f : σ → τ) (o : Outcome σ) : Outcome τ :=
  { state := f o.state, notices := o.notices, failure := o.failure }

/-- Notices given before an outcome. -/
def after (notices : List Notice) (o : Outcome σ) : Outcome σ :=
  { o with notices := notices ++ o.notices }

/-- A further step, unless the merge has stopped. -/
def andThen (o : Outcome σ) (next : σ → Outcome σ) : Outcome σ :=
  match o.failure with
  | some _ => o
  | none => (next o.state).after o.notices

/-- One step for each item of a list, up to the first that fails. -/
def each (step : α → σ → Outcome σ) : List α → σ → Outcome σ
  | [], s => done s
  | a :: as, s => (step a s).andThen (each step as)

/-- A step that needs the result of a computation that may fail. -/
def withResult (r : Except DeltaError α) (s : σ) (next : α → Outcome σ) : Outcome σ :=
  match r with
  | .ok a => next a
  | .error e => fail s e

@[simp]
theorem each_nil (step : α → σ → Outcome σ) (s : σ) : each step [] s = done s := rfl

theorem each_cons (step : α → σ → Outcome σ) (a : α) (as : List α) (s : σ) :
    each step (a :: as) s = (step a s).andThen (each step as) := rfl

@[simp]
theorem state_map (f : σ → τ) (o : Outcome σ) : (o.map f).state = f o.state := rfl

@[simp]
theorem failure_map (f : σ → τ) (o : Outcome σ) : (o.map f).failure = o.failure := rfl

@[simp]
theorem failure_done (s : σ) : (done s).failure = none := rfl

@[simp]
theorem state_done (s : σ) : (done s).state = s := rfl

@[simp]
theorem failure_fail (s : σ) (e : DeltaError) : (fail s e).failure = some e := rfl

@[simp]
theorem state_fail (s : σ) (e : DeltaError) : (fail s e).state = s := rfl

@[simp]
theorem done_andThen (s : σ) (next : σ → Outcome σ) : (done s).andThen next = next s := rfl

theorem failure_andThen_eq_none_iff {o : Outcome σ} {next : σ → Outcome σ} :
    (o.andThen next).failure = none ↔ o.failure = none ∧ (next o.state).failure = none := by
  cases h : o.failure <;> simp [andThen, after, h]

end Outcome

/-- A payload in a delta, read as a value. -/
def Payload.read {α : Type} (decode : Payload → Except DecodeError α) (p : Payload) :
    Except DeltaError α :=
  (decode p).mapError .decode

end DeltaReplica
