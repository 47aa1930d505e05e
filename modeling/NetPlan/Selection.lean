import NetPlan.Kernel.Key
import NetPlan.Kernel.Registry
import NetPlan.Kernel.Request.Encoding
import NetPlan.Tuning.Offline
import NetPlan.Tuning.Overrides
import NetPlan.Tuning.Records

/-!
# Selection — which plan carries out a request

`Selector.naive?` compares estimated costs: the first forced candidate with a plan wins outright,
else the least cost among those not denied, the earliest on a tie.  `Selector.autoTune` looks for an
earlier result first, and where it may measure, takes the least run time instead, candidates with
tuning variants before those without.  A `Session` carries what outlives a selection: the cache file
and a journal of what was asked of the implementations and of the runner.  What the `Device` cannot run
is not among the candidates.

Planning can break off without an answer.  A selection goes on as if the implementation had refused, and
the journal has it on record: who asked for the selection is to look there (`Session.brokeSince`).
-/

namespace NetPlan.Kernel

/-- Abilities and limits of a device. -/
structure Device where
  computeUnits : Nat
  subgroups : Bool
  halfPrecision : Bool
  maxGroupSize : Nat
  deriving DecidableEq, Inhabited

namespace Device

/-- A device with sub-groups, half precision and groups of 256. -/
def default : Device := ⟨24, true, true, 256⟩

/-- Whether the device has the machine features that a kernel's key asks for. -/
def canRun (d : Device) (key : Key) : Bool := !key.needsSubgroups || d.subgroups

end Device

end NetPlan.Kernel

namespace NetPlan

open Kernel Tuning

/-- Why nothing was selected. -/
inductive SelectError where
  | noImplementation (kind : Kind) (layer : String)
  | typeMismatch (what layer : String)
  | variantUnavailable (name : String) (variant : Option Nat) (reason : String)
  deriving DecidableEq

/-- The name of the kind of failure. -/
def SelectError.title : SelectError → String
  | .noImplementation _ _ => "NoImplementation"
  | .typeMismatch _ _ => "TypeMismatch"
  | .variantUnavailable _ _ _ => "TunedVariantUnavailable"

/-- The error in words. -/
def SelectError.message : SelectError → String
  | .noImplementation kind layer => s!"no {kind.name} implementation accepts layer '{layer}'"
  | .typeMismatch what layer => s!"{what} is not available on this device for layer '{layer}'"
  | .variantUnavailable name variant reason =>
    let index := Text.optional (variant.map toString)
    s!"tuned variant {index} of '{name}' is unavailable: {reason}"

/-- Whether earlier results are used, and whether new ones are measured. -/
inductive TuningMode where
  | disabled
  | useCache
  | tuneAndCache
  deriving DecidableEq

/-- The mode as messages spell it. -/
def TuningMode.name : TuningMode → String
  | .disabled => "Disabled"
  | .useCache => "UseCache"
  | .tuneAndCache => "TuneAndCache"

instance : Named TuningMode := ⟨[.disabled, .useCache, .tuneAndCache], TuningMode.name⟩

/-- Times a list of plans in microseconds, or fails with a reason. -/
abbrev Runner := List Plan → Except String (List Nat)

/-- What an implementation can be asked for. -/
inductive Question where
  | plan
  | variant
  | all
  deriving DecidableEq

/-- What a selection asked of its collaborators. -/
inductive Event where
  | asked (serial : Nat) (question : Question)
  /-- Instead of an answer, planning broke off. -/
  | broke (serial : Nat)
  | timed (plans : List Plan)
  deriving DecidableEq

namespace Event

/-- A question to an implementation, and whether planning broke off over it. -/
def ofAnswer (i : Implementation) (q : Question) (answer : Except Refusal (List Plan)) :
    List Event :=
  match answer with
  | .error .overflow => [.asked i.serial q, .broke i.serial]
  | _ => [.asked i.serial q]

/-- Whether planning broke off. -/
def isBreak : Event → Bool
  | .broke _ => true
  | _ => false

end Event

/-- What outlives a selection. -/
structure Session where
  cache : CacheFile
  journal : List Event

namespace Session

/-- The session with further events. -/
def note (s : Session) (events : List Event) : Session :=
  { s with journal := s.journal ++ events }

/-- Whether planning broke off between an earlier session and a later one. -/
def brokeSince (later earlier : Session) : Bool :=
  (later.journal.drop earlier.journal.length).any Event.isBreak

end Session

/-- Everything that decides a selection. -/
structure Selector where
  registry : Registry
  device : Device
  overrides : Overrides
  offline : OfflineTables
  mode : TuningMode
  runner : Option Runner

/-- A selection may fail, and the session stays as it is then. -/
abbrev SelectM := ExceptT SelectError (StateM Session)

namespace Selector

/-- The builtin implementations and tables, nothing overridden, nothing tuned. -/
def builtin (device : Device) : Selector :=
  ⟨.builtin, device, .none, .builtin, .disabled, none⟩

/-- The failure of half-precision tensors on a device without half precision. -/
def deviceError? (s : Selector) (r : Request) : Option SelectError :=
  match r.work.operands? with
  | none => none
  | some o =>
    if (o.inputs ++ [o.output]).any (·.element = .f16) && !s.device.halfPrecision then
      some (.typeMismatch "half precision" r.layer)
    else none

/-- Whether an implementation covers a request on the device. -/
def accepts (s : Selector) (r : Request) (o : Options) (i : Implementation) : Bool :=
  i.key.supports (o.requestKey r) && s.device.canRun i.key

/-- The implementations that cover a request, in the order of registration. -/
def candidates (s : Selector) (r : Request) (o : Options) : List Implementation :=
  (s.registry.ofKind r.kind).filter (s.accepts r o)

/-- The first plan of an answer, unless it has no launches, under the implementation's name. -/
def firstPlan? (i : Implementation) (answer : Except Refusal (List Plan)) : Option Plan :=
  match answer with
  | .ok (plan :: _) => if plan.isEmpty then none else some { plan with implementation := i.name }
  | _ => none

/-- Whether a forced implementation has a plan, which ends the comparison. -/
def decides (s : Selector) (r : Request) (o : Options) (i : Implementation) : Bool :=
  s.overrides.isForced i.name && (firstPlan? i (i.plan r o)).isSome

/-- The better of two plans; on a tie the one found first. -/
def cheaper (best : Option Plan) (plan : Plan) : Option Plan :=
  match best with
  | none => some plan
  | some current => if plan.cost.lt current.cost then some plan else some current

/-- The cheapest plan of a list of candidates, or that of the first forced one. -/
def naiveAmong (s : Selector) (r : Request) (o : Options) :
    Option Plan → List Implementation → Option Plan
  | best, [] => best
  | best, i :: rest =>
    match firstPlan? i (i.plan r o) with
    | none => s.naiveAmong r o best rest
    | some plan =>
      if s.overrides.isForced i.name then some plan
      else if s.overrides.isDenied i.name then s.naiveAmong r o best rest
      else s.naiveAmong r o (cheaper best plan) rest

/-- The candidates that a naive selection asks: all up to the first that decides. -/
def asked (s : Selector) (r : Request) (o : Options) : List Implementation → List Implementation
  | [] => []
  | i :: rest => if s.decides r o i then [i] else i :: s.asked r o rest

/-- The plan of least estimated cost. -/
def naive? (s : Selector) (r : Request) (o : Options) : Except SelectError Plan :=
  match s.deviceError? r with
  | some e => .error e
  | none =>
    match s.naiveAmong r o none (s.candidates r o) with
    | some plan => .ok plan
    | none => .error (.noImplementation r.kind r.layer)

/-- Naive selection, on the record. -/
def naive (s : Selector) (r : Request) (o : Options) : SelectM Plan := do
  if (s.deviceError? r).isNone then
    modify (·.note ((s.asked r o (s.candidates r o)).flatMap fun i =>
      Event.ofAnswer i .plan (i.plan r o)))
  ExceptT.mk (pure (s.naive? r o))

/-- One variant of a named implementation. -/
def variant (s : Selector) (r : Request) (o : Options) (name : String) (index : Option Nat) :
    SelectM Plan := do
  let unavailable (reason : String) : SelectError := .variantUnavailable name index reason
  match s.registry.find? r.kind name with
  | none => throw (unavailable "no such implementation")
  | some i =>
    if !s.accepts r o i then
      throw (unavailable "request no longer matches its key")
    modify (·.note (Event.ofAnswer i .variant (i.planVariant index r o)))
    match i.planVariant index r o with
    | .error refusal => throw (unavailable refusal.message)
    | .ok plans =>
      match firstPlan? i (.ok plans) with
      | some plan => return plan
      | none => throw (unavailable "empty plan")

/-- The plans of an implementation with their run times, and what was asked for them.  A refusal, a
failed run and a wrong number of times leave no plan. -/
def measure (runner : Runner) (r : Request) (o : Options) (i : Implementation) :
    List Plan × List Event :=
  let asked : List Event := Event.ofAnswer i .all (i.planAll r o)
  match i.planAll r o with
  | .error _ => ([], asked)
  | .ok plans =>
    match plans.filter (!·.isEmpty) with
    | [] => ([], asked)
    | usable =>
      let events := asked ++ [.timed usable]
      match runner usable with
      | .error _ => ([], events)
      | .ok times =>
        if times.length ≠ usable.length then ([], events)
        else
          ((usable.zip times).map fun (plan, time) =>
            { plan with runTime := some time, implementation := i.name }, events)

/-- Whether a plan ran in less time than another; plans without a time come first. -/
def ranFaster (p q : Plan) : Bool :=
  match p.runTime, q.runTime with
  | none, some _ => true
  | some t, some u => t < u
  | _, none => false

/-- The plan of least run time, the earliest on a tie. -/
def fastest? (plans : List Plan) : Option Plan :=
  plans.foldl
    (fun best plan =>
      match best with
      | none => some plan
      | some current => if ranFaster plan current then some plan else some current)
    none

/-- The earlier result for a request: the cache file's, or, where nothing is measured, that of the
offline tables. -/
def earlier? (s : Selector) (r : Request) (cache : CacheFile) : Option Entry :=
  (cache.load.lookup r.fingerprint).orElse fun _ =>
    if s.mode = .useCache then s.offline.lookup s.device.computeUnits r.fingerprint else none

/-- The fastest plan of the candidates: those with tuning variants if any of them runs, else the
others. -/
def measureAll (s : Selector) (runner : Runner) (r : Request) (o : Options) :
    Option Plan × List Event :=
  let candidates := (s.candidates r o).filter fun i => !s.overrides.isDenied i.name
  let phase (tunable : Bool) : Option Plan × List Event :=
    let results := (candidates.filter (·.tunable = tunable)).map (measure runner r o)
    (fastest? (results.flatMap (·.1)), results.flatMap (·.2))
  let (first, events) := phase true
  match first with
  | some plan => (some plan, events)
  | none =>
    let (second, more) := phase false
    (second, events ++ more)

/-- Measures where measuring is on, and appends the winner to the cache file; compares costs
otherwise. -/
def tune (s : Selector) (r : Request) (o : Options) : SelectM Plan :=
  match s.mode, s.runner with
  | .tuneAndCache, some runner => do
    let (best, events) := s.measureAll runner r o
    modify (·.note events)
    match best with
    | none => s.naive r o
    | some plan =>
      modify fun session =>
        { session with
          cache := session.cache.store r.fingerprint ⟨plan.implementation, plan.variant⟩ }
      return plan
  | _, _ => s.naive r o

/-- An earlier result if it is still usable, a new one otherwise. -/
def autoTune (s : Selector) (r : Request) (o : Options) : SelectM Plan := do
  if let some e := s.deviceError? r then
    throw e
  match s.earlier? r (← get).cache with
  | none => s.tune r o
  | some entry =>
    tryCatch (s.variant r o entry.implementation entry.variant) fun _ => s.tune r o

/-- The plan for a request. -/
def select (s : Selector) (r : Request) (o : Options) : SelectM Plan :=
  if s.mode = .disabled then s.naive r o else s.autoTune r o

end Selector

end NetPlan
