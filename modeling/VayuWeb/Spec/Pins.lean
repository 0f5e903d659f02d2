import VayuWeb.Base.Sightings
import VayuWeb.Spec.Cbor

/-!
# Pins and what is said of them (`registry/src/pins.ts`)

A report counts holders that were seen, each once, and only as of the moment they were seen. A `PinSet` refuses where
it is full, and forgets nothing on its own. The lists of `UNPUBLISH_EFFECTS` are read by nothing that is modelled.
-/

namespace VayuWeb.Pins

/-- How a peer came to be holding content. -/
inductive Holder where
  | self
  | peer (id : String)
  | service (name : String)
  deriving DecidableEq, Repr

/-- A holder's identity for counting purposes. -/
def identity : Holder → String
  | .self => "self"
  | .peer id => s!"peer:{id}"
  | .service name => s!"service:{name}"

/-- One observation that a holder had the content at a moment. -/
structure Observation where
  holder : Holder
  observedAt : ℕ
  deriving DecidableEq, Repr

/-- What is known of a CID: who was asked, who answered, and who holds it. -/
structure AvailabilityReport where
  cid : String
  asked : ℕ
  answered : ℕ
  peersHolding : ℕ
  servicesHolding : ℕ
  selfPinned : Bool
  observedAt : Option ℕ
  availabilityUnguaranteed : Bool
  deriving DecidableEq, Repr

/-- An error of the pin set, with its message. -/
structure PinError where
  message : String
  deriving DecidableEq, Repr

/-- The counts that the loop over the holders keeps. -/
structure Counts where
  peersHolding : ℕ
  servicesHolding : ℕ
  selfPinned : Bool
  observedAt : Option ℕ
  deriving DecidableEq, Repr

/-- The counts before any observation. -/
def Counts.zero : Counts := { peersHolding := 0, servicesHolding := 0, selfPinned := false, observedAt := none }

/-- The body of the loop over the holders. -/
def Counts.take (counts : Counts) (observation : Observation) : Counts :=
  let newest :=
    match counts.observedAt with
    | none => observation.observedAt
    | some at_ => if observation.observedAt > at_ then observation.observedAt else at_
  match observation.holder with
  | .peer _ => { counts with peersHolding := counts.peersHolding + 1, observedAt := some newest }
  | .service _ => { counts with servicesHolding := counts.servicesHolding + 1, observedAt := some newest }
  | .self => { counts with selfPinned := true, observedAt := some newest }

/-- The observations that are fresh. -/
def fresh (observations : List Observation) (staleAfter now : ℕ) : List Observation :=
  observations.filter fun o => (o.observedAt : ℤ) > now - staleAfter

/-- Build a report from what was asked and what came back. A number of the source that is no integer, which
`Number.isSafeInteger` refuses with the same text, cannot be said here. -/
def report (cid : String) (asked : ℤ) (observations : List Observation) (staleAfter now : ℕ) :
    Except PinError AvailabilityReport :=
  if asked < 0 ∨ asked > maxSafeInteger then
    .error ⟨"the number of peers asked must be a non-negative integer"⟩
  -- every peer asked answers at most once, and this machine for itself
  else if observations.length > asked + 1 then
    .error ⟨s!"{observations.length} observations from {asked} peers asked — the denominator is wrong"⟩
  else
    let seen := Sightings.newest (fun o => identity o.holder) Observation.observedAt (fresh observations staleAfter now)
    let counts := (seen.map Prod.snd).foldl Counts.take .zero
    .ok {
      cid := cid
      asked := asked.toNat
      answered := seen.length
      peersHolding := counts.peersHolding
      servicesHolding := counts.servicesHolding
      selfPinned := counts.selfPinned
      observedAt := counts.observedAt
      availabilityUnguaranteed := true }

/-- Nobody but this node is known to hold the content. -/
def onlyThisNodeHoldsIt (report : AvailabilityReport) : Bool :=
  report.selfPinned && report.peersHolding = 0 && report.servicesHolding = 0

/-- The ending of a noun after a count. -/
def plural (n : ℕ) : String := if n = 1 then "" else "s"

/-- The parts of a summary. -/
def partsOf (report : AvailabilityReport) : List String :=
  (if report.selfPinned then ["pinned here"] else []) ++
    (if report.peersHolding > 0 then
      [s!"{report.peersHolding} other peer{plural report.peersHolding} answered"]
    else []) ++
    (if report.servicesHolding > 0 then
      [s!"{report.servicesHolding} pinning service{plural report.servicesHolding}"]
    else [])

/-- The one-line summary a client may show. -/
def summarise (report : AvailabilityReport) : String :=
  if (partsOf report).length = 0 then
    if report.asked = 0 then "No peers were asked. Nothing is known about who holds this."
    else s!"No peer answered out of {report.asked} asked. That is not the same as nobody holding it."
  else if ¬ report.selfPinned ∧ report.peersHolding = 0 ∧ report.servicesHolding = 0 then
    "Nothing observed holding this."
  else if onlyThisNodeHoldsIt report then
    if report.asked = 0 then
      "pinned here, and no peer has been asked. Nothing is known about who else holds it — " ++
        "if this node goes offline the site stops loading."
    else
      s!"pinned here, and none of the {report.asked} peers asked answered for it — if this node " ++
        "goes offline the site stops loading. Observed, not guaranteed."
  else ", ".intercalate (partsOf report) ++ ". Observed, not guaranteed."

/-! ## Pins -/

/-- `PIN_LIMITS.entries`. -/
def pinEntries : ℕ := 256

/-- What became of a request to pin. -/
inductive PinOutcome where
  | pinned | already | notHeld | full
  deriving DecidableEq, Repr

/-- The CIDs that are pinned, in the order they were taken, and how many may be. -/
structure PinSet where
  pinned : List String
  cap : ℕ
  deriving DecidableEq, Repr

namespace PinSet

/-- A pin set that holds nothing, under a cap. -/
def new (cap : ℕ := pinEntries) : PinSet := { pinned := [], cap := cap }

/-- Whether a CID is pinned. -/
def has (pins : PinSet) (cid : String) : Bool := pins.pinned.contains cid

/-- Take a pin, or say why not. `holds` is what the caller answers of this CID. -/
def add (pins : PinSet) (cid : String) (holds : Bool) : PinOutcome × PinSet :=
  if pins.has cid then (.already, pins)
  else if ¬ holds then (.notHeld, pins)
  else if pins.pinned.length ≥ pins.cap then (.full, pins)
  else (.pinned, { pins with pinned := pins.pinned ++ [cid] })

/-- Release a pin. -/
def remove (pins : PinSet) (cid : String) : Bool × PinSet :=
  (pins.has cid, { pins with pinned := pins.pinned.erase cid })

/-- What is asked of a pin set. -/
inductive Request where
  | add (cid : String) (holds : Bool)
  | remove (cid : String)
  deriving DecidableEq, Repr

/-- One request to the pin set. -/
def step (pins : PinSet) : Request → PinSet
  | .add cid holds => (pins.add cid holds).2
  | .remove cid => (pins.remove cid).2

/-- The pin set after a sequence of requests. -/
def run (cap : ℕ) (requests : List Request) : PinSet := requests.foldl step (new cap)

end PinSet

end VayuWeb.Pins
