import VayuWeb.Spec.Pins

/-!
# What the client says of a pin (`client/src/pins.rs`)

Counts and times are `u64`; the map of `report` is a `HashMap`, no order of which is read. No branch of it makes an
`AskedNotACount`.
-/

namespace VayuWeb.Client.Pins

open VayuWeb.Pins (Holder Observation AvailabilityReport Counts plural)

/-- Why no report is made. -/
inductive PinError where
  | askedNotACount
  | denominatorWrong (observations asked : ℕ)
  deriving DecidableEq, Repr

/-- The error as it is displayed. -/
def PinError.display : PinError → String
  | .askedNotACount => "the number of peers asked must be a non-negative integer"
  | .denominatorWrong observations asked =>
    s!"{observations} observations from {asked} peers asked — the denominator is wrong"

/-- A holder's identity for counting purposes. -/
def identity : Holder → String
  | .self => "self"
  | .peer id => s!"peer:{id}"
  | .service name => s!"service:{name}"

/-- One round of the loop over the observations. -/
def take (staleAfter now : ℕ) (seen : OrdMap String Observation) (observation : Observation) :
    OrdMap String Observation :=
  -- a sighting exactly so old has expired
  if observation.observedAt ≤ now - staleAfter then seen
  else
    let key := identity observation.holder
    match seen.get? key with
    | some existing => if existing.observedAt ≥ observation.observedAt then seen else seen.set key observation
    | none => seen.set key observation

/-- The body of the loop over the holders. -/
def count (counts : Counts) (observation : Observation) : Counts :=
  let counts :=
    match observation.holder with
    | .peer _ => { counts with peersHolding := counts.peersHolding + 1 }
    | .service _ => { counts with servicesHolding := counts.servicesHolding + 1 }
    | .self => { counts with selfPinned := true }
  { counts with
    observedAt := some (match counts.observedAt with
      | some current => max current observation.observedAt
      | none => observation.observedAt) }

/-- Build a report from what was asked and what came back. -/
def report (cid : String) (asked : ℕ) (observations : List Observation) (staleAfter now : ℕ) :
    Except PinError AvailabilityReport :=
  if observations.length > min (asked + 1) (2 ^ 64 - 1) then .error (.denominatorWrong observations.length asked)
  else
    let seen := observations.foldl (take staleAfter now) []
    let counts := (seen.map Prod.snd).foldl count .zero
    .ok {
      cid := cid
      asked := asked
      answered := seen.length
      peersHolding := counts.peersHolding
      servicesHolding := counts.servicesHolding
      selfPinned := counts.selfPinned
      observedAt := counts.observedAt
      availabilityUnguaranteed := true }

/-- Nobody but this node is known to hold the content. -/
def onlyThisNodeHoldsIt (report : AvailabilityReport) : Bool :=
  report.selfPinned && report.peersHolding = 0 && report.servicesHolding = 0

/-- The parts of a summary. -/
def partsOf (report : AvailabilityReport) : List String :=
  (if report.selfPinned then ["pinned here"] else []) ++
    (if report.peersHolding > 0 then
      [s!"{report.peersHolding} other peer{plural report.peersHolding} answered"]
    else []) ++
    (if report.servicesHolding > 0 then
      [s!"{report.servicesHolding} pinning service{plural report.servicesHolding}"]
    else [])

/-- The one-line summary a client may show. -/
def summarise (report : AvailabilityReport) : String :=
  if partsOf report = [] then
    if report.asked = 0 then "No peers were asked. Nothing is known about who holds this."
    else s!"No peer answered out of {report.asked} asked. That is not the same as nobody holding it."
  else if onlyThisNodeHoldsIt report then
    if report.asked = 0 then
      "pinned here, and no peer has been asked. Nothing is known about who else holds it — " ++
        "if this node goes offline the site stops loading."
    else
      s!"pinned here, and none of the {report.asked} peers asked answered for it — if this node goes " ++
        "offline the site stops loading. Observed, not guaranteed."
  else ", ".intercalate (partsOf report) ++ ". Observed, not guaranteed."

end VayuWeb.Client.Pins
