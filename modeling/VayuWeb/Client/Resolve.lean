import VayuWeb.Client.View

/-!
# Name-based reading in the client (`client/src/bin/vayu.rs`)

`resolve_name_root`: a name to the root of its tree, against a local view. Every gate refuses closed.
-/

namespace VayuWeb.Client

/-- Why a name yields no root. -/
inductive ResolveFailure where
  /-- An error of the view. -/
  | view (message : String)
  | noRecord (label tld : String)
  | unverified (label tld : String) (verdict : Verdict)
  | notLive (label tld state : String)
  /-- The chain of aliases runs deeper than three hops. -/
  | tooDeep (label tld : String)
  /-- A name points back along its own chain. -/
  | loop (label tld : String)
  deriving DecidableEq, Repr

namespace View

section Resolve

variable (C : Crypto) (view : View) (first : String × String) (now windowCount : ℕ)

/-- An error of the view, as a resolution reports it. -/
def orFail {α : Type} (x : Except String α) : Except ResolveFailure α := x.mapError .view

/-- Name after name from `current` on, with `left` hops to spend. -/
def resolveHops : ℕ → List (String × String) → String × String → Except ResolveFailure Cid
  | left, visited, (label, tld) => do
    let tip ← okOr (← orFail (view.chainTip C label tld)) (.noRecord label tld)
    -- the exact bytes of the incumbent are judged again before it is trusted where they point
    let verdict ← orFail (view.judgeHeldTip C label tld now windowCount)
    if verdict ≠ .accept then throw (.unverified label tld verdict)
    let state := lifecycleState tip.prev now
    if state ≠ "LIVE" then throw (.notLive label tld state)
    match ← orFail (view.resolvedPointer C label tld) with
    | .cid cid => return cid
    | .alias target =>
      match left with
      | 0 => throw (.tooDeep first.1 first.2)
      | left + 1 =>
        let next := (target.label, target.tld)
        if next = first ∨ next ∈ visited then throw (.loop label tld)
        else resolveHops left ((label, tld) :: visited) next

end Resolve

/-- The root of a name: its record, or that of the name at the end of at most three aliases. -/
def resolveNameRoot (C : Crypto) (view : View) (label tld : String) (now windowCount : ℕ) :
    Except ResolveFailure Cid :=
  resolveHops C view (label, tld) now windowCount 3 [] (label, tld)

end View

end VayuWeb.Client
