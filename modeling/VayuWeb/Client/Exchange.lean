import VayuWeb.Client.Cbor
import VayuWeb.Client.View

/-!
# Bundles of records (`client/src/bin/vayu.rs`)

`vayu export --view` writes the records of a view as one array of byte strings, and
`vayu import --view` judges each of a bundle's records and puts there what it accepts. The evidence
ledger stands beside the log and changes nothing of it.
-/

namespace VayuWeb.Client

open Bytes
open DetCbor (Value)

namespace View

variable (C : Crypto)

/-- Whether these exact bytes are held. -/
def holds (view : View) (bytes : Bytes) : Bool := view.files.any fun entry => entry.hash = recordHashFromBytes C bytes

/-- A record is held exactly where a file has its hash. -/
theorem holds_iff {C : Crypto} {view : View} {bytes : Bytes} :
    view.holds C bytes = true ↔ ∃ e ∈ view.files, e.hash = recordHashFromBytes C bytes := by
  simp only [holds, List.any_eq_true, decide_eq_true_eq]

/-- The bundle that `cmd_export` writes. -/
def bundle (view : View) : Except CborError Bytes := encode (.array (view.entries.map fun entry => .bytes entry.bytes))

/-- What an import counts. -/
structure Tally where
  accepted : ℕ
  held : ℕ
  refused : ℕ
  deferred : ℕ
  deriving DecidableEq, Repr

/-- The exit code of a command and what it prints. -/
structure Failure where
  code : ℕ
  text : String
  deriving DecidableEq, Repr

/-- The judging loop. A verdict that cannot be reached ends it, and what was put there before stays. -/
def judgeRecords (now windowCount : ℕ) : List Value → View → Tally → View × Except Failure Tally
  | [], view, tally => (view, .ok tally)
  | .bytes record :: records, view, tally =>
    if view.holds C record then judgeRecords now windowCount records view { tally with held := tally.held + 1 }
    else
      match view.acceptVerdict C record now windowCount with
      | .ok .accept =>
        judgeRecords now windowCount records (view.put C record) { tally with accepted := tally.accepted + 1 }
      | .ok (.reject _ _) => judgeRecords now windowCount records view { tally with refused := tally.refused + 1 }
      | .ok (.defer _ _) => judgeRecords now windowCount records view { tally with deferred := tally.deferred + 1 }
      | .error detail => (view, .error { code := 1, text := s!"vayu import: {detail}" })
  -- an element that is no byte string
  | _ :: records, view, tally => judgeRecords now windowCount records view { tally with refused := tally.refused + 1 }

/-- `cmd_import` of a bundle into a view. -/
def importBundle (view : View) (bytes : Bytes) (now windowCount : ℕ) : View × Except Failure Tally :=
  match decode bytes with
  | .ok (.array records) => judgeRecords C now windowCount records view
      { accepted := 0, held := 0, refused := 0, deferred := 0 }
  | .ok _ => (view, .error { code := 2, text := "vayu import: a bundle is a CBOR array" })
  | .error e => (view, .error { code := 2, text := s!"vayu import: that is not a readable bundle: {e.display}" })

end View

end VayuWeb.Client
