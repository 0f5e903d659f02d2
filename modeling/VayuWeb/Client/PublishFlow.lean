import VayuWeb.Client.Blocks
import VayuWeb.Client.Publish
import VayuWeb.Client.Record

/-!
# The publish flow (`client/src/publish_flow.rs`)

The authoring checks are a parameter: which findings there are and which of them are errors.
-/

namespace VayuWeb.Client.PublishFlow

open Bytes BlockStore Publish

/-- Where a publication stopped. -/
inductive FlowError (φ : Type) where
  | duplicatePath (path : String)
  | doctor (findings : List φ)
  | importing (error : PublishError)
  | pin (error : StoreError)
  | build (error : BuildError)

/-- What a publication made. -/
structure Published where
  root : Cid
  newlyPinned : ℕ
  record : Bytes
  sourceBytes : ℕ
  storedBytes : ℕ
  blockCount : ℕ

/-- What is published, under which name and by whom. -/
structure PublishRequest (C : Crypto) where
  identity : Identity C
  label : String
  tld : String
  files : List SiteFile
  now : ℕ
  predecessor : Option Predecessor
  windowCount : ℕ
  powLimit : ℕ

/-- The doctor: `check`, and whether a finding's severity is an error. -/
structure Doctor (φ : Type) where
  check : List SiteFile → List φ
  isError : φ → Bool

/-- The first path that is in the list a second time. -/
def duplicatePath (seen : List String) : List SiteFile → Option String
  | [] => none
  | file :: files => if file.path ∈ seen then some file.path else duplicatePath (file.path :: seen) files

variable {φ : Type} (C : Crypto) (H : ContentHash) (doctor : Doctor φ)

/-- A first registration, or an UPDATE under a predecessor. -/
def signPointer (request : PublishRequest C) (entries : List Entry) : Except BuildError Bytes :=
  match request.predecessor with
  | none =>
    buildRegister C request.identity request.label request.tld request.now entries request.windowCount none
      request.powLimit
  | some previous => buildUpdate C request.identity previous request.label request.tld request.now entries

/-- Check, build, pin, then sign. -/
def publishSite (fate : String → Fate) (disk : Disk) (request : PublishRequest C) :
    Except (FlowError φ) Published × Disk :=
  match duplicatePath [] request.files with
  | some path => (.error (.duplicatePath path), disk)
  | none =>
    -- from here on the order is the source's: check, import, pin, and only then sign
    let findings := doctor.check request.files
    if findings.any doctor.isError then (.error (.doctor findings), disk)
    else match importSite H request.files with
      | .error error => (.error (.importing error), disk)
      | .ok (blocks, root) =>
        match putAll H fate disk (blocks.map fun block => (block.cid, block.bytes)) with
        | (.error error, disk) => (.error (.pin error), disk)
        | (.ok newlyPinned, disk) =>
          match signPointer C request [{ value := .cid root.toBytes, ttl := none }] with
          | .error error => (.error (.build error), disk)
          | .ok record =>
            (.ok { root := root, newlyPinned := newlyPinned, record := record,
                   sourceBytes := (request.files.map (·.content.length)).sum,
                   storedBytes := (blocks.map (·.bytes.length)).sum, blockCount := blocks.length }, disk)

end VayuWeb.Client.PublishFlow
