import VayuWeb.Base.Agree
import VayuWeb.Base.Alike
import VayuWeb.Base.Backlog
import VayuWeb.Base.Base32
import VayuWeb.Base.Bits
import VayuWeb.Base.Bounded
import VayuWeb.Base.Bytes
import VayuWeb.Base.Chunks
import VayuWeb.Base.Contest
import VayuWeb.Base.Enumerate
import VayuWeb.Base.Except
import VayuWeb.Base.Explore
import VayuWeb.Base.FileSystem
import VayuWeb.Base.Handover
import VayuWeb.Base.Import
import VayuWeb.Base.Journal
import VayuWeb.Base.Json
import VayuWeb.Base.Lineage
import VayuWeb.Base.Mountain
import VayuWeb.Base.OrdMap
import VayuWeb.Base.Path
import VayuWeb.Base.Pull
import VayuWeb.Base.Quoted
import VayuWeb.Base.Rank
import VayuWeb.Base.Search
import VayuWeb.Base.Sightings
import VayuWeb.Base.Site
import VayuWeb.Base.Stamped
import VayuWeb.Base.Stream
import VayuWeb.Base.TextDecoder
import VayuWeb.Base.Traffic
import VayuWeb.Base.Trial
import VayuWeb.Base.Varint
import VayuWeb.Base.Wire
import VayuWeb.Base.Words
import VayuWeb.Base.Worklist
import VayuWeb.Client.Blocks
import VayuWeb.Client.Blockx
import VayuWeb.Client.Cbor
import VayuWeb.Client.Cid
import VayuWeb.Client.Collect
import VayuWeb.Client.Control
import VayuWeb.Client.Dagnode
import VayuWeb.Client.Domain
import VayuWeb.Client.Evidence
import VayuWeb.Client.Exchange
import VayuWeb.Client.Names
import VayuWeb.Client.Pins
import VayuWeb.Client.Pow
import VayuWeb.Client.Publish
import VayuWeb.Client.PublishFlow
import VayuWeb.Client.Record
import VayuWeb.Client.Replicate
import VayuWeb.Client.Resolve
import VayuWeb.Client.Unpublish
import VayuWeb.Client.Verify
import VayuWeb.Client.View
import VayuWeb.Client.WalkSite
import VayuWeb.DetCbor.Order
import VayuWeb.DetCbor.Parse
import VayuWeb.DetCbor.Value
import VayuWeb.Proof.Admit
import VayuWeb.Proof.Answers
import VayuWeb.Proof.BlockCodecs
import VayuWeb.Proof.BlockReply
import VayuWeb.Proof.Bundle
import VayuWeb.Proof.Cached
import VayuWeb.Proof.Cancel
import VayuWeb.Proof.CborBuild
import VayuWeb.Proof.CborHost
import VayuWeb.Proof.CborRoundTrip
import VayuWeb.Proof.CborWire
import VayuWeb.Proof.ClientBuild
import VayuWeb.Proof.ClientCbor
import VayuWeb.Proof.ClientEntries
import VayuWeb.Proof.ClientEvidence
import VayuWeb.Proof.ClientImport
import VayuWeb.Proof.ClientLedger
import VayuWeb.Proof.ClientNames
import VayuWeb.Proof.ClientNode
import VayuWeb.Proof.ClientParse
import VayuWeb.Proof.ClientSchema
import VayuWeb.Proof.ClientStore
import VayuWeb.Proof.ClientVerdict
import VayuWeb.Proof.Collect
import VayuWeb.Proof.Conflict
import VayuWeb.Proof.Contenders
import VayuWeb.Proof.Control
import VayuWeb.Proof.ControlApi
import VayuWeb.Proof.Conversation
import VayuWeb.Proof.Corroborated
import VayuWeb.Proof.Deferral
import VayuWeb.Proof.Delivered
import VayuWeb.Proof.Determined
import VayuWeb.Proof.Dialogue
import VayuWeb.Proof.Difficulty
import VayuWeb.Proof.Disclosure
import VayuWeb.Proof.Driver
import VayuWeb.Proof.Engine
import VayuWeb.Proof.Fetch
import VayuWeb.Proof.Forks
import VayuWeb.Proof.Framing
import VayuWeb.Proof.Honest
import VayuWeb.Proof.Hops
import VayuWeb.Proof.Imported
import VayuWeb.Proof.Importers
import VayuWeb.Proof.Inclusion
import VayuWeb.Proof.InclusionSound
import VayuWeb.Proof.IndexRoot
import VayuWeb.Proof.Keys
import VayuWeb.Proof.Leading
import VayuWeb.Proof.Ledger
import VayuWeb.Proof.LightClient
import VayuWeb.Proof.Lines
import VayuWeb.Proof.Link
import VayuWeb.Proof.Log
import VayuWeb.Proof.Malleability
import VayuWeb.Proof.Manifest
import VayuWeb.Proof.Messages
import VayuWeb.Proof.Noted
import VayuWeb.Proof.Pinned
import VayuWeb.Proof.Pins
import VayuWeb.Proof.Prefetch
import VayuWeb.Proof.Process
import VayuWeb.Proof.PublishFlow
import VayuWeb.Proof.Race
import VayuWeb.Proof.RateScan
import VayuWeb.Proof.Rates
import VayuWeb.Proof.Readings
import VayuWeb.Proof.ReadsBack
import VayuWeb.Proof.Recorded
import VayuWeb.Proof.Replay
import VayuWeb.Proof.ReplicateCodecs
import VayuWeb.Proof.Requests
import VayuWeb.Proof.Resolve
import VayuWeb.Proof.Response
import VayuWeb.Proof.Resumed
import VayuWeb.Proof.Salt
import VayuWeb.Proof.Sample
import VayuWeb.Proof.Selection
import VayuWeb.Proof.Serve
import VayuWeb.Proof.Served
import VayuWeb.Proof.Session
import VayuWeb.Proof.Spelling
import VayuWeb.Proof.Store
import VayuWeb.Proof.TakeIn
import VayuWeb.Proof.Target
import VayuWeb.Proof.Term
import VayuWeb.Proof.Torn
import VayuWeb.Proof.Travels
import VayuWeb.Proof.Turn
import VayuWeb.Proof.Unixfs
import VayuWeb.Proof.Unpublish
import VayuWeb.Proof.Verify
import VayuWeb.Proof.View
import VayuWeb.Proof.ViewAccept
import VayuWeb.Proof.ViewChain
import VayuWeb.Proof.ViewGrow
import VayuWeb.Proof.ViewTip
import VayuWeb.Proof.Voided
import VayuWeb.Proof.Want
import VayuWeb.Spec.Annex
import VayuWeb.Spec.Blockstore
import VayuWeb.Spec.Cache
import VayuWeb.Spec.Cbor
import VayuWeb.Spec.Checkpoint
import VayuWeb.Spec.Content
import VayuWeb.Spec.Control
import VayuWeb.Spec.Converge
import VayuWeb.Spec.Domain
import VayuWeb.Spec.Driver
import VayuWeb.Spec.Equivocation
import VayuWeb.Spec.Fetch
import VayuWeb.Spec.Keys
import VayuWeb.Spec.Lifecycle
import VayuWeb.Spec.Link
import VayuWeb.Spec.Merkle
import VayuWeb.Spec.Messages
import VayuWeb.Spec.Names
import VayuWeb.Spec.Pins
import VayuWeb.Spec.Pow
import VayuWeb.Spec.Process
import VayuWeb.Spec.Proxy
import VayuWeb.Spec.Record
import VayuWeb.Spec.Replicate
import VayuWeb.Spec.Resolve
import VayuWeb.Spec.Resolver
import VayuWeb.Spec.Serve
import VayuWeb.Spec.Signature
import VayuWeb.Spec.SiteFiles
import VayuWeb.Spec.Store
import VayuWeb.Spec.Suites
import VayuWeb.Spec.Swarm
import VayuWeb.Spec.Unixfs
import VayuWeb.Spec.Verify
