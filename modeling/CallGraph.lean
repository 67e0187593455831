import CallGraph.Command.Files
import CallGraph.Command.Help
import CallGraph.Command.Options
import CallGraph.Command.Run
import CallGraph.Config
import CallGraph.Counter
import CallGraph.Decimal.Shortest
import CallGraph.Decimal.Style
import CallGraph.Decode.Basic
import CallGraph.Decode.Record
import CallGraph.Decode.Shape
import CallGraph.Decode.Trace
import CallGraph.Fault
import CallGraph.Graph.Basic
import CallGraph.Graph.Calls
import CallGraph.Graph.Error
import CallGraph.Graph.Load
import CallGraph.Graph.Node
import CallGraph.Graph.Query
import CallGraph.Host
import CallGraph.Json.Document
import CallGraph.Json.Printer
import CallGraph.Json.Token
import CallGraph.Json.Value
import CallGraph.Key
import CallGraph.Loading
import CallGraph.Main
import CallGraph.Naming
import CallGraph.Proofs.Absorb
import CallGraph.Proofs.Acceptance
import CallGraph.Proofs.Action
import CallGraph.Proofs.Aggregation
import CallGraph.Proofs.Agreement
import CallGraph.Proofs.Arena
import CallGraph.Proofs.BottomUp
import CallGraph.Proofs.Bounds
import CallGraph.Proofs.Canonical
import CallGraph.Proofs.Contexts
import CallGraph.Proofs.Crossing
import CallGraph.Proofs.Dump
import CallGraph.Proofs.EdgeIndex
import CallGraph.Proofs.Exclusion
import CallGraph.Proofs.FirstAsked
import CallGraph.Proofs.FirstSource
import CallGraph.Proofs.FreshIds
import CallGraph.Proofs.FullNames
import CallGraph.Proofs.Growth
import CallGraph.Proofs.Handles
import CallGraph.Proofs.Isolation
import CallGraph.Proofs.KeyOrder
import CallGraph.Proofs.KeyOwners
import CallGraph.Proofs.Later
import CallGraph.Proofs.Ledger
import CallGraph.Proofs.Listening
import CallGraph.Proofs.LooseRecords
import CallGraph.Proofs.Lossless
import CallGraph.Proofs.Members
import CallGraph.Proofs.NormalForm
import CallGraph.Proofs.PrintedNames
import CallGraph.Proofs.PrintedTokens
import CallGraph.Proofs.PrintedValues
import CallGraph.Proofs.Proxies
import CallGraph.Proofs.Refinement
import CallGraph.Proofs.Relisting
import CallGraph.Proofs.Reloading
import CallGraph.Proofs.Remembered
import CallGraph.Proofs.Renewal
import CallGraph.Proofs.Renumbering
import CallGraph.Proofs.Requests
import CallGraph.Proofs.Resolving
import CallGraph.Proofs.Restore
import CallGraph.Proofs.Resume
import CallGraph.Proofs.Retention
import CallGraph.Proofs.Rooting
import CallGraph.Proofs.RoundTrip
import CallGraph.Proofs.StoreAnswers
import CallGraph.Proofs.Stores
import CallGraph.Proofs.Summary
import CallGraph.Proofs.TableOrder
import CallGraph.Proofs.ToldRecords
import CallGraph.Proofs.Transitions
import CallGraph.Proofs.TreeNames
import CallGraph.Proofs.Uptake
import CallGraph.Record
import CallGraph.Replay
import CallGraph.Report
import CallGraph.Resolution
import CallGraph.Sessions
import CallGraph.Store.Backend
import CallGraph.Store.Bytes
import CallGraph.Store.Disk
import CallGraph.Store.Layout
import CallGraph.Store.Listing
import CallGraph.Store.Memory
import CallGraph.Table
import CallGraph.Text.Hex
import CallGraph.Text.Quoted
import CallGraph.Text.Split
import CallGraph.Text.Unprintable
import CallGraph.Text.Utf8
import CallGraph.Toml.Document
import CallGraph.Toml.Number
import CallGraph.Toml.Table
import CallGraph.Toml.Text
import CallGraph.Toml.Value
import CallGraph.Trace
import CallGraph.TypeTable
