import CoinWire.Access
import CoinWire.Block
import CoinWire.Bytes
import CoinWire.Error
import CoinWire.Frame
import CoinWire.Hash
import CoinWire.Hash.Merkle
import CoinWire.Hash.Sha256
import CoinWire.Input
import CoinWire.Inventory
import CoinWire.Ip
import CoinWire.Json.Parser
import CoinWire.Json.Printer
import CoinWire.Json.Records
import CoinWire.Json.Value
import CoinWire.Message
import CoinWire.Network
import CoinWire.Node
import CoinWire.Output
import CoinWire.Peer
import CoinWire.Proofs.LittleEndian
import CoinWire.Reader
import CoinWire.Report
import CoinWire.Script
import CoinWire.Settings
import CoinWire.Stream
import CoinWire.Text.Hex
import CoinWire.Text.Quoted
import CoinWire.Text.Scan
import CoinWire.Text.Utf8
import CoinWire.Text.Visible
import CoinWire.Toml.Parser
import CoinWire.Toml.Settings
import CoinWire.Toml.Value
import CoinWire.Transaction
import CoinWire.VarInt
import CoinWire.Workbench
import CoinWire.Proofs.VarInt
import CoinWire.Proofs.Reading
import CoinWire.Proofs.Scanning
import CoinWire.Proofs.Scanning.Json
import CoinWire.Proofs.Scanning.Toml
import CoinWire.Proofs.Grammar
import CoinWire.Proofs.Agreement
import CoinWire.Proofs.Holding
import CoinWire.Proofs.Holding.Node
import CoinWire.Proofs.Holding.Transaction
import CoinWire.Proofs.Uncached
import CoinWire.Proofs.Uncached.Workbench
import CoinWire.Proofs.Holding.Block
import CoinWire.Proofs.Holding.Report
import CoinWire.Proofs.Holding.Workbench
import CoinWire.Proofs.Invisibility
import CoinWire.Proofs.Tree
import CoinWire.Proofs.Routes
import CoinWire.Proofs.Reachable
import CoinWire.Proofs.Deferral
import CoinWire.Proofs.Coherence
import CoinWire.Proofs.Decoding
import CoinWire.Proofs.Magic
import CoinWire.Proofs.Splitting
import CoinWire.Proofs.Utf8
import CoinWire.Proofs.Fields
import CoinWire.Proofs.Framing
import CoinWire.Proofs.NextFrame
import CoinWire.Proofs.Recovery
import CoinWire.Proofs.Underrun
import CoinWire.Proofs.Greeting
import CoinWire.Proofs.Holding.Message
import CoinWire.Proofs.Payloads
import CoinWire.Proofs.Exchange
import CoinWire.Proofs.RoundTrip
import CoinWire.Proofs.Staleness
import CoinWire.Proofs.Holding.Item
import CoinWire.Proofs.Equality
import CoinWire.Proofs.Moving
import CoinWire.Proofs.Growth
import CoinWire.Proofs.Growth.Item
import CoinWire.Proofs.Growth.Routes
import CoinWire.Proofs.Orderly
import CoinWire.Proofs.Orderly.Item
import CoinWire.Proofs.Orderly.Reachable
import CoinWire.Proofs.Places
import CoinWire.Proofs.Writing
import CoinWire.Proofs.Accessors
import CoinWire.Proofs.Quiet
import CoinWire.Proofs.Lengths
import CoinWire.Proofs.Verdicts
import CoinWire.Proofs.Refusal
import CoinWire.Proofs.Refusal.Item
import CoinWire.Proofs.RawFrames
import CoinWire.Proofs.WholeFrames
import CoinWire.Proofs.Merkle
import CoinWire.Proofs.Merkle.Repeats
import CoinWire.Proofs.Truncation
import CoinWire.Proofs.Saturation
import CoinWire.Proofs.Ownership
import CoinWire.Proofs.Sockets
import CoinWire.Proofs.Stopping
import CoinWire.Proofs.Indexing
import CoinWire.Proofs.Containment
