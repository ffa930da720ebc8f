import BlockExports.Text.Basic
import BlockExports.Text.Raw
import BlockExports.Text.Decimal
import BlockExports.Text.Shown
import BlockExports.Php.Program
import BlockExports.Exports.Collect
import BlockExports.Json.Reader
import BlockExports.Code.Wire
import BlockExports.Component
import BlockExports.Store
import BlockExports.Sink
import BlockExports.Resolver
import BlockExports.Toml.Document
import BlockExports.Files.Tree
import BlockExports.Config
import BlockExports.Command
import BlockExports.Main
import BlockExports.Proofs.Text.Raw
import BlockExports.Proofs.Json.Reading
import BlockExports.Proofs.Exports.Listing
import BlockExports.Proofs.Resolver.Coherence
import BlockExports.Proofs.Component.Closing
import BlockExports.Proofs.Component.Nesting
import BlockExports.Proofs.Resolver.Interleaving
import BlockExports.Proofs.Component.Printing
import BlockExports.Proofs.Component.Slices
import BlockExports.Proofs.Exports.Places
import BlockExports.Proofs.Resolver.Navigation
import BlockExports.Proofs.Resolver.Independence
import BlockExports.Proofs.Resolver.Regeneration
import BlockExports.Proofs.Command.Session
import BlockExports.Proofs.Command.Batch
import BlockExports.Proofs.Component.Soundness
import BlockExports.Proofs.Component.Appending
import BlockExports.Proofs.Script.Print
import BlockExports.Proofs.Script.Tokens
import BlockExports.Proofs.Script.Analysis
import BlockExports.Proofs.Code.Wire
import BlockExports.Proofs.Store.BrokenOff
import BlockExports.Proofs.Exports.Members
import BlockExports.Proofs.Exports.Rearrangement
import BlockExports.Proofs.Exports.Shifting
import BlockExports.Proofs.Exports.Offsets
import BlockExports.Proofs.Suffix.Shape
import BlockExports.Proofs.Component.Offsets
import BlockExports.Proofs.Component.Faultless
import BlockExports.Proofs.Resolver.Effect
import BlockExports.Proofs.Component.SelfClosing
import BlockExports.Proofs.Sink.Injection
import BlockExports.Proofs.Exports.Parentheses
import BlockExports.Proofs.Suffix.Decoding
import BlockExports.Proofs.Command.Faults
import BlockExports.Proofs.Component.OnePass
import BlockExports.Proofs.Component.OpeningTag
import BlockExports.Proofs.Config.Discovery
