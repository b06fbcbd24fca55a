import FlatDecls.CommandLine.Arguments
import FlatDecls.CommandLine.Run
import FlatDecls.Compilation
import FlatDecls.Decimal.Binary64
import FlatDecls.Decimal.Layout
import FlatDecls.Decimal.Power
import FlatDecls.Decimal.Shortest
import FlatDecls.Declaration.Basic
import FlatDecls.Declaration.Build
import FlatDecls.Declaration.Decode
import FlatDecls.Declaration.Encode
import FlatDecls.Declaration.Load
import FlatDecls.Declaration.Lookup
import FlatDecls.Declaration.Naming
import FlatDecls.Diagnostics
import FlatDecls.Emission
import FlatDecls.Files.Access
import FlatDecls.Files.Path
import FlatDecls.Files.System
import FlatDecls.Files.Tree
import FlatDecls.Flat.Encode
import FlatDecls.Flat.Listing
import FlatDecls.Flat.Register
import FlatDecls.Flat.Unit
import FlatDecls.Flattening.Aggregate
import FlatDecls.Flattening.Event
import FlatDecls.Flattening.Progress
import FlatDecls.Flattening.SourceUnit
import FlatDecls.Found
import FlatDecls.Json.Decoder
import FlatDecls.Json.Document
import FlatDecls.Json.Fault
import FlatDecls.Json.Numeral
import FlatDecls.Json.Token
import FlatDecls.Json.Value
import FlatDecls.Main
import FlatDecls.Manifest
import FlatDecls.Project
import FlatDecls.Proofs.Compilation
import FlatDecls.Proofs.Declaration.Acceptance
import FlatDecls.Proofs.Declaration.Canonical
import FlatDecls.Proofs.Declaration.Decoding
import FlatDecls.Proofs.Declaration.Form
import FlatDecls.Proofs.Declaration.Lookup
import FlatDecls.Proofs.Declaration.Records
import FlatDecls.Proofs.Declaration.Shape
import FlatDecls.Proofs.Declaration.Spelling
import FlatDecls.Proofs.Declaration.Variants
import FlatDecls.Proofs.Definedness
import FlatDecls.Proofs.DeniedWarnings
import FlatDecls.Proofs.Embedding
import FlatDecls.Proofs.Findings
import FlatDecls.Proofs.Flat.ForwardReference
import FlatDecls.Proofs.Flattening.Address
import FlatDecls.Proofs.Flattening.Blocks
import FlatDecls.Proofs.Flattening.Failure
import FlatDecls.Proofs.Flattening.NestedFirst
import FlatDecls.Proofs.Flattening.Offence
import FlatDecls.Proofs.Flattening.Performs
import FlatDecls.Proofs.Flattening.PostOrder
import FlatDecls.Proofs.Flattening.Session
import FlatDecls.Proofs.Flattening.Walk
import FlatDecls.Proofs.Flattening.Warnings
import FlatDecls.Proofs.Json.Encoding
import FlatDecls.Proofs.Json.Integers
import FlatDecls.Proofs.Json.Numerals
import FlatDecls.Proofs.Json.Reading
import FlatDecls.Proofs.Json.Strings
import FlatDecls.Proofs.Json.Tokens
import FlatDecls.Proofs.Json.Tree
import FlatDecls.Proofs.Naming
import FlatDecls.Text.Digit
import FlatDecls.Text.Hidden
import FlatDecls.Text.Lines
import FlatDecls.Text.Quoted
import FlatDecls.Toml.Document
import FlatDecls.Toml.Scalar
import FlatDecls.Toml.Table
import FlatDecls.Toml.Text
import FlatDecls.Toml.Validity
import FlatDecls.Toml.Value
import FlatDecls.Word
import FlatDecls.Proofs.Flattening.Renaming
import FlatDecls.Proofs.Flat.Encoding
import FlatDecls.Proofs.Flat.Listing
import FlatDecls.Proofs.Files.Standing
import FlatDecls.Proofs.Files.Writing
import FlatDecls.Proofs.CommandLine.Effects
import FlatDecls.Proofs.Flattening.Irrelevance
import FlatDecls.Proofs.Flattening.Paths
import FlatDecls.Proofs.Flattening.FieldNames
import FlatDecls.Proofs.Declaration.TypeName
import FlatDecls.Proofs.Files.Components
import FlatDecls.Proofs.Files.Spelling
import FlatDecls.Proofs.Flat.LateField
import FlatDecls.Proofs.Discovery.Nearest
import FlatDecls.Proofs.Discovery.WorkingDirectory
import FlatDecls.Proofs.Files.Shape
import FlatDecls.Proofs.CommandLine.Blind
import FlatDecls.Proofs.CommandLine.Settings
import FlatDecls.Proofs.Toml.Lines
import FlatDecls.Proofs.Toml.Spelling
import FlatDecls.Proofs.Manifest.Entries
import FlatDecls.Proofs.Toml.Growth
import FlatDecls.Proofs.Manifest.Documents
