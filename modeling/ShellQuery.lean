import ShellQuery.Dialect.Scan
import ShellQuery.Json.Reader
import ShellQuery.Json.Printer
import ShellQuery.Value.Tagged
import ShellQuery.Value.ExtendedJson
import ShellQuery.Query.Pipeline
import ShellQuery.Session
import ShellQuery.Toml.Reader
import ShellQuery.Settings.Load
import ShellQuery.Program
import ShellQuery.Main
import ShellQuery.Proofs.Json.Reading
import ShellQuery.Proofs.Dialect.Translation
import ShellQuery.Proofs.Dialect.Immunity
import ShellQuery.Proofs.RoundTrip
import ShellQuery.Proofs.Session
import ShellQuery.Proofs.Session.Restriction
import ShellQuery.Proofs.Json.Printer
import ShellQuery.Proofs.Value.Sound
import ShellQuery.Proofs.Value.ExtendedJson
import ShellQuery.Proofs.Program.Lines
import ShellQuery.Proofs.Program.Transcript
import ShellQuery.Proofs.Value.Resolution
import ShellQuery.Proofs.Dialect.Neighbours
import ShellQuery.Proofs.DroppedComma
import ShellQuery.Proofs.IntegerCall
import ShellQuery.Proofs.Command.Grammar
import ShellQuery.Proofs.ChainedCall
import ShellQuery.Proofs.DateLiteral
import ShellQuery.Proofs.Command.Punctuation
import ShellQuery.Proofs.Dialect.Insertion
import ShellQuery.Proofs.OuterBlanks
import ShellQuery.Proofs.Json.Escapes
import ShellQuery.Proofs.QuoteStyle
import ShellQuery.Proofs.Value.Context
import ShellQuery.Proofs.CallOrTag
import ShellQuery.Proofs.Dialect.Recognition
import ShellQuery.Proofs.Dialect.InStep
import ShellQuery.Proofs.Dialect.FixedPoint
import ShellQuery.Proofs.Query.Pipeline
import ShellQuery.Proofs.Query.WellFormed
import ShellQuery.Proofs.Settings.Database
import ShellQuery.Proofs.Session.FullName
import ShellQuery.Proofs.Program.Typed
import ShellQuery.Proofs.Settings.Names
import ShellQuery.Proofs.Settings.Layers
