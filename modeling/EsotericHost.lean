import EsotericHost.Befunge.Field
import EsotericHost.Befunge.Instruction
import EsotericHost.Befunge.Machine
import EsotericHost.Brainfuck.Cell
import EsotericHost.Brainfuck.Machine
import EsotericHost.Brainfuck.Program
import EsotericHost.Catalogue.Basic
import EsotericHost.Catalogue.Builtin
import EsotericHost.Catalogue.Standard
import EsotericHost.Command
import EsotericHost.CommandLine.Arguments
import EsotericHost.CommandLine.Dialogue
import EsotericHost.CommandLine.Feed
import EsotericHost.CommandLine.Job
import EsotericHost.CommandLine.Program
import EsotericHost.CommandLine.Usage
import EsotericHost.Decimal.Binary64
import EsotericHost.Decimal.Layout
import EsotericHost.Decimal.Literal
import EsotericHost.Decimal.Shortest
import EsotericHost.Element.Machine
import EsotericHost.Element.Token
import EsotericHost.Element.Value
import EsotericHost.Event
import EsotericHost.Host.Activity
import EsotericHost.Host.Basic
import EsotericHost.Host.Error
import EsotericHost.Host.Handling
import EsotericHost.Host.Message
import EsotericHost.Host.Request
import EsotericHost.Host.Session
import EsotericHost.Host.Stream
import EsotericHost.Input
import EsotericHost.Json.Basic
import EsotericHost.Json.Printer
import EsotericHost.Json.Reader
import EsotericHost.Json.Skip
import EsotericHost.Length.Machine
import EsotericHost.Length.Program
import EsotericHost.Machine.Act
import EsotericHost.Machine.Basic
import EsotericHost.Machine.Budget
import EsotericHost.Machine.Fault
import EsotericHost.Machine.Notice
import EsotericHost.Main
import EsotericHost.Options
import EsotericHost.Proofs.Befunge.Moves
import EsotericHost.Proofs.Befunge.Travel
import EsotericHost.Proofs.Befunge.Upkeep
import EsotericHost.Proofs.Bounds.Basic
import EsotericHost.Proofs.Bounds.Field
import EsotericHost.Proofs.Bounds.Lines
import EsotericHost.Proofs.Bounds.Machines
import EsotericHost.Proofs.Bounds.Tape
import EsotericHost.Proofs.Bounds.Tokens
import EsotericHost.Proofs.Brainfuck.Account
import EsotericHost.Proofs.Brainfuck.Cells
import EsotericHost.Proofs.Brainfuck.Code
import EsotericHost.Proofs.Brainfuck.Driving
import EsotericHost.Proofs.Brainfuck.Evaluation
import EsotericHost.Proofs.Brainfuck.Minify
import EsotericHost.Proofs.Brainfuck.Tree
import EsotericHost.Proofs.Client.Basic
import EsotericHost.Proofs.Client.Bindings
import EsotericHost.Proofs.Client.Field
import EsotericHost.Proofs.Client.Host
import EsotericHost.Proofs.Client.Lines
import EsotericHost.Proofs.Client.Tape
import EsotericHost.Proofs.Client.Tokens
import EsotericHost.Proofs.CommandLine.Answers
import EsotericHost.Proofs.CommandLine.Feed
import EsotericHost.Proofs.CommandLine.Scene
import EsotericHost.Proofs.Decimal.Arithmetic
import EsotericHost.Proofs.Decimal.Error
import EsotericHost.Proofs.Decimal.Nearest
import EsotericHost.Proofs.Decimal.Shortest
import EsotericHost.Proofs.Decimal.Spacing
import EsotericHost.Proofs.Element.Code
import EsotericHost.Proofs.Element.Displacement
import EsotericHost.Proofs.Element.Driving
import EsotericHost.Proofs.Element.Evaluation
import EsotericHost.Proofs.Element.Executing
import EsotericHost.Proofs.Element.Frames
import EsotericHost.Proofs.Element.Nesting
import EsotericHost.Proofs.Element.Partners
import EsotericHost.Proofs.Element.Tokens
import EsotericHost.Proofs.Element.Tree
import EsotericHost.Proofs.Generated.Course
import EsotericHost.Proofs.Generated.Host
import EsotericHost.Proofs.Generated.LineCourse
import EsotericHost.Proofs.Generated.Lines
import EsotericHost.Proofs.Generated.Tape
import EsotericHost.Proofs.Host.Allowance
import EsotericHost.Proofs.Host.Attunement
import EsotericHost.Proofs.Host.Conservation
import EsotericHost.Proofs.Host.Conversation
import EsotericHost.Proofs.Host.Course
import EsotericHost.Proofs.Host.Dispatch
import EsotericHost.Proofs.Host.Effort
import EsotericHost.Proofs.Host.Forgetting
import EsotericHost.Proofs.Host.Frame
import EsotericHost.Proofs.Host.History
import EsotericHost.Proofs.Host.Holding
import EsotericHost.Proofs.Host.Invariant
import EsotericHost.Proofs.Host.Operations
import EsotericHost.Proofs.Host.Parts
import EsotericHost.Proofs.Host.Refusal
import EsotericHost.Proofs.Host.Relay
import EsotericHost.Proofs.Host.Reply
import EsotericHost.Proofs.Host.Requests
import EsotericHost.Proofs.Host.Stepping
import EsotericHost.Proofs.Host.Strides
import EsotericHost.Proofs.Host.Surfaces
import EsotericHost.Proofs.Host.Suspension
import EsotericHost.Proofs.Host.Telling
import EsotericHost.Proofs.Host.Totality
import EsotericHost.Proofs.Host.Traceless
import EsotericHost.Proofs.Host.Unfolding
import EsotericHost.Proofs.Json.Canonical
import EsotericHost.Proofs.Json.Doubles
import EsotericHost.Proofs.Json.Grammar
import EsotericHost.Proofs.Json.Numerals
import EsotericHost.Proofs.Json.Reading
import EsotericHost.Proofs.Json.Rereading
import EsotericHost.Proofs.Json.RoundTrip
import EsotericHost.Proofs.Json.Scaling
import EsotericHost.Proofs.Json.Spelling
import EsotericHost.Proofs.Machine.Arithmetic
import EsotericHost.Proofs.Machine.Befunge
import EsotericHost.Proofs.Machine.Brainfuck
import EsotericHost.Proofs.Machine.Builtin
import EsotericHost.Proofs.Machine.Code
import EsotericHost.Proofs.Machine.Composition
import EsotericHost.Proofs.Machine.Driven
import EsotericHost.Proofs.Machine.Element
import EsotericHost.Proofs.Machine.Instructions
import EsotericHost.Proofs.Machine.Lawful
import EsotericHost.Proofs.Machine.Length
import EsotericHost.Proofs.Machine.Likeness
import EsotericHost.Proofs.Machine.LineEndings
import EsotericHost.Proofs.Machine.Printing
import EsotericHost.Proofs.Machine.Recast
import EsotericHost.Proofs.Machine.Standing
import EsotericHost.Proofs.Machine.Telling
import EsotericHost.Proofs.Machine.Truncation
import EsotericHost.Proofs.Rewinding.Basic
import EsotericHost.Proofs.Rewinding.Host
import EsotericHost.Proofs.Rewinding.Machines
import EsotericHost.Proofs.Text.Endings
import EsotericHost.Proofs.Text.Lines
import EsotericHost.Proofs.Watching.Host
import EsotericHost.Proofs.Watching.Session
import EsotericHost.Proofs.Watching.Work
import EsotericHost.Proofs.Wire.Command
import EsotericHost.Proofs.Wire.Delivery
import EsotericHost.Proofs.Wire.Event
import EsotericHost.Proofs.Wire.Layout
import EsotericHost.Settings.Basic
import EsotericHost.Settings.File
import EsotericHost.Settings.Form.Ini
import EsotericHost.Settings.Form.Json5
import EsotericHost.Settings.Form.Ron
import EsotericHost.Settings.Form.Yaml
import EsotericHost.Settings.Layer
import EsotericHost.Settings.Lenient
import EsotericHost.Settings.Place
import EsotericHost.Settings.Printer
import EsotericHost.Settings.Tree
import EsotericHost.Table
import EsotericHost.Text.Alphanumeric
import EsotericHost.Text.Blank
import EsotericHost.Text.Lines
import EsotericHost.Text.Read
import EsotericHost.Text.Scalar
import EsotericHost.Toml.Basic
import EsotericHost.Toml.Printer
import EsotericHost.Toml.Reader
import EsotericHost.Toml.Scalar
import EsotericHost.Variables.Basic
import EsotericHost.Variables.File
import EsotericHost.Wire.Command
import EsotericHost.Wire.Event
import EsotericHost.Wire.Record
import EsotericHost.Word
import EsotericHost.Yaml.Cursor
import EsotericHost.Yaml.Lexer
import EsotericHost.Yaml.Node
import EsotericHost.Yaml.Reader
import EsotericHost.Yaml.Scalar
import EsotericHost.Yaml.Token
