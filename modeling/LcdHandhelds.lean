import LcdHandhelds.Command.Disk
import LcdHandhelds.Main
import LcdHandhelds.Text.Cursor
import LcdHandhelds.Proofs.Wiring.PortList
import LcdHandhelds.Proofs.Wiring.Sections
import LcdHandhelds.Proofs.Table
import LcdHandhelds.Proofs.Wiring.Layering
import LcdHandhelds.Proofs.Wiring.Inheritance
import LcdHandhelds.Proofs.Wiring.WellFormed
import LcdHandhelds.Proofs.Machine.Ownership
import LcdHandhelds.Proofs.Manifest.Candidates
import LcdHandhelds.Proofs.Manifest.Ownership
import LcdHandhelds.Proofs.Manifest.Wiring
import LcdHandhelds.Proofs.Manifest.Accounts
import LcdHandhelds.Proofs.Manifest.Overlay
import LcdHandhelds.Proofs.Text.Call
import LcdHandhelds.Proofs.Text.Delimited
import LcdHandhelds.Proofs.Manifest.Blocks
import LcdHandhelds.Proofs.Number.Binary64
import LcdHandhelds.Proofs.Number.Nearest
import LcdHandhelds.Proofs.Json.Numeral
import LcdHandhelds.Proofs.Json.Token
import LcdHandhelds.Proofs.Json.Record
import LcdHandhelds.Proofs.Manifest.RoundTrip
import LcdHandhelds.Proofs.Manifest.Ending
import LcdHandhelds.Proofs.Command.Settings
import LcdHandhelds.Proofs.Command.Run
import LcdHandhelds.Proofs.Manifest.Duplicates
import LcdHandhelds.Proofs.Text.LineEnding
import LcdHandhelds.Proofs.Machine.LineEnding
import LcdHandhelds.Proofs.Machine.CopiedText
import LcdHandhelds.Proofs.Manifest.LineEnding
import LcdHandhelds.Proofs.Text.Printed
import LcdHandhelds.Proofs.Text.Inert
import LcdHandhelds.Proofs.Wiring.Entry
import LcdHandhelds.Proofs.Wiring.Described
import LcdHandhelds.Proofs.Description.Basic
import LcdHandhelds.Proofs.Description.Class
import LcdHandhelds.Proofs.Machine.Preset
import LcdHandhelds.Proofs.Description.Constructor
import LcdHandhelds.Proofs.Description.Blocks
import LcdHandhelds.Proofs.Description.Rom
import LcdHandhelds.Proofs.Description.Source
import LcdHandhelds.Proofs.Description.Wiring
import LcdHandhelds.Proofs.Description.Survey
import LcdHandhelds.Proofs.Description.Recovery
import LcdHandhelds.Proofs.Wiring.LayerAlgebra
import LcdHandhelds.Proofs.Manifest.Grounding
import LcdHandhelds.Proofs.Bytewise.Text
import LcdHandhelds.Proofs.Bytewise.Scan
import LcdHandhelds.Proofs.Bytewise.Cursor
import LcdHandhelds.Proofs.Bytewise.Call
import LcdHandhelds.Proofs.Bytewise.DriverClass
import LcdHandhelds.Proofs.Bytewise.Machine
import LcdHandhelds.Proofs.Bytewise.Wiring
import LcdHandhelds.Proofs.Bytewise.Extraction
import LcdHandhelds.Proofs.Option
import LcdHandhelds.Proofs.Text.Balanced
import LcdHandhelds.Proofs.Text.Respelling
import LcdHandhelds.Proofs.Wiring.Locality
import LcdHandhelds.Proofs.Wiring.Faults
import LcdHandhelds.Proofs.Wiring.Statement
import LcdHandhelds.Proofs.Wiring.WrittenLine
import LcdHandhelds.Proofs.Wiring.HeaderSpelling
import LcdHandhelds.Proofs.Text.CallSearch
import LcdHandhelds.Proofs.Manifest.BlockOrder
import LcdHandhelds.Proofs.Machine.Election
import LcdHandhelds.Proofs.Machine.RomIdentity
import LcdHandhelds.Proofs.Manifest.Borrowing
import LcdHandhelds.Proofs.Manifest.IndependentTitles
import LcdHandhelds.Proofs.Text.Pieces
import LcdHandhelds.Proofs.Machine.PresetCall
import LcdHandhelds.Proofs.Text.Occurrence
import LcdHandhelds.Proofs.Machine.Declaration
import LcdHandhelds.Proofs.Machine.ClassDiscovery
import LcdHandhelds.Proofs.Machine.Definition
import LcdHandhelds.Proofs.Bytewise.Grammar
import LcdHandhelds.Proofs.Wiring.PortHistory
import LcdHandhelds.Proofs.Text.Joining
import LcdHandhelds.Proofs.Machine.ConstructorBody
import LcdHandhelds.Proofs.Text.Digits
import LcdHandhelds.Proofs.Wiring.Numbers
