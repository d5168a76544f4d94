import InlineSchema.Number.Basic
import InlineSchema.Yaml.Token.Tag
import InlineSchema.Yaml.Token.Scalar
import InlineSchema.Yaml.Token.Stream
import InlineSchema.Yaml.Tree
import InlineSchema.Yaml.Reading
import InlineSchema.Yaml.Printer
import InlineSchema.Node.Text
import InlineSchema.Options
import InlineSchema.Registry
import InlineSchema.Report
import InlineSchema.Naming.PascalCase
import InlineSchema.Extraction.Walk
import InlineSchema.Extraction.Document
import InlineSchema.Equivalence.Resolution
import InlineSchema.Hoisting
import InlineSchema.Files.Workspace
import InlineSchema.Files.Machine
import InlineSchema.Main
import InlineSchema.Proofs.Restoration
import InlineSchema.Proofs.Hoisting
import InlineSchema.Proofs.Repetition
import InlineSchema.Proofs.FileSystem
import InlineSchema.Proofs.Workspace
import InlineSchema.Proofs.Machine
import InlineSchema.Proofs.Commit
import InlineSchema.Proofs.Substitution
import InlineSchema.Proofs.Documentation
import InlineSchema.Proofs.Path
import InlineSchema.Proofs.Apart
import InlineSchema.Proofs.Trail
import InlineSchema.Proofs.Corruption
import InlineSchema.Proofs.View
import InlineSchema.Proofs.Unfolding
import InlineSchema.Proofs.Simulation
import InlineSchema.Proofs.Soundness
import InlineSchema.Proofs.Printer
import InlineSchema.Proofs.KeyText
import InlineSchema.Proofs.Order
import InlineSchema.Proofs.Calls
import InlineSchema.Proofs.Forest
import InlineSchema.Proofs.FirstDifference
import InlineSchema.Proofs.Extension
import InlineSchema.Proofs.Outline
import InlineSchema.Proofs.Footprint
import InlineSchema.Proofs.Frame
import InlineSchema.Proofs.Names
import InlineSchema.Proofs.Merge
import InlineSchema.Proofs.Expansion
import InlineSchema.Proofs.Marks
import InlineSchema.Proofs.Location
import InlineSchema.Proofs.Collapse
import InlineSchema.Proofs.Stripped
import InlineSchema.Proofs.Edits
