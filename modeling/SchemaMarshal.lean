import SchemaMarshal.Command.Run
import SchemaMarshal.Journal
import SchemaMarshal.Main
import SchemaMarshal.Marshaller.Run
import SchemaMarshal.Proofs.Marshalling
import SchemaMarshal.Proofs.ParserImage
import SchemaMarshal.Proofs.Declarations
import SchemaMarshal.Proofs.Resolution
import SchemaMarshal.Proofs.Reports
import SchemaMarshal.Proofs.Repetition
import SchemaMarshal.Proofs.Extension
import SchemaMarshal.Proofs.Reordering
import SchemaMarshal.Proofs.WellKnown
import SchemaMarshal.Proofs.References
import SchemaMarshal.Proofs.Statements
import SchemaMarshal.Proofs.Acceptance
import SchemaMarshal.Proofs.Gaps
import SchemaMarshal.Proofs.Lexemes
import SchemaMarshal.Proofs.Tiling
import SchemaMarshal.Proofs.Concatenation
import SchemaMarshal.Proofs.OutputPaths
import SchemaMarshal.Proofs.Layout
import SchemaMarshal.Proofs.EnumCodec
import SchemaMarshal.Proofs.Rereading
import SchemaMarshal.Proofs.Insertion
import SchemaMarshal.Proofs.Uniqueness
import SchemaMarshal.Proofs.SelfReference
import SchemaMarshal.Proofs.Finality
import SchemaMarshal.Proofs.Inert
import SchemaMarshal.Proofs.Bodies
import SchemaMarshal.Proofs.Labels
import SchemaMarshal.Proofs.Literals
import SchemaMarshal.Proofs.Accessors
import SchemaMarshal.Proofs.Offences
import SchemaMarshal.Proofs.Emission
import SchemaMarshal.Proofs.Legibility
import SchemaMarshal.Proofs.Progress
