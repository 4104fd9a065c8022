import StructRec.Main
import StructRec.Proofs.Components
import StructRec.Proofs.Correspondence
import StructRec.Proofs.DefinitionOrder
import StructRec.Proofs.Definitions
import StructRec.Proofs.Faults
import StructRec.Proofs.NameHistories
import StructRec.Proofs.CaptureAvoidance
import StructRec.Proofs.PartialFunctions
import StructRec.Proofs.Reduction
import StructRec.Proofs.SentenceScope
import StructRec.Proofs.StructuralRecursion
import StructRec.Proofs.TypeOrder
import StructRec.Proofs.TypeScope
import StructRec.Proofs.TargetSpelling
import StructRec.Proofs.Unfolding
import StructRec.Proofs.Restoring
import StructRec.Proofs.Reassembly
import StructRec.Proofs.HoistedChoice
import StructRec.Proofs.SubValues
import StructRec.Proofs.ResolvedReferences
import StructRec.Proofs.SynonymCycles
import StructRec.Proofs.SynonymRewriting
import StructRec.Proofs.CanonicalOrder
import StructRec.Proofs.Composition
import StructRec.Proofs.Modes
import StructRec.Proofs.Records
import StructRec.Proofs.References
import StructRec.Proofs.WrittenForms
import StructRec.Proofs.Lexemes
import StructRec.Proofs.PrintedLexemes
import StructRec.Proofs.Unambiguity
import StructRec.Proofs.JsonText
import StructRec.Proofs.RoundTrip
import StructRec.Proofs.LexicalScoping
import StructRec.Proofs.InnerPragmas
import StructRec.Proofs.ExpansionRuns
import StructRec.Proofs.NameSearch
