import IntDecl.Grammar
import IntDecl.Lexeme.Writing
import IntDecl.Main
import IntDecl.Proofs.Agenda
import IntDecl.Proofs.Position
import IntDecl.Proofs.Lookahead
import IntDecl.Proofs.Derivation
import IntDecl.Proofs.Recognition
import IntDecl.Proofs.Viability
import IntDecl.Proofs.Evaluation
import IntDecl.Proofs.Phase
import IntDecl.Proofs.Addition
import IntDecl.Proofs.Lexing
import IntDecl.Proofs.Scanning
import IntDecl.Proofs.Acceptance
import IntDecl.Proofs.Preservation
import IntDecl.Proofs.Verdict
import IntDecl.Proofs.Placement
import IntDecl.Proofs.Tiling
import IntDecl.Proofs.Classification
import IntDecl.Proofs.Settling
import IntDecl.Proofs.Agreement
import IntDecl.Proofs.Recompilation
import IntDecl.Proofs.Blocks
import IntDecl.Proofs.Editing
import IntDecl.Proofs.Indifference
import IntDecl.Proofs.Extent
import IntDecl.Proofs.Partition
import IntDecl.Proofs.Chains
import IntDecl.Proofs.Nesting
import IntDecl.Proofs.Unwinding
import IntDecl.Proofs.Descent
import IntDecl.Proofs.Locality
import IntDecl.Proofs.Concatenation
import IntDecl.Proofs.Streaming
import IntDecl.Proofs.Logging
import IntDecl.Proofs.Accounting
import IntDecl.Proofs.Tracing
import IntDecl.Proofs.Coordinates
import IntDecl.Proofs.Excerpts
import IntDecl.Proofs.Marks
import IntDecl.Proofs.Refusals
import IntDecl.Proofs.Coverage
