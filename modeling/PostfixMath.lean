import PostfixMath.Expr.Outline
import PostfixMath.Main
import PostfixMath.Proofs.Alignment
import PostfixMath.Proofs.Balance
import PostfixMath.Proofs.Coloring
import PostfixMath.Proofs.Conservation
import PostfixMath.Proofs.Counting
import PostfixMath.Proofs.Decoration
import PostfixMath.Proofs.Details
import PostfixMath.Proofs.Escapes
import PostfixMath.Proofs.Fault
import PostfixMath.Proofs.Meaning
import PostfixMath.Proofs.Parentheses
import PostfixMath.Proofs.Plainness
import PostfixMath.Proofs.RoundTrip
import PostfixMath.Proofs.Shadowing
import PostfixMath.Proofs.Sources
import PostfixMath.Proofs.Spacing
import PostfixMath.Proofs.Tiling
import PostfixMath.Proofs.Transcript
import PostfixMath.Proofs.Undressing
import PostfixMath.Proofs.Ending
import PostfixMath.Proofs.Grammar
import PostfixMath.Proofs.Segments
import PostfixMath.Proofs.Serialization
import PostfixMath.Proofs.ContextLines
import PostfixMath.Proofs.Measure
import PostfixMath.Proofs.SingleLines
import PostfixMath.Proofs.Validation
import PostfixMath.Proofs.Outlining
import PostfixMath.Proofs.Resuming
