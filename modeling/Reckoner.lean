import Reckoner.Journal
import Reckoner.Main
import Reckoner.Proofs.Evaluation.Alphabet
import Reckoner.Proofs.Evaluation.Formula
import Reckoner.Proofs.Evaluation.Mention
import Reckoner.Proofs.Evaluation.Rejection
import Reckoner.Proofs.Evaluation.Stages
import Reckoner.Proofs.Evaluation.Transparency
import Reckoner.Proofs.Expr.Carets
import Reckoner.Proofs.Expr.Quotations
import Reckoner.Proofs.Expr.Spacing
import Reckoner.Proofs.Expr.Staging
import Reckoner.Proofs.Nesting.Brackets
import Reckoner.Proofs.Nesting.Depth
import Reckoner.Proofs.Nesting.Levels
import Reckoner.Proofs.Nesting.Linear
import Reckoner.Proofs.Nesting.Reentry
import Reckoner.Proofs.Nesting.Respelling
import Reckoner.Proofs.Number.Remainder
import Reckoner.Proofs.Presentation.Results
import Reckoner.Proofs.Session.Continuation
