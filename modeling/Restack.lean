import Restack.Proofs.Conversion.Aborts
import Restack.Proofs.Conversion.Helpers
import Restack.Proofs.Conversion.Labels
import Restack.Proofs.HandlerFrames
import Restack.Proofs.Lifting.Moments
import Restack.Proofs.Lifting.Runs
import Restack.Proofs.LongString.Completeness
import Restack.Proofs.Lowering.ArrayFill
import Restack.Proofs.Nesting.Anonymous
import Restack.Proofs.Nesting.Order
import Restack.Proofs.Pass.NullRuns
import Restack.Proofs.Ranges
import Restack.Proofs.Signature.RoundTrip
import Restack.Proofs.SweptRuns
