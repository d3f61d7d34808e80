import HygienicScheme.Conversion
import HygienicScheme.Main
import HygienicScheme.Proofs.Depth.Limits
import HygienicScheme.Proofs.Depth.TailCalls
import HygienicScheme.Proofs.Derived.Answers
import HygienicScheme.Proofs.Derived.Choosing
import HygienicScheme.Proofs.Derived.Clauses
import HygienicScheme.Proofs.Derived.Iterating
import HygienicScheme.Proofs.Derived.Looping
import HygienicScheme.Proofs.Derived.Loops
import HygienicScheme.Proofs.Derived.Prelude
import HygienicScheme.Proofs.Errors.Conversation
import HygienicScheme.Proofs.Evaluation.Frames
import HygienicScheme.Proofs.Evaluation.Refinement
import HygienicScheme.Proofs.Exits.Catching
import HygienicScheme.Proofs.Expansion.Endings
import HygienicScheme.Proofs.Expansion.Heads
import HygienicScheme.Proofs.Expansion.Positions
import HygienicScheme.Proofs.Expansion.Undisturbed
import HygienicScheme.Proofs.Hygiene.Law
import HygienicScheme.Proofs.Numbers.Combining
import HygienicScheme.Proofs.Numbers.Division
import HygienicScheme.Proofs.Numbers.Powers
import HygienicScheme.Proofs.Primitives.Copying
import HygienicScheme.Proofs.Primitives.Traversals
import HygienicScheme.Proofs.Printing.Budget
import HygienicScheme.Proofs.Procedures.Calls
import HygienicScheme.Proofs.Promises.Forcing
import HygienicScheme.Proofs.Quasiquote.Agreement
import HygienicScheme.Proofs.Quasiquote.Vectors
import HygienicScheme.Proofs.Reading.Comments
import HygienicScheme.Proofs.Reading.Cutting
import HygienicScheme.Proofs.Reading.RoundTrip
import HygienicScheme.Proofs.Reading.Seams
import HygienicScheme.Proofs.Reading.Windows
import HygienicScheme.Proofs.Stamps.Binders
import HygienicScheme.Proofs.Stamps.Idempotence
import HygienicScheme.Proofs.Stamps.Rewriting
import HygienicScheme.Proofs.Stamps.Unstamped
import HygienicScheme.Proofs.Store.Equality
import HygienicScheme.Proofs.Store.Resolving
import HygienicScheme.Proofs.SyntaxRules.Accepting
import HygienicScheme.Proofs.SyntaxRules.Introduced
import HygienicScheme.Proofs.SyntaxRules.Inverse
import HygienicScheme.Proofs.SyntaxRules.Rounds
import HygienicScheme.Proofs.Transformers.Namespace
import HygienicScheme.Proofs.Uses.Distinct
import HygienicScheme.Proofs.Numbers.Doubles
import HygienicScheme.Proofs.Numbers.Extremes
import HygienicScheme.Proofs.Numbers.Literals
import HygienicScheme.Proofs.Printing.Floats
import HygienicScheme.Proofs.Reading.Floats
