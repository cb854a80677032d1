import GreenTree.Brace.Index
import GreenTree.IntervalTree.Query
import GreenTree.IntervalTree.Traversal
import GreenTree.Json.Records
import GreenTree.Log.Settings
import GreenTree.Session
import GreenTree.Span.Text
import GreenTree.Store.Text
import GreenTree.Proofs.Outcome
import GreenTree.Proofs.Run
import GreenTree.Proofs.Span.Numbers
import GreenTree.Proofs.Span.Positions
import GreenTree.Proofs.Arena.Allocation
import GreenTree.Proofs.Arena.Handles
import GreenTree.Proofs.Brace.Collection
import GreenTree.Proofs.Brace.Listing
import GreenTree.Proofs.Brace.Oversize
import GreenTree.Proofs.Brace.Queries
import GreenTree.Proofs.Brace.Slices
import GreenTree.Proofs.Cache.Answers
import GreenTree.Proofs.Cache.Counting
import GreenTree.Proofs.Cache.Entries
import GreenTree.Proofs.Cache.History
import GreenTree.Proofs.IntervalTree.Balance
import GreenTree.Proofs.IntervalTree.Candidates
import GreenTree.Proofs.IntervalTree.Height
import GreenTree.Proofs.IntervalTree.Insertion
import GreenTree.Proofs.IntervalTree.Iteration
import GreenTree.Proofs.IntervalTree.Overflow
import GreenTree.Proofs.IntervalTree.Pruning
import GreenTree.Proofs.IntervalTree.Queries
import GreenTree.Proofs.IntervalTree.Searches
import GreenTree.Proofs.IntervalTree.StackDepth
import GreenTree.Proofs.IntervalTree.Visits
import GreenTree.Proofs.Node.Flags
import GreenTree.Proofs.Stack
import GreenTree.Proofs.Store.Accounting
import GreenTree.Proofs.Store.Actions
import GreenTree.Proofs.Store.Agreement
import GreenTree.Proofs.Store.Assembly
import GreenTree.Proofs.Store.Cleanliness
import GreenTree.Proofs.Store.Coherence
import GreenTree.Proofs.Store.Gathering
import GreenTree.Proofs.Store.Grounding
import GreenTree.Proofs.Store.Inheritance
import GreenTree.Proofs.Store.Offers
import GreenTree.Proofs.Store.Permanence
import GreenTree.Proofs.Store.Placement
import GreenTree.Proofs.Store.Precedence
import GreenTree.Proofs.Store.Requests
import GreenTree.Proofs.Store.Replies
import GreenTree.Proofs.Store.Residency
import GreenTree.Proofs.Store.Reuse
import GreenTree.Proofs.Store.Soundness
import GreenTree.Proofs.Store.Texts
import GreenTree.Proofs.Store.TokenIdentity
import GreenTree.Proofs.Store.Widths
