import Hipfire.Calls.Closes
import Hipfire.Checkpoint.Resume
import Hipfire.Draft.Linear
import Hipfire.Draft.Optimal
import Hipfire.Draft.Verify
import Hipfire.Eos.Chunks
import Hipfire.Exchange.Hazards
import Hipfire.Fair.Starved
import Hipfire.Gather.Barrier
import Hipfire.Hfq.RoundTrip
import Hipfire.Hot.Pack
import Hipfire.Pages.Plans
import Hipfire.Pages.Conserve
import Hipfire.Pages.Isolation
import Hipfire.Pages.Replaced
import Hipfire.Redline.Entry
import Hipfire.Redline.Fingerprint
import Hipfire.Redline.Meaning
import Hipfire.Redline.Refresh
import Hipfire.Route.Joined
import Hipfire.Sched.Boundary
import Hipfire.Sched.Publish
import Hipfire.Schema.Accepts
import Hipfire.Serve.Ledger
import Hipfire.Snap.Captures
import Hipfire.Stops.Splits
import Hipfire.Swap.Exclusive
import Hipfire.Swap.Restore
import Hipfire.Terminal.Aborts
import Hipfire.Think.Budget
import Hipfire.Tokens.Lossless
import Hipfire.Tokens.Normalize
import Hipfire.Tokens.Pieces
import Hipfire.Tokens.TextStream
