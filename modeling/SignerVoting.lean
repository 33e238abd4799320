import SignerVoting.Config.Document
import SignerVoting.Config.Toml
import SignerVoting.Header.Document
import SignerVoting.Keeper
import SignerVoting.Proofs.AddressTexts
import SignerVoting.Proofs.Atomicity
import SignerVoting.Proofs.Batches
import SignerVoting.Proofs.Calls
import SignerVoting.Proofs.Chain
import SignerVoting.Proofs.Checked
import SignerVoting.Proofs.Checkpoints
import SignerVoting.Proofs.Compatibility
import SignerVoting.Proofs.Cooldowns
import SignerVoting.Proofs.Documents
import SignerVoting.Proofs.Edits
import SignerVoting.Proofs.Encoding
import SignerVoting.Proofs.Eviction
import SignerVoting.Proofs.Exactness
import SignerVoting.Proofs.Frame
import SignerVoting.Proofs.History
import SignerVoting.Proofs.LastSigner
import SignerVoting.Proofs.Lookups
import SignerVoting.Proofs.Majority
import SignerVoting.Proofs.Membership
import SignerVoting.Proofs.Numbering
import SignerVoting.Proofs.Persistence
import SignerVoting.Proofs.Progress
import SignerVoting.Proofs.Proposals
import SignerVoting.Proofs.Purging
import SignerVoting.Proofs.Quorum
import SignerVoting.Proofs.Reachable
import SignerVoting.Proofs.Readings
import SignerVoting.Proofs.Recency
import SignerVoting.Proofs.RoundTrips
import SignerVoting.Proofs.Runs
import SignerVoting.Proofs.Scores
import SignerVoting.Proofs.Sealing
import SignerVoting.Proofs.Sharing
import SignerVoting.Proofs.Stopping
import SignerVoting.Proofs.Syntax
import SignerVoting.Proofs.Turns
import SignerVoting.Proofs.Votes
import SignerVoting.Proofs.Waiting
import SignerVoting.Proofs.Width
import SignerVoting.Proofs.Window
