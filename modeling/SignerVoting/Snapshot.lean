import Std.Data.ExtTreeSet
import SignerVoting.Config
import SignerVoting.Header
import SignerVoting.Vote
import SignerVoting.Word

/-!
# Snapshots

The state of voting after a block: who may seal, who sealed lately, and the votes that are pending,
each with its score.
-/

namespace SignerVoting

/-- The state of voting after a block. -/
structure Snapshot where
  /-- The parameters, which are not part of what is stored. -/
  config : Config
  /-- The number of the block. -/
  number : UInt64
  /-- The hash of the block. -/
  hash : Digest
  /-- The accounts that may seal. -/
  signers : Std.ExtTreeSet Address
  /-- Who sealed lately, by block. -/
  recents : Std.ExtTreeMap UInt64 Address
  /-- The pending votes on accounts, the oldest first. -/
  votes : List Vote
  /-- Their scores. -/
  tally : Tallies
  /-- The percentage of signers that a proposal needs. -/
  quorumPercent : UInt64
  /-- The pending votes for percentages, the oldest first. -/
  quorumVotes : List QuorumVote
  /-- Their scores. -/
  quorumTally : QuorumTallies
  /-- The percentages that passed lately. -/
  quorumCooldowns : Std.ExtTreeMap UInt64 QuorumCooldown
  deriving DecidableEq

namespace Snapshot

/-- The snapshot of a block on which nothing is pending. It knows nobody who sealed lately, so it is
    for the first block of a chain. -/
def ofSigners (config : Config) (number : UInt64) (hash : Digest) (signers : List Address) :
    Snapshot where
  config := config
  number := number
  hash := hash
  signers := .ofList signers
  recents := ∅
  votes := []
  tally := ∅
  quorumPercent := config.quorumPercent
  quorumVotes := []
  quorumTally := ∅
  quorumCooldowns := ∅

/-! ## Questions -/

/-- Whether an account may seal. -/
def isSigner (s : Snapshot) (a : Address) : Bool := s.signers.contains a

/-- The number of signers. -/
def signerCount (s : Snapshot) : UInt64 := UInt64.ofNat s.signers.size

/-- The votes that a proposal needs, and the number of blocks in which nobody seals twice. More than
    there are signers may be needed. -/
def requiredMajority (s : Snapshot) : UInt64 :=
  Word.mulCapped s.signerCount s.quorumPercent / 100 + 1

/-- The signers in their order. -/
def sortedSigners (s : Snapshot) : List Address := s.signers.toList

/-- Whether it is a signer's turn to seal the block of that number. -/
def isInTurn (s : Snapshot) (number : UInt64) (a : Address) : Bool :=
  match s.sortedSigners.idxOf? a with
  | some position => number.toNat % s.sortedSigners.length = position
  | none => false

/-- The first block of those lately sealed that the account sealed. -/
def recentlySigned (s : Snapshot) (a : Address) : Option UInt64 :=
  (s.recents.toList.find? fun (_, signer) => signer = a).map Prod.fst

/-- The pending proposals about accounts, with their directions. -/
def proposals (s : Snapshot) : List (Address × Bool) :=
  s.tally.toList.map fun (target, tally) => (target, tally.authorize)

end Snapshot

end SignerVoting
