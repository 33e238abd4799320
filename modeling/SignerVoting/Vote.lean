import Std.Data.ExtTreeMap
import SignerVoting.Address

/-!
# Votes and scores

A vote is on record until it is superseded or its matter is settled. The votes for one proposal are
counted in its score: an account's, of the votes in one direction, or a percentage's. A proposal
without votes has no score.
-/

namespace SignerVoting

/-- A vote on whether an account may seal. -/
structure Vote where
  /-- Who voted. -/
  signer : Address
  /-- The block that carried the vote. -/
  block : UInt64
  /-- The account that the vote is about. -/
  target : Address
  /-- Whether the account is to be let seal, or stopped. -/
  authorize : Bool
  deriving DecidableEq

/-- A vote for a percentage. -/
structure QuorumVote where
  /-- Who voted. -/
  signer : Address
  /-- The block that carried the vote. -/
  block : UInt64
  /-- The coinbase that the percentage was read from. -/
  coinbase : Address
  /-- The percentage. -/
  percent : UInt64
  /-- Whether the vote is for the percentage, as all are. -/
  authorize : Bool
  deriving DecidableEq

/-- The score of a proposal about an account. -/
structure Tally where
  authorize : Bool
  votes : UInt64
  deriving DecidableEq

/-- The score of a percentage. -/
structure QuorumTally where
  authorize : Bool
  votes : UInt64
  /-- Who voted for it last. -/
  signer : Address
  deriving DecidableEq

/-- The block up to which a percentage that passed is to stay. -/
structure QuorumCooldown where
  block : UInt64
  deriving DecidableEq

/-- The scores of accounts. -/
abbrev Tallies := Std.ExtTreeMap Address Tally

/-- The scores of percentages. -/
abbrev QuorumTallies := Std.ExtTreeMap UInt64 QuorumTally

namespace Tallies

/-- One vote more about an account. The first one gives the direction. -/
def cast (t : Tallies) (target : Address) (authorize : Bool) : Tallies :=
  t.alter target fun
    | some tally => some { tally with votes := tally.votes + 1 }
    | none => some ⟨authorize, 1⟩

/-- One vote less about an account, if its score is of that direction. -/
def uncast (t : Tallies) (target : Address) (authorize : Bool) : Tallies :=
  t.alter target fun
    | some tally =>
      if tally.authorize ≠ authorize then some tally
      else if 1 < tally.votes then some { tally with votes := tally.votes - 1 }
      else none
    | none => none

end Tallies

namespace QuorumTallies

/-- One vote more for a percentage. -/
def cast (t : QuorumTallies) (percent : UInt64) (signer : Address) : QuorumTallies :=
  t.alter percent fun
    | some tally => some { tally with votes := tally.votes + 1, signer }
    | none => some ⟨true, 1, signer⟩

/-- One vote less for a percentage. A score that is not for the percentage is left alone. -/
def uncast (t : QuorumTallies) (percent : UInt64) : QuorumTallies :=
  t.alter percent fun
    | some tally =>
      if !tally.authorize then some tally
      else if 1 < tally.votes then some { tally with votes := tally.votes - 1 }
      else none
    | none => none

end QuorumTallies

end SignerVoting
