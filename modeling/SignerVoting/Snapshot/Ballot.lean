import SignerVoting.Snapshot

/-!
# Voting

What one vote does to a snapshot. A signer has one vote about an account, and one for a percentage:
an earlier one is taken back first. A vote that would change nothing is not recorded. When a
proposal has the votes it needs, it is carried out and all votes on the matter are dropped.
-/

namespace SignerVoting

namespace Snapshot

/-! ## The window of recent signers -/

/-- Lets those seal again who sealed outside the window of the block of that number: as many blocks
    before it as the window is wide, or more. A block that is further behind than there are recent
    signers stays; where they have sealed one block after the other, there is none. -/
def shrinkRecents (s : Snapshot) (number : UInt64) : Snapshot :=
  { s with
    recents := s.recents.filter fun block _ =>
      !(block.toNat + s.requiredMajority.toNat ≤ number.toNat &&
        number.toNat ≤ block.toNat + s.recents.size) }

theorem getElem?_shrinkRecents (s : Snapshot) (number block : UInt64) (a : Address) :
    (s.shrinkRecents number).recents[block]? = some a ↔
      s.recents[block]? = some a ∧
        ¬(block.toNat + s.requiredMajority.toNat ≤ number.toNat ∧
          number.toNat ≤ block.toNat + s.recents.size) := by
  rw [shrinkRecents, Std.ExtTreeMap.getElem?_filter]
  simp only [Std.ExtTreeMap.getKey_eq, Option.pfilter_eq_some_iff, Bool.not_eq_true',
    Bool.and_eq_false_iff, decide_eq_false_iff_not, exists_prop]
  exact and_congr_right fun _ => by omega

/-! ## Votes on accounts -/

/-- Takes back the vote of a signer about an account. -/
def withdraw (s : Snapshot) (signer target : Address) : Snapshot :=
  let same (v : Vote) : Bool := v.signer = signer ∧ v.target = target
  match s.votes.find? same with
  | some previous =>
    { s with
      votes := s.votes.eraseP same
      tally := s.tally.uncast previous.target previous.authorize }
  | none => s

/-- Whether a vote asks for a change: to let a stranger seal, or to stop a signer. -/
def isMeaningful (s : Snapshot) (target : Address) (authorize : Bool) : Bool :=
  s.isSigner target ≠ authorize

/-- Records a vote if it asks for a change. -/
def cast (s : Snapshot) (v : Vote) : Snapshot :=
  if s.isMeaningful v.target v.authorize then
    { s with votes := s.votes ++ [v], tally := s.tally.cast v.target v.authorize }
  else s

/-- Drops every vote that an account cast. -/
def purge (s : Snapshot) (signer : Address) : Snapshot :=
  { s with
    votes := s.votes.filter fun v => v.signer ≠ signer
    tally := (s.votes.filter fun v => v.signer = signer).foldl
      (fun tally v => tally.uncast v.target v.authorize) s.tally }

/-- Drops every vote about an account. -/
def forget (s : Snapshot) (target : Address) : Snapshot :=
  { s with votes := s.votes.filter fun v => v.target ≠ target, tally := s.tally.erase target }

/-- Lets an account seal. -/
def enroll (s : Snapshot) (target : Address) : Snapshot :=
  { s with signers := s.signers.insert target }

/-- Stops an account from sealing. The window shrinks with the number of signers, and the votes of
    the account do not count any more. -/
def expel (s : Snapshot) (target : Address) (block : UInt64) : Snapshot :=
  (shrinkRecents { s with signers := s.signers.erase target } block).purge target

/-- The direction in which the votes about an account suffice. -/
def decision? (s : Snapshot) (target : Address) : Option Bool :=
  match s.tally[target]? with
  | some tally => if s.requiredMajority ≤ tally.votes then some tally.authorize else none
  | none => none

/-- Carries out the proposal about an account if the votes suffice. -/
def settle (s : Snapshot) (target : Address) (block : UInt64) : Snapshot :=
  match s.decision? target with
  | some true => (s.enroll target).forget target
  | some false => (s.expel target block).forget target
  | none => s

/-- A signer's vote about an account. -/
def voteOnAccount (s : Snapshot) (v : Vote) : Snapshot :=
  ((s.withdraw v.signer v.target).cast v).settle v.target v.block

/-! ## Votes for percentages -/

/-- Takes back the vote of a signer for a percentage. -/
def withdrawQuorum (s : Snapshot) (signer : Address) (percent : UInt64) : Snapshot :=
  let same (v : QuorumVote) : Bool := v.signer = signer ∧ v.percent = percent
  if s.quorumVotes.any same then
    { s with quorumVotes := s.quorumVotes.eraseP same, quorumTally := s.quorumTally.uncast percent }
  else s

/-- Records a vote for a percentage other than the one in force. -/
def castQuorum (s : Snapshot) (v : QuorumVote) : Snapshot :=
  if s.quorumPercent ≠ v.percent then
    { s with
      quorumVotes := s.quorumVotes ++ [v]
      quorumTally := s.quorumTally.cast v.percent v.signer }
  else s

/-- Whether the votes for a percentage suffice. -/
def passesQuorum (s : Snapshot) (percent : UInt64) : Bool :=
  match s.quorumTally[percent]? with
  | some tally => s.requiredMajority ≤ tally.votes
  | none => false

/-- Puts a percentage in force if the votes for it suffice. It is to stay for as many blocks as
    there are signers. -/
def settleQuorum (s : Snapshot) (percent : UInt64) (block : UInt64) : Snapshot :=
  if s.passesQuorum percent then
    { s with
      quorumPercent := percent
      quorumVotes := s.quorumVotes.filter fun v => v.percent ≠ percent
      quorumTally := s.quorumTally.erase percent
      quorumCooldowns :=
        s.quorumCooldowns.insert percent ⟨Word.addCapped block s.signerCount⟩ }
  else s

/-- A signer's vote for a percentage. -/
def voteOnQuorum (s : Snapshot) (v : QuorumVote) : Snapshot :=
  let s := { s with quorumCooldowns := ∅ }
  ((s.withdrawQuorum v.signer v.percent).castQuorum v).settleQuorum v.percent v.block

end Snapshot

end SignerVoting
