import SignerVoting.Proofs.Membership
import SignerVoting.Proofs.Runs

/-!
# Votes as a history

Which votes on accounts are pending after a run can be told from its blocks alone. A block leaves
its vote if that asks for a change (`Block.AsksForChange`). The vote is replaced by the opening of
an epoch and by a later vote of the same signer about the same account, whatever that asks for
(`Block.ReplacesVote`). It is settled when the account is let seal or stopped, or its signer is
stopped, be it by the vote itself (`Block.SettlesVote`).

* `Block.votes_after`: what one block does to the pending votes;
* `Run.votes_eq`: the pending votes are those that nothing has replaced or settled.
-/

namespace SignerVoting

namespace Snapshot

variable {s t : Snapshot} {blocks : List Block} {n : UInt64}

/-! ## The votes of blocks -/

namespace Block

/-- Whether a block votes on an account. -/
def OnAccount (b : Block) : Prop :=
  b.header.voteKind? = some .authorize ∨ b.header.voteKind? = some .drop

instance (b : Block) : Decidable b.OnAccount := inferInstanceAs (Decidable (_ ∨ _))

/-- Whether a block votes to let an account seal. -/
def authorizes (b : Block) : Bool := b.header.voteKind? = some .authorize

/-- The vote of a block on an account. -/
def vote (b : Block) : Vote := b.header.accountVote b.signer b.authorizes

theorem onAccount_iff {b : Block} :
    b.OnAccount ↔ b.header.voteKind? = some (.onAccount b.authorizes) := by
  rw [OnAccount, authorizes]
  rcases b.header.voteKind? with _ | kind
  · simp
  · cases kind <;> simp [VoteKind.onAccount]

/-- A block that does not vote on an account votes for a percentage. -/
theorem voteKind?_of_not_onAccount {b : Block} (hb : ¬b.OnAccount) :
    b.header.voteKind? = some .quorumPercent := by
  obtain ⟨authorize, hk, -⟩ | ⟨hk, -⟩ := b.step.cases
  · refine absurd ?_ hb
    rw [OnAccount, hk]
    cases authorize <;> simp [VoteKind.onAccount]
  · exact hk

/-- Whether a block leaves a vote on an account: one that asks for a change. -/
def AsksForChange (b : Block) : Prop :=
  b.OnAccount ∧ b.before.isMeaningful b.header.coinbase b.authorizes = true

instance (b : Block) : Decidable b.AsksForChange := inferInstanceAs (Decidable (_ ∧ _))

/-- Whether a block takes away an earlier vote: by opening an epoch, or by voting on the account for
    the same signer. -/
def ReplacesVote (c : Block) (v : Vote) : Prop :=
  c.OpensEpoch ∨ c.OnAccount ∧ c.signer = v.signer ∧ c.header.coinbase = v.target

instance (c : Block) (v : Vote) : Decidable (c.ReplacesVote v) :=
  inferInstanceAs (Decidable (_ ∨ _))

/-- Whether a block takes away a vote, be it its own, with the matter: by changing what the account
    is, or by stopping who voted. -/
def SettlesVote (c : Block) (v : Vote) : Prop :=
  c.after.isSigner v.target ≠ c.before.isSigner v.target ∨ c.Stops v.signer

instance (c : Block) (v : Vote) : Decidable (c.SettlesVote v) :=
  inferInstanceAs (Decidable (_ ∨ _))

end Block

/-! ## One block -/

/-- Carrying out a proposal takes away the votes about accounts that it changes, and those of
    signers that it stops. -/
theorem VotesKept.votes_settle (h : s.VotesKept n) (target : Address) (block : UInt64) :
    (s.settle target block).votes = s.votes.filter fun v =>
      ¬((s.settle target block).isSigner v.target ≠ s.isSigner v.target ∨
        s.isSigner v.signer = true ∧ (s.settle target block).isSigner v.signer = false) := by
  rcases Nat.lt_or_ge (s.votes.countP fun v => v.target = target) s.requiredMajority.toNat with
    hlt | hle
  · rw [h.settle_of_lt block hlt]
    exact (List.filter_eq_self.2 fun v _ => by simp).symm
  simp only [h.isSigner_settle, ge_iff_le.1 hle, and_true]
  rw [h.settle_of_le block hle]
  split
  · rename_i htarget
    change (s.votes.filter fun v => v.signer ≠ target).filter (fun v => v.target ≠ target) = _
    rw [List.filter_filter]
    refine List.filter_congr fun v _ => ?_
    by_cases ht : v.target = target <;> by_cases hs : v.signer = target <;> simp [ht, hs, htarget]
  · rename_i htarget
    change s.votes.filter (fun v => v.target ≠ target) = _
    refine List.filter_congr fun v _ => ?_
    by_cases ht : v.target = target <;> by_cases hs : v.signer = target <;> simp [ht, hs, htarget]

/-- The votes that a vote on an account is counted with are those that it does not replace. -/
theorem standing_eq (c : Block) (hk : c.OnAccount) :
    c.before.standing c.signer c.header = c.before.votes.filter fun v => ¬c.ReplacesVote v := by
  rw [standing]
  by_cases he : c.before.isEpochStart c.header.number = true
  · simp [Block.ReplacesVote, Block.OpensEpoch, he]
  · rw [if_neg he]
    refine List.filter_congr fun v _ => ?_
    simp [Block.ReplacesVote, Block.OpensEpoch, he, hk, eq_comm]

/-- A block takes away the votes that it replaces, leaves its own if that asks for a change, and
    takes away those that it settles. -/
theorem Block.votes_after (c : Block) (hv : c.before.VotesKept c.before.number) :
    c.after.votes =
      ((c.before.votes.filter fun v => ¬c.ReplacesVote v) ++
        if c.AsksForChange then [c.vote] else []).filter fun v => ¬c.SettlesVote v := by
  by_cases hk : c.OnAccount
  · have hafter := c.step.eq_of_onAccount (onAccount_iff.1 hk)
    rw [voteOnAccount_enter] at hafter
    have hpoll := hv.poll c.step c.authorizes
    have hballot := hpoll.votes_settle c.header.coinbase c.header.number
    rw [← hafter, hv.votes_poll, ballot, standing_eq c hk] at hballot
    simp only [isSigner_poll] at hballot
    simp only [AsksForChange, hk, true_and]
    exact hballot
  · -- A vote for a percentage leaves the accounts as they are, and may only open an epoch.
    have hq := voteKind?_of_not_onAccount hk
    have hvotes : c.after.votes = if c.OpensEpoch then [] else c.before.votes := by
      rw [c.step.eq_of_quorumPercent hq, voteOnQuorum_eq]
      exact votes_enter c.before c.signer c.header
    have hsigners : c.after.isSigner = c.before.isSigner := by
      funext a
      rw [isSigner, c.step.signers_of_quorumPercent hq, isSigner]
    rw [hvotes]
    by_cases he : c.OpensEpoch <;>
      simp [ReplacesVote, AsksForChange, SettlesVote, Stops, he, hk, hsigners]

/-! ## The law of votes -/

/-- Whether the vote of a block is pending after the block of number `n`: it is on an account, in
    the current epoch, to let it seal if it was no signer and to stop it if it was one; its signer
    has not voted about the account since; and in no block from that one on what the account is has
    changed, or the signer has been stopped. -/
def Block.VotePending (config : Config) (blocks : List Block) (n : UInt64) (b : Block) : Prop :=
  b.OnAccount ∧
  epochStart config n ≤ b.number ∧
  b.authorizes = !b.before.isSigner b.header.coinbase ∧
  (∀ c ∈ blocks, b.number < c.number →
    ¬(c.OnAccount ∧ c.signer = b.signer ∧ c.header.coinbase = b.header.coinbase)) ∧
  (∀ c ∈ blocks, b.number ≤ c.number →
    c.after.isSigner b.header.coinbase = c.before.isSigner b.header.coinbase) ∧
  ∀ c ∈ blocks, b.number ≤ c.number → ¬c.Stops b.signer

instance (config : Config) (blocks : List Block) (n : UInt64) (b : Block) :
    Decidable (b.VotePending config blocks n) :=
  inferInstanceAs (Decidable (_ ∧ _ ∧ _ ∧ _ ∧ _ ∧ _))

theorem Run.votePending_iff (hr : Run s blocks t) {b : Block} (hb : b ∈ blocks) :
    b.VotePending s.config blocks t.number ↔
      b.AsksForChange ∧
        Lasts (fun c b => c.ReplacesVote b.vote) (fun c b => c.SettlesVote b.vote) blocks b := by
  rw [Block.VotePending, hr.epochStart_le_iff hb]
  simp only [Block.AsksForChange, Lasts, Block.ReplacesVote, Block.SettlesVote, isMeaningful_iff,
    not_or, imp_and, forall_and, ne_eq, not_not]
  constructor
  · rintro ⟨hk, hepoch, hasks, hlatest, hkept, hvoter⟩
    exact ⟨⟨hk, hasks⟩, ⟨hepoch, hlatest⟩, hkept, hvoter⟩
  · rintro ⟨⟨hk, hasks⟩, ⟨hepoch, hlatest⟩, hkept, hvoter⟩
    exact ⟨hk, hepoch, hasks, hlatest, hkept, hvoter⟩

/-- The pending votes on accounts at the end of a run are those of its blocks that nothing since has
    replaced or settled, in the order of the blocks. -/
theorem Run.votes_eq {config : Config} {number : UInt64} {hash : Digest} {signers : List Address}
    (hr : Run (ofSigners config number hash signers) blocks t) :
    t.votes = (blocks.filter fun b => b.VotePending config blocks t.number).map Block.vote := by
  rw [hr.eq_map_lasting votes Block.vote (.start ..) rfl fun c hc => c.votes_after hc.votesKept,
    lasting_eq_filter fun b hb => hr.votePending_iff hb]
  rfl

/-- The first of two signers votes to let an account seal and, after a vote of the other one on
    another account, to stop it. -/
def takenBack : List Header :=
  [.declaring (.ofLow64 1) 1 .authorize (.ofLow64 3),
    .declaring (.ofLow64 2) 2 .authorize (.ofLow64 4),
    .declaring (.ofLow64 1) 3 .drop (.ofLow64 3)]

/-- After that, only the vote in between is pending: the last one cannot mean what it says. -/
theorem votes_eq_takenBack :
    ∃ blocks t, Run (genesis {} [.ofLow64 1, .ofLow64 2]) blocks t ∧
      blocks.map Block.header = takenBack ∧
      (blocks.filter fun b => b.VotePending {} blocks t.number).map Block.vote =
        [⟨.ofLow64 2, 2, .ofLow64 4, true⟩] := by
  obtain ⟨blocks, t, hr, hheaders, hp⟩ := exists_run {} [.ofLow64 1, .ofLow64 2] takenBack
    (p := fun t => t.votes = [⟨.ofLow64 2, 2, .ofLow64 4, true⟩]) (by decide +kernel)
  have hpending := Run.votes_eq hr
  rw [of_decide_eq_true hp] at hpending
  exact ⟨blocks, t, hr, hheaders, hpending.symm⟩

end Snapshot

end SignerVoting
