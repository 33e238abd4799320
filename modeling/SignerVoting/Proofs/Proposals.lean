import SignerVoting.Proofs.Quorum
import SignerVoting.Proofs.Runs

/-!
# Votes for percentages as a history

Which votes for percentages are pending after a run can be told from its blocks alone, as for votes
on accounts. A block leaves its vote if that is for another percentage than the one in force
(`Block.AsksForPercent`). The vote is replaced by the opening of an epoch and by a later vote of the
same signer for the same percentage, whatever coinbase that is read from (`Block.ReplacesProposal`).
It is settled when the percentage is put in force, be it by the vote itself (`Block.PutsInForce`).
That its signer is stopped does not matter.

The score of a percentage also tells who voted for it last (`SignedByLast`).

* `Block.quorumVotes_after`: what one block does to the pending votes;
* `SignedByLast.step`: a block keeps the scores signed by the last voter;
* `Run.quorumVotes_eq`: the pending votes are those that nothing has replaced or settled, and each
  percentage has their score.
-/

namespace SignerVoting

namespace Snapshot

variable {s t : Snapshot} {blocks : List Block} {n : UInt64}

/-! ## The votes of blocks -/

namespace Block

/-- Whether a block votes for a percentage. -/
def OnQuorum (b : Block) : Prop := b.header.voteKind? = some .quorumPercent

instance (b : Block) : Decidable b.OnQuorum := inferInstanceAs (Decidable (_ = _))

/-- The vote of a block for a percentage. -/
def proposal (b : Block) : QuorumVote := b.header.percentVote b.signer

/-- Whether a block leaves a vote for a percentage: one other than that in force. -/
def AsksForPercent (b : Block) : Prop :=
  b.OnQuorum ∧ b.header.quorumProposal ≠ b.before.quorumPercent

instance (b : Block) : Decidable b.AsksForPercent := inferInstanceAs (Decidable (_ ∧ _))

/-- Whether a block takes away an earlier vote: by opening an epoch, or by voting for the percentage
    for the same signer. -/
def ReplacesProposal (c : Block) (v : QuorumVote) : Prop :=
  c.OpensEpoch ∨ c.OnQuorum ∧ c.signer = v.signer ∧ c.header.quorumProposal = v.percent

instance (c : Block) (v : QuorumVote) : Decidable (c.ReplacesProposal v) :=
  inferInstanceAs (Decidable (_ ∨ _))

/-- Whether a block puts a percentage in force. -/
def PutsInForce (c : Block) (percent : UInt64) : Prop :=
  c.before.quorumPercent ≠ percent ∧ c.after.quorumPercent = percent

instance (c : Block) (percent : UInt64) : Decidable (c.PutsInForce percent) :=
  inferInstanceAs (Decidable (_ ∧ _))

end Block

/-! ## One block -/

/-- Putting a percentage in force takes away the votes for it. -/
theorem ProposalsKept.quorumVotes_settleQuorum (h : s.ProposalsKept n) (percent block : UInt64) :
    (s.settleQuorum percent block).quorumVotes = s.quorumVotes.filter fun v =>
      ¬(s.quorumPercent ≠ v.percent ∧
        (s.settleQuorum percent block).quorumPercent = v.percent) := by
  rw [Snapshot.settleQuorum]
  split
  · refine List.filter_congr fun v hv => ?_
    simp [Ne.symm (h.pending v hv), eq_comm]
  · exact (List.filter_eq_self.2 fun v _ => by simp).symm

/-- The votes that a vote for a percentage is counted with are those that it does not replace, and
    the vote if it is for another percentage. -/
theorem quorumBallot_eq (c : Block) (hk : c.OnQuorum) :
    c.before.quorumBallot c.signer c.header =
      (c.before.quorumVotes.filter fun v => ¬c.ReplacesProposal v) ++
        if c.AsksForPercent then [c.proposal] else [] := by
  rw [quorumBallot]
  congr 1
  · by_cases he : c.before.isEpochStart c.header.number = true
    · simp [Block.ReplacesProposal, Block.OpensEpoch, he]
    · rw [if_neg he]
      refine List.filter_congr fun v _ => ?_
      simp [Block.ReplacesProposal, Block.OpensEpoch, he, hk, eq_comm]
  · simp only [Block.AsksForPercent, hk, true_and]
    rfl

/-- A block takes away the votes that it replaces, leaves its own if that is for another percentage,
    and takes away those that it settles. -/
theorem Block.quorumVotes_after (c : Block) (hp : c.before.ProposalsKept c.before.number) :
    c.after.quorumVotes =
      ((c.before.quorumVotes.filter fun v => ¬c.ReplacesProposal v) ++
        if c.AsksForPercent then [c.proposal] else []).filter fun v =>
          ¬c.PutsInForce v.percent := by
  obtain ⟨authorize, hk, hafter⟩ | ⟨hk, hafter⟩ := c.step.cases
  · -- A vote on an account leaves the percentage in force, and may only open an epoch.
    have hq : ¬c.OnQuorum := by
      rw [OnQuorum, hk]
      cases authorize <;> simp [VoteKind.onAccount]
    have hvotes : c.after.quorumVotes = if c.OpensEpoch then [] else c.before.quorumVotes := by
      rw [hafter, voteOnAccount_eq]
      exact quorumVotes_enter c.before c.signer c.header
    have hpercent := c.step.quorumPercent_of_onAccount hk
    rw [hvotes]
    by_cases he : c.OpensEpoch <;>
      simp [ReplacesProposal, AsksForPercent, PutsInForce, he, hq, hpercent]
  · have hballot := (hp.quorumPoll c.step).quorumVotes_settleQuorum c.header.quorumProposal
      c.header.number
    rw [voteOnQuorum_enter] at hafter
    rw [← hafter, quorumPercent_quorumPoll, hp.quorumVotes_quorumPoll, quorumBallot_eq c hk]
      at hballot
    exact hballot

/-! ## Who voted last -/

/-- Who cast the last vote for a percentage on a list. -/
def lastProposer? (votes : List QuorumVote) (percent : UInt64) : Option Address :=
  (votes.filter fun v => v.percent = percent).getLast?.map QuorumVote.signer

theorem lastProposer?_concat (votes : List QuorumVote) (v : QuorumVote) (percent : UInt64) :
    lastProposer? (votes ++ [v]) percent =
      if v.percent = percent then some v.signer else lastProposer? votes percent := by
  rw [lastProposer?, List.filter_append]
  by_cases hv : v.percent = percent <;> simp [hv, lastProposer?]

/-- Taking votes for other percentages off a list leaves who was last. -/
theorem lastProposer?_filter {votes : List QuorumVote} {percent : UInt64} {p : QuorumVote → Bool}
    (hp : ∀ v ∈ votes, v.percent = percent → p v = true) :
    lastProposer? (votes.filter p) percent = lastProposer? votes percent := by
  rw [lastProposer?, lastProposer?, List.filter_filter]
  congr 2
  refine List.filter_congr fun v hv => ?_
  by_cases hvp : v.percent = percent
  · simp [hvp, hp v hv hvp]
  · simp [hvp]

theorem lastProposer?_eq_none {votes : List QuorumVote} {percent : UInt64}
    (h : ∀ v ∈ votes, v.percent ≠ percent) : lastProposer? votes percent = none := by
  rw [lastProposer?, List.filter_eq_nil_iff.2 fun v hv => by simpa using h v hv]
  rfl

end Snapshot

namespace QuorumTallies

/-- A vote signs the score of its percentage. -/
theorem signer_cast (t : QuorumTallies) (percent p : UInt64) (signer : Address) :
    (t.cast percent signer)[p]?.map QuorumTally.signer =
      if percent = p then some signer else t[p]?.map QuorumTally.signer := by
  rw [cast, Std.ExtTreeMap.getElem?_alter]
  by_cases h : percent = p
  · subst h
    simp only [Std.ReflCmp.compare_self, if_true]
    cases t[percent]? <;> rfl
  · simp [h, Std.LawfulEqCmp.compare_eq_iff_eq]

/-- Taking back a vote for one percentage leaves the scores of the others. -/
theorem getElem?_uncast_of_ne (t : QuorumTallies) {percent p : UInt64} (h : percent ≠ p) :
    (t.uncast percent)[p]? = t[p]? := by
  rw [uncast, Std.ExtTreeMap.getElem?_alter]
  simp [h, Std.LawfulEqCmp.compare_eq_iff_eq]

end QuorumTallies

namespace Snapshot

variable {s t : Snapshot} {blocks : List Block} {n : UInt64}

theorem getElem?_quorumTally_withdrawQuorum (s : Snapshot) (signer : Address) {percent p : UInt64}
    (h : percent ≠ p) : (s.withdrawQuorum signer percent).quorumTally[p]? = s.quorumTally[p]? := by
  rw [withdrawQuorum]
  split
  · exact QuorumTallies.getElem?_uncast_of_ne _ h
  · rfl

/-- The score of each percentage is signed by who voted for it last. -/
def SignedByLast (s : Snapshot) : Prop :=
  ∀ percent, s.quorumTally[percent]?.map QuorumTally.signer = lastProposer? s.quorumVotes percent

theorem SignedByLast.of_empty (htally : s.quorumTally = ∅) (hvotes : s.quorumVotes = []) :
    s.SignedByLast := by
  intro percent
  rw [htally, hvotes]
  simp [lastProposer?]

/-- A vote signs the score of its percentage, and leaves those of others. -/
theorem SignedByLast.record (h : s.SignedByLast) (hp : s.ProposalsKept n) (v : QuorumVote) :
    ((s.withdrawQuorum v.signer v.percent).castQuorum v).SignedByLast := by
  by_cases hforce : v.percent = s.quorumPercent
  · -- There is no vote for the percentage in force: none is taken back, and none is cast.
    have hnone : ¬(s.quorumVotes.any fun w =>
        decide (w.signer = v.signer ∧ w.percent = v.percent)) = true := by
      simp only [List.any_eq_true, decide_eq_true_eq, not_exists, not_and]
      exact fun w hw _ hwp => hp.pending w hw (hwp.trans hforce)
    rw [withdrawQuorum, if_neg hnone, castQuorum, if_neg fun hne => hne hforce.symm]
    exact h
  intro percent
  have hpercent : (s.withdrawQuorum v.signer v.percent).quorumPercent ≠ v.percent := by
    rw [withdrawQuorum_eq]
    exact Ne.symm hforce
  rw [castQuorum, if_pos hpercent]
  dsimp only
  rw [QuorumTallies.signer_cast, lastProposer?_concat]
  split
  · rfl
  · -- Taking the earlier vote back leaves the other percentages.
    rename_i hne
    rw [getElem?_quorumTally_withdrawQuorum s v.signer hne, h percent,
      quorumVotes_withdrawQuorum hp.unique, lastProposer?_filter]
    rintro w - rfl
    simp [Ne.symm hne]

theorem SignedByLast.settleQuorum (h : s.SignedByLast) (percent block : UInt64) :
    (s.settleQuorum percent block).SignedByLast := by
  rw [Snapshot.settleQuorum]
  split
  · intro p
    dsimp only
    by_cases hp : percent = p
    · subst hp
      rw [lastProposer?_eq_none fun v hv => of_decide_eq_true (List.mem_filter.1 hv).2]
      simp
    · rw [Std.ExtTreeMap.getElem?_erase, lastProposer?_filter, ← h p]
      · simp [hp, Std.LawfulEqCmp.compare_eq_iff_eq]
      · rintro v - rfl
        simpa using Ne.symm hp
  · exact h

theorem SignedByLast.enter (h : s.SignedByLast) (signer : Address) (hd : Header) :
    (s.enter signer hd).SignedByLast := by
  rw [enter_eq]
  split
  · exact .of_empty rfl rfl
  · exact h

/-- A step keeps the scores signed by the last voter. -/
theorem SignedByLast.step {signer : Address} {hd : Header} (h : s.SignedByLast)
    (hp : s.ProposalsKept s.number) (hst : Step s signer hd t) : t.SignedByLast := by
  have henter := h.enter signer hd
  obtain ⟨authorize, -, rfl⟩ | ⟨-, rfl⟩ := hst.cases
  · rw [voteOnAccount_eq]
    exact henter
  · have hclear : { s.enter signer hd with quorumCooldowns := ∅ }.ProposalsKept s.number :=
      { hp.enter signer hd with }
    have hsigned : { s.enter signer hd with quorumCooldowns := ∅ }.SignedByLast := henter
    exact (hsigned.record hclear (hd.percentVote signer)).settleQuorum _ _

theorem Reachable.signedByLast (hs : Reachable s) : s.SignedByLast := by
  induction hs using Reachable.block_induction with
  | start config number hash signers => exact .of_empty rfl rfl
  | step hs hst ih => exact ih.step hs.proposalsKept hst

/-! ## The law of votes for percentages -/

/-- Whether the vote of a block for a percentage is pending after the block of number `n`: it is in
    the current epoch, for another percentage than that in force; its signer has not voted for the
    percentage since; and in no block from that one on the percentage has been put in force. -/
def Block.ProposalPending (config : Config) (blocks : List Block) (n : UInt64) (b : Block) : Prop :=
  b.OnQuorum ∧
  epochStart config n ≤ b.number ∧
  b.header.quorumProposal ≠ b.before.quorumPercent ∧
  (∀ c ∈ blocks, b.number < c.number →
    ¬(c.OnQuorum ∧ c.signer = b.signer ∧ c.header.quorumProposal = b.header.quorumProposal)) ∧
  ∀ c ∈ blocks, b.number ≤ c.number → ¬c.PutsInForce b.header.quorumProposal

instance (config : Config) (blocks : List Block) (n : UInt64) (b : Block) :
    Decidable (b.ProposalPending config blocks n) :=
  inferInstanceAs (Decidable (_ ∧ _ ∧ _ ∧ _ ∧ _))

theorem Run.proposalPending_iff (hr : Run s blocks t) {b : Block} (hb : b ∈ blocks) :
    b.ProposalPending s.config blocks t.number ↔
      b.AsksForPercent ∧
        Lasts (fun c b => c.ReplacesProposal b.proposal)
          (fun c b => c.PutsInForce b.proposal.percent) blocks b := by
  rw [Block.ProposalPending, hr.epochStart_le_iff hb]
  simp only [Block.AsksForPercent, Lasts, Block.ReplacesProposal, not_or, imp_and, forall_and]
  constructor
  · rintro ⟨hk, hepoch, hasks, hlatest, hforce⟩
    exact ⟨⟨hk, hasks⟩, ⟨hepoch, hlatest⟩, hforce⟩
  · rintro ⟨⟨hk, hasks⟩, ⟨hepoch, hlatest⟩, hforce⟩
    exact ⟨hk, hepoch, hasks, hlatest, hforce⟩

/-- The pending votes for percentages at the end of a run are those of its blocks that nothing since
    has replaced or settled, in the order of the blocks, a signer's only one for the percentage. A
    percentage has a score exactly if there are votes for it: their number, signed by the last
    voter. The percentage in force has none. -/
theorem Run.quorumVotes_eq {config : Config} {number : UInt64} {hash : Digest}
    {signers : List Address} (hr : Run (ofSigners config number hash signers) blocks t) :
    t.quorumVotes =
      (blocks.filter fun b => b.ProposalPending config blocks t.number).map Block.proposal ∧
    (t.quorumVotes.Pairwise fun v w => ¬(v.signer = w.signer ∧ v.percent = w.percent)) ∧
    (∀ percent, percent ∈ t.quorumTally ↔ ∃ v ∈ t.quorumVotes, v.percent = percent) ∧
    (∀ percent x, t.quorumTally[percent]? = some x →
      x.votes.toNat = (t.quorumVotes.countP fun v => v.percent = percent) ∧
      x.authorize = true ∧
      (t.quorumVotes.filter fun v => v.percent = percent).getLast?.map QuorumVote.signer =
        some x.signer) ∧
    t.quorumPercent ∉ t.quorumTally := by
  have hs : Reachable t := hr.reachable (.start ..)
  have hp := hs.proposalsKept
  refine ⟨?_, hp.unique.imp fun hvw hc => hvw hc.1 hc.2, fun percent => hp.counts.mem_iff,
    fun percent x hx => ?_, fun hforce => ?_⟩
  · rw [hr.eq_map_lasting quorumVotes Block.proposal (.start ..) rfl fun c hc =>
      c.quorumVotes_after hc.proposalsKept, lasting_eq_filter fun b hb => hr.proposalPending_iff hb]
    rfl
  · obtain ⟨v, hv, hvp⟩ := hp.counts.exists_vote hx
    have hsigned := hs.signedByLast percent
    rw [hx] at hsigned
    refine ⟨hp.counts.number_eq hx, ?_, hsigned.symm⟩
    rw [← hp.affirmative v hv]
    exact (hp.counts.direction_eq hx hv hvp).symm
  · obtain ⟨v, hv, hvp⟩ := hp.counts.mem_iff.1 hforce
    exact hp.pending v hv hvp

/-- A coinbase that 80 is read from, like from the one made from the number. -/
def otherEighty : Address := ⟨((Vector.replicate 20 0).set 0 1).set 19 80⟩

/-- The first of three signers votes for 80, the second for 60, and then the first for 80 once more,
    with another coinbase. -/
def repeated : List Header :=
  [.declaring (.ofLow64 1) 1 .quorumPercent (.ofLow64 80),
    .declaring (.ofLow64 2) 2 .quorumPercent (.ofLow64 60),
    .declaring (.ofLow64 1) 3 .quorumPercent otherEighty]

/-- After that, the later one of the two votes for 80 is pending, and counted once. -/
theorem quorumVotes_eq_repeated :
    ∃ blocks t, Run (genesis {} [.ofLow64 1, .ofLow64 2, .ofLow64 3]) blocks t ∧
      blocks.map Block.header = repeated ∧
      (blocks.filter fun b => b.ProposalPending {} blocks t.number).map Block.proposal =
        [⟨.ofLow64 2, 2, .ofLow64 60, 60, true⟩, ⟨.ofLow64 1, 3, otherEighty, 80, true⟩] ∧
      ∃ x, t.quorumTally[(80 : UInt64)]? = some x ∧ x.votes.toNat = 1 ∧ x.signer = .ofLow64 1 := by
  obtain ⟨blocks, t, hr, hheaders, hp⟩ :=
    exists_run {} [.ofLow64 1, .ofLow64 2, .ofLow64 3] repeated
      (p := fun t => t.quorumVotes =
        [⟨.ofLow64 2, 2, .ofLow64 60, 60, true⟩, ⟨.ofLow64 1, 3, otherEighty, 80, true⟩])
      (by decide +kernel)
  have hvotes := of_decide_eq_true hp
  obtain ⟨hpending, -, hmem, hscore, -⟩ := Run.quorumVotes_eq hr
  rw [hvotes] at hpending hmem hscore
  have h80 : (80 : UInt64) ∈ t.quorumTally := (hmem 80).2 (by simp)
  obtain ⟨x, hx⟩ := mem_iff_exists_getElem?.1 h80
  obtain ⟨hnumber, -, hlast⟩ := hscore 80 x hx
  exact ⟨blocks, t, hr, hheaders, hpending.symm, x, hx, hnumber, (Option.some.inj hlast).symm⟩

end Snapshot

end SignerVoting
