import SignerVoting.Proofs.Proposals

/-!
# Cooldowns

A percentage that a vote puts in force is to stay for as many blocks as there are signers. Up to
which block is on record as its *cooldown*. Every vote for a percentage takes all cooldowns off the
record, and leaves the one of the percentage that it puts in force, if it does. Nothing else touches
them: a vote on an account does not, whatever comes of it, and an epoch that opens does not.

So there is one cooldown at most, that of the percentage in force. It is there if the last vote for
a percentage has changed it.

* `Step.quorumCooldowns_of_quorumPercent`: what a vote for a percentage leaves on record;
* `Step.quorumCooldowns_of_onAccount`: a vote on an account leaves the record as it is;
* `Run.quorum_of_last`: after the last vote for a percentage, the record and the percentage stay.
-/

namespace SignerVoting

namespace Snapshot

variable {s t : Snapshot} {signer : Address} {h : Header} {n : UInt64} {blocks : List Block}

/-! ## Votes for percentages -/

/-- Votes that suffice are for another percentage than the one in force. -/
theorem ProposalsKept.ne_of_passesQuorum (hs : s.ProposalsKept n) {percent : UInt64}
    (hp : s.passesQuorum percent = true) : percent ≠ s.quorumPercent := by
  rw [hs.passesQuorum_eq, decide_eq_true_eq] at hp
  have hpos := Nat.lt_of_lt_of_le s.requiredMajority_pos hp
  obtain ⟨v, hv, hpercent⟩ := List.countP_pos_iff.1 hpos
  rw [← of_decide_eq_true hpercent]
  exact hs.pending v hv

/-- A percentage that is put in force is entered with its cooldown. -/
theorem ProposalsKept.quorumCooldowns_settleQuorum (hs : s.ProposalsKept n)
    (percent block : UInt64) :
    (s.settleQuorum percent block).quorumCooldowns =
      if (s.settleQuorum percent block).quorumPercent = s.quorumPercent then s.quorumCooldowns
      else s.quorumCooldowns.insert (s.settleQuorum percent block).quorumPercent
        ⟨Word.addCapped block s.signerCount⟩ := by
  rw [Snapshot.settleQuorum]
  split
  · rename_i hp
    rw [if_neg (hs.ne_of_passesQuorum hp)]
  · rw [if_pos rfl]

/-- A vote for a percentage leaves the cooldown of the one that it puts in force, and no other. -/
theorem Step.quorumCooldowns_of_quorumPercent (hst : Step s signer h t)
    (hs : s.ProposalsKept s.number) (hk : h.voteKind? = some .quorumPercent) :
    t.quorumCooldowns =
      if t.quorumPercent = s.quorumPercent then ∅
      else {(t.quorumPercent, ⟨Word.addCapped h.number s.signerCount⟩)} := by
  have hclear : (s.quorumPoll signer h).quorumCooldowns = ∅ := by
    rw [quorumPoll, castQuorum_eq, withdrawQuorum_eq]
  have hcount : (s.quorumPoll signer h).signerCount = s.signerCount := by
    rw [quorumPoll, castQuorum_eq, withdrawQuorum_eq, signerCount, signerCount,
      ← signers_enter s signer h]
  have hsettled := (hs.quorumPoll hst).quorumCooldowns_settleQuorum h.quorumProposal h.number
  rw [← voteOnQuorum_enter, ← hst.eq_of_quorumPercent hk, hclear, hcount,
    quorumPercent_quorumPoll] at hsettled
  exact hsettled

/-! ## What leaves the record alone -/

@[simp]
theorem quorumCooldowns_enter (s : Snapshot) (signer : Address) (h : Header) :
    (s.enter signer h).quorumCooldowns = s.quorumCooldowns := by
  rw [enter_eq]
  dsimp only
  split <;> rfl

theorem Step.quorumCooldowns_of_onAccount {authorize : Bool} (hst : Step s signer h t)
    (hk : h.voteKind? = some (.onAccount authorize)) :
    t.quorumCooldowns = s.quorumCooldowns := by
  rw [hst.eq_of_onAccount hk, voteOnAccount_eq]
  exact quorumCooldowns_enter s signer h

/-- A block that does not vote for a percentage leaves the record and the percentage in force. -/
theorem Block.quorum_after {c : Block} (hc : ¬c.OnQuorum) :
    c.after.quorumCooldowns = c.before.quorumCooldowns ∧
      c.after.quorumPercent = c.before.quorumPercent := by
  obtain ⟨authorize, hk, -⟩ | ⟨hk, -⟩ := c.step.cases
  · exact ⟨c.step.quorumCooldowns_of_onAccount hk, c.step.quorumPercent_of_onAccount hk⟩
  · exact absurd hk hc

/-- What the last vote for a percentage has left stays. -/
theorem Run.quorum_of_last (hr : Run s blocks t) {b : Block} (hb : b ∈ blocks)
    (hlast : ∀ c ∈ blocks, b.number < c.number → ¬c.OnQuorum) :
    t.quorumCooldowns = b.after.quorumCooldowns ∧ t.quorumPercent = b.after.quorumPercent := by
  induction hr with
  | nil => cases hb
  | @concat blocks c hr ih =>
    obtain ⟨hearlier, hc⟩ := List.forall_mem_append.1 hlast
    rcases List.mem_append.1 hb with hb | hb
    · obtain ⟨hcooldowns, hpercent⟩ := ih hb hearlier
      obtain ⟨hcooldowns', hpercent'⟩ := Block.quorum_after
        (hc c List.mem_cons_self (hr.number_lt hb))
      exact ⟨hcooldowns'.trans hcooldowns, hpercent'.trans hpercent⟩
    · rw [List.mem_singleton.1 hb]
      exact ⟨rfl, rfl⟩

/-! ## The law of cooldowns -/

/-- After a run, no cooldown is on record if no block voted for a percentage, or if the last one
    that did has left the percentage as it was. If that block has changed it, there is exactly one:
    that of the percentage in force, up to as many blocks after it as there were signers, held at
    the greatest word. Blocks that vote on accounts leave the record as it is, whatever they carry
    out, and whether or not they open an epoch. -/
theorem Run.quorumCooldowns_eq {config : Config} {number : UInt64} {hash : Digest}
    {signers : List Address} (hr : Run (ofSigners config number hash signers) blocks t) :
    ((∀ b ∈ blocks, ¬b.OnQuorum) → t.quorumCooldowns = ∅) ∧
    (∀ b ∈ blocks, b.OnQuorum → (∀ c ∈ blocks, b.number < c.number → ¬c.OnQuorum) →
      (b.after.quorumPercent = b.before.quorumPercent → t.quorumCooldowns = ∅) ∧
      (b.after.quorumPercent ≠ b.before.quorumPercent →
        ∃ block : UInt64,
          block.toNat = min (b.number + b.before.signerCount.toNat) (UInt64.size - 1) ∧
            t.quorumCooldowns.toList = [(t.quorumPercent, ⟨block⟩)])) ∧
    ∀ c ∈ blocks, ¬c.OnQuorum → c.after.quorumCooldowns = c.before.quorumCooldowns := by
  refine ⟨fun hnone => ?_, fun b hb hk hlast => ?_, fun c _ hc => (Block.quorum_after hc).1⟩
  · exact (hr.invariant (p := fun u => u.quorumCooldowns = ∅) rfl fun b hb hbefore =>
      (Block.quorum_after (hnone b hb)).1.trans hbefore).1
  · obtain ⟨earlier, hbefore⟩ := hr.exists_before hb
    have hcooldowns := b.step.quorumCooldowns_of_quorumPercent
      (hbefore.reachable (.start ..)).proposalsKept hk
    obtain ⟨hrecord, hpercent⟩ := hr.quorum_of_last hb hlast
    rw [hrecord, hpercent, hcooldowns]
    refine ⟨fun hsame => if_pos hsame, fun hchanged => ?_⟩
    rw [if_neg hchanged]
    exact ⟨_, Word.toNat_addCapped b.header.number b.before.signerCount, rfl⟩

/-- The only signer of a chain puts another percentage in force. Then it lets a second one seal,
    with a block that opens an epoch, and the cooldown is for one block still. -/
theorem quorumCooldowns_eq_kept :
    ∃ blocks t, Run (genesis { epoch := 2 } [.ofLow64 1]) blocks t ∧ blocks.length = 2 ∧
      t.signers.size = 2 ∧ t.quorumCooldowns.toList = [(80, ⟨2⟩)] := by
  let s := genesis { epoch := 2 } [.ofLow64 1]
  let first := Header.declaring (.ofLow64 1) 1 .quorumPercent (.ofLow64 80)
  let second := Header.declaring (.ofLow64 1) 2 .authorize (.ofLow64 2)
  obtain ⟨t, ht, hp⟩ := exists_eq_ok_of_any (x := s.apply declared [first])
    (p := fun t => (t.apply declared [second]).toOption.any fun u =>
      t.quorumPercent = 80 ∧ u.signers.size = 2 ∧ u.quorumPercent = 80) (by decide +kernel)
  obtain ⟨u, hu, hpu⟩ := exists_eq_ok_of_any hp
  obtain ⟨hpercent, hsigners, hstays⟩ := of_decide_eq_true hpu
  obtain ⟨x, -, hst⟩ := apply_singleton_eq_ok_iff_step.1 ht
  obtain ⟨y, -, hst'⟩ := apply_singleton_eq_ok_iff_step.1 hu
  let b : Block := ⟨s, first, x, t, hst⟩
  let c : Block := ⟨t, second, y, u, hst'⟩
  have hr : Run s [b, c] u := .concat c (.concat b .nil)
  have hfirst : first.voteKind? = some .quorumPercent := by decide +kernel
  have hsecond : second.voteKind? ≠ some .quorumPercent := by decide +kernel
  have hlast : ∀ d ∈ [b, c], b.number < d.number → ¬d.OnQuorum := by
    intro d hd hlater
    rcases List.mem_pair.1 hd with rfl | rfl
    · exact absurd hlater (Nat.lt_irrefl _)
    · exact hsecond
  have hchanged : t.quorumPercent ≠ s.quorumPercent := by
    rw [hpercent]
    decide
  obtain ⟨block, hblock, hrecord⟩ :=
    ((Run.quorumCooldowns_eq hr).2.1 b List.mem_cons_self hfirst hlast).2 hchanged
  obtain rfl : block = 2 := UInt64.toNat_inj.1 hblock
  rw [hstays] at hrecord
  exact ⟨[b, c], u, hr, rfl, hsigners, hrecord⟩

end Snapshot

end SignerVoting
