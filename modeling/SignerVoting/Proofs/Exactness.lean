import SignerVoting.Proofs.Batches
import SignerVoting.Proofs.Checked
import SignerVoting.Proofs.Majority
import SignerVoting.Proofs.Quorum
import SignerVoting.Proofs.Window

/-!
# Exact arithmetic

In a replay from a reachable snapshot every sum and every difference is that of the numbers, and
none wraps around: the replay with checked arithmetic has a result, and it is that of the running
one. The counters stay small because each block carries one vote and puts one signer on record, so
that there are no more votes and no more recent signers than blocks (`InOrder`), and the number of a
block is a word. While headers are processed the snapshot keeps the number that it started with, so
that the bounds are by the number of the header that was processed last.

* `InOrder.process?_eq`: in a snapshot in order, the next header is processed exactly;
* `InOrder.process`: and leaves a snapshot in order;
* `Reachable.arithmetic_exact`: so that replays are exact, and the required majority is in any
  snapshot.
-/

namespace SignerVoting

namespace Snapshot

variable {s t : Snapshot} {n : UInt64} {h : Header} {headers : List Header}
  {recover : Header → Except Failure Address}

/-! ## Votes -/

/-- The counter of an account has room for one vote more, as long as there is a next block. -/
theorem VotesKept.room (hs : s.VotesKept n) {block : UInt64} (hn : block.toNat = n.toNat + 1)
    {a : Address} {x : Tally} (hx : s.tally[a]? = some x) : x.votes.toNat + 1 < UInt64.size := by
  have hle : x.votes.toNat ≤ s.votes.length := hs.counts.number_le hx
  have hlength := hs.length_le
  have hblock : block.toNat < UInt64.size := block.toNat_lt
  omega

/-- The counter of a percentage has room for one vote more, as long as there is a next block. -/
theorem ProposalsKept.room (hs : s.ProposalsKept n) {block : UInt64}
    (hn : block.toNat = n.toNat + 1) {percent : UInt64} {x : QuorumTally}
    (hx : s.quorumTally[percent]? = some x) : x.votes.toNat + 1 < UInt64.size := by
  have hle : x.votes.toNat ≤ s.quorumVotes.length := hs.counts.number_le hx
  have hlength := hs.length_le
  have hblock : block.toNat < UInt64.size := block.toNat_lt
  omega

theorem voteOnAccount?_eq (hs : s.VotesKept n) {v : Vote} (hn : v.block.toNat = n.toNat + 1)
    (hsize : s.recents.size < UInt64.size) : s.voteOnAccount? v = some (s.voteOnAccount v) := by
  have hwithdrawn := hs.withdraw v.signer v.target
  have hsize' : ((s.withdraw v.signer v.target).cast v).recents.size < UInt64.size := by
    rw [cast_eq, withdraw_eq]
    exact hsize
  rw [voteOnAccount?, withdraw?_eq, Option.bind_eq_bind, Option.bind_some,
    cast?_eq fun x => hwithdrawn.room hn]
  exact settle?_eq hsize' v.target v.block

theorem voteOnQuorum?_eq (hs : s.ProposalsKept n) {v : QuorumVote}
    (hn : v.block.toNat = n.toNat + 1) : s.voteOnQuorum? v = some (s.voteOnQuorum v) := by
  have hclear : { s with quorumCooldowns := ∅ }.ProposalsKept n := { hs with }
  have hwithdrawn := hclear.withdrawQuorum v.signer v.percent
  rw [voteOnQuorum?, withdrawQuorum?_eq, Option.bind_eq_bind, Option.bind_some,
    castQuorum?_eq fun x => hwithdrawn.room hn]
  exact settleQuorum?_eq _ v.percent v.block

/-! ## One block -/

theorem vote?_eq (hv : s.VotesKept n) (hp : s.ProposalsKept n)
    (hn : h.number.toNat = n.toNat + 1) (hsize : s.recents.size < UInt64.size) (signer : Address) :
    s.vote? signer h = some (s.vote signer h) := by
  have haccount (authorize : Bool) :
      s.voteOnAccount? (h.accountVote signer authorize) = some _ := voteOnAccount?_eq hv hn hsize
  have hquorum : s.voteOnQuorum? (h.percentVote signer) = some _ := voteOnQuorum?_eq hp hn
  rw [Header.percentVote] at hquorum
  simp only [Header.accountVote] at haccount
  rw [vote?, vote, haccount, haccount, hquorum]
  cases h.voteKind? with
  | none => rfl
  | some kind => cases kind <;> rfl

theorem acceptBlock?_eq (hv : s.VotesKept n) (hp : s.ProposalsKept n)
    (hn : h.number.toNat = n.toNat + 1) (hsize : s.recents.size + 1 < UInt64.size)
    (signer : Address) : s.acceptBlock? signer h = some (s.acceptBlock signer h) := by
  have hinsert : (s.recents.insert h.number signer).size < UInt64.size :=
    Nat.lt_of_le_of_lt Std.ExtTreeMap.size_insert_le hsize
  have hvote := vote?_eq (s := { s with recents := s.recents.insert h.number signer })
    { hv with } { hp with } hn hinsert signer
  rw [acceptBlock?, acceptBlock, hvote]
  split
  · rfl
  split <;> rfl

/-- The votes and the recent signers are in good order after the block of that number. -/
structure InOrder (s : Snapshot) (n : UInt64) : Prop where
  votes : s.VotesKept n
  proposals : s.ProposalsKept n
  recents : RecentsKept s.recents n.toNat

theorem Reachable.inOrder (hs : Reachable s) : s.InOrder s.number :=
  ⟨hs.votesKept, hs.proposalsKept, hs.recentsKept⟩

namespace InOrder

/-- There are no more recent signers than blocks. -/
theorem size_recents_le (hs : s.InOrder n) : s.recents.size ≤ n.toNat := by
  obtain ⟨m, -, hspans⟩ := hs.recents.spans
  rw [hspans.size_eq n.toNat_lt]
  exact Nat.sub_le _ _

/-- The next header is processed exactly. -/
theorem process?_eq (hs : s.InOrder n) (hn : h.number.toNat = n.toNat + 1) :
    process? recover s h = some (process recover s h) := by
  have hsize := hs.size_recents_le
  have hnumber : h.number.toNat < UInt64.size := h.number.toNat_lt
  have hopen : (s.openBlock h.number).recents.size ≤ s.recents.size := by
    rw [recents_openBlock]
    exact Std.ExtTreeMap.size_filter_le_size
  rw [process?, openBlock?_eq (by omega), process]
  cases recover h with
  | error failure => rfl
  | ok signer =>
    -- But for its label, the snapshot has the votes with which the block is entered.
    have hv := hs.votes.enter signer h
    have hp := hs.proposals.enter signer h
    rw [enter_eq_relabel] at hv hp
    have hopenVotes : (s.openBlock h.number).VotesKept n := { hv with }
    have hopenProposals : (s.openBlock h.number).ProposalsKept n := { hp with }
    exact acceptBlock?_eq hopenVotes hopenProposals hn (by omega) signer

/-- The next header leaves a snapshot in order. -/
theorem process (hs : s.InOrder n) (hn : h.number.toNat = n.toNat + 1)
    (ht : Snapshot.process recover s h = .ok t) : t.InOrder h.number := by
  -- Under the number of the last block, the snapshot makes a step.
  have happly : (s.relabel n s.hash).apply recover [h] =
      .ok ((t.relabel n s.hash).relabel h.number h.hash) := by
    refine apply_singleton_eq_ok_iff.2 ⟨hn, t.relabel n s.hash, ?_, rfl⟩
    rw [process_relabel, ht]
    rfl
  obtain ⟨signer, -, hst⟩ := apply_singleton_eq_ok_iff_step.1 happly
  have hv : (s.relabel n s.hash).VotesKept n := { hs.votes with }
  have hp : (s.relabel n s.hash).ProposalsKept n := { hs.proposals with }
  exact ⟨{ hv.step hst with }, { hp.step hst with }, RecentsKept.step hs.recents hv hst⟩

/-! ## Replays -/

/-- Headers that follow on the last block are processed exactly. -/
theorem processAll?_eq (hs : s.InOrder n) (hf : FollowOn n headers) :
    processAll? recover s headers = some (headers.foldlM (Snapshot.process recover) s) := by
  induction headers generalizing s n with
  | nil => rfl
  | cons h rest ih =>
    obtain ⟨hn, hrest⟩ := followOn_cons_iff.1 hf
    rw [processAll?, hs.process?_eq hn, List.foldlM_cons]
    cases ht : Snapshot.process recover s h with
    | error failure => rfl
    | ok t => exact ih (hs.process hn ht) hrest

end InOrder

/-- A replay from a snapshot in order is exact. -/
theorem InOrder.replay?_eq (hs : s.InOrder s.number) (recover : Header → Except Failure Address)
    (headers : List Header) : s.replay? recover headers = some (s.apply recover headers) := by
  by_cases hne : headers = []
  · rw [hne]
    rfl
  rw [replay?, List.getLast?_eq_some_getLast hne, apply_of_ne_nil recover s hne]
  cases hchain : chainFailure? (Word.next? s.number) headers with
  | some failure => rfl
  | none =>
    have hf := chainFailure?_eq_none_iff.1 hchain
    have hlast := hf.add_length_lt
    dsimp only
    rw [hs.processAll?_eq hf]
    cases hu : headers.foldlM (Snapshot.process recover) s with
    | error failure => rfl
    | ok u =>
      -- The snapshot still has the number that it started with.
      have hlength : headers.length < UInt64.size := by omega
      have hadd : u.number.toNat + (UInt64.ofNat headers.length).toNat < UInt64.size := by
        rw [number_of_foldlM_process hu, UInt64.toNat_ofNat_of_lt' hlength]
        exact hlast
      simp only [Option.bind_eq_bind, Option.bind_some, Word.ofNat?_eq hlength, Word.add?_eq hadd]
      rfl

/-- From a reachable snapshot, no sum and no difference of a replay wraps around: the replay with
    checked arithmetic has a result, and it is that of the replay. Whatever the number of signers
    and the percentage are, the required majority is computed exactly, and is one at least; it is
    one more than the percentage of the signers, rounded down, as long as the product fits into a
    word. -/
theorem Reachable.arithmetic_exact (hs : Reachable s) (recover : Header → Except Failure Address)
    (headers : List Header) :
    s.replay? recover headers = some (s.apply recover headers) ∧
      ∀ t : Snapshot, t.requiredMajority? = some t.requiredMajority ∧
        1 ≤ t.requiredMajority.toNat ∧
        (t.signers.size * t.quorumPercent.toNat < UInt64.size →
          t.requiredMajority.toNat = t.signers.size * t.quorumPercent.toNat / 100 + 1) := by
  refine ⟨hs.inOrder.replay?_eq recover headers, fun t => ?_⟩
  exact ⟨t.requiredMajority?_eq, t.requiredMajority_pos, toNat_requiredMajority_of_lt⟩

/-- Up to the greatest number that a block can have: a signer lets another account seal, and both of
    them vote for the greatest percentage, which passes. The required majority is then the greatest
    that there is. -/
theorem arithmetic_exact_greatest :
    let s := ofSigners {} (Word.greatest - 3) (.replicate 32 0) [.ofLow64 1]
    let headers : List Header :=
      [.declaring (.ofLow64 1) (Word.greatest - 2) .authorize (.ofLow64 2),
        .declaring (.ofLow64 2) (Word.greatest - 1) .quorumPercent (.ofLow64 Word.greatest),
        .declaring (.ofLow64 1) Word.greatest .quorumPercent (.ofLow64 Word.greatest)]
    ∃ t, s.apply declared headers = .ok t ∧ s.replay? declared headers = some (.ok t) ∧
      t.number = Word.greatest ∧ t.quorumPercent = Word.greatest ∧
        t.requiredMajority? = some (Word.greatest / 100 + 1) := by
  intro s headers
  have hs : Reachable s := .start ..
  have hend : (s.apply declared headers).toOption.any (fun t =>
      t.number = Word.greatest ∧ t.quorumPercent = Word.greatest ∧
        t.requiredMajority = Word.greatest / 100 + 1) = true := by decide +kernel
  obtain ⟨t, ht, hlast⟩ := exists_eq_ok_of_any hend
  obtain ⟨hnumber, hpercent, hmajority⟩ := of_decide_eq_true hlast
  obtain ⟨hexact, hmajorities⟩ := hs.arithmetic_exact declared headers
  refine ⟨t, ht, ht ▸ hexact, hnumber, hpercent, ?_⟩
  rw [(hmajorities t).1, hmajority]

end Snapshot

end SignerVoting
