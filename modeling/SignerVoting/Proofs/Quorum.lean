import SignerVoting.Proofs.Votes

/-!
# The quorum percentage

The pending votes for percentages are in good order as well (`ProposalsKept`): each is a voter's
only one for the percentage, which is not the one in force, and is counted in the tally. Blocks
keep that order (`ProposalsKept.step`). The percentage changes by votes for percentages only, to
the one that is voted for, and exactly if the votes for it suffice (`Step.quorumPercent_ne_iff`).

The votes are of as many accounts (`ProposalsKept.size_proposers`), but not all of these need be
signers: what a signer voted for before it was stopped is counted until an epoch starts. So the
percentage may change without a majority of the signers.
-/

namespace SignerVoting

namespace Snapshot

variable {s t : Snapshot} {signer : Address} {h : Header} {n m : UInt64}

/-! ## The order of votes -/

/-- The votes for percentages that are pending after the block of that number: one of a voter for a
    percentage at most, none for the one in force; counted. -/
structure ProposalsKept (s : Snapshot) (n : UInt64) : Prop where
  counts : s.quorumTally.Counts s.quorumVotes
  unique : s.quorumVotes.Pairwise fun v w => v.signer = w.signer → v.percent ≠ w.percent
  affirmative : ∀ v ∈ s.quorumVotes, v.authorize = true
  pending : ∀ v ∈ s.quorumVotes, v.percent ≠ s.quorumPercent
  /-- Each block carries one vote, so that no counter is ever full. -/
  length_le : s.quorumVotes.length ≤ n.toNat

namespace ProposalsKept

theorem ofSigners (config : Config) (number : UInt64) (hash : Digest) (signers : List Address) :
    (ofSigners config number hash signers).ProposalsKept n where
  counts := .empty
  unique := .nil
  affirmative _ hv := nomatch hv
  pending _ hv := nomatch hv
  length_le := Nat.zero_le _

theorem mono (h : s.ProposalsKept n) (hnm : n ≤ m) : s.ProposalsKept m :=
  { h with length_le := Nat.le_trans h.length_le (UInt64.le_iff_toNat_le.1 hnm) }

/-- Votes can be dropped. -/
theorem of_sublist (h : s.ProposalsKept n) (hsub : t.quorumVotes.Sublist s.quorumVotes)
    (hcounts : t.quorumTally.Counts t.quorumVotes)
    (hpending : ∀ v ∈ t.quorumVotes, v.percent ≠ t.quorumPercent) : t.ProposalsKept n where
  counts := hcounts
  unique := h.unique.sublist hsub
  affirmative v hv := h.affirmative v (hsub.subset hv)
  pending := hpending
  length_le := Nat.le_trans hsub.length_le h.length_le

end ProposalsKept

/-! ### Taking back and casting -/

/-- An earlier vote is taken off the list, where it is the only one. -/
theorem quorumVotes_withdrawQuorum
    (hs : s.quorumVotes.Pairwise fun v w => v.signer = w.signer → v.percent ≠ w.percent)
    (signer : Address) (percent : UInt64) :
    (s.withdrawQuorum signer percent).quorumVotes =
      s.quorumVotes.filter fun v => !decide (v.signer = signer ∧ v.percent = percent) := by
  rw [← eraseP_eq_filter_of_unique QuorumVote.signer QuorumVote.percent hs, withdrawQuorum]
  split
  · rfl
  · rename_i hnone
    refine (List.eraseP_of_forall_not fun v hv hsame => hnone ?_).symm
    exact List.any_eq_true.2 ⟨v, hv, hsame⟩

theorem ProposalsKept.withdrawQuorum (h : s.ProposalsKept n) (signer : Address)
    (percent : UInt64) : (s.withdrawQuorum signer percent).ProposalsKept n := by
  have hcounts : (s.withdrawQuorum signer percent).quorumTally.Counts
      (s.withdrawQuorum signer percent).quorumVotes := by
    rw [Snapshot.withdrawQuorum]
    split
    · rename_i hany
      -- The score is taken back by the percentage alone, which is that of the vote.
      obtain ⟨v, hfind⟩ :=
        Option.isSome_iff_exists.1 (List.find?_isSome.2 (List.any_eq_true.1 hany))
      have hv : v.signer = signer ∧ v.percent = percent := by simpa using List.find?_some hfind
      have hcounts := QuorumTallies.Counts.uncast (h.counts.perm (perm_cons_eraseP hfind))
        (h.affirmative v (List.mem_of_find?_eq_some hfind))
      rw [hv.2] at hcounts
      exact hcounts
    · exact h.counts
  have hsub : (s.withdrawQuorum signer percent).quorumVotes.Sublist s.quorumVotes := by
    rw [quorumVotes_withdrawQuorum h.unique]
    exact List.filter_sublist
  refine h.of_sublist hsub hcounts fun v hv => ?_
  rw [withdrawQuorum_eq]
  exact h.pending v (hsub.subset hv)

theorem quorumVotes_castQuorum (s : Snapshot) (v : QuorumVote) :
    (s.castQuorum v).quorumVotes =
      s.quorumVotes ++ if v.percent ≠ s.quorumPercent then [v] else [] := by
  by_cases hv : v.percent = s.quorumPercent
  · rw [castQuorum, if_neg fun hne => hne hv.symm, if_neg fun hne => hne hv, List.append_nil]
  · rw [castQuorum, if_pos (Ne.symm hv), if_pos hv]

/-- A vote is cast by a voter that has no other one for the percentage, in the next block. -/
theorem ProposalsKept.castQuorum (h : s.ProposalsKept n) {v : QuorumVote}
    (hn : v.block.toNat = n.toNat + 1) (hv : v.authorize = true)
    (hfresh : ∀ w ∈ s.quorumVotes, w.signer = v.signer → w.percent ≠ v.percent) :
    (s.castQuorum v).ProposalsKept v.block := by
  by_cases hne : v.percent = s.quorumPercent
  · rw [Snapshot.castQuorum, if_neg fun hne' => hne' hne.symm]
    refine h.mono (UInt64.le_iff_toNat_le.2 ?_)
    rw [hn]
    exact Nat.le_succ _
  · rw [Snapshot.castQuorum, if_pos (Ne.symm hne)]
    have hsize : v.block.toNat < UInt64.size := v.block.toNat_lt
    have hlen := h.length_le
    exact {
      counts := h.counts.cast (by omega) h.affirmative hv
      unique := pairwise_concat h.unique hfresh
      affirmative := forall_mem_concat h.affirmative hv
      pending := forall_mem_concat h.pending hne
      length_le := by
        rw [List.length_append, List.length_singleton, hn]
        exact Nat.succ_le_succ hlen }

/-! ### Carrying out a proposal -/

/-- The votes for a percentage suffice if they are as many as the majority. -/
theorem ProposalsKept.passesQuorum_eq (h : s.ProposalsKept n) (percent : UInt64) :
    s.passesQuorum percent =
      decide (s.requiredMajority.toNat ≤ s.quorumVotes.countP fun v => v.percent = percent) := by
  rw [passesQuorum]
  cases hx : s.quorumTally[percent]? with
  | none =>
    have hzero : (s.quorumVotes.countP fun v => v.percent = percent) = 0 :=
      h.counts.countP_eq_zero hx
    have hpos := s.requiredMajority_pos
    rw [hzero, decide_eq_false (by omega)]
  | some x =>
    have hn : x.votes.toNat = _ := h.counts.number_eq hx
    simp only [UInt64.le_iff_toNat_le, hn]

theorem ProposalsKept.settleQuorum (h : s.ProposalsKept n) (percent block : UInt64) :
    (s.settleQuorum percent block).ProposalsKept n := by
  rw [Snapshot.settleQuorum]
  split
  · refine h.of_sublist List.filter_sublist (h.counts.erase percent) fun v hv => ?_
    exact of_decide_eq_true (List.mem_filter.1 hv).2
  · exact h

theorem ProposalsKept.quorumPercent_settleQuorum (h : s.ProposalsKept n) (percent block : UInt64) :
    (s.settleQuorum percent block).quorumPercent =
      if s.requiredMajority.toNat ≤ s.quorumVotes.countP fun v => v.percent = percent then percent
      else s.quorumPercent := by
  rw [Snapshot.settleQuorum, h.passesQuorum_eq]
  simp only [decide_eq_true_eq]
  split <;> rfl

/-! ### Blocks -/

/-- A vote takes the place of the voter's earlier one for the percentage. -/
theorem ProposalsKept.record (h : s.ProposalsKept n) {v : QuorumVote}
    (hn : v.block.toNat = n.toNat + 1) (hv : v.authorize = true) :
    ((s.withdrawQuorum v.signer v.percent).castQuorum v).ProposalsKept v.block := by
  refine (h.withdrawQuorum v.signer v.percent).castQuorum hn hv fun w hw hws hwp => ?_
  -- An earlier vote of the voter for the percentage has been taken back.
  rw [quorumVotes_withdrawQuorum h.unique, List.mem_filter] at hw
  simp [hws, hwp] at hw

theorem ProposalsKept.voteOnQuorum (h : s.ProposalsKept n) {v : QuorumVote}
    (hn : v.block.toNat = n.toNat + 1) (hv : v.authorize = true) :
    (s.voteOnQuorum v).ProposalsKept v.block := by
  have hclear : { s with quorumCooldowns := ∅ }.ProposalsKept n := { h with }
  exact (hclear.record hn hv).settleQuorum v.percent v.block

theorem ProposalsKept.voteOnAccount (h : s.ProposalsKept n) (v : Vote) :
    (s.voteOnAccount v).ProposalsKept n := by
  rw [voteOnAccount_eq]
  exact { h with }

theorem ProposalsKept.enter (h : s.ProposalsKept n) (signer : Address) (hd : Header) :
    (s.enter signer hd).ProposalsKept n := by
  rw [enter_eq]
  split
  · exact h.of_sublist (List.nil_sublist _) .empty fun _ hv => nomatch hv
  · exact { h with }

/-- A step keeps the votes for percentages in order. -/
theorem ProposalsKept.step {hd : Header} (h : s.ProposalsKept s.number)
    (hst : Step s signer hd t) : t.ProposalsKept t.number := by
  have he := h.enter signer hd
  rw [hst.number_right]
  obtain ⟨authorize, -, rfl⟩ | ⟨-, rfl⟩ := hst.cases
  · exact (he.voteOnAccount _).mono (UInt64.le_of_lt hst.number_lt)
  · exact he.voteOnQuorum (v := hd.percentVote signer) hst.number_eq rfl

/-- The votes for percentages of a reachable snapshot are in order. -/
theorem Reachable.proposalsKept (hs : Reachable s) : s.ProposalsKept s.number := by
  induction hs using Reachable.block_induction with
  | start config number hash signers => exact .ofSigners config number hash signers
  | step _ hst ih => exact ih.step hst

/-! ## The votes that decide -/

/-- The votes that a vote for a percentage is counted with, and the vote if it asks for a change. -/
def quorumBallot (s : Snapshot) (signer : Address) (h : Header) : List QuorumVote :=
  (if s.isEpochStart h.number then [] else s.quorumVotes).filter (fun v =>
      !decide (v.signer = signer ∧ v.percent = h.quorumProposal)) ++
    if h.quorumProposal ≠ s.quorumPercent then [h.percentVote signer] else []

/-- The accounts with a vote for a percentage. -/
def proposers (votes : List QuorumVote) (percent : UInt64) : Std.ExtTreeSet Address :=
  .ofList <| (votes.filter fun v => v.percent = percent).map QuorumVote.signer

/-- Nobody has two votes for the percentage. -/
theorem ProposalsKept.size_proposers (h : s.ProposalsKept n) (percent : UInt64) :
    (proposers s.quorumVotes percent).size = s.quorumVotes.countP fun v => v.percent = percent := by
  refine size_ofList_map_filter (h.unique.imp fun {v w} hvw hv hw hs => hvw hs ?_)
  rw [decide_eq_true_eq] at hv hw
  rw [hv, hw]

/-- The snapshot in which the votes for the percentage of a block are counted. -/
def quorumPoll (s : Snapshot) (signer : Address) (h : Header) : Snapshot :=
  (({ s.enter signer h with quorumCooldowns := ∅ }).withdrawQuorum signer
    h.quorumProposal).castQuorum (h.percentVote signer)

theorem voteOnQuorum_enter (s : Snapshot) (signer : Address) (h : Header) :
    (s.enter signer h).voteOnQuorum (h.percentVote signer) =
      (s.quorumPoll signer h).settleQuorum h.quorumProposal h.number := rfl

theorem quorumVotes_enter (s : Snapshot) (signer : Address) (h : Header) :
    (s.enter signer h).quorumVotes = if s.isEpochStart h.number then [] else s.quorumVotes := by
  rw [enter_eq]
  dsimp only
  split <;> rfl

section QuorumPoll

variable (s signer h)

theorem quorumPercent_quorumPoll : (s.quorumPoll signer h).quorumPercent = s.quorumPercent := by
  rw [quorumPoll, castQuorum_eq, withdrawQuorum_eq]
  exact quorumPercent_enter s signer h

theorem requiredMajority_quorumPoll :
    (s.quorumPoll signer h).requiredMajority = s.requiredMajority := by
  rw [quorumPoll, castQuorum_eq, withdrawQuorum_eq]
  exact requiredMajority_enter s signer h

end QuorumPoll

theorem ProposalsKept.quorumPoll (hs : s.ProposalsKept s.number) (hst : Step s signer h t) :
    (s.quorumPoll signer h).ProposalsKept h.number := by
  have hclear : { s.enter signer h with quorumCooldowns := ∅ }.ProposalsKept s.number :=
    { hs.enter signer h with }
  exact hclear.record (v := h.percentVote signer) hst.number_eq rfl

theorem ProposalsKept.quorumVotes_quorumPoll (hs : s.ProposalsKept n) (signer : Address)
    (h : Header) : (s.quorumPoll signer h).quorumVotes = s.quorumBallot signer h := by
  have hw := quorumVotes_withdrawQuorum (s := { s.enter signer h with quorumCooldowns := ∅ })
    (hs.enter signer h).unique signer h.quorumProposal
  rw [Snapshot.quorumPoll, quorumVotes_castQuorum, hw, withdrawQuorum_eq, quorumBallot,
    ← quorumVotes_enter s signer h, ← quorumPercent_enter s signer h]
  rfl

/-! ## The law of the percentage -/

/-- A vote for a percentage puts it in force if the votes for it suffice. -/
theorem Step.quorumPercent_of_quorumPercent (hst : Step s signer h t)
    (hs : s.ProposalsKept s.number) (hk : h.voteKind? = some .quorumPercent) :
    t.quorumPercent =
      if s.requiredMajority.toNat ≤
          (proposers (s.quorumBallot signer h) h.quorumProposal).size then
        h.quorumProposal
      else s.quorumPercent := by
  have hpoll := hs.quorumPoll hst
  rw [hst.eq_of_quorumPercent hk, voteOnQuorum_enter, hpoll.quorumPercent_settleQuorum,
    ← hpoll.size_proposers, hs.quorumVotes_quorumPoll, requiredMajority_quorumPoll,
    quorumPercent_quorumPoll]

theorem Step.quorumPercent_of_onAccount {authorize : Bool} (hst : Step s signer h t)
    (hk : h.voteKind? = some (.onAccount authorize)) : t.quorumPercent = s.quorumPercent := by
  rw [hst.eq_of_onAccount hk, voteOnAccount_eq]
  exact quorumPercent_enter s signer h

/-- The percentage changes exactly if a vote is for another one and the votes for that suffice. -/
theorem Step.quorumPercent_ne_iff (hst : Step s signer h t) (hs : s.ProposalsKept s.number) :
    t.quorumPercent ≠ s.quorumPercent ↔
      h.voteKind? = some .quorumPercent ∧ h.quorumProposal ≠ s.quorumPercent ∧
        s.requiredMajority.toNat ≤
          (proposers (s.quorumBallot signer h) h.quorumProposal).size := by
  obtain ⟨authorize, hk, -⟩ | ⟨hk, -⟩ := hst.cases
  · rw [hst.quorumPercent_of_onAccount hk, hk]
    cases authorize <;> simp [VoteKind.onAccount]
  · rw [hst.quorumPercent_of_quorumPercent hs hk]
    split
    · rename_i hle
      simp [hk, hle]
    · rename_i hlt
      simp [hlt]

/-- The percentage changes exactly if a vote is for another one and the accounts with a vote for
    that, signers or not, are as many as the majority; then it is that one. So it takes a majority
    of the signers to change it, unless fewer of them, but as many with those who are not, are for
    it. -/
theorem quorumPercent_of_apply {recover : Header → Except Failure Address} (hs : Reachable s)
    (hr : recover h = .ok signer) (ht : s.apply recover [h] = .ok t) :
    let all := proposers (s.quorumBallot signer h) h.quorumProposal
    let current := all.filter s.isSigner
    let former := all.filter fun a => !s.isSigner a
    (t.quorumPercent ≠ s.quorumPercent ↔
      h.voteKind? = some .quorumPercent ∧ h.quorumProposal ≠ s.quorumPercent ∧
        s.requiredMajority.toNat ≤ current.size + former.size) ∧
    (t.quorumPercent ≠ s.quorumPercent → t.quorumPercent = h.quorumProposal) ∧
    ((t.quorumPercent ≠ s.quorumPercent →
        h.voteKind? = some .quorumPercent ∧ t.quorumPercent = h.quorumProposal ∧
          s.requiredMajority.toNat ≤ current.size) ↔
      ¬(h.voteKind? = some .quorumPercent ∧ h.quorumProposal ≠ s.quorumPercent ∧
        current.size < s.requiredMajority.toNat ∧
          s.requiredMajority.toNat ≤ current.size + former.size)) := by
  intro all current former
  have hst := Step.of_apply hr ht
  have hsize : current.size + former.size = all.size :=
    size_filter_add_size_filter_not all s.isSigner
  have hchange := hst.quorumPercent_ne_iff hs.proposalsKept
  rw [← hsize] at hchange
  have hvalue : t.quorumPercent ≠ s.quorumPercent → t.quorumPercent = h.quorumProposal := by
    intro hne
    obtain ⟨hk, -, hle⟩ := hchange.1 hne
    rw [hst.quorumPercent_of_quorumPercent hs.proposalsKept hk, if_pos (hsize ▸ hle)]
  refine ⟨hchange, hvalue, ?_⟩
  constructor
  · -- Where the signers are too few without the others, the percentage changes all the same.
    rintro hclaim ⟨hk, hne, hlt, hle⟩
    obtain ⟨-, -, hcurrent⟩ := hclaim (hchange.2 ⟨hk, hne, hle⟩)
    omega
  · intro hnot hne
    obtain ⟨hk, hother, hle⟩ := hchange.1 hne
    refine ⟨hk, hvalue hne, ?_⟩
    by_contra hlt
    exact hnot ⟨hk, hother, Nat.not_le.1 hlt, hle⟩

/-- The only signer of a chain puts another percentage in force. -/
theorem quorumPercent_of_apply_first :
    ∃ s h t, Reachable s ∧ s.apply declared [h] = .ok t ∧ h.quorumProposal = 80 ∧
      t.quorumPercent ≠ s.quorumPercent ∧ t.quorumPercent = h.quorumProposal := by
  let s := genesis {} [.ofLow64 1]
  let h := Header.declaring (.ofLow64 1) 1 .quorumPercent (.ofLow64 80)
  obtain ⟨t, ht, hp⟩ : ∃ t, s.apply declared [h] = .ok t ∧ decide (t.quorumPercent ≠ 50) = true :=
    exists_eq_ok_of_any (by decide +kernel)
  have hs : Reachable s := .start ..
  have hr : declared h = .ok (.ofLow64 1) := by decide +kernel
  have hne : t.quorumPercent ≠ s.quorumPercent := of_decide_eq_true hp
  obtain ⟨-, hvalue, -⟩ := quorumPercent_of_apply hs hr ht
  exact ⟨s, h, t, hs, ht, by decide +kernel, hne, hvalue hne⟩

/-- Of four signers, one votes for a percentage and is then stopped by the others. -/
def outlived : List Header :=
  [.declaring (.ofLow64 1) 1 .quorumPercent (.ofLow64 80),
    .declaring (.ofLow64 2) 2 .drop (.ofLow64 1), .declaring (.ofLow64 3) 3 .drop (.ofLow64 1),
    .declaring (.ofLow64 4) 4 .drop (.ofLow64 1)]

/-- After that, one of the three signers that are left puts the percentage in force. -/
theorem not_forall_majority_of_signers :
    ¬∀ (s t : Snapshot) (recover : Header → Except Failure Address) (signer : Address) (h : Header),
      Reachable s → recover h = .ok signer → s.apply recover [h] = .ok t →
        t.quorumPercent ≠ s.quorumPercent →
          h.voteKind? = some .quorumPercent ∧ t.quorumPercent = h.quorumProposal ∧
            s.requiredMajority.toNat ≤
              ((proposers (s.quorumBallot signer h) h.quorumProposal).filter s.isSigner).size := by
  intro hall
  let last := Header.declaring (.ofLow64 2) 5 .quorumPercent (.ofLow64 80)
  obtain ⟨s, hs, hp⟩ := exists_reachable {}
    [.ofLow64 1, .ofLow64 2, .ofLow64 3, .ofLow64 4] outlived
    (p := fun s => (s.apply declared [last]).toOption.any fun t =>
      decide (t.quorumPercent ≠ s.quorumPercent ∧
        ((proposers (s.quorumBallot (.ofLow64 2) last) last.quorumProposal).filter
          s.isSigner).size < s.requiredMajority.toNat)) (by decide +kernel)
  -- Two of three are needed, and the vote of the one that was stopped is the other one.
  obtain ⟨t, ht, hst⟩ := exists_eq_ok_of_any hp
  obtain ⟨hne, hlt⟩ := of_decide_eq_true hst
  have hr : declared last = .ok (.ofLow64 2) := by decide +kernel
  obtain ⟨-, -, hle⟩ := hall s t declared (.ofLow64 2) last hs hr ht hne
  exact Nat.not_le.2 hlt hle

end Snapshot

end SignerVoting
