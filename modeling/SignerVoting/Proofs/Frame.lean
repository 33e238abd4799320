import SignerVoting.Proofs.History
import SignerVoting.Proofs.Proposals

/-!
# What a block leaves alone

A block finds the votes that are pending, or none if it opens an epoch (`Block.base`). It carries
one vote itself, and leaves all that is beyond the matter of that vote as it finds it.

A vote on an account leaves what is about percentages. Of the votes on accounts it takes away the
earlier one of its signer about the account, those about the account if that changes, and those of
the account if that is stopped (`Block.votes_after_base`). Since scores are those of the votes
(`VotesKept.getElem?_tally`), another account has one vote less if the one that is stopped had a
vote about it, and its score stays otherwise (`Block.tally_after_base`).

A vote for a percentage leaves what is about accounts, and the votes for other percentages with
their scores (`Block.quorumVotes_after_base`, `getElem?_quorumTally_voteOnQuorum`).
-/

namespace SignerVoting

/-- A score with one vote less, if it has another one. -/
def Tally.lessOne? (x : Tally) : Option Tally :=
  if 1 < x.votes then some { x with votes := x.votes - 1 } else none

/-- A vote for one percentage leaves the scores of the others. -/
theorem QuorumTallies.getElem?_cast_of_ne (t : QuorumTallies) {percent p : UInt64}
    (h : percent ≠ p) (signer : Address) : (t.cast percent signer)[p]? = t[p]? := by
  rw [cast, Std.ExtTreeMap.getElem?_alter]
  simp [h, Std.LawfulEqCmp.compare_eq_iff_eq]

namespace Snapshot

variable {s t : Snapshot} {n m : UInt64} {a : Address}

/-! ## Scores -/

namespace VotesKept

/-- The score of an account is the number of the votes about it, for the change of what it is. -/
theorem getElem?_tally (h : s.VotesKept n) (a : Address) :
    s.tally[a]? =
      if (s.votes.countP fun v => v.target = a) = 0 then none
      else some ⟨!s.isSigner a, .ofNat (s.votes.countP fun v => v.target = a)⟩ := by
  cases hx : s.tally[a]? with
  | none =>
    have hzero : (s.votes.countP fun v => v.target = a) = 0 := h.counts.countP_eq_zero hx
    rw [if_pos hzero]
  | some x =>
    have hn : x.votes.toNat = s.votes.countP fun v => v.target = a := h.counts.number_eq hx
    have hpos : 0 < s.votes.countP fun v => v.target = a := by
      obtain ⟨v, hv, hva⟩ := h.counts.exists_vote hx
      exact List.countP_pos_iff.2 ⟨v, hv, decide_eq_true hva⟩
    rw [if_neg (Nat.pos_iff_ne_zero.1 hpos), ← hn, ← h.authorize_eq hx, UInt64.ofNat_toNat]

/-- An account that stays what it is has the same score with as many votes about it. -/
theorem getElem?_tally_congr (hs : s.VotesKept n) (ht : t.VotesKept m)
    (hsigner : t.isSigner a = s.isSigner a)
    (hcount : (t.votes.countP fun v => v.target = a) = s.votes.countP fun v => v.target = a) :
    t.tally[a]? = s.tally[a]? := by
  rw [ht.getElem?_tally, hs.getElem?_tally, hsigner, hcount]

/-- One vote less about an account that stays what it is takes one off its score. -/
theorem getElem?_tally_lessOne (hs : s.VotesKept n) (ht : t.VotesKept m)
    (hsigner : t.isSigner a = s.isSigner a)
    (hcount : (s.votes.countP fun v => v.target = a) =
      (t.votes.countP fun v => v.target = a) + 1) :
    t.tally[a]? = s.tally[a]?.bind Tally.lessOne? := by
  -- There are no more votes than blocks, so that the words hold their numbers.
  have hle : (s.votes.countP fun v => v.target = a) ≤ n.toNat :=
    Nat.le_trans List.countP_le_length hs.length_le
  have hsize : n.toNat < UInt64.size := n.toNat_lt
  rw [hcount] at hle
  rw [ht.getElem?_tally, hs.getElem?_tally, hsigner, hcount]
  generalize (t.votes.countP fun v => v.target = a) = k at hle
  have hk : (UInt64.ofNat (k + 1)).toNat = k + 1 := UInt64.toNat_ofNat_of_lt' (by omega)
  rw [if_neg (Nat.succ_ne_zero k), Option.bind_some, Tally.lessOne?]
  simp only [UInt64.lt_iff_toNat_lt, UInt64.toNat_one, hk]
  rcases Nat.eq_zero_or_pos k with rfl | hpos
  · rfl
  · have hless : UInt64.ofNat (k + 1) - 1 = .ofNat k := by
      rw [← UInt64.toNat_inj, Word.toNat_sub_one (by omega), hk,
        UInt64.toNat_ofNat_of_lt' (by omega), Nat.add_sub_cancel]
    rw [if_neg (by omega), if_pos (by omega), hless]

/-- Who has a vote about an account has one. -/
theorem countP_target_of_mem (h : s.VotesKept n) {signer : Address}
    (hmem : ∃ v ∈ s.votes, v.signer = signer ∧ v.target = a) :
    (s.votes.countP fun v => v.target = a) =
      ((s.votes.filter fun v => v.signer ≠ signer).countP fun v => v.target = a) + 1 := by
  obtain ⟨v, hfind⟩ : ∃ v, s.votes.find? (fun v => decide (v.signer = signer ∧ v.target = a)) =
      some v := by
    obtain ⟨v, hv, hsame⟩ := hmem
    exact Option.isSome_iff_exists.1 (List.find?_isSome.2 ⟨v, hv, decide_eq_true hsame⟩)
  have hv : v.signer = signer ∧ v.target = a := by simpa using List.find?_some hfind
  rw [(perm_cons_eraseP hfind).countP_eq, eraseP_eq_filter_of_unique Vote.signer Vote.target
    h.unique, List.countP_cons, if_pos (decide_eq_true hv.2), List.countP_filter,
    List.countP_filter]
  congr 1
  refine List.countP_congr fun w _ => ?_
  by_cases hw : w.target = a <;> simp [hw]

end VotesKept

/-! ## What a block finds -/

namespace Block

/-- The snapshot that the vote of a block falls on: without pending votes if the block opens an
    epoch. -/
def base (c : Block) : Snapshot := if c.OpensEpoch then c.before.discardVotes else c.before

/-- A block opens an epoch if its number is a multiple of the epoch. -/
theorem opensEpoch_iff_dvd (c : Block) :
    c.OpensEpoch ↔ c.before.config.epoch.toNat ∣ c.number := by
  rw [OpensEpoch, isEpochStart_iff]
  refine and_iff_right_of_imp fun hdvd hzero => ?_
  -- Only zero is a multiple of zero, and no block has that number.
  rw [hzero, Nat.zero_dvd] at hdvd
  have hnumber := c.number_eq
  rw [number, hdvd] at hnumber
  omega

theorem enter_eq_base (c : Block) :
    c.before.enter c.signer c.header =
      { c.base with
        number := c.header.number
        hash := c.header.hash
        recents := (c.before.enter c.signer c.header).recents } :=
  enter_eq c.before c.signer c.header

theorem votes_base (c : Block) : c.base.votes = if c.OpensEpoch then [] else c.before.votes := by
  rw [base]
  split <;> rfl

theorem quorumVotes_base (c : Block) :
    c.base.quorumVotes = if c.OpensEpoch then [] else c.before.quorumVotes := by
  rw [base]
  split <;> rfl

theorem isSigner_base (c : Block) (a : Address) : c.base.isSigner a = c.before.isSigner a := by
  rw [base]
  split <;> rfl

theorem votesKept_base {c : Block} (hv : c.before.VotesKept n) : c.base.VotesKept n := by
  have henter := hv.enter c.signer c.header
  rw [c.enter_eq_base] at henter
  exact { henter with }

/-! ## Votes on accounts -/

theorem onAccount_of_voteKind? {c : Block} {authorize : Bool}
    (hk : c.header.voteKind? = some (.onAccount authorize)) :
    c.OnAccount ∧ c.authorizes = authorize := by
  cases authorize <;> simp [OnAccount, authorizes, hk, VoteKind.onAccount]

/-- A block settles the votes about its account if that changes, and the votes of the account if
    that is stopped. -/
theorem settlesVote_iff {c : Block} (hv : c.before.VotesKept c.before.number) {v : Vote} :
    c.SettlesVote v ↔
      c.after.isSigner c.header.coinbase ≠ c.before.isSigner c.header.coinbase ∧
          v.target = c.header.coinbase ∨
        c.Stops c.header.coinbase ∧ v.signer = c.header.coinbase := by
  have hsame {a : Address} (ha : a ≠ c.header.coinbase) := c.step.isSigner_of_ne hv ha
  refine or_congr ?_ ?_
  · by_cases ht : v.target = c.header.coinbase
    · simp [ht]
    · simp [ht, hsame ht]
  · by_cases hs : v.signer = c.header.coinbase
    · simp [hs]
    · simp [hs, hsame hs, Stops]

/-- A block settles its own vote if the account changes: to be stopped is a change. -/
theorem settlesVote_vote_iff {c : Block} (hv : c.before.VotesKept c.before.number) :
    c.SettlesVote c.vote ↔
      c.after.isSigner c.header.coinbase ≠ c.before.isSigner c.header.coinbase := by
  rw [settlesVote_iff hv]
  refine ⟨?_, fun hne => .inl ⟨hne, rfl⟩⟩
  rintro (⟨hne, -⟩ | ⟨⟨hbefore, hafter⟩, -⟩)
  · exact hne
  · simp [hbefore, hafter]

/-- A vote on an account leaves the votes that it finds, but for the earlier one of its signer about
    the account, those about the account if that changes, and those of the account if that is
    stopped. -/
theorem votes_after_base (c : Block) (hv : c.before.VotesKept c.before.number)
    (hk : c.OnAccount) :
    c.after.votes =
      (c.base.votes.filter fun v =>
        ¬(v.signer = c.signer ∧ v.target = c.header.coinbase) ∧
        ¬(c.after.isSigner c.header.coinbase ≠ c.before.isSigner c.header.coinbase ∧
          v.target = c.header.coinbase) ∧
        ¬(c.Stops c.header.coinbase ∧ v.signer = c.header.coinbase)) ++
      if c.AsksForChange ∧
          c.after.isSigner c.header.coinbase = c.before.isSigner c.header.coinbase then [c.vote]
      else [] := by
  rw [c.votes_after hv, List.filter_append, List.filter_filter, votes_base]
  congr 1
  · by_cases he : c.OpensEpoch
    · simp [ReplacesVote, he]
    · rw [if_neg he]
      refine List.filter_congr fun v _ => ?_
      rw [Bool.eq_iff_iff]
      simp only [ReplacesVote, settlesVote_iff hv, he, hk, Bool.and_eq_true, decide_eq_true_eq,
        false_or, true_and, not_or, @eq_comm _ v.signer c.signer, @eq_comm _ v.target]
      tauto
  · by_cases hasks : c.AsksForChange <;>
      simp [hasks, List.filter_cons, settlesVote_vote_iff hv]

/-- A vote on an account takes one off the score of another account if it stops who has a vote about
    that, and leaves the score otherwise. -/
theorem tally_after_base (c : Block) (hv : c.before.VotesKept c.before.number) (hk : c.OnAccount)
    (ha : a ≠ c.header.coinbase) :
    c.after.tally[a]? =
      if c.Stops c.header.coinbase ∧
          ∃ v ∈ c.base.votes, v.signer = c.header.coinbase ∧ v.target = a then
        c.base.tally[a]?.bind Tally.lessOne?
      else c.base.tally[a]? := by
  have hbase := votesKept_base hv
  have hafter := hv.step c.step
  have hsigner : c.after.isSigner a = c.base.isSigner a := by
    rw [c.step.isSigner_of_ne hv ha, isSigner_base]
  -- Of the votes about the other account, those of the one that is stopped are taken away.
  have hcount : (c.after.votes.countP fun v => v.target = a) =
      (c.base.votes.filter fun v =>
        ¬(c.Stops c.header.coinbase ∧ v.signer = c.header.coinbase)).countP fun v =>
          v.target = a := by
    have hown : c.vote.target ≠ a := Ne.symm ha
    rw [c.votes_after_base hv hk, List.countP_append, List.countP_filter, List.countP_filter]
    refine (congrArg₂ (· + ·) (List.countP_congr fun v _ => ?_) ?_).trans (Nat.add_zero _)
    · by_cases hva : v.target = a
      · subst hva
        simp [ha]
      · simp [hva]
    · split <;> simp [hown]
  split
  · rename_i hc
    refine hbase.getElem?_tally_lessOne hafter hsigner ?_
    rw [hbase.countP_target_of_mem hc.2, hcount]
    simp [hc.1]
  · rename_i hc
    refine hbase.getElem?_tally_congr hafter hsigner ?_
    rw [hcount, List.countP_filter]
    refine List.countP_congr fun v hv => ?_
    simp only [Bool.and_eq_true, decide_eq_true_eq]
    exact and_iff_left_of_imp fun hva hstopped => hc ⟨hstopped.1, v, hv, hstopped.2, hva⟩

/-! ## Votes for percentages -/

/-- A vote for a percentage leaves the votes for other ones that it finds. -/
theorem quorumVotes_after_base (c : Block) (hp : c.before.ProposalsKept c.before.number)
    (hk : c.OnQuorum) :
    (c.after.quorumVotes.filter fun v => v.percent ≠ c.header.quorumProposal) =
      c.base.quorumVotes.filter fun v => v.percent ≠ c.header.quorumProposal := by
  have hforce {percent : UInt64} (hne : percent ≠ c.header.quorumProposal) :
      ¬c.PutsInForce percent := by
    rintro ⟨hbefore, hafter⟩
    rw [c.step.quorumPercent_of_quorumPercent hp hk] at hafter
    split at hafter
    · exact hne hafter.symm
    · exact hbefore hafter
  rw [c.quorumVotes_after hp, List.filter_filter, List.filter_append, quorumVotes_base]
  refine (congrArg₂ (· ++ ·) ?_ ?_).trans (List.append_nil _)
  · by_cases he : c.OpensEpoch
    · simp [ReplacesProposal, he]
    · rw [if_neg he, List.filter_filter]
      refine List.filter_congr fun v _ => ?_
      by_cases hv : v.percent = c.header.quorumProposal
      · simp [hv]
      · simp [ReplacesProposal, he, hv, hforce hv, Ne.symm hv]
  · split <;> simp [proposal, Header.percentVote]

end Block

theorem getElem?_quorumTally_castQuorum (s : Snapshot) {v : QuorumVote} {p : UInt64}
    (h : v.percent ≠ p) : (s.castQuorum v).quorumTally[p]? = s.quorumTally[p]? := by
  rw [castQuorum]
  split
  · exact QuorumTallies.getElem?_cast_of_ne _ h _
  · rfl

theorem getElem?_quorumTally_settleQuorum (s : Snapshot) {percent p : UInt64} (h : percent ≠ p)
    (block : UInt64) : (s.settleQuorum percent block).quorumTally[p]? = s.quorumTally[p]? := by
  rw [settleQuorum]
  split
  · rw [Std.ExtTreeMap.getElem?_erase]
    simp [h, Std.LawfulEqCmp.compare_eq_iff_eq]
  · rfl

/-- A vote for a percentage leaves the scores of other ones. -/
theorem getElem?_quorumTally_voteOnQuorum (s : Snapshot) {v : QuorumVote} {p : UInt64}
    (h : v.percent ≠ p) : (s.voteOnQuorum v).quorumTally[p]? = s.quorumTally[p]? := by
  rw [voteOnQuorum, getElem?_quorumTally_settleQuorum _ h, getElem?_quorumTally_castQuorum _ h,
    getElem?_quorumTally_withdrawQuorum _ _ h]

/-! ## The law of one block -/

/-- Beyond the matter of its vote, a block leaves what it finds, which is what was there before it,
    without pending votes if its number is a multiple of the epoch. A vote on an account leaves all
    that is about percentages; the votes on accounts in their order, but for the earlier one of its
    signer about the account, those about the account if that changes, and those of the account if
    that is stopped; and the score of every other account, less one if it stops who has a vote about
    that. A vote for a percentage leaves all that is about accounts, and the votes and the scores of
    other percentages. -/
theorem frame_of_apply {recover : Header → Except Failure Address} {h : Header} {signer : Address}
    (hs : Reachable s) (hr : recover h = .ok signer) (ht : s.apply recover [h] = .ok t) :
    let base := if s.config.epoch.toNat ∣ h.number.toNat then s.discardVotes else s
    let changed := t.isSigner h.coinbase ≠ s.isSigner h.coinbase
    let stopped := s.isSigner h.coinbase = true ∧ t.isSigner h.coinbase = false
    (∀ authorize, h.voteKind? = some (.onAccount authorize) →
      (t.quorumPercent = base.quorumPercent ∧ t.quorumVotes = base.quorumVotes ∧
        t.quorumTally = base.quorumTally ∧ t.quorumCooldowns = base.quorumCooldowns) ∧
      t.votes =
        (base.votes.filter fun v =>
          ¬(v.signer = signer ∧ v.target = h.coinbase) ∧ ¬(changed ∧ v.target = h.coinbase) ∧
            ¬(stopped ∧ v.signer = h.coinbase)) ++
        (if s.isMeaningful h.coinbase authorize = true ∧ ¬changed then
          [h.accountVote signer authorize] else []) ∧
      ∀ a, a ≠ h.coinbase →
        t.tally[a]? =
          if stopped ∧ ∃ v ∈ base.votes, v.signer = h.coinbase ∧ v.target = a then
            base.tally[a]?.bind Tally.lessOne?
          else base.tally[a]?) ∧
    (h.voteKind? = some .quorumPercent →
      (t.signers = base.signers ∧ t.votes = base.votes ∧ t.tally = base.tally) ∧
      (t.quorumVotes.filter fun v => v.percent ≠ h.quorumProposal) =
        (base.quorumVotes.filter fun v => v.percent ≠ h.quorumProposal) ∧
      ∀ percent, percent ≠ h.quorumProposal →
        t.quorumTally[percent]? = base.quorumTally[percent]?) := by
  have hst := Step.of_apply hr ht
  let c : Block := ⟨s, h, signer, t, hst⟩
  intro base changed stopped
  have hbase : base = c.base := if_congr c.opensEpoch_iff_dvd.symm rfl rfl
  rw [hbase]
  refine ⟨fun authorize hk => ⟨?_, ?_, fun a ha => ?_⟩, fun hk => ⟨?_, ?_, fun percent hne => ?_⟩⟩
  · rw [hst.eq_of_onAccount hk, voteOnAccount_eq, c.enter_eq_base]
    exact ⟨rfl, rfl, rfl, rfl⟩
  · obtain ⟨hon, rfl⟩ := Block.onAccount_of_voteKind? (c := c) hk
    have hasks : c.AsksForChange ↔ s.isMeaningful h.coinbase c.authorizes = true :=
      and_iff_right hon
    have hvotes := c.votes_after_base hs.votesKept hon
    simp only [hasks, ← not_ne_iff (a := c.after.isSigner _)] at hvotes
    exact hvotes
  · exact c.tally_after_base hs.votesKept (Block.onAccount_of_voteKind? (c := c) hk).1 ha
  · rw [hst.eq_of_quorumPercent hk, voteOnQuorum_eq, c.enter_eq_base]
    exact ⟨rfl, rfl, rfl⟩
  · exact c.quorumVotes_after_base hs.proposalsKept hk
  · rw [hst.eq_of_quorumPercent hk, getElem?_quorumTally_voteOnQuorum _ hne.symm, c.enter_eq_base]

/-- Two of four signers vote to let an account seal. Then two vote to stop the first of them. -/
def outvoted : List Header :=
  [.declaring (.ofLow64 1) 1 .authorize (.ofLow64 5),
    .declaring (.ofLow64 2) 2 .authorize (.ofLow64 5),
    .declaring (.ofLow64 3) 3 .drop (.ofLow64 1), .declaring (.ofLow64 4) 4 .drop (.ofLow64 1)]

/-- After that, a third vote stops it, and its own vote does not count any more. -/
theorem frame_of_apply_outvoted :
    ∃ s h t, Reachable s ∧ s.apply declared [h] = .ok t ∧ h.voteKind? = some .drop ∧
      s.tally[Address.ofLow64 5]? = some ⟨true, 2⟩ ∧
        t.tally[Address.ofLow64 5]? = some ⟨true, 1⟩ := by
  let last := Header.declaring (.ofLow64 2) 5 .drop (.ofLow64 1)
  obtain ⟨s, hs, hp⟩ := exists_reachable {}
    [.ofLow64 1, .ofLow64 2, .ofLow64 3, .ofLow64 4] outvoted
    (p := fun s => (s.apply declared [last]).toOption.any fun t =>
      decide (¬s.config.epoch.toNat ∣ last.number.toNat ∧
        (s.isSigner last.coinbase = true ∧ t.isSigner last.coinbase = false) ∧
        (∃ v ∈ s.votes, v.signer = last.coinbase ∧ v.target = .ofLow64 5) ∧
        s.tally[Address.ofLow64 5]? = some ⟨true, 2⟩)) (by decide +kernel)
  obtain ⟨t, ht, hst⟩ := exists_eq_ok_of_any hp
  obtain ⟨hepoch, hstopped, hvote, hscore⟩ := of_decide_eq_true hst
  have hr : declared last = .ok (.ofLow64 2) := by decide +kernel
  have hk : last.voteKind? = some (.onAccount false) := by decide +kernel
  obtain ⟨-, -, htally⟩ := (frame_of_apply hs hr ht).1 false hk
  have hless := htally (.ofLow64 5) (by decide +kernel)
  rw [if_neg hepoch, if_pos ⟨hstopped, hvote⟩, hscore] at hless
  exact ⟨s, last, t, hs, ht, hk, hscore, hless⟩

end Snapshot

end SignerVoting
