import SignerVoting.Proofs.Chain

/-!
# Reachable snapshots

A block that a signer puts on top of another makes a *step* from the snapshot of the one to that of
the other (`Step`). First the block is entered: pending votes are discarded if it opens an epoch,
the window moves on, and the signer is on record as a recent one (`enter`). Then its vote is
carried out, on an account or for a percentage (`Step.cases`).

The *reachable* snapshots are those that a first snapshot comes to by replays. What holds of first
snapshots and is kept by every step holds of all of them (`Reachable.block_induction`).
-/

namespace SignerVoting

/-- The kind of a vote on an account, by its direction. -/
def VoteKind.onAccount : Bool → VoteKind
  | true => authorize
  | false => drop

namespace Header

/-- The vote on an account in a header that a signer sealed. -/
def accountVote (h : Header) (signer : Address) (authorize : Bool) : Vote :=
  ⟨signer, h.number, h.coinbase, authorize⟩

/-- The vote for a percentage in a header that a signer sealed. -/
def percentVote (h : Header) (signer : Address) : QuorumVote :=
  ⟨signer, h.number, h.coinbase, h.quorumProposal, true⟩

/-- A header with a vote that declares its signer. -/
def declaring (signer : Address) (number : UInt64) (kind : VoteKind) (coinbase : Address) :
    Header where
  parentHash := .replicate 32 0
  number := number
  timestamp := 0
  coinbase := coinbase
  nonce := kind.nonce
  extra := signer.bytes.toList
  sealBytes := []

end Header

namespace Snapshot

variable {s t : Snapshot} {signer : Address} {h : Header}

/-! ## Accepted blocks -/

theorem vote_eq_ok_iff :
    s.vote signer h = .ok t ↔
      (∃ authorize, h.voteKind? = some (.onAccount authorize) ∧
          t = s.voteOnAccount (h.accountVote signer authorize)) ∨
        (h.voteKind? = some .quorumPercent ∧ t = s.voteOnQuorum (h.percentVote signer)) := by
  rw [vote]
  rcases h.voteKind? with _ | kind
  · simp
  · cases kind <;>
      simp [VoteKind.onAccount, Header.accountVote, Header.percentVote, eq_comm]

theorem acceptBlock_eq_ok_iff :
    s.acceptBlock signer h = .ok t ↔
      s.isSigner signer = true ∧ s.isRecent signer = false ∧
        { s with recents := s.recents.insert h.number signer }.vote signer h = .ok t := by
  rw [acceptBlock]
  rcases s.isSigner signer with _ | _
  · simp
  · rcases s.isRecent signer with _ | _ <;> simp

/-! ## What votes leave alone -/

theorem withdraw_eq (s : Snapshot) (signer target : Address) :
    s.withdraw signer target =
      { s with
        votes := (s.withdraw signer target).votes
        tally := (s.withdraw signer target).tally } := by
  rw [withdraw]
  split <;> rfl

theorem cast_eq (s : Snapshot) (v : Vote) :
    s.cast v = { s with votes := (s.cast v).votes, tally := (s.cast v).tally } := by
  rw [cast]
  split <;> rfl

theorem settle_eq (s : Snapshot) (target : Address) (block : UInt64) :
    s.settle target block =
      { s with
        signers := (s.settle target block).signers
        recents := (s.settle target block).recents
        votes := (s.settle target block).votes
        tally := (s.settle target block).tally } := by
  rw [settle]
  split <;> rfl

/-- A vote on an account leaves what percentages are about alone. -/
theorem voteOnAccount_eq (s : Snapshot) (v : Vote) :
    s.voteOnAccount v =
      { s with
        signers := (s.voteOnAccount v).signers
        recents := (s.voteOnAccount v).recents
        votes := (s.voteOnAccount v).votes
        tally := (s.voteOnAccount v).tally } := by
  rw [voteOnAccount, settle_eq, cast_eq, withdraw_eq]

theorem withdrawQuorum_eq (s : Snapshot) (signer : Address) (percent : UInt64) :
    s.withdrawQuorum signer percent =
      { s with
        quorumVotes := (s.withdrawQuorum signer percent).quorumVotes
        quorumTally := (s.withdrawQuorum signer percent).quorumTally } := by
  rw [withdrawQuorum]
  split <;> rfl

theorem castQuorum_eq (s : Snapshot) (v : QuorumVote) :
    s.castQuorum v =
      { s with
        quorumVotes := (s.castQuorum v).quorumVotes
        quorumTally := (s.castQuorum v).quorumTally } := by
  rw [castQuorum]
  split <;> rfl

theorem settleQuorum_eq (s : Snapshot) (percent block : UInt64) :
    s.settleQuorum percent block =
      { s with
        quorumPercent := (s.settleQuorum percent block).quorumPercent
        quorumVotes := (s.settleQuorum percent block).quorumVotes
        quorumTally := (s.settleQuorum percent block).quorumTally
        quorumCooldowns := (s.settleQuorum percent block).quorumCooldowns } := by
  rw [settleQuorum]
  split <;> rfl

/-- A vote for a percentage leaves what accounts are about alone. -/
theorem voteOnQuorum_eq (s : Snapshot) (v : QuorumVote) :
    s.voteOnQuorum v =
      { s with
        quorumPercent := (s.voteOnQuorum v).quorumPercent
        quorumVotes := (s.voteOnQuorum v).quorumVotes
        quorumTally := (s.voteOnQuorum v).quorumTally
        quorumCooldowns := (s.voteOnQuorum v).quorumCooldowns } := by
  rw [voteOnQuorum, settleQuorum_eq, castQuorum_eq, withdrawQuorum_eq]

/-! ## Steps -/

/-- The snapshot in which the vote of a block is carried out: the block is opened, and its signer is
    on record as a recent one. -/
def enter (s : Snapshot) (signer : Address) (h : Header) : Snapshot :=
  let u := (s.relabel h.number h.hash).openBlock h.number
  { u with recents := u.recents.insert h.number signer }

/-- Entering a block opens it and puts its signer on record, under the label of the block. -/
theorem enter_eq_relabel (s : Snapshot) (signer : Address) (h : Header) :
    s.enter signer h = relabel { s.openBlock h.number with
      recents := (s.openBlock h.number).recents.insert h.number signer } h.number h.hash := by
  rw [enter, openBlock_relabel]
  rfl

/-- `t` is the snapshot of a block on top of that of `s`, sealed by `signer`. -/
structure Step (s : Snapshot) (signer : Address) (h : Header) (t : Snapshot) : Prop where
  number_eq : h.number.toNat = s.number.toNat + 1
  accepted : ((s.relabel h.number h.hash).openBlock h.number).acceptBlock signer h = .ok t

/-- A header is replayed exactly if it makes a step. -/
theorem apply_singleton_eq_ok_iff_step {recover : Header → Except Failure Address} :
    s.apply recover [h] = .ok t ↔ ∃ signer, recover h = .ok signer ∧ Step s signer h t := by
  have hrelabel (signer : Address) :
      ((s.relabel h.number h.hash).openBlock h.number).acceptBlock signer h = .ok t ↔
        ∃ u, (s.openBlock h.number).acceptBlock signer h = .ok u ∧
          u.relabel h.number h.hash = t := by
    rw [openBlock_relabel, acceptBlock_relabel, map_eq_ok_iff]
  simp only [apply_singleton_eq_ok_iff, process, bind_eq_ok_iff]
  constructor
  · rintro ⟨hn, u, ⟨signer, hr, hu⟩, rfl⟩
    exact ⟨signer, hr, hn, (hrelabel signer).2 ⟨u, hu, rfl⟩⟩
  · rintro ⟨signer, hr, hn, ht⟩
    obtain ⟨u, hu, rfl⟩ := (hrelabel signer).1 ht
    exact ⟨hn, u, ⟨signer, hr, hu⟩, rfl⟩

/-- A header that can be replayed makes a step of its signer. -/
theorem Step.of_apply {recover : Header → Except Failure Address} (hr : recover h = .ok signer)
    (ht : s.apply recover [h] = .ok t) : Step s signer h t := by
  obtain ⟨signer', hr', hst⟩ := apply_singleton_eq_ok_iff_step.1 ht
  obtain rfl : signer = signer' := Except.ok.inj (hr.symm.trans hr')
  exact hst

/-- The effects of a step: of a vote on an account, or of one for a percentage. -/
theorem Step.cases (hst : Step s signer h t) :
    (∃ authorize, h.voteKind? = some (.onAccount authorize) ∧
        t = (s.enter signer h).voteOnAccount (h.accountVote signer authorize)) ∨
      (h.voteKind? = some .quorumPercent ∧
        t = (s.enter signer h).voteOnQuorum (h.percentVote signer)) :=
  vote_eq_ok_iff.1 (acceptBlock_eq_ok_iff.1 hst.accepted).2.2

theorem Step.eq_of_onAccount {authorize : Bool} (hst : Step s signer h t)
    (hk : h.voteKind? = some (.onAccount authorize)) :
    t = (s.enter signer h).voteOnAccount (h.accountVote signer authorize) := by
  obtain ⟨authorize', hk', rfl⟩ | ⟨hk', -⟩ := hst.cases
  · rw [hk] at hk'
    cases authorize <;> cases authorize' <;> first | rfl | cases hk'
  · rw [hk] at hk'
    cases authorize <;> cases hk'

theorem Step.eq_of_quorumPercent (hst : Step s signer h t)
    (hk : h.voteKind? = some .quorumPercent) :
    t = (s.enter signer h).voteOnQuorum (h.percentVote signer) := by
  obtain ⟨authorize, hk', -⟩ | ⟨-, rfl⟩ := hst.cases
  · rw [hk] at hk'
    cases authorize <;> cases hk'
  · rfl

/-- Entering a block discards the pending votes if the block opens an epoch, moves the window, and
    leaves the rest. -/
theorem enter_eq (s : Snapshot) (signer : Address) (h : Header) :
    s.enter signer h =
      { (if s.isEpochStart h.number then s.discardVotes else s) with
        number := h.number
        hash := h.hash
        recents := (s.enter signer h).recents } := by
  have he : (s.relabel h.number h.hash).isEpochStart h.number = s.isEpochStart h.number := rfl
  rw [enter, openBlock, he]
  split <;> rfl

@[simp]
theorem config_enter (s : Snapshot) (signer : Address) (h : Header) :
    (s.enter signer h).config = s.config := by
  rw [enter_eq]
  dsimp only
  split <;> rfl

@[simp]
theorem signers_enter (s : Snapshot) (signer : Address) (h : Header) :
    (s.enter signer h).signers = s.signers := by
  rw [enter_eq]
  dsimp only
  split <;> rfl

@[simp]
theorem quorumPercent_enter (s : Snapshot) (signer : Address) (h : Header) :
    (s.enter signer h).quorumPercent = s.quorumPercent := by
  rw [enter_eq]
  dsimp only
  split <;> rfl

@[simp]
theorem isSigner_enter (s : Snapshot) (signer : Address) (h : Header) (a : Address) :
    (s.enter signer h).isSigner a = s.isSigner a := by
  rw [isSigner, signers_enter, isSigner]

@[simp]
theorem requiredMajority_enter (s : Snapshot) (signer : Address) (h : Header) :
    (s.enter signer h).requiredMajority = s.requiredMajority := by
  rw [requiredMajority, signerCount, signers_enter, quorumPercent_enter, requiredMajority,
    signerCount]

/-- A block is sealed by a signer. -/
theorem Step.isSigner_signer (hst : Step s signer h t) : s.isSigner signer = true := by
  rw [← isSigner_enter s signer h]
  exact (acceptBlock_eq_ok_iff.1 hst.accepted).1

theorem Step.number_lt (hst : Step s signer h t) : s.number < h.number :=
  UInt64.lt_iff_toNat_lt.2 (Nat.lt_of_lt_of_eq (Nat.lt_succ_self _) hst.number_eq.symm)

/-- The snapshot of a block has the number of the block. -/
theorem Step.number_right (hst : Step s signer h t) : t.number = h.number := by
  obtain ⟨_, -, rfl⟩ | ⟨-, rfl⟩ := hst.cases
  · rw [voteOnAccount_eq, enter_eq]
  · rw [voteOnQuorum_eq, enter_eq]

theorem Step.config_eq (hst : Step s signer h t) : t.config = s.config := by
  obtain ⟨_, -, rfl⟩ | ⟨-, rfl⟩ := hst.cases
  · rw [voteOnAccount_eq]
    exact config_enter s signer h
  · rw [voteOnQuorum_eq]
    exact config_enter s signer h

/-! ## Reachable snapshots -/

/-- The snapshots that a first one comes to by replays, each with a way of its own to find
    signers. -/
inductive Reachable : Snapshot → Prop
  | start (config : Config) (number : UInt64) (hash : Digest) (signers : List Address) :
      Reachable (ofSigners config number hash signers)
  | apply {s t : Snapshot} {recover : Header → Except Failure Address} {headers : List Header} :
      Reachable s → s.apply recover headers = .ok t → Reachable t

namespace Reachable

theorem step (hs : Reachable s) (hst : Step s signer h t) : Reachable t := by
  have ht : s.apply (fun _ => .ok signer) [h] = .ok t :=
    apply_singleton_eq_ok_iff_step.2 ⟨signer, rfl, hst⟩
  exact hs.apply ht

/-- What holds of first snapshots and is kept by every step holds of all reachable ones. -/
@[elab_as_elim]
theorem block_induction {p : (s : Snapshot) → Reachable s → Prop}
    (start : ∀ config number hash signers,
      p (ofSigners config number hash signers) (.start config number hash signers))
    (step : ∀ {s t : Snapshot} {signer : Address} {h : Header} (hs : Reachable s)
      (hst : Step s signer h t), p s hs → p t (hs.step hst))
    (hs : Reachable s) : p s hs := by
  induction hs with
  | start config number hash signers => exact start config number hash signers
  | @apply s t recover headers hs ht ih =>
    -- A replay is a chain of steps, each from a snapshot that is reachable.
    induction headers generalizing s with
    | nil =>
      obtain rfl : s = t := Except.ok.inj ht
      exact ih
    | cons h rest ihrest =>
      obtain ⟨m, hm, hrest⟩ := apply_cons_eq_ok_iff.1 ht
      obtain ⟨signer, -, hst⟩ := apply_singleton_eq_ok_iff_step.1 hm
      exact ihrest (hs.step hst) hrest (step hs hst ih)

end Reachable

/-- Takes headers at their word. -/
def declared (h : Header) : Except Failure Address := h.declaredSigner.mapError .noSigner

/-- A snapshot without votes, numbered zero. -/
def genesis (config : Config) (signers : List Address) : Snapshot :=
  ofSigners config 0 (.replicate 32 0) signers

/-- A replay of headers that declare their signers comes to a reachable snapshot. -/
theorem exists_reachable (config : Config) (signers : List Address) (headers : List Header)
    {p : Snapshot → Bool}
    (h : ((genesis config signers).apply declared headers).toOption.any p = true) :
    ∃ s, Reachable s ∧ p s = true := by
  obtain ⟨s, hs, hp⟩ := exists_eq_ok_of_any h
  exact ⟨s, (Reachable.start ..).apply hs, hp⟩

end Snapshot

end SignerVoting
