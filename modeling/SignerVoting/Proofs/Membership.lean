import SignerVoting.Proofs.Votes

/-!
# Membership

Who may seal changes by votes on accounts only, and by each block for its coinbase at most. The
votes that decide are those pending when the block is entered, less the earlier vote of the signer
about the coinbase (`standing`), and the block's own vote if it asks for a change (`ballot`). If as
many signers as the majority are among those who voted to change what the account is (`backers`),
then it changes, and the matter is settled.

A vote that asks for no change is not recorded, but the votes about its account are counted all the
same. They may suffice without it: since they were cast, fewer votes may have become enough. Then
the block carries out the opposite of what it says.

* `Step.isSigner_of_onAccount`: what every account is after a vote on one;
* `Step.signers_ne_iff_of_onAccount`: when the signers change;
* `Step.settled_of_onAccount`: what is left of the votes when they do;
* `ballot_eq_standing`: the votes that decide on a vote that asks for no change.
-/

namespace SignerVoting

namespace Snapshot

variable {s t : Snapshot} {signer : Address} {h : Header} {authorize : Bool} {n : UInt64}

/-! ## The votes that decide -/

/-- The votes besides its own that a vote on an account is counted with. -/
def standing (s : Snapshot) (signer : Address) (h : Header) : List Vote :=
  (if s.isEpochStart h.number then [] else s.votes).filter fun v =>
    !decide (v.signer = signer ∧ v.target = h.coinbase)

/-- The votes that a vote on an account is counted with, and the vote if it asks for a change. -/
def ballot (s : Snapshot) (signer : Address) (h : Header) (authorize : Bool) : List Vote :=
  s.standing signer h ++
    if s.isMeaningful h.coinbase authorize then [h.accountVote signer authorize] else []

/-- The signers among those with a vote for changing what an account is. -/
def backers (s : Snapshot) (votes : List Vote) (target : Address) : Std.ExtTreeSet Address :=
  (supporters votes target !s.isSigner target).filter s.isSigner

theorem mem_backers {votes : List Vote} {target a : Address} :
    a ∈ s.backers votes target ↔
      (∃ v ∈ votes, v.target = target ∧ v.authorize = (!s.isSigner target) ∧ v.signer = a) ∧
        s.isSigner a = true := by
  rw [backers, Std.ExtTreeSet.mem_filter, ← mem_supporters]
  simp only [Std.ExtTreeSet.get_eq, exists_prop]

/-- There are no more signers behind a change than signers. -/
theorem size_backers_le (s : Snapshot) (votes : List Vote) (target : Address) :
    (s.backers votes target).size ≤ s.signers.size :=
  size_le_size fun _ ha => Std.ExtTreeSet.contains_iff_mem.1 (mem_backers.1 ha).2

/-- The snapshot in which the votes about the coinbase of a block are counted. -/
def poll (s : Snapshot) (signer : Address) (h : Header) (authorize : Bool) : Snapshot :=
  ((s.enter signer h).withdraw signer h.coinbase).cast (h.accountVote signer authorize)

theorem voteOnAccount_enter (s : Snapshot) (signer : Address) (h : Header) (authorize : Bool) :
    (s.enter signer h).voteOnAccount (h.accountVote signer authorize) =
      (s.poll signer h authorize).settle h.coinbase h.number := rfl

theorem votes_enter (s : Snapshot) (signer : Address) (h : Header) :
    (s.enter signer h).votes = if s.isEpochStart h.number then [] else s.votes := by
  rw [enter_eq]
  dsimp only
  split <;> rfl

theorem votes_cast (s : Snapshot) (v : Vote) :
    (s.cast v).votes = s.votes ++ if s.isMeaningful v.target v.authorize then [v] else [] := by
  rw [cast]
  split
  · rfl
  · rw [List.append_nil]

section Poll

variable (s signer h authorize)

@[simp]
theorem signers_poll : (s.poll signer h authorize).signers = s.signers := by
  rw [poll, cast_eq, withdraw_eq]
  exact signers_enter s signer h

@[simp]
theorem isSigner_poll (a : Address) : (s.poll signer h authorize).isSigner a = s.isSigner a := by
  rw [isSigner, signers_poll, isSigner]

@[simp]
theorem requiredMajority_poll :
    (s.poll signer h authorize).requiredMajority = s.requiredMajority := by
  rw [poll, cast_eq, withdraw_eq]
  exact requiredMajority_enter s signer h

end Poll

theorem VotesKept.poll (hs : s.VotesKept s.number) (hst : Step s signer h t) (authorize : Bool) :
    (s.poll signer h authorize).VotesKept h.number := by
  have hvoter : (s.enter signer h).isSigner signer = true := by
    rw [isSigner_enter]
    exact hst.isSigner_signer
  exact (hs.enter signer h).record (v := h.accountVote signer authorize) hst.number_eq hvoter

theorem VotesKept.votes_poll (hs : s.VotesKept n) (signer : Address) (h : Header)
    (authorize : Bool) : (s.poll signer h authorize).votes = s.ballot signer h authorize := by
  -- Taking the earlier vote back leaves who is a signer, and so what asks for a change.
  have hw : ((s.enter signer h).withdraw signer h.coinbase).votes = s.standing signer h := by
    rw [votes_withdraw (hs.enter signer h).unique, votes_enter, standing]
  have hm : ((s.enter signer h).withdraw signer h.coinbase).isMeaningful h.coinbase authorize =
      s.isMeaningful h.coinbase authorize := by
    rw [withdraw_eq, isMeaningful, isMeaningful, ← isSigner_enter s signer h]
    rfl
  rw [Snapshot.poll, votes_cast, hw, ballot, ← hm]
  rfl

/-- The votes about the coinbase are counted by the signers behind them. -/
theorem VotesKept.countP_poll (hs : s.VotesKept s.number) (hst : Step s signer h t)
    (authorize : Bool) :
    ((s.poll signer h authorize).votes.countP fun v => v.target = h.coinbase) =
      (s.backers (s.ballot signer h authorize) h.coinbase).size := by
  have hsigner : (s.poll signer h authorize).isSigner = s.isSigner :=
    funext fun a => isSigner_poll s signer h authorize a
  rw [← (hs.poll hst authorize).size_supporters, hs.votes_poll, hsigner, backers]

/-! ## Steps -/

/-- A vote on an account changes what the coinbase is if the signers behind the change suffice, and
    nothing about other accounts. -/
theorem Step.isSigner_of_onAccount (hst : Step s signer h t) (hs : s.VotesKept s.number)
    (hk : h.voteKind? = some (.onAccount authorize)) (a : Address) :
    t.isSigner a =
      if a = h.coinbase ∧
          s.requiredMajority.toNat ≤ (s.backers (s.ballot signer h authorize) h.coinbase).size then
        !s.isSigner a
      else s.isSigner a := by
  rw [hst.eq_of_onAccount hk, voteOnAccount_enter, (hs.poll hst authorize).isSigner_settle,
    hs.countP_poll hst, isSigner_poll, requiredMajority_poll]

/-- The matter is settled when what the coinbase is changes. -/
theorem Step.settled_of_onAccount (hst : Step s signer h t) (hs : s.VotesKept s.number)
    (hk : h.voteKind? = some (.onAccount authorize))
    (hle : s.requiredMajority.toNat ≤ (s.backers (s.ballot signer h authorize) h.coinbase).size) :
    (∀ v ∈ t.votes, v.target ≠ h.coinbase) ∧ h.coinbase ∉ t.tally ∧
      (s.isSigner h.coinbase = true → ∀ v ∈ t.votes, v.signer ≠ h.coinbase) := by
  rw [← hs.countP_poll hst, ← requiredMajority_poll s signer h authorize] at hle
  have hsettled := (hs.poll hst authorize).settled h.number hle
  rw [isSigner_poll] at hsettled
  rw [hst.eq_of_onAccount hk, voteOnAccount_enter]
  exact hsettled

/-- The signers change exactly if what some account is does. -/
theorem signers_ne_iff : t.signers ≠ s.signers ↔ ∃ a, t.isSigner a ≠ s.isSigner a := by
  constructor
  · intro hne
    by_contra hall
    push Not at hall
    exact hne (Std.ExtTreeSet.ext_contains hall)
  · rintro ⟨a, ha⟩ heq
    exact ha (by rw [isSigner, heq, isSigner])

/-- A vote for a percentage leaves the signers. -/
theorem Step.signers_of_quorumPercent (hst : Step s signer h t)
    (hk : h.voteKind? = some .quorumPercent) : t.signers = s.signers := by
  rw [hst.eq_of_quorumPercent hk, voteOnQuorum_eq]
  exact signers_enter s signer h

/-- A block leaves what accounts other than its coinbase are. -/
theorem Step.isSigner_of_ne (hst : Step s signer h t) (hs : s.VotesKept s.number) {a : Address}
    (ha : a ≠ h.coinbase) : t.isSigner a = s.isSigner a := by
  obtain ⟨authorize, hk, -⟩ | ⟨hk, -⟩ := hst.cases
  · rw [hst.isSigner_of_onAccount hs hk, if_neg fun hc => ha hc.1]
  · rw [isSigner, hst.signers_of_quorumPercent hk, isSigner]

/-- The signers change exactly if those behind the change of the coinbase suffice. -/
theorem Step.signers_ne_iff_of_onAccount (hst : Step s signer h t) (hs : s.VotesKept s.number)
    (hk : h.voteKind? = some (.onAccount authorize)) :
    t.signers ≠ s.signers ↔
      s.requiredMajority.toNat ≤
        (s.backers (s.ballot signer h authorize) h.coinbase).size := by
  simp only [signers_ne_iff, hst.isSigner_of_onAccount hs hk]
  constructor
  · rintro ⟨a, ha⟩
    by_contra hlt
    simp [hlt] at ha
  · intro hle
    refine ⟨h.coinbase, ?_⟩
    simp [hle]

/-! ## The law of membership -/

/-- A block changes what its coinbase is at most, and nothing if it votes for a percentage. If it
    votes on an account, the signers change exactly if as many of them as the majority have a vote
    for the change among those counted. Then no vote about the coinbase is left, no score, and no
    vote of the coinbase if it was stopped. -/
theorem signers_of_apply {recover : Header → Except Failure Address} (hs : Reachable s)
    (hr : recover h = .ok signer) (ht : s.apply recover [h] = .ok t) :
    (∀ a, a ≠ h.coinbase → t.isSigner a = s.isSigner a) ∧
    (h.voteKind? = some .quorumPercent → t.signers = s.signers) ∧
    (∀ authorize, h.voteKind? = some (.onAccount authorize) →
      (t.signers ≠ s.signers ↔
        s.requiredMajority.toNat ≤
          (s.backers (s.ballot signer h authorize) h.coinbase).size)) ∧
    (t.signers ≠ s.signers →
      (∀ v ∈ t.votes, v.target ≠ h.coinbase) ∧ h.coinbase ∉ t.tally ∧
        (t.isSigner h.coinbase = false → ∀ v ∈ t.votes, v.signer ≠ h.coinbase)) := by
  have hst := Step.of_apply hr ht
  have hkept := hs.votesKept
  refine ⟨fun a => hst.isSigner_of_ne hkept, hst.signers_of_quorumPercent,
    fun authorize => hst.signers_ne_iff_of_onAccount hkept, fun hne => ?_⟩
  obtain ⟨authorize, hk, -⟩ | ⟨hk, -⟩ := hst.cases
  · have hle := (hst.signers_ne_iff_of_onAccount hkept hk).1 hne
    obtain ⟨htarget, htally, hstopped⟩ := hst.settled_of_onAccount hkept hk hle
    -- The coinbase is no signer after the change, so that it was one before.
    refine ⟨htarget, htally, fun hout => hstopped ?_⟩
    rw [hst.isSigner_of_onAccount hkept hk, if_pos ⟨rfl, hle⟩] at hout
    simpa using hout
  · exact absurd (hst.signers_of_quorumPercent hk) hne

/-- The only signer of a chain lets another one seal. -/
theorem signers_of_apply_first :
    ∃ s h t, Reachable s ∧ s.apply declared [h] = .ok t ∧ t.signers ≠ s.signers ∧
      s.requiredMajority.toNat ≤ (s.backers (s.ballot (.ofLow64 1) h true) h.coinbase).size ∧
        h.coinbase ∉ t.tally := by
  let s := genesis {} [.ofLow64 1]
  let h := Header.declaring (.ofLow64 1) 1 .authorize (.ofLow64 2)
  obtain ⟨t, ht, hp⟩ : ∃ t, s.apply declared [h] = .ok t ∧ t.isSigner (.ofLow64 2) = true :=
    exists_eq_ok_of_any (by decide +kernel)
  have hs : Reachable s := .start ..
  have hne : t.signers ≠ s.signers := by
    rw [signers_ne_iff]
    refine ⟨.ofLow64 2, ?_⟩
    rw [hp]
    decide +kernel
  have hr : declared h = .ok (.ofLow64 1) := by decide +kernel
  obtain ⟨-, -, hiff, hsettled⟩ := signers_of_apply hs hr ht
  exact ⟨s, h, t, hs, ht, hne, (hiff true (by decide +kernel)).1 hne, (hsettled hne).2.1⟩

/-! ## Votes carried out the other way round -/

/-- A vote that asks for no change is not recorded. -/
theorem ballot_eq_standing (hm : s.isSigner h.coinbase = authorize) :
    s.ballot signer h authorize = s.standing signer h := by
  rw [ballot, isMeaningful, hm]
  simp

/-- A vote to let an account seal stops one, and a vote to stop an account lets one seal, exactly if
    it is the account that the vote is about, and the other votes on that suffice already. -/
theorem opposite_of_apply {recover : Header → Except Failure Address} (hs : Reachable s)
    (hr : recover h = .ok signer) (ht : s.apply recover [h] = .ok t)
    (hk : h.voteKind? = some (.onAccount authorize)) (a : Address) :
    (s.isSigner a = authorize ∧ t.isSigner a = !authorize) ↔
      a = h.coinbase ∧ s.isSigner a = authorize ∧
        s.requiredMajority.toNat ≤ (s.backers (s.standing signer h) h.coinbase).size := by
  have hst := Step.of_apply hr ht
  rw [hst.isSigner_of_onAccount hs.votesKept hk]
  constructor
  · rintro ⟨rfl, hopposite⟩
    split at hopposite
    · -- The vote asks for no change, so that it is not among those that suffice.
      rename_i hc
      obtain ⟨rfl, hle⟩ := hc
      rw [ballot_eq_standing rfl] at hle
      exact ⟨rfl, rfl, hle⟩
    · simp at hopposite
  · rintro ⟨rfl, rfl, hle⟩
    rw [← ballot_eq_standing rfl] at hle
    rw [if_pos ⟨rfl, hle⟩]
    exact ⟨rfl, rfl⟩

/-- The first of two signers votes for the second, which is one already. -/
theorem opposite_of_apply_first :
    ∃ s h t, Reachable s ∧ s.apply declared [h] = .ok t ∧ h.voteKind? = some .authorize ∧
      ∀ a, (s.isSigner a = true ∧ t.isSigner a = false) ↔
        a = h.coinbase ∧ s.isSigner a = true ∧
          s.requiredMajority.toNat ≤
            (s.backers (s.standing (.ofLow64 1) h) h.coinbase).size := by
  let s := genesis {} [.ofLow64 1, .ofLow64 2]
  let h := Header.declaring (.ofLow64 1) 1 .authorize (.ofLow64 2)
  obtain ⟨t, ht, -⟩ : ∃ t, s.apply declared [h] = .ok t ∧ true = true :=
    exists_eq_ok_of_any (by decide +kernel)
  have hs : Reachable s := .start ..
  exact ⟨s, h, t, hs, ht, by decide +kernel,
    opposite_of_apply hs (by decide +kernel) ht (by decide +kernel)⟩

/-- Of four signers, two vote to stop the last one, which is not enough. Then the third is stopped
    by the others, and two are enough. -/
def overdue : List Header :=
  [.declaring (.ofLow64 1) 1 .drop (.ofLow64 4), .declaring (.ofLow64 2) 2 .drop (.ofLow64 4),
    .declaring (.ofLow64 4) 3 .drop (.ofLow64 3), .declaring (.ofLow64 1) 4 .drop (.ofLow64 3),
    .declaring (.ofLow64 2) 5 .drop (.ofLow64 3)]

/-- After that, a vote of the last signer to let it seal stops it. -/
theorem not_forall_keeps_direction :
    ¬∀ (s t : Snapshot) (recover : Header → Except Failure Address) (h : Header),
      Reachable s → s.apply recover [h] = .ok t →
        (h.voteKind? = some .authorize → ∀ a, s.isSigner a = true → t.isSigner a = true) ∧
          (h.voteKind? = some .drop → ∀ a, t.isSigner a = true → s.isSigner a = true) := by
  intro hall
  let last := Header.declaring (.ofLow64 4) 6 .authorize (.ofLow64 4)
  obtain ⟨s, hs, hp⟩ := exists_reachable {}
    [.ofLow64 1, .ofLow64 2, .ofLow64 3, .ofLow64 4] overdue
    (p := fun s => (s.apply declared [last]).toOption.any fun t =>
      s.isSigner (.ofLow64 4) && !t.isSigner (.ofLow64 4)) (by decide +kernel)
  -- The two votes suffice by now, and the last header has them counted.
  obtain ⟨t, ht, hst⟩ := exists_eq_ok_of_any hp
  rw [Bool.and_eq_true, Bool.not_eq_true'] at hst
  have hkeeps := (hall s t declared last hs ht).1 (by decide +kernel) (.ofLow64 4) hst.1
  rw [hst.2] at hkeeps
  cases hkeeps

end Snapshot

end SignerVoting
