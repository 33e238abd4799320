import SignerVoting.Proofs.Majority
import SignerVoting.Proofs.Membership
import SignerVoting.Proofs.Runs

/-!
# The last signer

A configuration has to name a signer, but nothing keeps the signers of a chain from running out.
The last one can be stopped by a vote of its own, as long as one vote is enough, which it is below
one hundred percent. There is no other way (`Step.signers_eq_empty_iff`): a block stops one account
at most, and the last signer is the only one that can seal it and whose vote counts. Its vote to go
on sealing asks for no change, and takes back the vote that it may have cast to stop.

A snapshot without signers is the end of its chain (`apply_ne_ok_of_signers_eq_empty`).
-/

namespace SignerVoting

namespace Snapshot

variable {s t : Snapshot} {signer a : Address} {h : Header} {blocks : List Block} {n : UInt64}

/-! ## Sets of one signer -/

theorem mem_singleton {a b : Address} : b ∈ ({a} : Std.ExtTreeSet Address) ↔ b = a := by
  change b ∈ (∅ : Std.ExtTreeSet Address).insert a ↔ b = a
  rw [Std.ExtTreeSet.mem_insert, Std.LawfulEqCmp.compare_eq_iff_eq, eq_comm]
  exact or_iff_left Std.ExtTreeSet.not_mem_empty

theorem size_singleton (a : Address) : ({a} : Std.ExtTreeSet Address).size = 1 := by
  change ((∅ : Std.ExtTreeSet Address).insert a).size = 1
  simp [Std.ExtTreeSet.size_insert]

theorem isSigner_eq_decide (hs : s.signers = {a}) (b : Address) :
    s.isSigner b = decide (b = a) := by
  rw [isSigner, hs, Bool.eq_iff_iff, Std.ExtTreeSet.contains_iff_mem, mem_singleton,
    decide_eq_true_eq]

theorem signers_eq_singleton_iff : s.signers = {a} ↔ ∀ b, s.isSigner b = decide (b = a) := by
  refine ⟨isSigner_eq_decide, fun hs => Std.ExtTreeSet.ext_mem fun b => ?_⟩
  rw [mem_singleton, ← Std.ExtTreeSet.contains_iff_mem, ← isSigner, hs, decide_eq_true_eq]

/-! ## The votes of the last signer -/

/-- Besides the vote of a block, no vote of the last signer is left to count. -/
theorem backers_standing_eq_empty (hs : s.signers = {signer}) :
    s.backers (s.standing signer h) h.coinbase = ∅ := by
  rw [Std.ExtTreeSet.eq_empty_iff_forall_not_mem]
  intro a hmem
  obtain ⟨⟨v, hv, htarget, -, rfl⟩, hsigner⟩ := mem_backers.1 hmem
  rw [isSigner_eq_decide hs, decide_eq_true_eq] at hsigner
  -- Such a vote would be an earlier one on the same account, which is taken back.
  have hother := (List.mem_filter.1 hv).2
  simp [hsigner, htarget] at hother

/-- A vote of the last signer to stop itself counts. -/
theorem mem_backers_ballot (hs : s.signers = {signer}) (ha : h.coinbase = signer) :
    signer ∈ s.backers (s.ballot signer h false) h.coinbase := by
  have hsigner : s.isSigner signer = true := by
    rw [isSigner_eq_decide hs]
    exact decide_eq_true rfl
  have hmeaningful : s.isMeaningful h.coinbase false = true := by
    rw [isMeaningful_iff, ha, hsigner]
    rfl
  refine mem_backers.2 ⟨⟨h.accountVote signer false, ?_, rfl, ?_, rfl⟩, hsigner⟩
  · rw [ballot, if_pos hmeaningful]
    exact List.mem_append_right _ (List.mem_singleton.2 rfl)
  · rw [ha, hsigner]
    rfl

/-- The last signer has the majority for stopping itself if it votes for that and one vote is
    enough. -/
theorem requiredMajority_le_backers_iff {authorize : Bool} (hs : s.signers = {signer})
    (ha : h.coinbase = signer) :
    s.requiredMajority.toNat ≤ (s.backers (s.ballot signer h authorize) h.coinbase).size ↔
      authorize = false ∧ s.quorumPercent < 100 := by
  have hsize : s.signers.size = 1 := by rw [hs, size_singleton]
  have hpos := s.requiredMajority_pos
  rw [← requiredMajority_eq_one_iff hsize]
  cases authorize with
  | true =>
    have hsigner : s.isSigner h.coinbase = true := by
      rw [isSigner_eq_decide hs]
      exact decide_eq_true ha
    rw [ballot_eq_standing hsigner, backers_standing_eq_empty hs, Std.ExtTreeSet.size_empty]
    simp only [Bool.true_eq_false, false_and, iff_false]
    exact Nat.not_le.2 hpos
  | false =>
    have hle := s.size_backers_le (s.ballot signer h false) h.coinbase
    have hne := Std.ExtTreeSet.ne_empty_of_mem (mem_backers_ballot hs ha)
    rw [ne_eq, Std.ExtTreeSet.eq_empty_iff_size_eq_zero] at hne
    simp only [true_and]
    omega

/-! ## Blocks that leave no signer -/

/-- The signers run out exactly if the last one votes to stop itself and one vote is enough. -/
theorem Step.signers_eq_empty_iff (hst : Step s signer h t) (hv : s.VotesKept s.number) :
    t.signers = ∅ ↔
      s.signers = {signer} ∧ h.coinbase = signer ∧ h.voteKind? = some .drop ∧
        s.quorumPercent < 100 := by
  rw [Snapshot.signers_eq_empty_iff]
  obtain ⟨authorize, hk, -⟩ | ⟨hk, -⟩ := hst.cases
  · have hdrop : h.voteKind? = some .drop ↔ authorize = false := by
      rw [hk]
      cases authorize <;> simp [VoteKind.onAccount]
    simp only [hst.isSigner_of_onAccount hv hk, hdrop]
    constructor
    · intro hempty
      -- The signer of the block was one before it, so that it is the one that is stopped.
      have hstopped := hempty signer
      rw [hst.isSigner_signer] at hstopped
      obtain ⟨rfl, hle⟩ : signer = h.coinbase ∧ _ := by
        by_contra hnot
        rw [if_neg hnot] at hstopped
        cases hstopped
      have hs : s.signers = {h.coinbase} := by
        refine signers_eq_singleton_iff.2 fun a => ?_
        by_cases ha : a = h.coinbase
        · rw [ha, hst.isSigner_signer, decide_eq_true rfl]
        · have hother := hempty a
          rwa [if_neg fun hc => ha hc.1, ← decide_eq_false ha] at hother
      exact ⟨hs, rfl, (requiredMajority_le_backers_iff hs rfl).1 hle⟩
    · rintro ⟨hs, rfl, hvote⟩ a
      have hle := (requiredMajority_le_backers_iff hs rfl).2 hvote
      rw [isSigner_eq_decide hs]
      by_cases hac : a = h.coinbase
      · rw [if_pos ⟨hac, hle⟩, hac]
        simp
      · rw [if_neg fun hc => hac hc.1, decide_eq_false hac]
  · -- A vote for a percentage stops nobody, and the signer of the block is one.
    constructor
    · intro hempty
      have hsigner := hempty signer
      rw [isSigner, hst.signers_of_quorumPercent hk, ← isSigner, hst.isSigner_signer] at hsigner
      cases hsigner
    · rintro ⟨-, -, hdrop, -⟩
      rw [hk] at hdrop
      cases hdrop

/-- Without signers no header is accepted. -/
theorem apply_ne_ok_of_signers_eq_empty {recover : Header → Except Failure Address}
    {headers : List Header} (hempty : s.signers = ∅) (hne : headers ≠ []) :
    s.apply recover headers ≠ .ok t := by
  intro ht
  obtain ⟨first, rest, rfl⟩ := List.exists_cons_of_ne_nil hne
  obtain ⟨m, hm, -⟩ := apply_cons_eq_ok_iff.1 ht
  obtain ⟨signer, -, hst⟩ := apply_singleton_eq_ok_iff_step.1 hm
  have hsigner := hst.isSigner_signer
  rw [signers_eq_empty_iff.1 hempty] at hsigner
  cases hsigner

/-! ## The law of the last signer -/

theorem signers_ofSigners_ne_empty {config : Config} {number : UInt64} {hash : Digest}
    {signers : List Address} (hne : signers ≠ []) :
    (ofSigners config number hash signers).signers ≠ ∅ := by
  obtain ⟨a, rest, rfl⟩ := List.exists_cons_of_ne_nil hne
  refine Std.ExtTreeSet.ne_empty_of_mem (a := a) ?_
  simp [ofSigners, Std.ExtTreeSet.mem_ofList]

/-- With a valid configuration, a chain has a signer after every run, unless the last block is a
    vote of the only signer left to stop itself while one vote is enough. Then it has none, and no
    header is accepted any more. -/
theorem Run.no_signer_left_iff {config : Config} {number : UInt64} {hash : Digest}
    (hvalid : config.validated = .ok config)
    (hr : Run (ofSigners config number hash config.signers) blocks t) :
    (t.signers = ∅ ↔
      ∃ c, blocks.getLast? = some c ∧ c.before.signers = {c.signer} ∧
        c.header.coinbase = c.signer ∧ c.header.voteKind? = some .drop ∧
          c.before.quorumPercent < 100) ∧
    (t.signers = ∅ → ∀ (recover : Header → Except Failure Address) (headers : List Header) u,
      t.apply recover headers = .ok u → headers = []) := by
  constructor
  · cases hr with
    | nil =>
      have hfault := (Config.validated_eq_ok_iff.1 hvalid).2
      have hne := (Config.fault?_eq_none_iff.1 hfault).2.2.2.2
      exact iff_of_false (signers_ofSigners_ne_empty hne) fun ⟨c, hlast, _⟩ => nomatch hlast
    | concat c hr =>
      have hc := hr.reachable (.start ..)
      rw [List.getLast?_concat, c.step.signers_eq_empty_iff hc.votesKept]
      constructor
      · exact fun hstops => ⟨c, rfl, hstops⟩
      · rintro ⟨_, hlast, hstops⟩
        obtain rfl := Option.some.inj hlast
        exact hstops
  · intro hempty recover headers u hu
    by_contra hne
    exact apply_ne_ok_of_signers_eq_empty hempty hne hu

/-- The only signer of a chain stops itself. -/
theorem no_signer_left_after_own_drop :
    ∃ (config : Config) (blocks : List Block) (t : Snapshot),
      config.validated = .ok config ∧ Run (genesis config config.signers) blocks t ∧
        blocks.map Block.header = [.declaring (.ofLow64 1) 1 .drop (.ofLow64 1)] ∧
        (∃ c, blocks.getLast? = some c ∧ c.before.signers = {c.signer} ∧
          c.before.quorumPercent < 100) ∧
        ∀ recover headers u, t.apply recover headers = .ok u → headers = [] := by
  let config : Config := { signers := [.ofLow64 1] }
  have hvalid : config.validated = .ok config := by decide +kernel
  obtain ⟨blocks, t, hr, hheaders, hp⟩ := exists_run config config.signers
    [.declaring (.ofLow64 1) 1 .drop (.ofLow64 1)] (p := fun t => t.signers.size = 0)
    (by decide +kernel)
  obtain ⟨hiff, hlast⟩ := Run.no_signer_left_iff hvalid hr
  have hempty : t.signers = ∅ :=
    Std.ExtTreeSet.eq_empty_iff_size_eq_zero.2 (of_decide_eq_true hp)
  obtain ⟨c, hc, honly, -, -, hpercent⟩ := hiff.1 hempty
  exact ⟨config, blocks, t, hvalid, hr, hheaders, ⟨c, hc, honly, hpercent⟩, hlast hempty⟩

theorem not_forall_signer_left :
    ¬∀ (config : Config) (number : UInt64) (hash : Digest) (blocks : List Block) (t : Snapshot),
      config.validated = .ok config →
        Run (ofSigners config number hash config.signers) blocks t → t.signers ≠ ∅ := by
  intro hall
  let config : Config := { signers := [.ofLow64 1] }
  obtain ⟨blocks, t, hr, -, hp⟩ := exists_run config config.signers
    [.declaring (.ofLow64 1) 1 .drop (.ofLow64 1)] (p := fun t => t.signers.size = 0)
    (by decide +kernel)
  exact hall config _ _ blocks t (by decide +kernel) hr
    (Std.ExtTreeSet.eq_empty_iff_size_eq_zero.2 (of_decide_eq_true hp))

end Snapshot

end SignerVoting
