import SignerVoting.Proofs.Progress

/-!
# Who has to wait

Whoever is asked when an account sealed last (`recentlySigned`) searches the recent signers for it
and answers with the first block found. A replay moves the window first, and then looks whether the
account is among those that are left. Both come to the same, since nobody is twice among the recent
signers: there is one block to be found, in whatever order they are searched
(`RecentsKept.find?_eq_some_iff`), and it is the last one that the account sealed
(`Run.exists_last_of_recent`). The account has to wait as long as that block is inside of the
window.

Fewer accounts wait than the window is wide. Below one hundred percent the window is no wider than
there are signers, so that some of them are ready (`Reachable.size_ready`).
-/

namespace SignerVoting

namespace Snapshot

variable {s t : Snapshot} {blocks : List Block} {n : Nat} {block : UInt64} {a : Address}
  {recents : Std.ExtTreeMap UInt64 Address}

/-! ## When an account sealed last -/

/-- A search for a signer, in any order, finds the one block that it is on record with. -/
theorem RecentsKept.find?_eq_some_iff (h : RecentsKept recents n)
    {entries : List (UInt64 × Address)} (hentries : entries.Perm recents.toList) :
    (entries.find? fun e => e.2 = a).map Prod.fst = some block ↔ recents[block]? = some a := by
  have hmem (e : UInt64 × Address) : e ∈ entries ↔ recents[e.1]? = some e.2 := by
    rw [hentries.mem_iff, Std.ExtTreeMap.mem_toList_iff_getElem?_eq_some]
  have hfound {e : UInt64 × Address} (he : entries.find? (fun e => e.2 = a) = some e) :
      recents[e.1]? = some a := by
    have hsigner := List.find?_some he
    rw [← of_decide_eq_true hsigner]
    exact (hmem e).1 (List.mem_of_find?_eq_some he)
  constructor
  · intro hblock
    obtain ⟨e, he, rfl⟩ := Option.map_eq_some_iff.1 hblock
    exact hfound he
  · intro hblock
    rcases he : entries.find? fun e => e.2 = a with _ | e
    · have hnone := List.find?_eq_none.1 he (block, a) ((hmem (block, a)).2 hblock)
      exact absurd (decide_eq_true rfl) hnone
    · -- What is found is on record with the same signer, and so for the same block.
      rw [he, h.distinct hblock (hfound he)]
      rfl

theorem Reachable.recentlySigned_eq_some_iff (hs : Reachable s) :
    s.recentlySigned a = some block ↔ s.recents[block]? = some a :=
  hs.recentsKept.find?_eq_some_iff (List.Perm.refl _)

/-- A later block leaves the window later. -/
theorem Lasts.of_number_le {b c : Block} (hb : Lasts Block.LeftBehind Block.ShrunkBehind blocks b)
    (hle : b.number ≤ c.number) : Lasts Block.LeftBehind Block.ShrunkBehind blocks c := by
  refine ⟨fun d hd hcd hleft => hb.1 d hd (Nat.lt_of_le_of_lt hle hcd) ?_,
    fun d hd hcd hshrunk => hb.2 d hd (Nat.le_trans hle hcd) ⟨hshrunk.1, ?_⟩⟩
  · exact Nat.le_trans (Nat.add_le_add_right hle _) hleft
  · exact Nat.le_trans (Nat.add_le_add_right hle _) hshrunk.2

/-- The block that an account is on record with is the last one that it sealed. -/
theorem Run.exists_last_of_recent (hr : Run s blocks t) (hs : Reachable s) (hnil : s.recents = ∅)
    (hblock : t.recents[block]? = some a) :
    ∃ b ∈ blocks, b.header.number = block ∧ b.signer = a ∧
      ∀ c ∈ blocks, c.signer = a → c.number ≤ b.number := by
  obtain ⟨b, hb, rfl, rfl, hlasts⟩ := (hr.getElem?_recents hs hnil).1 hblock
  refine ⟨b, hb, rfl, rfl, fun c hc hsigner => ?_⟩
  by_contra hlt
  -- A later block of the same signer would be on record as well.
  have hlater : t.recents[c.header.number]? = some b.signer :=
    (hr.getElem?_recents hs hnil).2
      ⟨c, hc, rfl, hsigner, hlasts.of_number_le (Nat.le_of_not_le hlt)⟩
  have hsame := (hr.reachable hs).recentsKept.distinct hblock hlater
  rw [Block.number, Block.number, hsame] at hlt
  exact hlt (Nat.le_refl _)

/-- A signer has to wait as long as its last block is inside of the window. -/
theorem Reachable.apply_eq_recentlySigned_iff (hs : Reachable s)
    {recover : Header → Except Failure Address} {h : Header}
    (hnumber : h.number.toNat = s.number.toNat + 1) (hr : recover h = .ok a)
    (ha : s.isSigner a = true) :
    s.apply recover [h] = .error (.recentlySigned a) ↔
      ∃ block, s.recentlySigned a = some block ∧
        s.number.toNat + 1 - block.toNat < s.requiredMajority.toNat := by
  have hk := hs.recentsKept
  rw [Snapshot.apply_eq_recentlySigned_iff hnumber hr ha]
  refine exists_congr fun block => ?_
  rw [hk.getElem?_shrinkRecents s.number.toNat_lt (Nat.le_of_eq hnumber),
    hs.recentlySigned_eq_some_iff]
  refine and_congr_right fun hblock => ?_
  have hle := ((hk.mem_iff s.number.toNat_lt).1 (mem_iff_exists_getElem?.2 ⟨a, hblock⟩)).2
  omega

/-- After a run, an account is among the recent signers with one block at most, so that the question
    when it sealed last has one answer, in whatever order they are searched. The answer is the last
    block of the run that the account sealed. The next block, of a signer, is refused for coming too
    soon exactly if the answer is a block inside of the window. -/
theorem Run.recentlySigned_eq_last {config : Config} {number : UInt64} {hash : Digest}
    {signers : List Address} (hr : Run (ofSigners config number hash signers) blocks t)
    (x : Address) :
    (∀ k l : UInt64, t.recents[k]? = some x → t.recents[l]? = some x → k = l) ∧
    (∀ entries : List (UInt64 × Address), entries.Perm t.recents.toList →
      (entries.find? fun e => e.2 = x).map Prod.fst = t.recentlySigned x) ∧
    (∀ block, t.recentlySigned x = some block ↔ t.recents[block]? = some x) ∧
    (∀ block, t.recentlySigned x = some block →
      ∃ b ∈ blocks, b.header.number = block ∧ b.signer = x ∧
        ∀ c ∈ blocks, c.signer = x → c.number ≤ b.number) ∧
    ∀ (recover : Header → Except Failure Address) (h : Header),
      h.number.toNat = t.number.toNat + 1 → recover h = .ok x → t.isSigner x = true →
        (t.apply recover [h] = .error (.recentlySigned x) ↔
          ∃ block, t.recentlySigned x = some block ∧
            t.number.toNat + 1 - block.toNat < t.requiredMajority.toNat) := by
  have hs : Reachable t := hr.reachable (.start ..)
  refine ⟨fun k l => hs.recentsKept.distinct, fun entries hentries => ?_,
    fun block => hs.recentlySigned_eq_some_iff, fun block hblock => ?_,
    fun recover h hnumber hrecover hx => hs.apply_eq_recentlySigned_iff hnumber hrecover hx⟩
  · refine Option.ext fun block => ?_
    rw [hs.recentsKept.find?_eq_some_iff hentries, hs.recentlySigned_eq_some_iff]
  · exact hr.exists_last_of_recent (.start ..) rfl (hs.recentlySigned_eq_some_iff.1 hblock)

/-- Three of four signers have sealed a block each. The block of the second one is inside of the
    window, and that of the first one is not any more. -/
theorem recentlySigned_eq_last_window :
    ∃ blocks t, Run (genesis {} [.ofLow64 1, .ofLow64 2, .ofLow64 3, .ofLow64 4]) blocks t ∧
      t.recentlySigned (.ofLow64 1) = some 1 ∧ t.recentlySigned (.ofLow64 2) = some 2 ∧
        t.apply declared [.declaring (.ofLow64 1) 4 .authorize (.ofLow64 5)] ≠
          .error (.recentlySigned (.ofLow64 1)) ∧
        t.apply declared [.declaring (.ofLow64 2) 4 .authorize (.ofLow64 5)] =
          .error (.recentlySigned (.ofLow64 2)) := by
  obtain ⟨blocks, t, hr, -, hp⟩ := exists_run {} [.ofLow64 1, .ofLow64 2, .ofLow64 3, .ofLow64 4]
    [.declaring (.ofLow64 1) 1 .authorize (.ofLow64 5),
      .declaring (.ofLow64 2) 2 .authorize (.ofLow64 5),
      .declaring (.ofLow64 3) 3 .authorize (.ofLow64 6)]
    (p := fun t => t.number = 3 ∧ t.requiredMajority = 3 ∧ t.isSigner (.ofLow64 1) = true ∧
      t.isSigner (.ofLow64 2) = true ∧ t.recentlySigned (.ofLow64 1) = some 1 ∧
        t.recentlySigned (.ofLow64 2) = some 2) (by decide +kernel)
  obtain ⟨hnumber, hmajority, hfirst, hsecond, hone, htwo⟩ := of_decide_eq_true hp
  have hrefused (x : Address) := (Run.recentlySigned_eq_last hr x).2.2.2.2 declared
    (.declaring x 4 .authorize (.ofLow64 5)) (by rw [hnumber]; rfl)
  refine ⟨blocks, t, hr, hone, htwo, fun hrefusal => ?_, ?_⟩
  · obtain ⟨block, hblock, hinside⟩ := (hrefused _ (by decide +kernel) hfirst).1 hrefusal
    obtain rfl := Option.some.inj (hone.symm.trans hblock)
    rw [hnumber, hmajority] at hinside
    exact absurd hinside (by decide)
  · refine (hrefused _ (by decide +kernel) hsecond).2 ⟨2, htwo, ?_⟩
    rw [hnumber, hmajority]
    decide

/-! ## How many are ready -/

/-- Below one hundred percent the required majority is no more than the number of signers, and of
    those at least one more can seal the next block than there are signers besides the majority. -/
theorem Reachable.size_ready (hs : Reachable s) (hpos : 1 ≤ s.signers.size)
    (hp : s.quorumPercent ≤ 99) (hlast : s.number < Word.greatest) :
    s.requiredMajority.toNat ≤ s.signers.size ∧
      ∃ ready : Std.ExtTreeSet Address,
        (∀ a, a ∈ ready ↔ s.isSigner a = true ∧ s.CanSeal a) ∧
          s.signers.size - s.requiredMajority.toNat + 1 ≤ ready.size := by
  have hle := requiredMajority_le_size (UInt64.lt_of_le_of_lt hp (by decide)) hpos
  refine ⟨hle, s.ready, fun a => ?_, ?_⟩
  · rw [mem_ready, canSeal_iff hlast, and_self_left]
  · have hsize := s.size_signers_le_add
    have hfew := hs.recentsKept.size_shrinkRecents_lt (toNat_number_add_one hlast)
    rw [← length_waiting] at hfew
    omega

/-- Two signers have lowered the percentage, so that one vote is enough. Both are recent signers,
    and both can seal the next block. -/
theorem size_ready_lowered :
    ∃ s, Reachable s ∧ s.signers.size = 2 ∧ s.recents.size = 2 ∧ s.requiredMajority = 1 ∧
      ∃ ready : Std.ExtTreeSet Address,
        (∀ a, a ∈ ready ↔ s.isSigner a = true ∧ s.CanSeal a) ∧ 2 ≤ ready.size := by
  obtain ⟨s, hs, hp⟩ := exists_reachable {} [.ofLow64 1, .ofLow64 2] lowering
    (p := fun s => s.signers.size = 2 ∧ s.recents.size = 2 ∧ s.requiredMajority = 1 ∧
      s.quorumPercent ≤ 99 ∧ s.number < Word.greatest) (by decide +kernel)
  obtain ⟨hsigners, hrecents, hmajority, hpercent, hlast⟩ := of_decide_eq_true hp
  obtain ⟨-, ready, hready, hsize⟩ := Reachable.size_ready hs (by rw [hsigners]; decide) hpercent
    hlast
  rw [hsigners, hmajority] at hsize
  exact ⟨s, hs, hsigners, hrecents, hmajority, ready, hready, hsize⟩

end Snapshot

end SignerVoting
