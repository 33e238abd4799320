import SignerVoting.Proofs.Majority
import SignerVoting.Proofs.Quorum
import SignerVoting.Proofs.Window

/-!
# The width of the window

The window is as wide as the required majority, and the recent signers are those of the blocks that
it covers. A block moves the window when it is entered, and once more if it stops a signer. So there
are no more recent signers than the majority that was required before the block
(`Block.size_recents_le`), and no more than the one that is required after it if it stops a signer
(`Block.size_recents_le_of_stops`).

A vote that puts another percentage in force does not move the window. Where the percentage falls,
there may be more recent signers than the window is wide, until the next block is entered
(`RecentsKept.size_shrinkRecents_lt`).
-/

namespace SignerVoting

namespace Snapshot

variable {s t : Snapshot} {blocks : List Block} {n w : Nat} {number : UInt64}
  {recents : Std.ExtTreeMap UInt64 Address}

/-! ## How many are recent -/

namespace RecentsKept

/-- Blocks without a gap that are all inside of a window are no more than it is wide. -/
theorem size_le (h : RecentsKept recents n) (hn : n < UInt64.size)
    (hw : ∀ block ∈ recents, n < block.toNat + w) : recents.size ≤ w := by
  obtain ⟨m, hm, hspans⟩ := h.spans
  rw [hspans.size_eq hn]
  rcases Nat.eq_or_lt_of_le hm with rfl | hlt
  · omega
  · -- The first of the blocks is inside of the window.
    have hfirst : (UInt64.ofNat (m + 1)).toNat = m + 1 := UInt64.toNat_ofNat_of_lt' (by omega)
    have hmem : UInt64.ofNat (m + 1) ∈ recents := by
      rw [hspans, hfirst]
      exact ⟨Nat.lt_succ_self m, hlt⟩
    have hinside := hw _ hmem
    omega

/-- When the next block is entered, there are fewer recent signers than the window is wide. -/
theorem size_shrinkRecents_lt (h : RecentsKept s.recents s.number.toNat)
    (hnumber : number.toNat = s.number.toNat + 1) :
    (s.shrinkRecents number).recents.size < s.requiredMajority.toNat := by
  have hle : number.toNat ≤ s.number.toNat + 1 := Nat.le_of_eq hnumber
  have hpos := s.requiredMajority_pos
  have hsize : (s.shrinkRecents number).recents.size ≤ s.requiredMajority.toNat - 1 := by
    refine (h.shrinkRecents s.number.toNat_lt hle).size_le s.number.toNat_lt fun block hblock => ?_
    obtain ⟨a, ha⟩ := mem_iff_exists_getElem?.1 hblock
    have hinside := ((h.getElem?_shrinkRecents s.number.toNat_lt hle).1 ha).2
    omega
  omega

end RecentsKept

namespace Block

variable (c : Block)

/-- The recent signers after a block are inside of the window that it was entered with. -/
theorem size_recents_le (hc : Reachable c.before) :
    c.after.recents.size ≤ c.before.requiredMajority.toNat := by
  have hk := (hc.step c.step).recentsKept
  have hpos := c.before.requiredMajority_pos
  refine hk.size_le c.after.number.toNat_lt fun block hblock => ?_
  obtain ⟨a, ha⟩ := mem_iff_exists_getElem?.1 hblock
  rw [c.number_after]
  rcases ((c.getElem?_recents_after hc).1 ha).1 with ⟨-, hinside⟩ | ⟨rfl, -⟩
  · exact hinside
  · exact Nat.lt_add_of_pos_right hpos

/-- Where a signer is stopped, they are inside of the window that is left as well. -/
theorem size_recents_le_of_stops (hc : Reachable c.before) (hstops : c.Stops c.header.coinbase) :
    c.after.recents.size ≤ c.after.requiredMajority.toNat := by
  have hk := (hc.step c.step).recentsKept
  refine hk.size_le c.after.number.toNat_lt fun block hblock => ?_
  obtain ⟨a, ha⟩ := mem_iff_exists_getElem?.1 hblock
  rw [c.number_after]
  exact ((c.getElem?_recents_after hc).1 ha).2 hstops

/-- A block that stops nobody leaves no fewer signers. -/
theorem size_signers_le (hc : Reachable c.before) (hstops : ¬c.Stops c.header.coinbase) :
    c.before.signers.size ≤ c.after.signers.size := by
  refine size_le_size fun a ha => ?_
  rw [← c.exists_stops_iff hc] at hstops
  by_contra hout
  refine hstops ⟨a, Std.ExtTreeSet.contains_iff_mem.2 ha, ?_⟩
  rw [isSigner, Bool.eq_false_iff, ne_eq, Std.ExtTreeSet.contains_iff_mem]
  exact hout

/-- The recent signers are no more than the window is wide, unless the block has put a lower
    percentage in force. -/
theorem size_recents_le_or (hc : Reachable c.before) (hfits : c.after.signers.size < UInt64.size) :
    c.after.recents.size ≤ c.after.requiredMajority.toNat ∨
      c.header.voteKind? = some .quorumPercent ∧
        c.after.quorumPercent < c.before.quorumPercent := by
  by_cases hstops : c.Stops c.header.coinbase
  · exact .inl (c.size_recents_le_of_stops hc hstops)
  have hsize := c.size_signers_le hc hstops
  by_cases hp : c.before.quorumPercent ≤ c.after.quorumPercent
  · exact .inl (Nat.le_trans (c.size_recents_le hc) (requiredMajority_le hsize hfits hp))
  have hlower := UInt64.not_le.1 hp
  have hchanges := (c.step.quorumPercent_ne_iff hc.proposalsKept).1 (UInt64.ne_of_lt hlower)
  exact .inr ⟨hchanges.1, hlower⟩

end Block

/-! ## The law of the width -/

/-- After a run, the recent signers are no more than the window is wide, unless the last block has
    put a lower percentage in force. Then they are no more than the window was wide before it. The
    next block is entered with fewer of them than the window is wide, whatever the last one did. -/
theorem Run.recents_within_width {config : Config} {number : UInt64} {hash : Digest}
    {signers : List Address} (hr : Run (ofSigners config number hash signers) blocks t)
    (hfits : t.signers.size < UInt64.size) :
    (t.recents.size ≤ t.requiredMajority.toNat ∨
      ∃ c, blocks.getLast? = some c ∧ c.header.voteKind? = some .quorumPercent ∧
        c.after.quorumPercent < c.before.quorumPercent ∧
          t.recents.size ≤ c.before.requiredMajority.toNat) ∧
    ∀ next : UInt64, next.toNat = t.number.toNat + 1 →
      (t.openBlock next).recents.size < t.requiredMajority.toNat := by
  have hs : Reachable t := hr.reachable (.start ..)
  refine ⟨?_, fun next hnext => ?_⟩
  · cases hr with
    | nil => exact .inl (Nat.zero_le _)
    | concat c hr =>
      have hc := hr.reachable (.start ..)
      refine (c.size_recents_le_or hc hfits).imp_right fun hlower => ?_
      exact ⟨c, List.getLast?_concat, hlower.1, hlower.2, c.size_recents_le hc⟩
  · rw [recents_openBlock]
    exact hs.recentsKept.size_shrinkRecents_lt hnext

/-- Two signers vote for one percent, of which one vote is enough from then on. -/
def lowering : List Header :=
  [.declaring (.ofLow64 1) 1 .quorumPercent (.ofLow64 1),
    .declaring (.ofLow64 2) 2 .quorumPercent (.ofLow64 1)]

/-- Both of them are recent signers still, and the last block has put the lower percentage in
    force. -/
theorem recents_within_width_lowered :
    ∃ blocks t, Run (genesis {} [.ofLow64 1, .ofLow64 2]) blocks t ∧
      blocks.map Block.header = lowering ∧ t.recents.size = 2 ∧ t.requiredMajority = 1 ∧
        ∃ c, blocks.getLast? = some c ∧ c.header.voteKind? = some .quorumPercent ∧
          c.after.quorumPercent < c.before.quorumPercent ∧
            2 ≤ c.before.requiredMajority.toNat := by
  obtain ⟨blocks, t, hr, hheaders, hp⟩ := exists_run {} [.ofLow64 1, .ofLow64 2] lowering
    (p := fun t => t.recents.size = 2 ∧ t.requiredMajority = 1 ∧ t.signers.size = 2)
    (by decide +kernel)
  obtain ⟨hrecents, hmajority, hsigners⟩ := of_decide_eq_true hp
  have hwidth := (Run.recents_within_width hr (by rw [hsigners]; decide)).1
  rw [hrecents, hmajority] at hwidth
  exact ⟨blocks, t, hr, hheaders, hrecents, hmajority, hwidth.resolve_left (by decide)⟩

theorem not_forall_recents_within_width :
    ¬∀ s, Reachable s → s.recents.size ≤ s.requiredMajority.toNat := by
  intro hall
  obtain ⟨s, hs, hp⟩ := exists_reachable {} [.ofLow64 1, .ofLow64 2] lowering
    (p := fun s => s.recents.size = 2 ∧ s.requiredMajority = 1) (by decide +kernel)
  obtain ⟨hrecents, hmajority⟩ := of_decide_eq_true hp
  have hle := hall s hs
  rw [hrecents, hmajority] at hle
  exact absurd hle (by decide)

end Snapshot

end SignerVoting
