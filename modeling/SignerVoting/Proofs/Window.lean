import SignerVoting.Proofs.Membership
import SignerVoting.Proofs.Runs

/-!
# The window of recent signers

A signer has to wait for as many blocks as the required majority says, which moves with the signers
and with the percentage. Who waits is kept as a map from the blocks lately sealed to their signers.
The blocks that leave the window are found by counting from the size of the map, and not by looking
at its keys. That is right because the map has no gap and each signer is in it once
(`RecentsKept`): so an entry stays exactly if its block is not as far behind as the window is wide
(`RecentsKept.getElem?_shrinkRecents`).

* `Block.getElem?_recents_after`: what one block does to the recent signers;
* `RecentsKept.step`: a block leaves no gap and no signer twice;
* `Run.recents_in_window`: a block is recent as long as it has been inside of the window at every
  block since, and a block is refused exactly if its signer sealed one that is inside of it still.
-/

namespace SignerVoting

namespace Snapshot

variable {s t : Snapshot} {blocks : List Block} {n m : Nat} {block number : UInt64} {a : Address}
  {recents : Std.ExtTreeMap UInt64 Address}

/-! ## Blocks without a gap -/

/-- A map has entries for exactly the blocks above `m` up to `n`. -/
def Spans (recents : Std.ExtTreeMap UInt64 Address) (m n : Nat) : Prop :=
  ∀ block, block ∈ recents ↔ m < block.toNat ∧ block.toNat ≤ n

theorem Spans.size_eq (h : Spans recents m n) (hn : n < UInt64.size) : recents.size = n - m := by
  have hnodup : (recents.keys.map UInt64.toNat).Nodup :=
    List.pairwise_map.2 (Std.ExtTreeMap.nodup_keys.imp fun hne heq => hne (UInt64.toNat_inj.1 heq))
  have hperm : (recents.keys.map UInt64.toNat).Perm (List.range' (m + 1) (n - m)) := by
    rw [List.perm_ext_iff_of_nodup hnodup (List.nodup_range' 1)]
    intro k
    simp only [List.mem_map, Std.ExtTreeMap.mem_keys, h _, List.mem_range'_1]
    constructor
    · rintro ⟨block, hblock, rfl⟩
      omega
    · intro hk
      have hk' : (UInt64.ofNat k).toNat = k := UInt64.toNat_ofNat_of_lt' (by omega)
      exact ⟨.ofNat k, by omega, hk'⟩
  simpa using hperm.length_eq

/-- The entries are for the last blocks up to that of number `n`, each by another signer. -/
structure RecentsKept (recents : Std.ExtTreeMap UInt64 Address) (n : Nat) : Prop where
  spans : ∃ m ≤ n, Spans recents m n
  distinct : ∀ {k l : UInt64} {a : Address}, recents[k]? = some a → recents[l]? = some a → k = l

theorem RecentsKept.empty : RecentsKept ∅ n where
  spans := ⟨n, Nat.le_refl n, fun block => by simp⟩
  distinct h := by simp at h

namespace RecentsKept

/-- There are entries for as many of the last blocks as the map is large. -/
theorem mem_iff (h : RecentsKept recents n) (hn : n < UInt64.size) :
    block ∈ recents ↔ n - recents.size < block.toNat ∧ block.toNat ≤ n := by
  obtain ⟨m, hm, hspans⟩ := h.spans
  rw [hspans, hspans.size_eq hn, Nat.sub_sub_self hm]

/-- No entry is missed for being too far behind. -/
theorem getElem?_shrinkRecents (h : RecentsKept s.recents n) (hn : n < UInt64.size)
    (hnumber : number.toNat ≤ n + 1) :
    (s.shrinkRecents number).recents[block]? = some a ↔
      s.recents[block]? = some a ∧ number.toNat < block.toNat + s.requiredMajority.toNat := by
  rw [Snapshot.getElem?_shrinkRecents]
  refine and_congr_right fun ha => ?_
  obtain ⟨m, hm, hspans⟩ := h.spans
  have hsize := hspans.size_eq hn
  have hblock := (hspans block).1 (mem_iff_exists_getElem?.2 ⟨a, ha⟩)
  omega

theorem shrinkRecents (h : RecentsKept s.recents n) (hn : n < UInt64.size)
    (hnumber : number.toNat ≤ n + 1) : RecentsKept (s.shrinkRecents number).recents n where
  spans := by
    obtain ⟨m, hm, hspans⟩ := h.spans
    have hpos := s.requiredMajority_pos
    refine ⟨max m (number.toNat - s.requiredMajority.toNat), by omega, fun block => ?_⟩
    simp only [mem_iff_exists_getElem?, h.getElem?_shrinkRecents hn hnumber, exists_and_right]
    rw [← mem_iff_exists_getElem?, hspans]
    omega
  distinct hk hl :=
    h.distinct ((h.getElem?_shrinkRecents hn hnumber).1 hk).1
      ((h.getElem?_shrinkRecents hn hnumber).1 hl).1

/-- The next block goes on record, by a signer that is not. -/
theorem insert (h : RecentsKept recents n) (hnumber : number.toNat = n + 1)
    (ha : ∀ block : UInt64, recents[block]? ≠ some a) :
    RecentsKept (recents.insert number a) (n + 1) where
  spans := by
    obtain ⟨m, hm, hspans⟩ := h.spans
    refine ⟨m, by omega, fun block => ?_⟩
    rw [Std.ExtTreeMap.mem_insert, Std.LawfulEqCmp.compare_eq_iff_eq, hspans, ← UInt64.toNat_inj]
    omega
  distinct {k l b} hk hl := by
    simp only [Std.ExtTreeMap.getElem?_insert, Std.LawfulEqCmp.compare_eq_iff_eq] at hk hl
    split at hk <;> split at hl
    · rename_i hnk hnl
      exact hnk.symm.trans hnl
    · obtain rfl := Option.some.inj hk
      exact absurd hl (ha l)
    · obtain rfl := Option.some.inj hl
      exact absurd hk (ha k)
    · exact h.distinct hk hl

end RecentsKept

/-! ## One block -/

theorem isRecent_iff : s.isRecent a = true ↔ ∃ block : UInt64, s.recents[block]? = some a := by
  rw [isRecent, List.any_eq_true]
  constructor
  · rintro ⟨⟨block, b⟩, hmem, hb⟩
    obtain rfl : b = a := of_decide_eq_true hb
    exact ⟨block, Std.ExtTreeMap.mem_toList_iff_getElem?_eq_some.1 hmem⟩
  · rintro ⟨block, hblock⟩
    exact ⟨(block, a), Std.ExtTreeMap.mem_toList_iff_getElem?_eq_some.2 hblock, by simp⟩

theorem recents_openBlock (s : Snapshot) (number : UInt64) :
    (s.openBlock number).recents = (s.shrinkRecents number).recents := by
  rw [openBlock]
  split <;> rfl

@[simp]
theorem isSigner_openBlock (s : Snapshot) (number : UInt64) (a : Address) :
    (s.openBlock number).isSigner a = s.isSigner a := by
  rw [openBlock]
  split <;> rfl

theorem recents_enter (s : Snapshot) (signer : Address) (h : Header) :
    (s.enter signer h).recents = (s.shrinkRecents h.number).recents.insert h.number signer := by
  rw [← recents_openBlock, enter, openBlock_relabel]
  rfl

/-- The signer of a block has left the window. -/
theorem Step.not_recent {signer : Address} {h : Header} (hst : Step s signer h t)
    (block : UInt64) : (s.shrinkRecents h.number).recents[block]? ≠ some signer := by
  have hrecent := (acceptBlock_eq_ok_iff.1 hst.accepted).2.1
  rw [openBlock_relabel] at hrecent
  have hopen : (s.openBlock h.number).isRecent signer = false := hrecent
  rw [← recents_openBlock]
  intro hblock
  rw [isRecent_iff.2 ⟨block, hblock⟩] at hopen
  cases hopen

namespace RecentsKept

variable {signer : Address} {h : Header}

theorem enter (hk : RecentsKept s.recents s.number.toNat) (hst : Step s signer h t) :
    RecentsKept (s.enter signer h).recents h.number.toNat := by
  rw [recents_enter, hst.number_eq]
  exact (hk.shrinkRecents s.number.toNat_lt (Nat.le_of_eq hst.number_eq)).insert hst.number_eq
    hst.not_recent

/-- On entering a block, those stay on record that the window has not left behind. -/
theorem getElem?_recents_enter (hk : RecentsKept s.recents s.number.toNat)
    (hnumber : h.number.toNat = s.number.toNat + 1) :
    (s.enter signer h).recents[block]? = some a ↔
      (s.recents[block]? = some a ∧ h.number.toNat < block.toNat + s.requiredMajority.toNat) ∨
        block = h.number ∧ a = signer := by
  have hshrink : (s.shrinkRecents h.number).recents[block]? = some a ↔ _ :=
    hk.getElem?_shrinkRecents s.number.toNat_lt (Nat.le_of_eq hnumber)
  simp only [recents_enter, Std.ExtTreeMap.getElem?_insert, Std.LawfulEqCmp.compare_eq_iff_eq]
  split
  · -- The number of the block is not among those on record.
    rename_i hblock
    have hnew : ¬s.recents[block]? = some a := fun ha => by
      obtain ⟨m, -, hspans⟩ := hk.spans
      have hle := ((hspans block).1 (mem_iff_exists_getElem?.2 ⟨a, ha⟩)).2
      rw [← hblock, hnumber] at hle
      exact Nat.not_succ_le_self _ hle
    simp [hnew, hblock, eq_comm]
  · rename_i hblock
    rw [hshrink, or_iff_left fun hc => hblock hc.1.symm]

end RecentsKept

/-- The window moves once more where a signer is stopped. -/
theorem VotesKept.recents_settle {n : UInt64} (h : s.VotesKept n) (target : Address)
    (block : UInt64) :
    (s.settle target block).recents =
      if s.isSigner target = true ∧ (s.settle target block).isSigner target = false then
        ({ s.settle target block with recents := s.recents }.shrinkRecents block).recents
      else s.recents := by
  rcases Nat.lt_or_ge (s.votes.countP fun v => v.target = target) s.requiredMajority.toNat with
    hlt | hle
  · rw [h.settle_of_lt block hlt]
    simp
  rw [h.settle_of_le block hle]
  split
  · rename_i htarget
    have hstopped : ((s.expel target block).forget target).isSigner target = false := by
      rw [isSigner_forget, isSigner_expel]
      simp
    rw [if_pos ⟨htarget, hstopped⟩]
    rfl
  · rename_i htarget
    rw [if_neg fun hc => htarget hc.1]
    rfl

/-- A block moves the window and puts its signer on record. Where it stops its coinbase, the window
    moves once more. -/
theorem Block.recents_after (c : Block) (hv : c.before.VotesKept c.before.number) :
    c.after.recents =
      if c.Stops c.header.coinbase then
        ({ c.after with
          recents := (c.before.enter c.signer c.header).recents }.shrinkRecents
            c.header.number).recents
      else (c.before.enter c.signer c.header).recents := by
  obtain ⟨authorize, -, hafter⟩ | ⟨hk, hafter⟩ := c.step.cases
  · have hsettle := (hv.poll c.step authorize).recents_settle c.header.coinbase c.header.number
    have hpoll : (c.before.poll c.signer c.header authorize).recents =
        (c.before.enter c.signer c.header).recents := by
      rw [poll, cast_eq, withdraw_eq]
    rw [voteOnAccount_enter] at hafter
    rw [← hafter, isSigner_poll, hpoll] at hsettle
    exact hsettle
  · have hstops : ¬c.Stops c.header.coinbase := by
      rw [Stops, isSigner, isSigner, c.step.signers_of_quorumPercent hk]
      simp
    rw [if_neg hstops, hafter, voteOnQuorum_eq]

/-- A step leaves no gap, and no signer twice. -/
theorem RecentsKept.step {signer : Address} {h : Header} (hk : RecentsKept s.recents s.number.toNat)
    (hv : s.VotesKept s.number) (hst : Step s signer h t) :
    RecentsKept t.recents t.number.toNat := by
  have henter := hk.enter hst
  rw [hst.number_right, Block.recents_after ⟨s, h, signer, t, hst⟩ hv]
  split
  · exact RecentsKept.shrinkRecents (s := { t with recents := (s.enter signer h).recents })
      henter h.number.toNat_lt (Nat.le_succ _)
  · exact henter

theorem Reachable.recentsKept (hs : Reachable s) : RecentsKept s.recents s.number.toNat := by
  induction hs using Reachable.block_induction with
  | start config number hash signers => exact .empty
  | step hs hst ih => exact ih.step hs.votesKept hst

/-- After a block, those are recent that were before, and the signer of the block, as long as they
    are inside of the window, and of the one that is left where the coinbase is stopped. -/
theorem Block.getElem?_recents_after (c : Block) (hc : Reachable c.before) :
    c.after.recents[block]? = some a ↔
      ((c.before.recents[block]? = some a ∧
          c.number < block.toNat + c.before.requiredMajority.toNat) ∨
        block = c.header.number ∧ a = c.signer) ∧
      (c.Stops c.header.coinbase → c.number < block.toNat + c.after.requiredMajority.toNat) := by
  have hk := hc.recentsKept
  have henter : (c.before.enter c.signer c.header).recents[block]? = some a ↔ _ :=
    hk.getElem?_recents_enter c.number_eq
  rw [c.recents_after hc.votesKept, number, ← henter]
  split
  · rename_i hstops
    rw [RecentsKept.getElem?_shrinkRecents
      (s := { c.after with recents := (c.before.enter c.signer c.header).recents })
      (hk.enter c.step) c.header.number.toNat_lt (Nat.le_succ _)]
    exact and_congr_right fun _ => ⟨fun hlt _ => hlt, fun hlt => hlt hstops⟩
  · rename_i hstops
    exact (and_iff_left fun hc => absurd hc hstops).symm

/-- The last block is a recent one. -/
theorem Block.number_mem_recents (c : Block) (hc : Reachable c.before) :
    c.after.number ∈ c.after.recents := by
  have hpos := c.after.requiredMajority_pos
  rw [c.step.number_right, mem_iff_exists_getElem?]
  refine ⟨c.signer, (c.getElem?_recents_after hc).2 ⟨.inr ⟨rfl, rfl⟩, fun _ => ?_⟩⟩
  rw [number]
  omega

/-! ## The law of the window -/

namespace Block

/-- A block stops nobody but its coinbase. -/
theorem exists_stops_iff (c : Block) (hc : Reachable c.before) :
    (∃ a, c.Stops a) ↔ c.Stops c.header.coinbase := by
  refine ⟨?_, fun h => ⟨_, h⟩⟩
  rintro ⟨a, hbefore, hafter⟩
  by_cases ha : a = c.header.coinbase
  · exact ha ▸ ⟨hbefore, hafter⟩
  · rw [c.step.isSigner_of_ne hc.votesKept ha, hbefore] at hafter
    cases hafter

/-- Whether a block has left the window when another one is entered: it is as many blocks away as
    the required majority, or more. -/
def LeftBehind (c b : Block) : Prop :=
  b.number + c.before.requiredMajority.toNat ≤ c.number

/-- Whether a block has left the window when that has shrunk with the signers. -/
def ShrunkBehind (c b : Block) : Prop :=
  (∃ a, c.Stops a) ∧ b.number + c.after.requiredMajority.toNat ≤ c.number

/-- The window includes the last block. -/
theorem not_shrunkBehind_self (c : Block) : ¬c.ShrunkBehind c := by
  rintro ⟨-, hle⟩
  have hpos := c.after.requiredMajority_pos
  omega

end Block

/-- The recent signers at the end of a run are those of the blocks that have not left the window. -/
theorem Run.getElem?_recents (hr : Run s blocks t) (hs : Reachable s) (hnil : s.recents = ∅) :
    t.recents[block]? = some a ↔
      ∃ b ∈ blocks, b.header.number = block ∧ b.signer = a ∧
        Lasts Block.LeftBehind Block.ShrunkBehind blocks b := by
  induction hr with
  | nil => simp [hnil]
  | @concat blocks c hr ih =>
    have hself : Lasts Block.LeftBehind Block.ShrunkBehind (blocks ++ [c]) c ↔ _ :=
      lasts_concat_self_iff fun b hb => hr.number_lt hb
    rw [c.getElem?_recents_after (hr.reachable hs), ← c.exists_stops_iff (hr.reachable hs)]
    -- An earlier block stays if it was on record and the last one has not left it behind.
    constructor
    · rintro ⟨⟨hbefore, hwindow⟩ | ⟨rfl, rfl⟩, hstops⟩
      · obtain ⟨b, hb, rfl, rfl, hlasts⟩ := ih.1 hbefore
        refine ⟨b, List.mem_append_left _ hb, rfl, rfl, (lasts_concat_iff (hr.number_lt hb)).2 ?_⟩
        exact ⟨hlasts, Nat.not_le.2 hwindow, fun hc => Nat.not_le.2 (hstops hc.1) hc.2⟩
      · exact ⟨c, by simp, rfl, rfl, hself.2 c.not_shrunkBehind_self⟩
    · rintro ⟨b, hb, rfl, rfl, hlasts⟩
      rcases List.mem_append.1 hb with hb | hb
      · obtain ⟨hlasts, hwindow, hstops⟩ := (lasts_concat_iff (hr.number_lt hb)).1 hlasts
        exact ⟨.inl ⟨ih.2 ⟨b, hb, rfl, rfl, hlasts⟩, Nat.not_le.1 hwindow⟩,
          fun hc => Nat.not_le.1 fun hle => hstops ⟨hc, hle⟩⟩
      · obtain rfl := List.mem_singleton.1 hb
        exact ⟨.inr ⟨rfl, rfl⟩, fun hc => Nat.not_le.1 fun hle =>
          b.not_shrunkBehind_self ⟨hc, hle⟩⟩

/-- Whether a block has been inside of the window at all later ones of a run: each of them is less
    blocks away than the majority that is required before it. -/
def Block.InWindow (blocks : List Block) (b : Block) : Prop :=
  ∀ c ∈ blocks, b.number < c.number → c.number - b.number < c.before.requiredMajority.toNat

/-- Whether a block has been inside of what was left of the window at all blocks of a run, itself
    included, that have stopped a signer. -/
def Block.InShrunkWindow (blocks : List Block) (b : Block) : Prop :=
  ∀ c ∈ blocks, b.number ≤ c.number → (∃ a, c.Stops a) →
    c.number - b.number < c.after.requiredMajority.toNat

theorem inWindow_and_inShrunkWindow_iff {b : Block} :
    b.InWindow blocks ∧ b.InShrunkWindow blocks ↔
      Lasts Block.LeftBehind Block.ShrunkBehind blocks b := by
  refine and_congr (forall₂_congr fun c _ => forall_congr' fun hbc => ?_)
    (forall₂_congr fun c _ => forall_congr' fun hbc => ?_)
  · rw [Block.LeftBehind, Nat.not_le, Nat.sub_lt_iff_lt_add' (Nat.le_of_lt hbc)]
  · rw [Block.ShrunkBehind, not_and, Nat.not_le, Nat.sub_lt_iff_lt_add' hbc]

/-- A block that is inside of the window after a run has been inside of what was left of it wherever
    it shrunk: the next block is entered with that window. -/
theorem Run.inShrunkWindow (hr : Run s blocks t) {b : Block} (hwindow : b.InWindow blocks)
    (hlast : t.number.toNat + 1 - b.number < t.requiredMajority.toNat) :
    b.InShrunkWindow blocks := by
  intro c hc hbc _
  obtain rfl | ⟨d, hd, hnext⟩ := hr.eq_or_exists_next hc
  · rw [c.number_after] at hlast
    omega
  · have hnumber := d.number_eq
    rw [hnext, c.number_after] at hnumber
    have hinside := hwindow d hd (by omega)
    rw [hnext] at hinside
    omega

/-- A signer is still on record when the window has moved on to the next block exactly if a block of
    it has been inside of the window ever since, and is at the next one. -/
theorem Run.exists_recent_iff (hr : Run s blocks t) (hs : Reachable s) (hnil : s.recents = ∅)
    (hnumber : number.toNat = t.number.toNat + 1) :
    (∃ block : UInt64, (t.shrinkRecents number).recents[block]? = some a) ↔
      ∃ b ∈ blocks, b.signer = a ∧ b.InWindow blocks ∧
        number.toNat - b.number < t.requiredMajority.toNat := by
  have hk := (hr.reachable hs).recentsKept
  simp only [hk.getElem?_shrinkRecents t.number.toNat_lt (Nat.le_of_eq hnumber),
    hr.getElem?_recents hs hnil, ← inWindow_and_inShrunkWindow_iff]
  constructor
  · rintro ⟨_, ⟨b, hb, rfl, ha, hwindow, -⟩, hlast⟩
    have hbt := hr.number_le hb
    rw [Block.number] at hbt
    exact ⟨b, hb, ha, hwindow, by rw [Block.number]; omega⟩
  · rintro ⟨b, hb, ha, hwindow, hlast⟩
    have hbt := hr.number_le hb
    have hshrunk := hr.inShrunkWindow hwindow (hnumber ▸ hlast)
    rw [Block.number] at hlast hbt
    exact ⟨_, ⟨b, hb, rfl, ha, hwindow, hshrunk⟩, by omega⟩

/-- A block of a signer is refused for sealing too soon exactly if the signer is still on record
    when the window has moved on. -/
theorem apply_eq_recentlySigned_iff {recover : Header → Except Failure Address} {h : Header}
    (hnumber : h.number.toNat = s.number.toNat + 1) (hr : recover h = .ok a)
    (ha : s.isSigner a = true) :
    s.apply recover [h] = .error (.recentlySigned a) ↔
      ∃ block : UInt64, (s.shrinkRecents h.number).recents[block]? = some a := by
  rw [← recents_openBlock, ← isRecent_iff, apply_singleton hnumber, process, hr]
  change ((s.openBlock h.number).acceptBlock a h).map _ = _ ↔ _
  rw [acceptBlock, isSigner_openBlock, ha, vote]
  cases (s.openBlock h.number).isRecent a with
  | true => exact iff_of_true rfl rfl
  | false =>
    -- A block that is not refused for that may only be refused for its vote.
    rcases h.voteKind? with _ | kind
    · simp [Except.map]
    · cases kind <;> simp [Except.map]

/-- After a run, the recent blocks are those that have been inside of the window ever since, at each
    later block and wherever the window shrunk with the signers, with the signers that sealed them.
    They are the last ones, without a gap, and of different signers. The next block, of a signer, is
    refused for coming too soon exactly if that signer has sealed a block that has been inside of
    the window at each later one, and is at the next one. -/
theorem Run.recents_in_window {config : Config} {number : UInt64} {hash : Digest}
    {signers : List Address} (hr : Run (ofSigners config number hash signers) blocks t) :
    (∀ (recover : Header → Except Failure Address) (h : Header) (x : Address),
      h.number.toNat = t.number.toNat + 1 → recover h = .ok x → t.isSigner x = true →
        (t.apply recover [h] = .error (.recentlySigned x) ↔
          ∃ b ∈ blocks, b.signer = x ∧ b.InWindow blocks ∧
            h.number.toNat - b.number < t.requiredMajority.toNat)) ∧
    (∀ (block : UInt64) (x : Address), t.recents[block]? = some x ↔
      ∃ b ∈ blocks, b.header.number = block ∧ b.signer = x ∧
        b.InWindow blocks ∧ b.InShrunkWindow blocks) ∧
    (∀ block, block ∈ t.recents ↔
      t.number.toNat - t.recents.size < block.toNat ∧ block.toNat ≤ t.number.toNat) ∧
    (blocks ≠ [] → t.number ∈ t.recents) ∧
    ∀ (k l : UInt64) (x : Address), t.recents[k]? = some x → t.recents[l]? = some x → k = l := by
  have hs : Reachable t := hr.reachable (.start ..)
  have hk := hs.recentsKept
  refine ⟨fun recover h x hnumber hrecover hx => ?_, fun block x => ?_,
    fun block => hk.mem_iff t.number.toNat_lt, fun hne => ?_, fun k l x => hk.distinct⟩
  · rw [apply_eq_recentlySigned_iff hnumber hrecover hx,
      hr.exists_recent_iff (.start ..) rfl hnumber]
  · rw [hr.getElem?_recents (.start ..) rfl]
    simp only [inWindow_and_inShrunkWindow_iff]
  · cases hr with
    | nil => exact absurd rfl hne
    | concat c hr => exact c.number_mem_recents (hr.reachable (.start ..))

/-- The first of two signers seals a block, and would seal the next one. -/
theorem recents_in_window_refused :
    ∃ blocks t, Run (genesis {} [.ofLow64 1, .ofLow64 2]) blocks t ∧
      blocks.map Block.header = [.declaring (.ofLow64 1) 1 .authorize (.ofLow64 3)] ∧
      t.number ∈ t.recents ∧
      ∃ h, t.apply declared [h] = .error (.recentlySigned (.ofLow64 1)) ∧
        ∃ b ∈ blocks, b.signer = .ofLow64 1 ∧ b.InWindow blocks ∧
          h.number.toNat - b.number < t.requiredMajority.toNat := by
  let next := Header.declaring (.ofLow64 1) 2 .authorize (.ofLow64 4)
  obtain ⟨blocks, t, hr, hheaders, hp⟩ := exists_run {} [.ofLow64 1, .ofLow64 2]
    [.declaring (.ofLow64 1) 1 .authorize (.ofLow64 3)]
    (p := fun t => next.number.toNat = t.number.toNat + 1 ∧ t.isSigner (.ofLow64 1) = true ∧
      t.apply declared [next] = .error (.recentlySigned (.ofLow64 1))) (by decide +kernel)
  obtain ⟨hnumber, hsigner, hrefused⟩ := of_decide_eq_true hp
  obtain ⟨hrefusal, -, -, hlast, -⟩ := Run.recents_in_window hr
  have hne : blocks ≠ [] := by
    rintro rfl
    cases hheaders
  exact ⟨blocks, t, hr, hheaders, hlast hne, next, hrefused,
    (hrefusal declared next (.ofLow64 1) hnumber (by decide +kernel) hsigner).1 hrefused⟩

end Snapshot

end SignerVoting
