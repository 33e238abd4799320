import SignerVoting.Proofs.Width

/-!
# Progress

A chain goes on as long as some account *can seal* (`CanSeal`): whatever vote its next block
carries, it is accepted. Those can that are signers and do not have to wait (`canSeal_iff`), and
there is one if fewer accounts wait than there are signers. The window leaves fewer to wait than it
is wide, which is enough where the required majority is no more than the number of signers.

At one hundred percent it is one more (`requiredMajority_eq_size_add_one`). Then no proposal about
an account is ever carried out, and the window covers as many blocks as there are signers: when each
of them has sealed one, all of them wait (`Unpassable.size_le_length_waiting`).

* `Run.exists_canSeal`: when there is an account that can seal, and when there is none.
-/

namespace SignerVoting

namespace Snapshot

variable {s t : Snapshot} {blocks : List Block} {a : Address}

/-! ## Who can seal -/

/-- Whether an account can seal the next block, whatever vote that carries. -/
def CanSeal (s : Snapshot) (a : Address) : Prop :=
  ∀ (recover : Header → Except Failure Address) (h : Header),
    h.number.toNat = s.number.toNat + 1 → h.voteKind?.isSome = true → recover h = .ok a →
      ∃ t, s.apply recover [h] = .ok t

/-- The accounts that have to wait when the next block is entered. -/
def waiting (s : Snapshot) : List Address :=
  (s.shrinkRecents (s.number + 1)).recents.toList.map Prod.snd

theorem mem_waiting :
    a ∈ s.waiting ↔
      ∃ block : UInt64, (s.shrinkRecents (s.number + 1)).recents[block]? = some a := by
  simp [waiting, Std.ExtTreeMap.mem_toList_iff_getElem?_eq_some]

theorem length_waiting (s : Snapshot) :
    s.waiting.length = (s.shrinkRecents (s.number + 1)).recents.size := by
  rw [waiting, List.length_map, Std.ExtTreeMap.length_toList]

/-- A block that a signer seals which does not have to wait is accepted, whatever its vote. -/
theorem canSeal_of_not_mem_waiting (ha : s.isSigner a = true) (hwait : a ∉ s.waiting) :
    s.CanSeal a := by
  intro recover h hnumber hvote hr
  have hnext : s.number + 1 = h.number := (Word.eq_add_one hnumber).symm
  have hrecent : (s.openBlock h.number).isRecent a = false := by
    rw [mem_waiting, hnext, ← recents_openBlock, ← isRecent_iff] at hwait
    exact Bool.eq_false_iff.2 hwait
  obtain ⟨kind, hkind⟩ := Option.isSome_iff_exists.1 hvote
  obtain ⟨u, hu⟩ : ∃ u, (s.openBlock h.number).acceptBlock a h = .ok u := by
    rw [acceptBlock, isSigner_openBlock, ha, hrecent, vote, hkind]
    cases kind <;> exact ⟨_, rfl⟩
  refine ⟨u.relabel h.number h.hash, ?_⟩
  rw [apply_singleton hnumber, process, hr]
  change ((s.openBlock h.number).acceptBlock a h).map _ = _
  rw [hu]
  rfl

theorem toNat_number_add_one (hlast : s.number < Word.greatest) :
    (s.number + 1).toNat = s.number.toNat + 1 :=
  Word.toNat_add_one (Nat.add_lt_of_lt_sub (UInt64.lt_iff_toNat_lt.1 hlast))

theorem canSeal_iff (hlast : s.number < Word.greatest) :
    s.CanSeal a ↔ s.isSigner a = true ∧ a ∉ s.waiting := by
  refine ⟨fun hseal => ?_, fun ⟨ha, hwait⟩ => canSeal_of_not_mem_waiting ha hwait⟩
  -- An account that can seal seals a block, for instance one with a vote for itself.
  have hvote : (Header.declaring a (s.number + 1) .authorize a).voteKind?.isSome = true := rfl
  obtain ⟨t, ht⟩ := hseal (fun _ => .ok a) (.declaring a (s.number + 1) .authorize a)
    (toNat_number_add_one hlast) hvote rfl
  obtain ⟨signer, hr, hst⟩ := apply_singleton_eq_ok_iff_step.1 ht
  obtain rfl := Except.ok.inj hr
  refine ⟨hst.isSigner_signer, fun hwait => ?_⟩
  obtain ⟨block, hblock⟩ := mem_waiting.1 hwait
  exact hst.not_recent block hblock

/-- The signers that do not have to wait when the next block is entered. -/
def ready (s : Snapshot) : Std.ExtTreeSet Address := s.signers.filter fun a => a ∉ s.waiting

theorem mem_ready : a ∈ s.ready ↔ s.isSigner a = true ∧ a ∉ s.waiting := by
  rw [ready, isSigner, Std.ExtTreeSet.contains_iff_mem, Std.ExtTreeSet.mem_filter]
  simp

/-- All signers but those that wait are ready. -/
theorem size_signers_le_add (s : Snapshot) :
    s.signers.size ≤ s.waiting.length + s.ready.size := by
  have hall : s.signers.toList ⊆ s.waiting ++ s.ready.toList := fun a ha => by
    have hsigner : s.isSigner a = true :=
      Std.ExtTreeSet.contains_iff_mem.2 (Std.ExtTreeSet.mem_toList.1 ha)
    by_cases hwait : a ∈ s.waiting
    · exact List.mem_append_left _ hwait
    · exact List.mem_append_right _ (Std.ExtTreeSet.mem_toList.2 (mem_ready.2 ⟨hsigner, hwait⟩))
  have hle := (nodup_toList s.signers).length_le_of_subset hall
  rwa [List.length_append, Std.ExtTreeSet.length_toList, Std.ExtTreeSet.length_toList] at hle

/-- Of more signers than have to wait, one can seal. -/
theorem exists_canSeal_of_length_waiting_lt (hlt : s.waiting.length < s.signers.size) :
    ∃ a, s.isSigner a = true ∧ s.CanSeal a := by
  have hsize := s.size_signers_le_add
  have hsome : ¬∀ a, a ∉ s.ready := by
    rw [← Std.ExtTreeSet.eq_empty_iff_forall_not_mem, Std.ExtTreeSet.eq_empty_iff_size_eq_zero]
    omega
  obtain ⟨a, ha⟩ := not_forall_not.1 hsome
  obtain ⟨hsigner, hwait⟩ := mem_ready.1 ha
  exact ⟨a, hsigner, canSeal_of_not_mem_waiting hsigner hwait⟩

/-! ## Enough signers -/

/-- The window leaves fewer to wait than it is wide. -/
theorem exists_canSeal_of_requiredMajority_le (hs : Reachable s)
    (hlast : s.number < Word.greatest) (hle : s.requiredMajority.toNat ≤ s.signers.size) :
    ∃ a, s.isSigner a = true ∧ s.CanSeal a := by
  apply exists_canSeal_of_length_waiting_lt
  rw [length_waiting]
  exact Nat.lt_of_lt_of_le (hs.recentsKept.size_shrinkRecents_lt (toNat_number_add_one hlast)) hle

/-- No more accounts wait than blocks have been sealed. -/
theorem Run.length_waiting_le (hr : Run s blocks t) (hs : Reachable s) (hnil : s.recents = ∅) :
    t.waiting.length ≤ blocks.length := by
  have hk := (hr.reachable hs).recentsKept
  have hle : t.recents.size ≤ blocks.length := by
    refine hk.size_le t.number.toNat_lt fun block hblock => ?_
    obtain ⟨a, ha⟩ := mem_iff_exists_getElem?.1 hblock
    obtain ⟨b, hb, rfl, -⟩ := (hr.getElem?_recents hs hnil).1 ha
    have hafter := (hr.mem_map_number.1 (List.mem_map_of_mem hb)).1
    rw [hr.number_eq, ← Block.number]
    omega
  rw [length_waiting]
  exact Nat.le_trans Std.ExtTreeMap.size_filter_le_size hle

/-! ## One signer too few -/

/-- Nobody waits for two blocks. -/
theorem nodup_waiting (hs : Reachable s) (hlast : s.number < Word.greatest) :
    s.waiting.Nodup := by
  have hk := hs.recentsKept.shrinkRecents s.number.toNat_lt
    (Nat.le_of_eq (toNat_number_add_one hlast))
  refine List.pairwise_map.2 (Std.ExtTreeMap.distinct_keys_toList.imp_of_mem
    fun {x y} hx hy hne heq => hne ?_)
  have hy' : (y.1, x.2) ∈ (s.shrinkRecents (s.number + 1)).recents.toList := heq ▸ hy
  rw [hk.distinct (Std.ExtTreeMap.mem_toList_iff_getElem?_eq_some.1 hx)
    (Std.ExtTreeMap.mem_toList_iff_getElem?_eq_some.1 hy')]
  exact Std.ReflCmp.compare_self

/-- A reachable snapshot with these signers in which no proposal can pass: one vote more is needed
    than there are signers. -/
structure Unpassable (signers : Std.ExtTreeSet Address) (s : Snapshot) : Prop where
  reachable : Reachable s
  signers_eq : s.signers = signers
  requiredMajority_eq : s.requiredMajority.toNat = signers.size + 1

namespace Unpassable

variable {signers : Std.ExtTreeSet Address}

/-- At one hundred percent there is one signer too few. -/
theorem ofSigners {config : Config} (number : UInt64) (hash : Digest) {signers : List Address}
    (hp : config.quorumPercent = 100)
    (hsize : 100 * (Std.ExtTreeSet.ofList signers : Std.ExtTreeSet Address).size < UInt64.size) :
    Unpassable (.ofList signers) (ofSigners config number hash signers) where
  reachable := .start ..
  signers_eq := rfl
  requiredMajority_eq := requiredMajority_eq_size_add_one hp hsize

/-- A vote on an account changes nothing: there cannot be enough signers behind it. -/
theorem step {c : Block} (h : Unpassable signers c.before)
    (hvote : c.header.voteKind? ≠ some .quorumPercent) : Unpassable signers c.after := by
  obtain ⟨authorize, hk, -⟩ | ⟨hk, -⟩ := c.step.cases
  · have hsigners : c.after.signers = c.before.signers := by
      by_contra hne
      have hle := (c.step.signers_ne_iff_of_onAccount h.reachable.votesKept hk).1 hne
      have hfew := c.before.size_backers_le (c.before.ballot c.signer c.header authorize)
        c.header.coinbase
      rw [h.requiredMajority_eq] at hle
      rw [h.signers_eq] at hfew
      omega
    have hmajority : c.after.requiredMajority = c.before.requiredMajority := by
      rw [requiredMajority, signerCount, hsigners, c.step.quorumPercent_of_onAccount hk]
      rfl
    exact ⟨h.reachable.step c.step, hsigners.trans h.signers_eq, hmajority ▸ h.requiredMajority_eq⟩
  · exact absurd hk hvote

theorem not_stops {c : Block} (h : Unpassable signers c.before)
    (hvote : c.header.voteKind? ≠ some .quorumPercent) (a : Address) : ¬c.Stops a := by
  rintro ⟨hbefore, hafter⟩
  rw [isSigner, (h.step hvote).signers_eq, ← h.signers_eq, ← isSigner, hbefore] at hafter
  cases hafter

/-- It stays so as long as all votes are on accounts. -/
theorem run (h : Unpassable signers s) (hr : Run s blocks t)
    (hvotes : ∀ b ∈ blocks, b.header.voteKind? ≠ some .quorumPercent) :
    Unpassable signers t ∧ ∀ b ∈ blocks, Unpassable signers b.before :=
  hr.invariant h fun b hb hbefore => hbefore.step (hvotes b hb)

/-- No block leaves the window before as many others as there are signers have followed it. -/
theorem getElem?_shrinkRecents (h : Unpassable signers s) (hr : Run s blocks t)
    (hvotes : ∀ b ∈ blocks, b.header.voteKind? ≠ some .quorumPercent) (hnil : s.recents = ∅)
    (hlast : t.number < Word.greatest) {b : Block} (hb : b ∈ blocks)
    (hrecent : t.number.toNat < b.number + signers.size) :
    (t.shrinkRecents (t.number + 1)).recents[b.header.number]? = some b.signer := by
  obtain ⟨ht, hbefore⟩ := h.run hr hvotes
  have hnext := toNat_number_add_one hlast
  rw [ht.reachable.recentsKept.getElem?_shrinkRecents t.number.toNat_lt (Nat.le_of_eq hnext),
    hr.getElem?_recents h.reachable hnil, hnext, ht.requiredMajority_eq, ← Block.number]
  refine ⟨⟨b, hb, rfl, rfl, fun c hc _ hleft => ?_, fun c hc _ hshrunk => ?_⟩, by omega⟩
  · have hle := hr.number_le hc
    rw [Block.LeftBehind, (hbefore c hc).requiredMajority_eq] at hleft
    omega
  · obtain ⟨⟨a, ha⟩, -⟩ := hshrunk
    exact (hbefore c hc).not_stops (hvotes c hc) a ha

/-- When there are as many blocks as signers, as many accounts wait. -/
theorem size_le_length_waiting (h : Unpassable signers s) (hr : Run s blocks t)
    (hvotes : ∀ b ∈ blocks, b.header.voteKind? ≠ some .quorumPercent) (hnil : s.recents = ∅)
    (hlast : t.number < Word.greatest) (hlen : signers.size ≤ blocks.length) :
    signers.size ≤ t.waiting.length := by
  rcases Nat.eq_zero_or_pos signers.size with hzero | hpos
  · rw [hzero]
    exact Nat.zero_le _
  -- The first of that many last blocks is in the window, and the window has no gap.
  have hnumber := hr.number_eq
  obtain ⟨b, hb, hfirst⟩ := List.mem_map.1 ((hr.mem_map_number (n := t.number.toNat + 1 -
    signers.size)).2 (by omega))
  have hk := (h.run hr hvotes).1.reachable.recentsKept.shrinkRecents t.number.toNat_lt
    (Nat.le_of_eq (toNat_number_add_one hlast))
  have hmem := (hk.mem_iff t.number.toNat_lt).1 (mem_iff_exists_getElem?.2
    ⟨b.signer, h.getElem?_shrinkRecents hr hvotes hnil hlast hb (by omega)⟩)
  rw [← Block.number] at hmem
  rw [length_waiting]
  omega

/-- Then all signers wait, and nobody can seal. -/
theorem not_canSeal (h : Unpassable signers s) (hr : Run s blocks t)
    (hvotes : ∀ b ∈ blocks, b.header.voteKind? ≠ some .quorumPercent) (hnil : s.recents = ∅)
    (hlast : t.number < Word.greatest) (hlen : signers.size ≤ blocks.length) (a : Address) :
    ¬t.CanSeal a := by
  rw [canSeal_iff hlast]
  rintro ⟨ha, hwait⟩
  obtain ⟨ht, hbefore⟩ := h.run hr hvotes
  have hall := h.size_le_length_waiting hr hvotes hnil hlast hlen
  have hmem (b : Address) (hb : b ∈ a :: t.waiting) : b ∈ signers.toList := by
    rw [Std.ExtTreeSet.mem_toList, ← Std.ExtTreeSet.contains_iff_mem]
    rcases List.mem_cons.1 hb with rfl | hb
    · rw [← ht.signers_eq]
      exact ha
    · -- Those who wait have sealed blocks of the run, as signers.
      obtain ⟨block, hblock⟩ := mem_waiting.1 hb
      have hrecent := ((Snapshot.getElem?_shrinkRecents ..).1 hblock).1
      obtain ⟨c, hc, -, rfl, -⟩ := (hr.getElem?_recents h.reachable hnil).1 hrecent
      rw [← (hbefore c hc).signers_eq]
      exact c.step.isSigner_signer
  have hle := (List.nodup_cons.2 ⟨hwait, nodup_waiting ht.reachable hlast⟩).length_le_of_subset hmem
  rw [Std.ExtTreeSet.length_toList, List.length_cons] at hle
  omega

end Unpassable

/-! ## The law of progress -/

theorem Run.quorumPercent_eq (hr : Run s blocks t)
    (hvotes : ∀ b ∈ blocks, b.header.voteKind? ≠ some .quorumPercent) :
    t.quorumPercent = s.quorumPercent := by
  refine (hr.invariant (p := fun u => u.quorumPercent = s.quorumPercent) rfl
    fun b hb hbefore => ?_).1
  obtain ⟨authorize, hk, -⟩ | ⟨hk, -⟩ := b.step.cases
  · rw [b.step.quorumPercent_of_onAccount hk, hbefore]
  · exact absurd hk (hvotes b hb)

/-- With a valid configuration and votes on accounts only, some signer can seal the next block if
    the percentage is below one hundred, or fewer blocks have been sealed than there are signers, or
    there are so many signers that their product with the percentage does not fit. Where that of the
    first signers fits, there is nobody otherwise. -/
theorem Run.exists_canSeal {config : Config} {number : UInt64} {hash : Digest}
    (hvalid : config.validated = .ok config)
    (hr : Run (ofSigners config number hash config.signers) blocks t)
    (hvotes : ∀ b ∈ blocks, b.header.voteKind? ≠ some .quorumPercent)
    (hne : t.signers ≠ ∅) (hlast : t.number < Word.greatest) :
    (config.quorumPercent < 100 ∨ blocks.length < t.signers.size ∨
        UInt64.size ≤ 100 * t.signers.size →
      ∃ a, t.isSigner a = true ∧ t.CanSeal a) ∧
    (100 * (ofSigners config number hash config.signers).signers.size < UInt64.size →
      ¬(config.quorumPercent < 100 ∨ blocks.length < t.signers.size) → ∀ a, ¬t.CanSeal a) := by
  have hs : Reachable t := hr.reachable (.start ..)
  have hpercent : t.quorumPercent = config.quorumPercent := hr.quorumPercent_eq hvotes
  constructor
  · rintro (hp | hfew | hmany)
    · have hpos := Nat.pos_of_ne_zero fun hzero =>
        hne (Std.ExtTreeSet.eq_empty_iff_size_eq_zero.2 hzero)
      exact exists_canSeal_of_requiredMajority_le hs hlast
        (requiredMajority_le_size (hpercent ▸ hp) hpos)
    · exact exists_canSeal_of_length_waiting_lt
        (Nat.lt_of_le_of_lt (hr.length_waiting_le (.start ..) rfl) hfew)
    · exact exists_canSeal_of_requiredMajority_le hs hlast
        (requiredMajority_le_size_of_saturated hmany)
  · intro hfits hnot
    obtain ⟨hp, hlen⟩ := not_or.1 hnot
    -- A valid percentage that is not below one hundred is one hundred.
    have hfault := (Config.validated_eq_ok_iff.1 hvalid).2
    have hle := (Config.fault?_eq_none_iff.1 hfault).2.2.2.1.2
    have hfull := UInt64.le_antisymm hle (UInt64.not_lt.1 hp)
    have hunpassable := Unpassable.ofSigners number hash hfull hfits
    rw [(hunpassable.run hr hvotes).1.signers_eq] at hlen
    exact hunpassable.not_canSeal hr hvotes rfl hlast (Nat.not_lt.1 hlen)

/-- At one hundred percent, two signers have sealed a block each. -/
theorem exists_canSeal_unless_all_wait :
    ∃ (config : Config) (blocks : List Block) (t : Snapshot),
      config.validated = .ok config ∧ config.quorumPercent = 100 ∧
        Run (genesis config config.signers) blocks t ∧
        blocks.map Block.header = [.declaring (.ofLow64 1) 1 .authorize (.ofLow64 3),
          .declaring (.ofLow64 2) 2 .authorize (.ofLow64 3)] ∧
        t.signers.size = 2 ∧ t.number = 2 ∧ ∀ a, ¬t.CanSeal a := by
  let config : Config := { quorumPercent := 100, signers := [.ofLow64 1, .ofLow64 2] }
  have hvalid : config.validated = .ok config := by decide +kernel
  obtain ⟨blocks, t, hr, hheaders, hp⟩ := exists_run config config.signers
    [.declaring (.ofLow64 1) 1 .authorize (.ofLow64 3),
      .declaring (.ofLow64 2) 2 .authorize (.ofLow64 3)]
    (p := fun t => t.signers.size = 2 ∧ t.number = 2) (by decide +kernel)
  obtain ⟨hsize, hnumber⟩ := of_decide_eq_true hp
  have hvotes : ∀ b ∈ blocks, b.header.voteKind? ≠ some .quorumPercent := by
    have hall : ∀ h ∈ blocks.map Block.header, h.voteKind? ≠ some .quorumPercent := by
      rw [hheaders]
      decide +kernel
    exact fun b hb => hall b.header (List.mem_map_of_mem hb)
  have hne : t.signers ≠ ∅ := by
    rw [ne_eq, Std.ExtTreeSet.eq_empty_iff_size_eq_zero, hsize]
    decide
  have hlength : blocks.length = 2 := by
    rw [← List.length_map (f := Block.header), hheaders]
    rfl
  have hnobody := (Run.exists_canSeal hvalid hr hvotes hne (by rw [hnumber]; decide)).2
    (by decide +kernel) (by rw [hlength, hsize]; decide)
  exact ⟨config, blocks, t, hvalid, rfl, hr, hheaders, hsize, hnumber, hnobody⟩

/-- The only signer of a chain at one hundred percent waits for others after its first block. -/
theorem not_forall_exists_canSeal :
    ¬∀ (config : Config) (number : UInt64) (hash : Digest) (blocks : List Block) (t : Snapshot),
      config.validated = .ok config →
        Run (ofSigners config number hash config.signers) blocks t →
        (∀ b ∈ blocks, b.header.voteKind? = some .authorize ∨ b.header.voteKind? = some .drop) →
        t.signers ≠ ∅ → t.number < Word.greatest →
          ∃ a, t.isSigner a = true ∧ t.CanSeal a := by
  intro hall
  let config : Config := { quorumPercent := 100, signers := [.ofLow64 1] }
  obtain ⟨blocks, t, hr, hheaders, hp⟩ := exists_run config config.signers
    [.declaring (.ofLow64 1) 1 .authorize (.ofLow64 2)]
    (p := fun t => t.signers.toList = [.ofLow64 1] ∧ t.number = 1 ∧ t.waiting = [.ofLow64 1])
    (by decide +kernel)
  obtain ⟨hsigners, hnumber, hwaiting⟩ := of_decide_eq_true hp
  have hvotes : ∀ h ∈ blocks.map Block.header,
      h.voteKind? = some .authorize ∨ h.voteKind? = some .drop := by
    rw [hheaders]
    decide +kernel
  have hlast : t.number < Word.greatest := by
    rw [hnumber]
    decide
  have hmem (a : Address) : t.isSigner a = true ↔ a ∈ t.waiting := by
    rw [isSigner, Std.ExtTreeSet.contains_iff_mem, ← Std.ExtTreeSet.mem_toList, hsigners, hwaiting]
  have hne : t.signers ≠ ∅ :=
    Std.ExtTreeSet.ne_empty_of_mem (Std.ExtTreeSet.mem_toList.1 (hsigners ▸ List.mem_cons_self))
  obtain ⟨a, ha, hseal⟩ := hall config _ _ blocks t (by decide +kernel) hr
    (fun b hb => hvotes b.header (List.mem_map_of_mem hb)) hne hlast
  exact ((canSeal_iff hlast).1 hseal).2 ((hmem a).1 ha)

end Snapshot

end SignerVoting
