import SignerVoting.Proofs.Batches

/-!
# Runs

A *run* is a chain of blocks (`Run`), each with its signer and with the snapshots before and after
it (`Block`). The snapshots that replays lead to are those at the ends of runs
(`apply_eq_ok_iff_run`), so that what a snapshot holds can be described by the blocks behind it.

What it holds are marks that blocks leave: who sealed lately, pending votes. A later block may
*replace* the mark of an earlier one, and any block from the one with the mark on, that block
included, may *settle* it. A mark *lasts* if neither happens (`Lasts`). If each step takes away what
the block replaces, adds the mark of the block, and takes away what it settles, then the marks of a
run are those that last, in the order of the blocks (`Run.eq_map_lasting`).

* `Run.map_number`: the blocks of a run are numbered one after the other;
* `lasts_concat_iff`: a mark lasts if it did before the last block, and that leaves it.
-/

namespace SignerVoting

namespace Snapshot

/-- A block on a chain, with the snapshots before and after it. -/
structure Block where
  before : Snapshot
  header : Header
  signer : Address
  after : Snapshot
  step : Step before signer header after

namespace Block

/-- The number of a block. -/
def number (b : Block) : Nat := b.header.number.toNat

/-- Whether a block takes the right to seal from an account. -/
def Stops (b : Block) (a : Address) : Prop :=
  b.before.isSigner a = true ∧ b.after.isSigner a = false

instance (b : Block) (a : Address) : Decidable (b.Stops a) := inferInstanceAs (Decidable (_ ∧ _))

theorem number_eq (b : Block) : b.number = b.before.number.toNat + 1 := b.step.number_eq

theorem number_after (b : Block) : b.after.number.toNat = b.number := by
  rw [b.step.number_right, number]

end Block

/-- The blocks one after the other that lead from a snapshot to another. -/
inductive Run (s : Snapshot) : List Block → Snapshot → Prop
  | nil : Run s [] s
  | concat {blocks : List Block} (b : Block) :
      Run s blocks b.before → Run s (blocks ++ [b]) b.after

variable {s t u : Snapshot} {blocks more : List Block}
  {recover : Header → Except Failure Address} {headers : List Header}

namespace Run

theorem append (hr : Run s blocks t) (hmore : Run t more u) : Run s (blocks ++ more) u := by
  induction hmore with
  | nil => rwa [List.append_nil]
  | concat b _ ih =>
    rw [← List.append_assoc]
    exact .concat b ih

theorem reachable (hr : Run s blocks t) (hs : Reachable s) : Reachable t := by
  induction hr with
  | nil => exact hs
  | concat b _ ih => exact ih.step b.step

/-- What the blocks of a run keep holds before each of them and at the end. -/
theorem invariant {p : Snapshot → Prop} (hr : Run s blocks t) (hs : p s)
    (hstep : ∀ b ∈ blocks, p b.before → p b.after) : p t ∧ ∀ b ∈ blocks, p b.before := by
  induction hr with
  | nil => exact ⟨hs, fun _ hb => nomatch hb⟩
  | @concat blocks c hr ih =>
    obtain ⟨hearlier, hlast⟩ := List.forall_mem_append.1 hstep
    obtain ⟨hbefore, hall⟩ := ih hearlier
    exact ⟨hlast c List.mem_cons_self hbefore,
      List.forall_mem_append.2 ⟨hall, List.forall_mem_singleton.2 hbefore⟩⟩

/-! ## Numbers -/

theorem number_eq (hr : Run s blocks t) : t.number.toNat = s.number.toNat + blocks.length := by
  induction hr with
  | nil => rfl
  | concat b _ ih =>
    rw [b.number_after, b.number_eq, ih, List.length_append, List.length_singleton, Nat.add_assoc]

/-- The blocks of a run are numbered one after the other. -/
theorem map_number (hr : Run s blocks t) :
    blocks.map Block.number = List.range' (s.number.toNat + 1) blocks.length := by
  induction hr with
  | nil => rfl
  | concat b hr ih =>
    rw [List.map_append, ih, List.length_append, List.length_singleton, List.range'_concat,
      List.map_singleton, b.number_eq, hr.number_eq]
    congr 2
    omega

theorem mem_map_number (hr : Run s blocks t) {n : Nat} :
    n ∈ blocks.map Block.number ↔ s.number.toNat < n ∧ n ≤ t.number.toNat := by
  rw [hr.map_number, List.mem_range'_1, hr.number_eq]
  omega

theorem number_le (hr : Run s blocks t) {b : Block} (hb : b ∈ blocks) :
    b.number ≤ t.number.toNat :=
  (hr.mem_map_number.1 (List.mem_map_of_mem hb)).2

/-- The blocks of a run are earlier than one on top of it. -/
theorem number_lt {c : Block} (hr : Run s blocks c.before) {b : Block} (hb : b ∈ blocks) :
    b.number < c.number := by
  rw [c.number_eq]
  exact Nat.lt_succ_of_le (hr.number_le hb)

/-- A run leads to each of its blocks. -/
theorem exists_before (hr : Run s blocks t) {b : Block} (hb : b ∈ blocks) :
    ∃ earlier, Run s earlier b.before := by
  induction hr with
  | nil => cases hb
  | @concat blocks c hr ih =>
    rcases List.mem_append.1 hb with hb | hb
    · exact ih hb
    · rw [List.mem_singleton.1 hb]
      exact ⟨blocks, hr⟩

/-- A block of a run is the last one, or the next one goes on from it. -/
theorem eq_or_exists_next (hr : Run s blocks t) {b : Block} (hb : b ∈ blocks) :
    b.after = t ∨ ∃ c ∈ blocks, c.before = b.after := by
  induction hr with
  | nil => cases hb
  | @concat blocks c _ ih =>
    rcases List.mem_append.1 hb with hb | hb
    · obtain hlast | ⟨d, hd, hnext⟩ := ih hb
      · exact .inr ⟨c, by simp, hlast.symm⟩
      · exact .inr ⟨d, List.mem_append_left _ hd, hnext⟩
    · rw [List.mem_singleton.1 hb]
      exact .inl rfl

end Run

/-! ## Runs and replays -/

/-- A replay succeeds exactly if its headers, with the signers found for them, make a run. -/
theorem apply_eq_ok_iff_run :
    s.apply recover headers = .ok t ↔
      ∃ blocks, Run s blocks t ∧ blocks.map Block.header = headers ∧
        ∀ b ∈ blocks, recover b.header = .ok b.signer := by
  constructor
  · -- A replay takes its first header first, so that its block goes before a run of the others.
    intro ht
    induction headers generalizing s with
    | nil =>
      obtain rfl : s = t := Except.ok.inj ht
      exact ⟨[], .nil, rfl, fun _ hb => nomatch hb⟩
    | cons h headers ih =>
      obtain ⟨m, hm, ht⟩ := apply_cons_eq_ok_iff.1 ht
      obtain ⟨signer, hsigner, hst⟩ := apply_singleton_eq_ok_iff_step.1 hm
      obtain ⟨blocks, hr, rfl, hsigners⟩ := ih ht
      let b : Block := ⟨s, h, signer, m, hst⟩
      have hfirst : Run s ([] ++ [b]) m := .concat b .nil
      exact ⟨[b] ++ blocks, hfirst.append hr, rfl,
        List.forall_mem_append.2 ⟨List.forall_mem_singleton.2 hsigner, hsigners⟩⟩
  · rintro ⟨blocks, hr, rfl, hsigners⟩
    induction hr with
    | nil => rfl
    | concat b _ ih =>
      obtain ⟨hfirst, hlast⟩ := List.forall_mem_append.1 hsigners
      rw [List.map_append, apply_append_eq_ok_iff]
      exact ⟨b.before, ih hfirst, apply_singleton_eq_ok_iff_step.2
        ⟨b.signer, hlast b List.mem_cons_self, b.step⟩⟩

/-- A replay of headers leads to the block of the last one. -/
theorem label_of_apply (hne : headers ≠ []) (ht : s.apply recover headers = .ok t) :
    t.number = (headers.getLast hne).number ∧ t.hash = (headers.getLast hne).hash := by
  rw [← List.dropLast_append_getLast hne, apply_append_eq_ok_iff] at ht
  obtain ⟨m, -, hlast⟩ := ht
  obtain ⟨-, u, -, rfl⟩ := apply_singleton_eq_ok_iff.1 hlast
  exact ⟨rfl, rfl⟩

/-- That is a later block. -/
theorem number_lt_of_apply (hne : headers ≠ []) (ht : s.apply recover headers = .ok t) :
    s.number < t.number := by
  obtain ⟨blocks, hr, rfl, -⟩ := apply_eq_ok_iff_run.1 ht
  have hpos : 0 < blocks.length := List.length_pos_of_ne_nil fun hnil => hne (by rw [hnil]; rfl)
  have hnumber := hr.number_eq
  exact UInt64.lt_iff_toNat_lt.2 (by omega)

/-- A replay of headers that declare their signers makes a run. -/
theorem exists_run (config : Config) (signers : List Address) (headers : List Header)
    {p : Snapshot → Bool}
    (h : ((genesis config signers).apply declared headers).toOption.any p = true) :
    ∃ blocks t, Run (genesis config signers) blocks t ∧ blocks.map Block.header = headers ∧
      p t = true := by
  obtain ⟨t, ht, hp⟩ := exists_eq_ok_of_any h
  obtain ⟨blocks, hr, hheaders, -⟩ := apply_eq_ok_iff_run.1 ht
  exact ⟨blocks, t, hr, hheaders, hp⟩

/-! ## Epochs -/

theorem Run.config_eq (hr : Run s blocks t) : t.config = s.config := by
  induction hr with
  | nil => rfl
  | concat b _ ih => rw [b.step.config_eq, ih]

theorem isEpochStart_iff {n : UInt64} :
    s.isEpochStart n = true ↔ s.config.epoch.toNat ≠ 0 ∧ s.config.epoch.toNat ∣ n.toNat := by
  rw [isEpochStart, decide_eq_true_eq, Nat.dvd_iff_mod_eq_zero, ← UInt64.toNat_mod]
  simp only [ne_eq, ← UInt64.toNat_inj, UInt64.toNat_zero]

/-- Whether a block opens an epoch. -/
def Block.OpensEpoch (b : Block) : Prop := b.before.isEpochStart b.header.number = true

instance (b : Block) : Decidable b.OpensEpoch := inferInstanceAs (Decidable (_ = _))

/-- The number that the epoch of a block starts with: the greatest multiple of the epoch that is not
    above it. If the epoch is zero, that is zero. -/
def epochStart (config : Config) (n : UInt64) : Nat :=
  n.toNat / config.epoch.toNat * config.epoch.toNat

theorem Run.opensEpoch_iff (hr : Run s blocks t) {c : Block} (hc : c ∈ blocks) :
    c.OpensEpoch ↔ s.config.epoch.toNat ≠ 0 ∧ s.config.epoch.toNat ∣ c.number := by
  obtain ⟨_, hbefore⟩ := hr.exists_before hc
  rw [Block.OpensEpoch, isEpochStart_iff, hbefore.config_eq, Block.number]

/-- A block is in the last epoch of a run exactly if no later block opens one. -/
theorem Run.epochStart_le_iff (hr : Run s blocks t) {b : Block} (hb : b ∈ blocks) :
    epochStart s.config t.number ≤ b.number ↔
      ∀ c ∈ blocks, b.number < c.number → ¬c.OpensEpoch := by
  rw [epochStart]
  constructor
  · intro hle c hc hbc hcopens
    -- The greatest multiple of the epoch is not below the number of the block that opens one.
    have hmultiple : c.number / s.config.epoch.toNat * s.config.epoch.toNat = c.number :=
      Nat.div_mul_cancel ((hr.opensEpoch_iff hc).1 hcopens).2
    have hmono := Nat.mul_le_mul_right s.config.epoch.toNat
      (Nat.div_le_div_right (c := s.config.epoch.toNat) (hr.number_le hc))
    omega
  · intro hnone
    by_contra hlt
    have hlt := Nat.not_le.1 hlt
    -- The number that the epoch starts with is that of a block of the run.
    have hafter := (hr.mem_map_number.1 (List.mem_map_of_mem hb)).1
    have hmem := hr.mem_map_number.2
      ⟨Nat.lt_trans hafter hlt, Nat.div_mul_le_self t.number.toNat s.config.epoch.toNat⟩
    obtain ⟨c, hc, hnumber⟩ := List.mem_map.1 hmem
    refine hnone c hc (hnumber ▸ hlt) ((hr.opensEpoch_iff hc).2 ⟨fun hzero => ?_, ?_⟩)
    · rw [hzero] at hlt
      exact Nat.not_lt_zero _ hlt
    · rw [hnumber]
      exact Nat.dvd_mul_left _ _

/-! ## Lasting marks -/

/-- Whether the mark of a block lasts: no later block replaces it, and no block from that one on
    settles it. -/
def Lasts (replaces settles : Block → Block → Prop) (blocks : List Block) (b : Block) : Prop :=
  (∀ c ∈ blocks, b.number < c.number → ¬replaces c b) ∧
    ∀ c ∈ blocks, b.number ≤ c.number → ¬settles c b

section Lasts

variable {starts : Block → Prop} {replaces settles : Block → Block → Prop} {b c : Block}

instance [∀ c b, Decidable (replaces c b)] [∀ c b, Decidable (settles c b)] :
    Decidable (Lasts replaces settles blocks b) :=
  inferInstanceAs (Decidable (_ ∧ _))

/-- A mark lasts if it did before the last block, and that leaves it. -/
theorem lasts_concat_iff (hb : b.number < c.number) :
    Lasts replaces settles (blocks ++ [c]) b ↔
      Lasts replaces settles blocks b ∧ ¬replaces c b ∧ ¬settles c b := by
  simp only [Lasts, List.forall_mem_append, List.forall_mem_singleton, hb, Nat.le_of_lt hb,
    forall_const]
  exact and_and_and_comm

/-- The mark of the last block lasts if that does not settle it itself. -/
theorem lasts_concat_self_iff (hc : ∀ b ∈ blocks, b.number < c.number) :
    Lasts replaces settles (blocks ++ [c]) c ↔ ¬settles c c := by
  have hreplaces : ∀ b ∈ blocks, c.number < b.number → ¬replaces b c := fun b hb hcb =>
    absurd hcb (Nat.lt_asymm (hc b hb))
  have hsettles : ∀ b ∈ blocks, c.number ≤ b.number → ¬settles b c := fun b hb hcb =>
    absurd hcb (Nat.not_le.2 (hc b hb))
  simp only [Lasts, List.forall_mem_append, List.forall_mem_singleton, Nat.lt_irrefl, Nat.le_refl,
    forall_const, false_implies, and_true]
  exact ⟨fun h => h.2.2, fun h => ⟨hreplaces, hsettles, h⟩⟩

variable [DecidablePred starts] [∀ c b, Decidable (replaces c b)] [∀ c b, Decidable (settles c b)]

/-- The blocks whose marks last. -/
def lasting (starts : Block → Prop) (replaces settles : Block → Block → Prop)
    [DecidablePred starts] [∀ c b, Decidable (replaces c b)] [∀ c b, Decidable (settles c b)]
    (blocks : List Block) : List Block :=
  blocks.filter fun b => starts b ∧ Lasts replaces settles blocks b

/-- One block more takes away the marks that it replaces, leaves its own, and takes away those that
    it settles. -/
theorem lasting_concat (hc : ∀ b ∈ blocks, b.number < c.number) :
    lasting starts replaces settles (blocks ++ [c]) =
      ((lasting starts replaces settles blocks).filter (fun b => ¬replaces c b) ++
        if starts c then [c] else []).filter fun b => ¬settles c b := by
  rw [lasting, lasting, List.filter_append, List.filter_append, List.filter_filter,
    List.filter_filter]
  congr 1
  · -- An earlier block has its mark still if the last one leaves it.
    refine List.filter_congr fun b hb => ?_
    rw [Bool.eq_iff_iff]
    simp only [decide_eq_true_eq, Bool.and_eq_true, lasts_concat_iff (hc b hb)]
    tauto
  · -- The last block has one if it starts one and does not settle it itself.
    by_cases hstarts : starts c
    · rw [if_pos hstarts]
      refine List.filter_congr fun b hb => ?_
      rw [List.mem_singleton.1 hb, decide_eq_decide, lasts_concat_self_iff hc]
      exact and_iff_right hstarts
    · simp [hstarts]

theorem lasting_eq_filter {p : Block → Prop} [DecidablePred p]
    (hp : ∀ b ∈ blocks, p b ↔ starts b ∧ Lasts replaces settles blocks b) :
    lasting starts replaces settles blocks = blocks.filter fun b => p b :=
  List.filter_congr fun b hb => decide_eq_decide.2 (hp b hb).symm

end Lasts

/-- If each step takes away what the block replaces, adds what the block starts, and takes away what
    it settles, then what is left after a run is what lasts of it. -/
theorem Run.eq_map_lasting {ν : Type} (f : Snapshot → List ν) (ballot : Block → ν)
    {starts : Block → Prop} {replaces settles : Block → ν → Prop} [DecidablePred starts]
    [∀ c v, Decidable (replaces c v)] [∀ c v, Decidable (settles c v)] (hs : Reachable s)
    (hnil : f s = [])
    (hstep : ∀ c : Block, Reachable c.before → f c.after =
      ((f c.before).filter (fun v => ¬replaces c v) ++
        if starts c then [ballot c] else []).filter fun v => ¬settles c v)
    (hr : Run s blocks t) :
    f t = (lasting starts (fun c b => replaces c (ballot b)) (fun c b => settles c (ballot b))
      blocks).map ballot := by
  induction hr with
  | nil => rw [hnil]; rfl
  | concat c hr ih =>
    -- What is left are marks of blocks, so that marks are taken away by taking away their blocks.
    have hown : (if starts c then [ballot c] else []) =
        (if starts c then [c] else []).map ballot := by
      split <;> rfl
    rw [hstep c (hr.reachable hs), ih, lasting_concat fun b hb => hr.number_lt hb, List.filter_map,
      hown, ← List.map_append, List.filter_map]
    rfl

end Snapshot

end SignerVoting
