import Mathlib.Order.Interval.Finset.Nat
import SignerVoting.Proofs.Votes

/-!
# Turns

Signers take turns in the order of their bytes: the number of a block, counted around the signers,
is the position of the one whose turn it is. That position is never outside of the list as long as
there is a signer, and no signer is on it twice. So each block has one signer in turn
(`exists_isInTurn_iff`), and among as many blocks in a row as there are signers each of them is in
turn once (`existsUnique_isInTurn`), since the numbers of these blocks have all remainders, each
once (`existsUnique_mod_eq`).

The order depends on who the signers are, and not on how they were listed.

* `isInTurn_iff`: who is in turn, as the entry of the list at a position.
-/

namespace SignerVoting

/-- Among `n` numbers in a row there is one with each remainder. -/
theorem existsUnique_mod_eq (first : Nat) {n i : Nat} (hi : i < n) :
    ∃! m, (first ≤ m ∧ m < first + n) ∧ m % n = i := by
  have himage : i ∈ (Finset.Ico first (first + n)).image (· % n) := by
    rw [Nat.image_Ico_mod]
    exact Finset.mem_range.2 hi
  obtain ⟨m, hm, rfl⟩ := Finset.mem_image.1 himage
  refine ⟨m, ⟨Finset.mem_Ico.1 hm, rfl⟩, fun k ⟨hk, hmod⟩ => ?_⟩
  exact Nat.mod_injOn_Ico first n (Finset.mem_Ico.2 hk) hm hmod

namespace Snapshot

variable {s : Snapshot} {a b : Address} {number : UInt64}

/-! ## The list of signers -/

theorem mem_sortedSigners : a ∈ s.sortedSigners ↔ s.isSigner a = true := by
  rw [sortedSigners, Std.ExtTreeSet.mem_toList, isSigner, Std.ExtTreeSet.contains_iff_mem]

theorem nodup_sortedSigners (s : Snapshot) : s.sortedSigners.Nodup := nodup_toList s.signers

theorem length_sortedSigners (s : Snapshot) : s.sortedSigners.length = s.signers.size :=
  Std.ExtTreeSet.length_toList

/-- The signers ascend in the order of their bytes. -/
theorem pairwise_sortedSigners (s : Snapshot) :
    s.sortedSigners.Pairwise fun a b => a.bytes.toList < b.bytes.toList :=
  Std.ExtTreeSet.ordered_toList.imp fun hab => Address.lt_iff.1 hab

section OfSigners

variable (config : Config) (number : UInt64) (hash : Digest) (signers : List Address)

theorem isSigner_ofSigners :
    (ofSigners config number hash signers).isSigner a = true ↔ a ∈ signers := by
  simp [isSigner, ofSigners, Std.ExtTreeSet.contains_ofList]

/-- The order depends on who is listed only. -/
theorem sortedSigners_ofSigners_congr {others : List Address} (config' : Config)
    (number' : UInt64) (hash' : Digest) (hsame : ∀ a, a ∈ others ↔ a ∈ signers) :
    (ofSigners config' number' hash' others).sortedSigners =
      (ofSigners config number hash signers).sortedSigners := by
  have hset : (ofSigners config' number' hash' others).signers =
      (ofSigners config number hash signers).signers := by
    refine Std.ExtTreeSet.ext_mem fun a => ?_
    simp [ofSigners, Std.ExtTreeSet.mem_ofList, hsame]
  rw [sortedSigners, hset, sortedSigners]

end OfSigners

/-! ## Who is in turn -/

/-- Who is in turn is at the position on the list that the number of the block comes to. -/
theorem isInTurn_iff :
    s.isInTurn number a = true ↔
      s.sortedSigners[number.toNat % s.sortedSigners.length]? = some a := by
  rw [isInTurn]
  cases hposition : s.sortedSigners.idxOf? a with
  | none =>
    rw [List.idxOf?_eq_none_iff] at hposition
    exact iff_of_false nofun fun hturn => hposition (List.mem_of_getElem? hturn)
  | some position =>
    obtain ⟨hlt, hentry, -⟩ := List.idxOf?_eq_some_iff.1 hposition
    rw [decide_eq_true_eq]
    constructor
    · rintro rfl
      exact List.getElem?_eq_some_iff.2 ⟨hlt, hentry⟩
    · -- Nobody is on the list twice.
      intro hturn
      obtain ⟨hlt', hentry'⟩ := List.getElem?_eq_some_iff.1 hturn
      exact (s.nodup_sortedSigners.getElem_inj_iff).1 (hentry'.trans hentry.symm)

theorem isSigner_of_isInTurn (hturn : s.isInTurn number a = true) : s.isSigner a = true :=
  mem_sortedSigners.1 (List.mem_of_getElem? (isInTurn_iff.1 hturn))

theorem sortedSigners_length_pos (hs : s.signers ≠ ∅) : 0 < s.sortedSigners.length := by
  rw [length_sortedSigners, Nat.pos_iff_ne_zero]
  exact fun hzero => hs (Std.ExtTreeSet.eq_empty_iff_size_eq_zero.2 hzero)

/-- Each block has one signer in turn. -/
theorem exists_isInTurn_iff (hs : s.signers ≠ ∅) (number : UInt64) :
    ∃ a, s.isSigner a = true ∧ ∀ b, s.isInTurn number b = true ↔ b = a := by
  have hlt := Nat.mod_lt number.toNat (sortedSigners_length_pos hs)
  refine ⟨s.sortedSigners[number.toNat % s.sortedSigners.length], ?_, fun b => ?_⟩
  · exact mem_sortedSigners.1 (List.getElem_mem hlt)
  · rw [isInTurn_iff, List.getElem?_eq_getElem hlt, Option.some_inj, eq_comm]

/-- A signer is in turn in the blocks with the remainder of its position. -/
theorem isInTurn_getElem_iff {i : Nat} (hi : i < s.sortedSigners.length) :
    s.isInTurn number s.sortedSigners[i] = true ↔
      number.toNat % s.sortedSigners.length = i := by
  rw [isInTurn_iff, List.getElem?_eq_some_iff]
  constructor
  · rintro ⟨hlt, hentry⟩
    exact s.nodup_sortedSigners.getElem_inj_iff.1 hentry
  · rintro rfl
    exact ⟨hi, rfl⟩

/-- Among as many blocks in a row as there are signers, each signer is in turn once. -/
theorem existsUnique_isInTurn (ha : s.isSigner a = true) {first : UInt64}
    (hfits : first.toNat + s.signers.size ≤ UInt64.size) :
    ∃! number : UInt64, (first ≤ number ∧ number.toNat < first.toNat + s.signers.size) ∧
      s.isInTurn number a = true := by
  rw [← length_sortedSigners] at hfits ⊢
  obtain ⟨i, hi, rfl⟩ := List.getElem_of_mem (mem_sortedSigners.2 ha)
  simp only [isInTurn_getElem_iff hi, UInt64.le_iff_toNat_le]
  obtain ⟨m, ⟨⟨hle, hlt⟩, hmod⟩, hunique⟩ := existsUnique_mod_eq first.toNat hi
  have hm : (UInt64.ofNat m).toNat = m := UInt64.toNat_ofNat_of_lt' (Nat.lt_of_lt_of_le hlt hfits)
  refine ⟨UInt64.ofNat m, ?_, fun number hnumber => ?_⟩
  · dsimp only
    rw [hm]
    exact ⟨⟨hle, hlt⟩, hmod⟩
  · rw [← hunique number.toNat hnumber, UInt64.ofNat_toNat]

/-! ## The law of turns -/

/-- A first snapshot has the accounts listed for signers, ascending by their bytes, however often
    and in whatever order they are listed. Where there are signers, each block has one of them in
    turn and nobody else, and among as many blocks in a row as there are signers, each of them is in
    turn once. Where there are none, nobody is in turn. -/
theorem turns_taken :
    (∀ (config : Config) (number : UInt64) (hash : Digest) (signers : List Address),
      signers ≠ [] →
        let s := ofSigners config number hash signers
        (s.sortedSigners.Pairwise fun a b => a.bytes.toList < b.bytes.toList) ∧
        (∀ a, a ∈ s.sortedSigners ↔ a ∈ signers) ∧
        (∀ (config' : Config) (number' : UInt64) (hash' : Digest) (others : List Address),
          (∀ a, a ∈ others ↔ a ∈ signers) →
            (ofSigners config' number' hash' others).sortedSigners = s.sortedSigners) ∧
        s.signers ≠ ∅) ∧
    (∀ s : Snapshot, s.signers ≠ ∅ →
      (∀ number, ∃ a, s.isSigner a = true ∧ ∀ b, s.isInTurn number b = true ↔ b = a) ∧
      ∀ first : UInt64, first.toNat + s.signers.size ≤ UInt64.size →
        ∀ a, s.isSigner a = true →
          ∃! number : UInt64, (first ≤ number ∧ number.toNat < first.toNat + s.signers.size) ∧
            s.isInTurn number a = true) ∧
    ∀ s : Snapshot, s.signers = ∅ → ∀ number a, s.isInTurn number a = false := by
  refine ⟨fun config number hash signers hne => ?_, fun s hs => ?_, fun s hs number a => ?_⟩
  · have hmem (a : Address) := isSigner_ofSigners (a := a) config number hash signers
    refine ⟨pairwise_sortedSigners _, fun a => mem_sortedSigners.trans (hmem a), ?_, ?_⟩
    · exact fun config' number' hash' others =>
        sortedSigners_ofSigners_congr config number hash signers config' number' hash'
    · obtain ⟨a, ha⟩ := List.exists_mem_of_ne_nil signers hne
      intro hempty
      rw [signers_eq_empty_iff] at hempty
      exact Bool.eq_false_iff.1 (hempty a) ((hmem a).2 ha)
  · exact ⟨exists_isInTurn_iff hs, fun first hfits a ha => existsUnique_isInTurn ha hfits⟩
  · rw [Bool.eq_false_iff]
    intro hturn
    exact Bool.eq_false_iff.1 (signers_eq_empty_iff.1 hs a) (isSigner_of_isInTurn hturn)

/-- Three signers are listed in disorder, one of them twice. In the last three blocks that can be
    numbered, the second signer is in turn in the first one and in no other. -/
theorem turns_taken_disordered :
    let s := genesis {} [.ofLow64 3, .ofLow64 1, .ofLow64 3, .ofLow64 2]
    s.sortedSigners = (genesis {} [.ofLow64 1, .ofLow64 2, .ofLow64 3]).sortedSigners ∧
      s.isInTurn (Word.greatest - 2) (.ofLow64 2) = true ∧
        ∀ number : UInt64, Word.greatest - 2 ≤ number → s.isInTurn number (.ofLow64 2) = true →
          number = Word.greatest - 2 := by
  intro s
  obtain ⟨-, -, hcongr, hsigners⟩ := turns_taken.1 {} 0 (.replicate 32 0)
    [.ofLow64 1, .ofLow64 2, .ofLow64 3] (List.cons_ne_nil _ _)
  have horder := hcongr {} 0 (.replicate 32 0) [.ofLow64 3, .ofLow64 1, .ofLow64 3, .ofLow64 2]
    fun a => by simp; tauto
  have hturn : s.isInTurn (Word.greatest - 2) (.ofLow64 2) = true := by decide +kernel
  have hsize : s.signers.size = 3 := by decide +kernel
  have hnonempty : s.signers ≠ ∅ := by
    intro hempty
    rw [hempty] at hsize
    cases hsize
  obtain ⟨last, -, hunique⟩ := (turns_taken.2.1 s hnonempty).2 (Word.greatest - 2)
    (by rw [hsize]; decide) (.ofLow64 2) (by decide +kernel)
  have hinside (number : UInt64) (hle : Word.greatest - 2 ≤ number) :
      number.toNat < (Word.greatest - 2).toNat + s.signers.size := by
    rw [hsize]
    exact number.toNat_lt
  refine ⟨horder, hturn, fun number hle hnumber => ?_⟩
  rw [hunique number ⟨⟨hle, hinside number hle⟩, hnumber⟩,
    hunique _ ⟨⟨UInt64.le_refl _, hinside _ (UInt64.le_refl _)⟩, hturn⟩]

end Snapshot

end SignerVoting
