import Mathlib.Data.List.Basic
import SignerVoting.Proofs.Reachable
import SignerVoting.Proofs.Scores

/-!
# Votes on accounts

The votes on accounts that are pending in a reachable snapshot are in good order (`VotesKept`):
each is a signer's only one about the account, asks for a change, and is counted in the tally.
Blocks keep that order, one operation after the other: taking an earlier vote back, casting, and
carrying a proposal out, where those whose votes would not be in order any more lose them.

* `VotesKept.decision?_eq`: a proposal is carried out exactly if the votes about the account are as
  many as the majority, and then it changes what the account is;
* `VotesKept.step`: a block keeps the votes in order;
* `VotesKept.size_supporters`: the votes about an account are those of so many different signers.
-/

namespace SignerVoting

/-! ## Lists -/

theorem eraseP_eq_filter {α : Type} {p : α → Bool} {l : List α}
    (hl : l.Pairwise fun a b => p a = true → p b = false) :
    l.eraseP p = l.filter fun a => !p a := by
  induction l with
  | nil => rfl
  | cons a l ih =>
    rw [List.pairwise_cons] at hl
    cases ha : p a with
    | false => simp [ha, ih hl.2]
    | true =>
      have hf : l.filter (fun a => !p a) = l :=
        List.filter_eq_self.2 fun b hb => by rw [hl.1 b hb ha]; rfl
      simp [ha, hf]

/-- Where nobody has two votes on a matter, the first one is the only one. -/
theorem eraseP_eq_filter_of_unique {ν κ : Type} [DecidableEq κ] (signer : ν → Address)
    (matter : ν → κ) {votes : List ν}
    (hu : votes.Pairwise fun v w => signer v = signer w → matter v ≠ matter w) (a : Address)
    (k : κ) :
    (votes.eraseP fun v => decide (signer v = a ∧ matter v = k)) =
      votes.filter fun v => !decide (signer v = a ∧ matter v = k) := by
  refine eraseP_eq_filter (hu.imp fun {v w} hvw hv => decide_eq_false fun hw => ?_)
  have hva := of_decide_eq_true hv
  exact hvw (hva.1.trans hw.1.symm) (hva.2.trans hw.2.symm)

theorem perm_cons_eraseP {α : Type} {p : α → Bool} {l : List α} {a : α}
    (h : l.find? p = some a) : l.Perm (a :: l.eraseP p) := by
  obtain ⟨ha, l₁, l₂, rfl, hl₁⟩ := List.find?_eq_some_iff_append.1 h
  rw [List.eraseP_append_right _ fun b hb => by simpa using hl₁ b hb, List.eraseP_cons_of_pos ha]
  exact List.perm_middle

theorem pairwise_concat {α : Type} {r : α → α → Prop} {l : List α} {a : α} (hl : l.Pairwise r)
    (ha : ∀ b ∈ l, r b a) : (l ++ [a]).Pairwise r := by
  refine List.pairwise_append.2 ⟨hl, List.pairwise_singleton r a, fun b hb a' ha' => ?_⟩
  rw [List.mem_singleton.1 ha']
  exact ha b hb

theorem forall_mem_concat {α : Type} {p : α → Prop} {l : List α} {a : α} (hl : ∀ b ∈ l, p b)
    (ha : p a) : ∀ b ∈ l ++ [a], p b :=
  List.forall_mem_append.2 ⟨hl, List.forall_mem_singleton.2 ha⟩

/-! ## Sets of accounts -/

/-- Those who cast votes of a kind are as many as the votes if nobody cast two. -/
theorem size_ofList_map_filter {ν : Type} {p : ν → Bool} {signer : ν → Address} {votes : List ν}
    (hu : votes.Pairwise fun v w => p v = true → p w = true → signer v ≠ signer w) :
    (Std.ExtTreeSet.ofList ((votes.filter p).map signer)).size = votes.countP p := by
  rw [Std.ExtTreeSet.size_ofList, List.length_map, ← List.countP_eq_length_filter]
  refine List.pairwise_map.2 ((hu.filter p).imp_of_mem fun {v w} hv hw hvw hc => ?_)
  have hne := hvw (List.mem_filter.1 hv).2 (List.mem_filter.1 hw).2
  exact hne (Std.LawfulEqCmp.eq_of_compare hc)

/-- The members of a set that have a property, and those that do not. -/
theorem size_filter_add_size_filter_not (t : Std.ExtTreeSet Address) (p : Address → Bool) :
    (t.filter p).size + (t.filter fun a => !p a).size = t.size := by
  simp only [← Std.ExtTreeSet.length_toList, Std.ExtTreeSet.toList_filter]
  exact (List.length_eq_length_filter_add p).symm

theorem filter_eq_self {t : Std.ExtTreeSet Address} {p : Address → Bool}
    (h : ∀ a ∈ t, p a = true) : t.filter p = t := by
  rw [Std.ExtTreeSet.filter_eq_self_iff]
  intro a ha
  rw [Std.ExtTreeSet.get_eq]
  exact h a ha

theorem nodup_toList (t : Std.ExtTreeSet Address) : t.toList.Nodup :=
  Std.ExtTreeSet.distinct_toList.imp fun hne heq => hne (by simp [heq])

theorem size_le_size {t u : Std.ExtTreeSet Address} (h : ∀ a ∈ t, a ∈ u) : t.size ≤ u.size := by
  rw [← Std.ExtTreeSet.length_toList, ← Std.ExtTreeSet.length_toList]
  refine (nodup_toList t).length_le_of_subset fun a ha => ?_
  rw [Std.ExtTreeSet.mem_toList] at ha ⊢
  exact h a ha

namespace Snapshot

variable {s t : Snapshot} {n m : UInt64}

/-! ## Signers -/

theorem signers_eq_empty_iff : s.signers = ∅ ↔ ∀ a, s.isSigner a = false :=
  Std.ExtTreeSet.eq_empty_iff_forall_contains

/-! ## Required majority -/

/-- At least one vote is needed. -/
theorem requiredMajority_pos (s : Snapshot) : 0 < s.requiredMajority.toNat := by
  have hlt := (Word.mulCapped s.signerCount s.quorumPercent).toNat_lt
  rw [requiredMajority, UInt64.toNat_add, UInt64.toNat_div]
  simp only [UInt64.toNat_one, UInt64.reduceToNat]
  omega

/-! ## The order of votes -/

/-- The votes on accounts that are pending after the block of that number: of signers, each with one
    about an account at most, all for a change; in the order of the blocks; counted. -/
structure VotesKept (s : Snapshot) (n : UInt64) : Prop where
  counts : s.tally.Counts s.votes
  unique : s.votes.Pairwise fun v w => v.signer = w.signer → v.target ≠ w.target
  direction : ∀ v ∈ s.votes, v.authorize = !s.isSigner v.target
  voters : ∀ v ∈ s.votes, s.isSigner v.signer = true
  increasing : s.votes.Pairwise fun v w => v.block < w.block
  upTo : ∀ v ∈ s.votes, v.block ≤ n
  /-- Each block carries one vote, so that no counter is ever full. -/
  length_le : s.votes.length ≤ n.toNat

namespace VotesKept

theorem ofSigners (config : Config) (number : UInt64) (hash : Digest) (signers : List Address) :
    (ofSigners config number hash signers).VotesKept n where
  counts := .empty
  unique := .nil
  direction _ hv := nomatch hv
  voters _ hv := nomatch hv
  increasing := .nil
  upTo _ hv := nomatch hv
  length_le := Nat.zero_le _

theorem mono (h : s.VotesKept n) (hnm : n ≤ m) : s.VotesKept m :=
  { h with
    upTo := fun v hv => UInt64.le_trans (h.upTo v hv) hnm
    length_le := Nat.le_trans h.length_le (UInt64.le_iff_toNat_le.1 hnm) }

/-- Votes can be dropped, and signers can change as long as no vote that stays is touched. -/
theorem of_sublist (h : s.VotesKept n) (hsub : t.votes.Sublist s.votes)
    (hcounts : t.tally.Counts t.votes)
    (htarget : ∀ v ∈ t.votes, t.isSigner v.target = s.isSigner v.target)
    (hsigner : ∀ v ∈ t.votes, t.isSigner v.signer = s.isSigner v.signer) : t.VotesKept n where
  counts := hcounts
  unique := h.unique.sublist hsub
  direction v hv := (htarget v hv).symm ▸ h.direction v (hsub.subset hv)
  voters v hv := (hsigner v hv).trans (h.voters v (hsub.subset hv))
  increasing := h.increasing.sublist hsub
  upTo v hv := h.upTo v (hsub.subset hv)
  length_le := Nat.le_trans hsub.length_le h.length_le

end VotesKept

/-- A score is for the change of what the account is. -/
theorem VotesKept.authorize_eq (h : s.VotesKept n) {a : Address} {x : Tally}
    (hx : s.tally[a]? = some x) : x.authorize = !s.isSigner a := by
  obtain ⟨v, hv, rfl⟩ := h.counts.exists_vote hx
  have hd : v.authorize = x.authorize := h.counts.direction_eq hx hv rfl
  rw [← hd, h.direction v hv]

/-! ### Taking back and casting -/

/-- An earlier vote is taken off the list, where it is the only one. -/
theorem votes_withdraw
    (hs : s.votes.Pairwise fun v w => v.signer = w.signer → v.target ≠ w.target)
    (signer target : Address) :
    (s.withdraw signer target).votes =
      s.votes.filter fun v => !decide (v.signer = signer ∧ v.target = target) := by
  rw [← eraseP_eq_filter_of_unique Vote.signer Vote.target hs, withdraw]
  split
  · rfl
  · -- Where there is no such vote, nothing is erased either.
    rename_i hnone
    exact (List.eraseP_of_forall_not fun v hv => List.find?_eq_none.1 hnone v hv).symm

theorem VotesKept.withdraw (h : s.VotesKept n) (signer target : Address) :
    (s.withdraw signer target).VotesKept n := by
  have hcounts : (s.withdraw signer target).tally.Counts (s.withdraw signer target).votes := by
    rw [Snapshot.withdraw]
    split
    · -- In whatever order the votes are, the tally counts them: also with this one first.
      rename_i previous hfind
      exact Tallies.Counts.uncast (h.counts.perm (perm_cons_eraseP hfind))
    · exact h.counts
  refine h.of_sublist ?_ hcounts (fun v _ => ?_) fun v _ => ?_
  · rw [votes_withdraw h.unique]
    exact List.filter_sublist
  · rw [withdraw_eq]
    rfl
  · rw [withdraw_eq]
    rfl

theorem isMeaningful_iff (s : Snapshot) {target : Address} {authorize : Bool} :
    s.isMeaningful target authorize = true ↔ authorize = !s.isSigner target := by
  rw [isMeaningful, decide_eq_true_eq]
  cases authorize <;> cases s.isSigner target <;> simp

/-- A vote is cast by a signer that has no other one about the account, in the next block. -/
theorem VotesKept.cast (h : s.VotesKept n) {v : Vote} (hn : v.block.toNat = n.toNat + 1)
    (hvoter : s.isSigner v.signer = true)
    (hfresh : ∀ w ∈ s.votes, w.signer = v.signer → w.target ≠ v.target) :
    (s.cast v).VotesKept v.block := by
  have hlt : n < v.block := UInt64.lt_iff_toNat_lt.2 (by omega)
  by_cases hdir : v.authorize = !s.isSigner v.target
  · rw [Snapshot.cast, if_pos (s.isMeaningful_iff.2 hdir)]
    -- There are no more votes than blocks, so that a counter has room for one more.
    have hsize : v.block.toNat < UInt64.size := v.block.toNat_lt
    have hlen := h.length_le
    exact {
      counts := h.counts.cast (by omega) fun w hw hwt => by rw [h.direction w hw, hwt, hdir]
      unique := pairwise_concat h.unique hfresh
      direction := forall_mem_concat h.direction hdir
      voters := forall_mem_concat h.voters hvoter
      increasing := pairwise_concat h.increasing fun w hw =>
        UInt64.lt_of_le_of_lt (h.upTo w hw) hlt
      upTo := forall_mem_concat (h.mono (UInt64.le_of_lt hlt)).upTo (UInt64.le_refl _)
      length_le := by
        rw [List.length_append, List.length_singleton, hn]
        exact Nat.succ_le_succ hlen }
  · rw [Snapshot.cast, if_neg fun hm => hdir (s.isMeaningful_iff.1 hm)]
    exact h.mono (UInt64.le_of_lt hlt)

/-! ### Carrying out a proposal -/

theorem isSigner_enroll (s : Snapshot) (target a : Address) :
    (s.enroll target).isSigner a = (decide (a = target) || s.isSigner a) := by
  rw [isSigner, enroll, Std.ExtTreeSet.contains_insert, isSigner]
  by_cases ha : a = target
  · subst ha
    simp
  · simp [ha, Ne.symm ha]

theorem isSigner_expel (s : Snapshot) (target : Address) (block : UInt64) (a : Address) :
    (s.expel target block).isSigner a = (!decide (a = target) && s.isSigner a) := by
  change (s.signers.erase target).contains a = _
  rw [Std.ExtTreeSet.contains_erase, isSigner]
  by_cases ha : a = target
  · subst ha
    simp
  · simp [ha, Ne.symm ha]

theorem isSigner_forget (s : Snapshot) (target a : Address) :
    (s.forget target).isSigner a = s.isSigner a := rfl

theorem votes_forget_sublist (s : Snapshot) (target : Address) :
    (s.forget target).votes.Sublist s.votes :=
  List.filter_sublist

theorem votes_expel_sublist (s : Snapshot) (target : Address) (block : UInt64) :
    (s.expel target block).votes.Sublist s.votes :=
  List.filter_sublist

theorem target_ne_of_mem_forget {target : Address} {v : Vote} (hv : v ∈ (s.forget target).votes) :
    v.target ≠ target :=
  of_decide_eq_true (List.mem_filter.1 hv).2

theorem signer_ne_of_mem_expel {target : Address} {block : UInt64} {v : Vote}
    (hv : v ∈ (s.expel target block).votes) : v.signer ≠ target :=
  of_decide_eq_true (List.mem_filter.1 hv).2

/-- The votes about an account suffice in the direction that changes something, or not at all. -/
theorem VotesKept.decision?_eq (h : s.VotesKept n) (target : Address) :
    s.decision? target =
      if s.requiredMajority.toNat ≤ s.votes.countP fun v => v.target = target then
        some !s.isSigner target
      else none := by
  rw [decision?]
  cases hx : s.tally[target]? with
  | none =>
    -- Without a score there are no votes, and at least one is needed.
    have hzero : (s.votes.countP fun v => v.target = target) = 0 := h.counts.countP_eq_zero hx
    have hpos := s.requiredMajority_pos
    rw [hzero, if_neg (by omega)]
  | some x =>
    have hn : x.votes.toNat = _ := h.counts.number_eq hx
    simp only [UInt64.le_iff_toNat_le, hn, h.authorize_eq hx]

/-- Votes that do not suffice change nothing. -/
theorem VotesKept.settle_of_lt (h : s.VotesKept n) {target : Address} (block : UInt64)
    (hlt : (s.votes.countP fun v => v.target = target) < s.requiredMajority.toNat) :
    s.settle target block = s := by
  rw [Snapshot.settle, h.decision?_eq, if_neg (Nat.not_le.2 hlt)]

/-- Votes that suffice stop a signer, or let a stranger seal. -/
theorem VotesKept.settle_of_le (h : s.VotesKept n) {target : Address} (block : UInt64)
    (hle : s.requiredMajority.toNat ≤ s.votes.countP fun v => v.target = target) :
    s.settle target block =
      if s.isSigner target then (s.expel target block).forget target
      else (s.enroll target).forget target := by
  rw [Snapshot.settle, h.decision?_eq, if_pos hle]
  cases s.isSigner target <;> rfl

theorem VotesKept.settle (h : s.VotesKept n) (target : Address) (block : UInt64) :
    (s.settle target block).VotesKept n := by
  rcases Nat.lt_or_ge (s.votes.countP fun v => v.target = target) s.requiredMajority.toNat with
    hlt | hle
  · rw [h.settle_of_lt block hlt]
    exact h
  rw [h.settle_of_le block hle]
  split
  · -- A signer is stopped. No vote is left about it, and none of its own.
    have hsub := votes_forget_sublist (s.expel target block) target
    refine h.of_sublist (hsub.trans (votes_expel_sublist s target block))
      ((h.counts.purge target).erase target) (fun v hv => ?_) fun v hv => ?_
    · rw [isSigner_forget, isSigner_expel]
      simp [target_ne_of_mem_forget hv]
    · rw [isSigner_forget, isSigner_expel]
      simp [signer_ne_of_mem_expel (hsub.subset hv)]
  · -- A stranger is let seal. No vote is left about it, and no signer is one.
    have hsub := votes_forget_sublist (s.enroll target) target
    refine h.of_sublist hsub (h.counts.erase target) (fun v hv => ?_) fun v hv => ?_
    · rw [isSigner_forget, isSigner_enroll]
      simp [target_ne_of_mem_forget hv]
    · rw [isSigner_forget, isSigner_enroll]
      simp [h.voters v (hsub.subset hv)]

/-- What an account is changes exactly if the votes about it suffice. -/
theorem VotesKept.isSigner_settle (h : s.VotesKept n) (target : Address) (block : UInt64)
    (a : Address) :
    (s.settle target block).isSigner a =
      if a = target ∧ s.requiredMajority.toNat ≤ s.votes.countP fun v => v.target = target then
        !s.isSigner a
      else s.isSigner a := by
  rcases Nat.lt_or_ge (s.votes.countP fun v => v.target = target) s.requiredMajority.toNat with
    hlt | hle
  · rw [h.settle_of_lt block hlt, if_neg fun ha => Nat.not_le.2 hlt ha.2]
  rw [h.settle_of_le block hle]
  by_cases ha : a = target
  · subst ha
    rcases hs : s.isSigner a with _ | _
    · rw [if_neg Bool.false_ne_true, isSigner_forget, isSigner_enroll]
      simp [hle]
    · rw [if_pos rfl, isSigner_forget, isSigner_expel]
      simp [hle]
  · split
    · rw [isSigner_forget, isSigner_expel]
      simp [ha]
    · rw [isSigner_forget, isSigner_enroll]
      simp [ha]

/-- No vote is left about an account when the votes about it suffice, and no vote of a signer that
    they stop. -/
theorem VotesKept.settled (h : s.VotesKept n) {target : Address} (block : UInt64)
    (hle : s.requiredMajority.toNat ≤ s.votes.countP fun v => v.target = target) :
    (∀ v ∈ (s.settle target block).votes, v.target ≠ target) ∧
      target ∉ (s.settle target block).tally ∧
        (s.isSigner target = true → ∀ v ∈ (s.settle target block).votes, v.signer ≠ target) := by
  rw [h.settle_of_le block hle]
  split
  · refine ⟨fun v => target_ne_of_mem_forget, by simp [forget], fun _ v hv => ?_⟩
    exact signer_ne_of_mem_expel ((votes_forget_sublist _ target).subset hv)
  · rename_i hs
    exact ⟨fun v => target_ne_of_mem_forget, by simp [forget], fun hs' => absurd hs' hs⟩

/-! ### Blocks -/

/-- A vote takes the place of the signer's earlier one about the account. -/
theorem VotesKept.record (h : s.VotesKept n) {v : Vote} (hn : v.block.toNat = n.toNat + 1)
    (hvoter : s.isSigner v.signer = true) :
    ((s.withdraw v.signer v.target).cast v).VotesKept v.block := by
  have hvoter' : (s.withdraw v.signer v.target).isSigner v.signer = true := by
    rw [withdraw_eq]
    exact hvoter
  refine (h.withdraw v.signer v.target).cast hn hvoter' fun w hw hws hwt => ?_
  -- An earlier vote of the signer about the account has been taken back.
  rw [votes_withdraw h.unique, List.mem_filter] at hw
  simp [hws, hwt] at hw

theorem VotesKept.voteOnAccount (h : s.VotesKept n) {v : Vote}
    (hn : v.block.toNat = n.toNat + 1) (hvoter : s.isSigner v.signer = true) :
    (s.voteOnAccount v).VotesKept v.block :=
  (h.record hn hvoter).settle v.target v.block

theorem VotesKept.voteOnQuorum (h : s.VotesKept n) (v : QuorumVote) :
    (s.voteOnQuorum v).VotesKept n := by
  rw [voteOnQuorum_eq]
  exact { h with }

theorem VotesKept.enter (h : s.VotesKept n) (signer : Address) (hd : Header) :
    (s.enter signer hd).VotesKept n := by
  rw [enter_eq]
  split
  · exact h.of_sublist (List.nil_sublist _) .empty (fun _ hv => nomatch hv) fun _ hv => nomatch hv
  · exact { h with }

/-- A step keeps the votes. -/
theorem VotesKept.step {signer : Address} {hd : Header} (h : s.VotesKept s.number)
    (hst : Step s signer hd t) : t.VotesKept t.number := by
  have he := h.enter signer hd
  rw [hst.number_right]
  obtain ⟨authorize, -, rfl⟩ | ⟨-, rfl⟩ := hst.cases
  · have hvoter : (s.enter signer hd).isSigner signer = true := by
      rw [isSigner_enter]
      exact hst.isSigner_signer
    exact he.voteOnAccount (v := hd.accountVote signer authorize) hst.number_eq hvoter
  · exact (he.voteOnQuorum _).mono (UInt64.le_of_lt hst.number_lt)

/-- The votes of a reachable snapshot are in order. -/
theorem Reachable.votesKept (hs : Reachable s) : s.VotesKept s.number := by
  induction hs using Reachable.block_induction with
  | start config number hash signers => exact .ofSigners config number hash signers
  | step _ hst ih => exact ih.step hst

/-! ## The signers behind votes -/

/-- The accounts with a vote about an account in a direction. -/
def supporters (votes : List Vote) (target : Address) (authorize : Bool) :
    Std.ExtTreeSet Address :=
  .ofList <| (votes.filter fun v => v.target = target ∧ v.authorize = authorize).map Vote.signer

theorem mem_supporters {votes : List Vote} {target a : Address} {authorize : Bool} :
    a ∈ supporters votes target authorize ↔
      ∃ v ∈ votes, v.target = target ∧ v.authorize = authorize ∧ v.signer = a := by
  simp [supporters, Std.ExtTreeSet.mem_ofList, and_assoc]

/-- Nobody has two votes about the account. -/
theorem size_supporters_eq_countP {votes : List Vote} {target : Address} {authorize : Bool}
    (hu : votes.Pairwise fun v w => v.signer = w.signer → v.target ≠ w.target)
    (hd : ∀ v ∈ votes, v.target = target → v.authorize = authorize) :
    (supporters votes target authorize).size = votes.countP fun v => v.target = target := by
  have hp : ∀ v ∈ votes, (v.target = target ∧ v.authorize = authorize ↔ v.target = target) :=
    fun v hv => and_iff_left_of_imp (hd v hv)
  rw [supporters, size_ofList_map_filter]
  · exact List.countP_congr fun v hv => by simpa using hp v hv
  · refine hu.imp fun {v w} hvw hv hw hs => hvw hs ?_
    rw [decide_eq_true_eq] at hv hw
    rw [hv.1, hw.1]

namespace VotesKept

theorem isSigner_of_mem_supporters (h : s.VotesKept n) {target a : Address} {authorize : Bool}
    (ha : a ∈ supporters s.votes target authorize) : s.isSigner a = true := by
  obtain ⟨v, hv, -, -, rfl⟩ := mem_supporters.1 ha
  exact h.voters v hv

/-- The votes about an account are of as many signers, all for the change. -/
theorem size_supporters (h : s.VotesKept n) (target : Address) :
    ((supporters s.votes target !s.isSigner target).filter s.isSigner).size =
      s.votes.countP fun v => v.target = target := by
  rw [filter_eq_self fun a ha => h.isSigner_of_mem_supporters ha]
  refine size_supporters_eq_countP h.unique fun v hv hvt => ?_
  rw [h.direction v hv, hvt]

/-- There are no more votes about an account than signers. -/
theorem countP_target_le (h : s.VotesKept n) (target : Address) :
    (s.votes.countP fun v => v.target = target) ≤ s.signers.size := by
  rw [← h.size_supporters target]
  refine size_le_size fun a ha => ?_
  obtain ⟨hmem, -⟩ := Std.ExtTreeSet.mem_filter.1 ha
  exact h.isSigner_of_mem_supporters hmem

end VotesKept

/-- In a reachable snapshot, a signer has one vote about an account at most. An account has a score
    exactly if there are votes about it: their number, one at least and no more than there are
    signers, and their direction, which is to change what the account is. Votes are of signers, and
    in the order of their blocks, none of which is later than that of the snapshot. -/
theorem Reachable.votes_tallied (hs : Reachable s) :
    (s.votes.Pairwise fun v w => ¬(v.signer = w.signer ∧ v.target = w.target)) ∧
    (∀ a, a ∈ s.tally ↔ ∃ v ∈ s.votes, v.target = a) ∧
    (∀ a x, s.tally[a]? = some x →
      x.votes.toNat = (s.votes.countP fun v => v.target = a) ∧
      (∀ v ∈ s.votes, v.target = a → v.authorize = x.authorize) ∧
      x.authorize = !s.isSigner a ∧
      1 ≤ x.votes.toNat ∧ x.votes.toNat ≤ s.signers.size) ∧
    (∀ v ∈ s.votes, s.isSigner v.signer = true) ∧
    (s.votes.Pairwise fun v w => v.block < w.block) ∧
    ∀ v ∈ s.votes, v.block ≤ s.number := by
  have h := hs.votesKept
  refine ⟨h.unique.imp fun hvw hp => hvw hp.1 hp.2, fun a => h.counts.mem_iff, fun a x hx => ?_,
    h.voters, h.increasing, h.upTo⟩
  have hn : x.votes.toNat = s.votes.countP fun v => v.target = a := h.counts.number_eq hx
  have hd := h.authorize_eq hx
  refine ⟨hn, fun v hv hva => ?_, hd, ?_, ?_⟩
  · rw [hd, h.direction v hv, hva]
  · obtain ⟨v, hv, hva⟩ := h.counts.exists_vote hx
    rw [hn]
    exact List.countP_pos_iff.2 ⟨v, hv, decide_eq_true hva⟩
  · rw [hn]
    exact h.countP_target_le a

/-- One of two signers asks to let a stranger seal, and that is pending. -/
theorem votes_tallied_pending :
    ∃ s, Reachable s ∧ s.votes.length = 1 ∧ (∀ v ∈ s.votes, s.isSigner v.signer = true) ∧
      ∀ a x, s.tally[a]? = some x → x.votes.toNat = s.votes.countP fun v => v.target = a := by
  obtain ⟨s, hs, hp⟩ : ∃ s, Reachable s ∧ decide (s.votes.length = 1) = true :=
    exists_reachable {} [.ofLow64 1, .ofLow64 2]
      [.declaring (.ofLow64 1) 1 .authorize (.ofLow64 3)] (by decide +kernel)
  obtain ⟨-, -, htally, hvoters, -⟩ := hs.votes_tallied
  exact ⟨s, hs, of_decide_eq_true hp, hvoters, fun a x hx => (htally a x hx).1⟩

end Snapshot

end SignerVoting
