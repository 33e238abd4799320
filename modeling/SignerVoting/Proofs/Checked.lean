import SignerVoting.Proofs.Votes
import SignerVoting.Snapshot.Replay

/-!
# Replays with checked arithmetic

A replay counts in words of 64 bits. Most of its sums and differences are guarded: they are held at
the greatest word, or left out where there is no result. The others are taken as they come, and
would wrap around if they did not fit. Here is the replay once more, with each of those checked: a
vote counted or taken back, the number of blocks that leave the window, the required majority, and
the number of the last block. There is no result at all if one of them is not the sum or the
difference of the numbers (`Word.add?_eq_some_iff`, `Word.sub?_eq_some_iff`).

The checked operations take the steps of the program one by one. So the window is not a filter, as
in `shrinkRecents`, but a loop that looks for one block after the other
(`shrinkRecents?_eq`).

Each checked operation is followed by what it needs to have the result of the running one. Taking a
vote back and the required majority need nothing. A vote is counted if there is room in the counter,
and the window moves if its size fits into a word.
-/

namespace SignerVoting

/-! ## Words -/

namespace Word

/-- The word of a number, if it fits into one. -/
def ofNat? (n : Nat) : Option UInt64 := if n < UInt64.size then some (.ofNat n) else none

/-- The sum, if it fits into a word. -/
def add? (a b : UInt64) : Option UInt64 := ofNat? (a.toNat + b.toNat)

/-- The difference, if it is not below zero. -/
def sub? (a b : UInt64) : Option UInt64 :=
  if b ≤ a then ofNat? (a.toNat - b.toNat) else none

variable {a b c : UInt64} {n : Nat}

theorem ofNat?_eq_some_iff : ofNat? n = some c ↔ c.toNat = n := by
  rw [ofNat?, Option.ite_none_right_eq_some, Option.some_inj]
  constructor
  · rintro ⟨hn, rfl⟩
    exact UInt64.toNat_ofNat_of_lt' hn
  · rintro rfl
    exact ⟨c.toNat_lt, UInt64.ofNat_toNat⟩

/-- A checked sum is the sum of the numbers. -/
theorem add?_eq_some_iff : add? a b = some c ↔ c.toNat = a.toNat + b.toNat := ofNat?_eq_some_iff

/-- A checked difference is the difference of the numbers. -/
theorem sub?_eq_some_iff : sub? a b = some c ↔ c.toNat + b.toNat = a.toNat := by
  rw [sub?, Option.ite_none_right_eq_some, ofNat?_eq_some_iff, UInt64.le_iff_toNat_le]
  omega

theorem ofNat?_eq (h : n < UInt64.size) : ofNat? n = some (.ofNat n) :=
  ofNat?_eq_some_iff.2 (UInt64.toNat_ofNat_of_lt' h)

theorem add?_eq (h : a.toNat + b.toNat < UInt64.size) : add? a b = some (a + b) := by
  rw [add?_eq_some_iff, UInt64.toNat_add, Nat.mod_eq_of_lt h]

theorem sub?_eq (h : b ≤ a) : sub? a b = some (a - b) := by
  have hle := UInt64.le_iff_toNat_le.1 h
  rw [sub?_eq_some_iff, UInt64.toNat_sub_of_le a b h, Nat.sub_add_cancel hle]

end Word

/-! ## Scores -/

section Counters

variable {κ τ : Type} [Ord κ] [Std.TransOrd κ] [Std.LawfulEqOrd κ] {t : Std.ExtTreeMap κ τ} {k : κ}
  {x first : τ} {votes : τ → UInt64} {put : τ → UInt64 → τ} {leave : τ → Bool}

theorem insert_eq_self (h : t[k]? = some x) : t.insert k x = t := by
  refine Std.ExtTreeMap.ext_getElem? fun l => ?_
  rw [Std.ExtTreeMap.getElem?_insert]
  split
  · rename_i hkl
    rw [← Std.LawfulEqCmp.eq_of_compare hkl, h]
  · rfl

theorem erase_eq_self (h : t[k]? = none) : t.erase k = t := by
  refine Std.ExtTreeMap.ext_getElem? fun l => ?_
  rw [Std.ExtTreeMap.getElem?_erase]
  split
  · rename_i hkl
    rw [← Std.LawfulEqCmp.eq_of_compare hkl, h]
  · rfl

/-- To alter an entry is to insert or to erase it. -/
theorem alter_eq (t : Std.ExtTreeMap κ τ) (k : κ) (f : Option τ → Option τ) :
    t.alter k f = (f t[k]?).elim (t.erase k) (t.insert k) := by
  refine Std.ExtTreeMap.ext_getElem? fun l => ?_
  rw [Std.ExtTreeMap.getElem?_alter]
  cases f t[k]? with
  | none => rw [Option.elim_none, Std.ExtTreeMap.getElem?_erase]
  | some y => rw [Option.elim_some, Std.ExtTreeMap.getElem?_insert]

/-- One vote more in an entry, which there is from the first one on, if the counter has room. -/
def countUp? (t : Std.ExtTreeMap κ τ) (k : κ) (first : τ) (votes : τ → UInt64)
    (put : τ → UInt64 → τ) : Option (Std.ExtTreeMap κ τ) := do
  let x := t.getD k first
  let n ← Word.add? (votes x) 1
  return t.insert k (put x n)

/-- One vote less in an entry, unless that is to be left alone. An entry goes with its last vote. -/
def countDown? (t : Std.ExtTreeMap κ τ) (k : κ) (leave : τ → Bool) (votes : τ → UInt64)
    (put : τ → UInt64 → τ) : Option (Std.ExtTreeMap κ τ) :=
  match t[k]? with
  | none => some t
  | some x =>
    if leave x then some t
    else if 1 < votes x then do
      let n ← Word.sub? (votes x) 1
      return t.insert k (put x n)
    else some (t.erase k)

theorem countUp?_eq (hfirst : votes first = 0)
    (hroom : ∀ x, t[k]? = some x → (votes x).toNat + 1 < UInt64.size) :
    countUp? t k first votes put =
      some (t.alter k fun x => some (put (x.getD first) (votes (x.getD first) + 1))) := by
  have hadd : Word.add? (votes (t[k]?.getD first)) 1 = some (votes (t[k]?.getD first) + 1) := by
    refine Word.add?_eq ?_
    cases hx : t[k]? with
    | none =>
      rw [Option.getD_none, hfirst]
      decide
    | some x => exact hroom x hx
  rw [countUp?, alter_eq, Std.ExtTreeMap.getD_eq_getD_getElem?, hadd]
  rfl

theorem countDown?_eq (t : Std.ExtTreeMap κ τ) (k : κ) (leave : τ → Bool) (votes : τ → UInt64)
    (put : τ → UInt64 → τ) :
    countDown? t k leave votes put =
      some (t.alter k fun x => x.bind fun x =>
        if leave x then some x else if 1 < votes x then some (put x (votes x - 1)) else none) := by
  rw [countDown?, alter_eq]
  cases hx : t[k]? with
  | none => exact congrArg some (erase_eq_self hx).symm
  | some x =>
    simp only [Option.bind_some]
    split
    · exact congrArg some (insert_eq_self hx).symm
    split
    · rename_i hvotes
      rw [Word.sub?_eq (UInt64.le_of_lt hvotes)]
      rfl
    · rfl

end Counters

namespace Tallies

/-- One vote more about an account. -/
def cast? (t : Tallies) (target : Address) (authorize : Bool) : Option Tallies :=
  countUp? t target ⟨authorize, 0⟩ Tally.votes fun x votes => { x with votes }

/-- One vote less about an account, if its score is of that direction. -/
def uncast? (t : Tallies) (target : Address) (authorize : Bool) : Option Tallies :=
  countDown? t target (fun x => x.authorize ≠ authorize) Tally.votes fun x votes => { x with votes }

theorem cast?_eq {t : Tallies} {target : Address} {authorize : Bool}
    (hroom : ∀ x, t[target]? = some x → x.votes.toNat + 1 < UInt64.size) :
    t.cast? target authorize = some (t.cast target authorize) := by
  have hfirst : Tally.votes ⟨authorize, 0⟩ = 0 := rfl
  rw [cast?, countUp?_eq hfirst hroom, cast]
  congr 2
  funext x
  cases x <;> rfl

theorem uncast?_eq (t : Tallies) (target : Address) (authorize : Bool) :
    t.uncast? target authorize = some (t.uncast target authorize) := by
  rw [uncast?, countDown?_eq, uncast]
  congr 2
  funext x
  cases x <;> simp

end Tallies

namespace QuorumTallies

/-- One vote more for a percentage. -/
def cast? (t : QuorumTallies) (percent : UInt64) (signer : Address) : Option QuorumTallies :=
  countUp? t percent ⟨true, 0, signer⟩ QuorumTally.votes fun x votes => { x with votes, signer }

/-- One vote less for a percentage. A score that is not for the percentage is left alone. -/
def uncast? (t : QuorumTallies) (percent : UInt64) : Option QuorumTallies :=
  countDown? t percent (fun x => !x.authorize) QuorumTally.votes fun x votes => { x with votes }

theorem cast?_eq {t : QuorumTallies} {percent : UInt64} {signer : Address}
    (hroom : ∀ x, t[percent]? = some x → x.votes.toNat + 1 < UInt64.size) :
    t.cast? percent signer = some (t.cast percent signer) := by
  have hfirst : QuorumTally.votes ⟨true, 0, signer⟩ = 0 := rfl
  rw [cast?, countUp?_eq hfirst hroom, cast]
  congr 2
  funext x
  cases x <;> rfl

theorem uncast?_eq (t : QuorumTallies) (percent : UInt64) :
    t.uncast? percent = some (t.uncast percent) := by
  rw [uncast?, countDown?_eq, uncast]
  congr 2
  funext x
  cases x <;> rfl

end QuorumTallies

namespace Snapshot

variable {s : Snapshot}

/-! ## The window -/

/-- The required majority. The product is held at the greatest word as it is. -/
def requiredMajority? (s : Snapshot) : Option UInt64 :=
  Word.add? (Word.mulCapped s.signerCount s.quorumPercent / 100) 1

theorem requiredMajority?_eq (s : Snapshot) : s.requiredMajority? = some s.requiredMajority := by
  have hcapped : (Word.mulCapped s.signerCount s.quorumPercent).toNat < UInt64.size :=
    UInt64.toNat_lt _
  have hword : 1 < UInt64.size := by decide
  refine Word.add?_eq ?_
  simp only [UInt64.toNat_div, UInt64.toNat_one, UInt64.reduceToNat]
  omega

/-- Takes the block off the record that is so far before that of the number, if there is one. -/
def forgetRecent (number : UInt64) (recents : Std.ExtTreeMap UInt64 Address) (distance : UInt64) :
    Std.ExtTreeMap UInt64 Address :=
  match Word.sub? number distance with
  | some block => recents.erase block
  | none => recents

/-- Lets those seal again who sealed outside the window. -/
def shrinkRecents? (s : Snapshot) (number : UInt64) : Option Snapshot := do
  let limit ← s.requiredMajority?
  let size ← Word.ofNat? s.recents.size
  if number < limit ∨ size < limit then some s
  else do
    let rest ← Word.sub? size limit
    let count ← Word.add? rest 1
    let distances := (List.range count.toNat).map fun i => Word.addCapped limit (.ofNat i)
    some { s with recents := distances.foldl (forgetRecent number) s.recents }

theorem getElem?_foldl_forgetRecent {recents : Std.ExtTreeMap UInt64 Address}
    {number block : UInt64} {a : Address} {distances : List UInt64} :
    (distances.foldl (forgetRecent number) recents)[block]? = some a ↔
      recents[block]? = some a ∧ ∀ d ∈ distances, block.toNat + d.toNat ≠ number.toNat := by
  induction distances generalizing recents with
  | nil => simp
  | cons d distances ih =>
    have hstep : (forgetRecent number recents d)[block]? = some a ↔
        recents[block]? = some a ∧ block.toNat + d.toNat ≠ number.toNat := by
      rw [forgetRecent, ← Word.sub?_eq_some_iff.ne]
      cases Word.sub? number d with
      | none => simp
      | some b => simp [Std.ExtTreeMap.getElem?_erase, Std.LawfulEqCmp.compare_eq_iff_eq, and_comm]
    rw [List.foldl_cons, ih, hstep, List.forall_mem_cons, and_assoc]

/-- A record is that of the window if it has the entries that are not as far behind as the limit, or
    further than the size. -/
theorem eq_shrinkRecents {recents : Std.ExtTreeMap UInt64 Address} {number : UInt64}
    (h : ∀ (block : UInt64) (a : Address), recents[block]? = some a ↔
      s.recents[block]? = some a ∧ ¬(block.toNat + s.requiredMajority.toNat ≤ number.toNat ∧
        number.toNat ≤ block.toNat + s.recents.size)) :
    { s with recents } = s.shrinkRecents number := by
  have hrecents : recents = (s.shrinkRecents number).recents :=
    Std.ExtTreeMap.ext_getElem? fun block => Option.ext fun a =>
      (h block a).trans (getElem?_shrinkRecents s number block a).symm
  rw [hrecents]
  rfl

/-- The loop does what the filter does. -/
theorem shrinkRecents?_eq (hsize : s.recents.size < UInt64.size) (number : UInt64) :
    s.shrinkRecents? number = some (s.shrinkRecents number) := by
  have htoNat : (UInt64.ofNat s.recents.size).toNat = s.recents.size :=
    UInt64.toNat_ofNat_of_lt' hsize
  rw [shrinkRecents?, requiredMajority?_eq, Word.ofNat?_eq hsize]
  simp only [Option.bind_eq_bind, Option.bind_some]
  split
  · -- No block is as far behind as the limit and no further than the size.
    rename_i hguard
    rw [UInt64.lt_iff_toNat_lt, UInt64.lt_iff_toNat_lt, htoNat] at hguard
    refine congrArg some (eq_shrinkRecents fun block a => (and_iff_left fun hb => ?_).symm)
    omega
  · rename_i hguard
    rw [not_or, UInt64.not_lt, UInt64.not_lt] at hguard
    obtain ⟨hnumber, hlimit⟩ := hguard
    have hpos := s.requiredMajority_pos
    have hle := UInt64.le_iff_toNat_le.1 hlimit
    rw [htoNat] at hle
    have hrest : (UInt64.ofNat s.recents.size - s.requiredMajority).toNat =
        s.recents.size - s.requiredMajority.toNat := by
      rw [UInt64.toNat_sub_of_le _ _ hlimit, htoNat]
    have hcount : (UInt64.ofNat s.recents.size - s.requiredMajority).toNat + 1 < UInt64.size := by
      omega
    rw [Word.sub?_eq hlimit, Option.bind_some, Word.add?_eq hcount, Option.bind_some,
      Word.toNat_add_one hcount, hrest]
    refine congrArg some (eq_shrinkRecents fun block a => ?_)
    rw [getElem?_foldl_forgetRecent, List.forall_mem_map]
    refine and_congr_right fun _ => ?_
    have hdistance : ∀ i < s.recents.size - s.requiredMajority.toNat + 1,
        (Word.addCapped s.requiredMajority (.ofNat i)).toNat = s.requiredMajority.toNat + i := by
      intro i hi
      rw [Word.toNat_addCapped, UInt64.toNat_ofNat_of_lt' (by omega), Nat.min_eq_left (by omega)]
    constructor
    · rintro h ⟨hfrom, hto⟩
      refine h (number.toNat - block.toNat - s.requiredMajority.toNat) ?_ ?_
      · rw [List.mem_range]
        omega
      · rw [hdistance _ (by omega)]
        omega
    · intro h i hi heq
      rw [List.mem_range] at hi
      rw [hdistance i hi] at heq
      omega

/-! ## Votes on accounts -/

/-- Takes back the vote of a signer about an account. -/
def withdraw? (s : Snapshot) (signer target : Address) : Option Snapshot :=
  let same (v : Vote) : Bool := v.signer = signer ∧ v.target = target
  match s.votes.find? same with
  | some previous => do
    let tally ← s.tally.uncast? previous.target previous.authorize
    return { s with votes := s.votes.eraseP same, tally }
  | none => some s

/-- Records a vote if it asks for a change. -/
def cast? (s : Snapshot) (v : Vote) : Option Snapshot :=
  if s.isMeaningful v.target v.authorize then do
    let tally ← s.tally.cast? v.target v.authorize
    return { s with votes := s.votes ++ [v], tally }
  else some s

/-- Drops every vote that an account cast. -/
def purge? (s : Snapshot) (signer : Address) : Option Snapshot := do
  let removed := s.votes.filter fun v => v.signer = signer
  let tally ← removed.foldlM (fun tally v => tally.uncast? v.target v.authorize) s.tally
  return { s with votes := s.votes.filter fun v => v.signer ≠ signer, tally }

/-- Stops an account from sealing. -/
def expel? (s : Snapshot) (target : Address) (block : UInt64) : Option Snapshot := do
  let s ← shrinkRecents? { s with signers := s.signers.erase target } block
  s.purge? target

/-- Carries out the proposal about an account if the votes suffice. -/
def settle? (s : Snapshot) (target : Address) (block : UInt64) : Option Snapshot :=
  match s.tally[target]? with
  | none => some s
  | some tally => do
    let majority ← s.requiredMajority?
    if majority ≤ tally.votes then
      if tally.authorize then some ((s.enroll target).forget target)
      else do
        let s ← s.expel? target block
        return s.forget target
    else some s

/-- A signer's vote about an account. -/
def voteOnAccount? (s : Snapshot) (v : Vote) : Option Snapshot := do
  let s ← s.withdraw? v.signer v.target
  let s ← s.cast? v
  s.settle? v.target v.block

theorem withdraw?_eq (s : Snapshot) (signer target : Address) :
    s.withdraw? signer target = some (s.withdraw signer target) := by
  dsimp only [withdraw?, withdraw]
  cases s.votes.find? fun v => decide (v.signer = signer ∧ v.target = target) with
  | none => rfl
  | some previous =>
    dsimp only
    rw [Tallies.uncast?_eq]
    rfl

theorem cast?_eq {v : Vote}
    (hroom : ∀ x, s.tally[v.target]? = some x → x.votes.toNat + 1 < UInt64.size) :
    s.cast? v = some (s.cast v) := by
  rw [cast?, cast, Tallies.cast?_eq hroom]
  split <;> rfl

theorem foldlM_uncast?_eq (tally : Tallies) (removed : List Vote) :
    removed.foldlM (fun tally v => tally.uncast? v.target v.authorize) tally =
      some (removed.foldl (fun tally v => tally.uncast v.target v.authorize) tally) := by
  induction removed generalizing tally with
  | nil => rfl
  | cons v removed ih =>
    rw [List.foldlM_cons, Tallies.uncast?_eq]
    exact ih _

theorem purge?_eq (s : Snapshot) (signer : Address) : s.purge? signer = some (s.purge signer) := by
  rw [purge?, foldlM_uncast?_eq]
  rfl

theorem expel?_eq (hsize : s.recents.size < UInt64.size) (target : Address) (block : UInt64) :
    s.expel? target block = some (s.expel target block) := by
  have hshrink := shrinkRecents?_eq (s := { s with signers := s.signers.erase target }) hsize block
  rw [expel?, hshrink]
  exact purge?_eq _ target

theorem settle?_eq (hsize : s.recents.size < UInt64.size) (target : Address) (block : UInt64) :
    s.settle? target block = some (s.settle target block) := by
  rw [settle?, settle, decision?, requiredMajority?_eq, expel?_eq hsize]
  cases s.tally[target]? with
  | none => rfl
  | some tally =>
    obtain ⟨authorize, votes⟩ := tally
    simp only [Option.bind_eq_bind, Option.bind_some]
    split
    · cases authorize <;> rfl
    · rfl

/-! ## Votes for percentages -/

/-- Takes back the vote of a signer for a percentage. -/
def withdrawQuorum? (s : Snapshot) (signer : Address) (percent : UInt64) : Option Snapshot :=
  let same (v : QuorumVote) : Bool := v.signer = signer ∧ v.percent = percent
  if s.quorumVotes.any same then do
    let quorumTally ← s.quorumTally.uncast? percent
    return { s with quorumVotes := s.quorumVotes.eraseP same, quorumTally }
  else some s

/-- Records a vote for a percentage other than the one in force. -/
def castQuorum? (s : Snapshot) (v : QuorumVote) : Option Snapshot :=
  if s.quorumPercent ≠ v.percent then do
    let quorumTally ← s.quorumTally.cast? v.percent v.signer
    return { s with quorumVotes := s.quorumVotes ++ [v], quorumTally }
  else some s

/-- Puts a percentage in force if the votes for it suffice. -/
def settleQuorum? (s : Snapshot) (percent : UInt64) (block : UInt64) : Option Snapshot :=
  match s.quorumTally[percent]? with
  | none => some s
  | some tally => do
    let majority ← s.requiredMajority?
    if majority ≤ tally.votes then
      return { s with
        quorumPercent := percent
        quorumVotes := s.quorumVotes.filter fun v => v.percent ≠ percent
        quorumTally := s.quorumTally.erase percent
        quorumCooldowns :=
          s.quorumCooldowns.insert percent ⟨Word.addCapped block s.signerCount⟩ }
    else some s

/-- A signer's vote for a percentage. -/
def voteOnQuorum? (s : Snapshot) (v : QuorumVote) : Option Snapshot := do
  let s ← withdrawQuorum? { s with quorumCooldowns := ∅ } v.signer v.percent
  let s ← s.castQuorum? v
  s.settleQuorum? v.percent v.block

theorem withdrawQuorum?_eq (s : Snapshot) (signer : Address) (percent : UInt64) :
    s.withdrawQuorum? signer percent = some (s.withdrawQuorum signer percent) := by
  rw [withdrawQuorum?, withdrawQuorum, QuorumTallies.uncast?_eq]
  split <;> rfl

theorem castQuorum?_eq {v : QuorumVote}
    (hroom : ∀ x, s.quorumTally[v.percent]? = some x → x.votes.toNat + 1 < UInt64.size) :
    s.castQuorum? v = some (s.castQuorum v) := by
  rw [castQuorum?, castQuorum, QuorumTallies.cast?_eq hroom]
  split <;> rfl

theorem settleQuorum?_eq (s : Snapshot) (percent block : UInt64) :
    s.settleQuorum? percent block = some (s.settleQuorum percent block) := by
  rw [settleQuorum?, settleQuorum, passesQuorum, requiredMajority?_eq]
  cases s.quorumTally[percent]? with
  | none => rfl
  | some tally =>
    simp only [Option.bind_eq_bind, Option.bind_some, decide_eq_true_eq]
    split <;> rfl

/-! ## Replay -/

/-- What a block does before its signer is known. -/
def openBlock? (s : Snapshot) (number : UInt64) : Option Snapshot :=
  (if s.isEpochStart number then s.discardVotes else s).shrinkRecents? number

/-- The vote of a header that the signer sealed. -/
def vote? (s : Snapshot) (signer : Address) (h : Header) : Option (Except Failure Snapshot) :=
  match h.voteKind? with
  | some .authorize => (s.voteOnAccount? ⟨signer, h.number, h.coinbase, true⟩).map .ok
  | some .drop => (s.voteOnAccount? ⟨signer, h.number, h.coinbase, false⟩).map .ok
  | some .quorumPercent =>
    (s.voteOnQuorum? ⟨signer, h.number, h.coinbase, h.quorumProposal, true⟩).map .ok
  | none => some (.error (.invalidVote h.nonce))

/-- What a block does once its signer is known. -/
def acceptBlock? (s : Snapshot) (signer : Address) (h : Header) :
    Option (Except Failure Snapshot) :=
  if !s.isSigner signer then some (.error (.unauthorizedSigner signer))
  else if s.isRecent signer then some (.error (.recentlySigned signer))
  else { s with recents := s.recents.insert h.number signer }.vote? signer h

/-- One header. -/
def process? (recover : Header → Except Failure Address) (s : Snapshot) (h : Header) :
    Option (Except Failure Snapshot) := do
  let s ← s.openBlock? h.number
  match recover h with
  | .ok signer => s.acceptBlock? signer h
  | .error failure => some (.error failure)

/-- The headers one after the other, up to the first failure. -/
def processAll? (recover : Header → Except Failure Address) (s : Snapshot) :
    List Header → Option (Except Failure Snapshot)
  | [] => some (.ok s)
  | h :: rest => do
    match ← process? recover s h with
    | .ok t => processAll? recover t rest
    | .error failure => some (.error failure)

/-- The snapshot of the last header. -/
def replay? (recover : Header → Except Failure Address) (s : Snapshot) (headers : List Header) :
    Option (Except Failure Snapshot) :=
  match headers.getLast? with
  | none => some (.ok s)
  | some last =>
    match chainFailure? (Word.next? s.number) headers with
    | some failure => some (.error failure)
    | none => do
      match ← processAll? recover s headers with
      | .error failure => some (.error failure)
      | .ok t => do
        let processed ← Word.ofNat? headers.length
        let number ← Word.add? t.number processed
        return .ok { t with number, hash := last.hash }

theorem openBlock?_eq (hsize : s.recents.size < UInt64.size) (number : UInt64) :
    s.openBlock? number = some (s.openBlock number) := by
  rw [openBlock?, openBlock]
  split
  · exact shrinkRecents?_eq (s := s.discardVotes) hsize number
  · exact shrinkRecents?_eq hsize number

end Snapshot

end SignerVoting
