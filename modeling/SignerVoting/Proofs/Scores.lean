import Mathlib.Logic.Function.Basic
import SignerVoting.Vote
import SignerVoting.Word

/-!
# Scores

Tallies count in 64-bit words and are kept up to date vote by vote. As *scores* they are read in
unbounded numbers: each matter has the direction of the votes on it and their number, or nothing.
Scores *count* a list of ballots if, for each matter and direction, they say how often the ballot is
on the list, and nothing of a matter without ballots (`Counts`). Casting a ballot of the direction
that others on the matter have, taking back one that was cast and settling a matter keep the count
(`Counts.cast`, `Counts.uncast`, `Counts.erase`), in whatever order the ballots are (`Counts.perm`).

Tallies follow their scores as long as no counter is full (`Tallies.scores_cast`,
`Tallies.scores_uncast`, and the same for percentages).
-/

namespace SignerVoting

theorem mem_iff_exists_getElem? {κ τ : Type} [Ord κ] [Std.TransOrd κ] {t : Std.ExtTreeMap κ τ}
    {k : κ} : k ∈ t ↔ ∃ x, t[k]? = some x := by
  rw [Std.ExtTreeMap.mem_iff_isSome_getElem?, Option.isSome_iff_exists]

/-- For each matter, the direction of the votes on it and their number, if there are any. -/
abbrev Scores (κ : Type) := κ → Option (Bool × Nat)

namespace Scores

variable {κ : Type} [DecidableEq κ]

/-- One ballot more. The first one on a matter gives the direction. -/
def cast (f : Scores κ) (k : κ) (d : Bool) : Scores κ :=
  Function.update f k <|
    match f k with
    | some (d', n) => some (d', n + 1)
    | none => some (d, 1)

/-- One ballot less, if the matter has a score of that direction. -/
def uncast (f : Scores κ) (k : κ) (d : Bool) : Scores κ :=
  Function.update f k <|
    match f k with
    | some (d', n) => if d' ≠ d then some (d', n) else if 1 < n then some (d', n - 1) else none
    | none => none

/-- No ballots on a matter any more. -/
def erase (f : Scores κ) (k : κ) : Scores κ := Function.update f k none

/-- The number of ballots in a direction that a score stands for. -/
@[simp]
def weight : Option (Bool × Nat) → Bool → Nat
  | some (d', n), d => if d' = d then n else 0
  | none, _ => 0

/-- The scores say how often each ballot was cast, and nothing of matters without ballots. -/
structure Counts (f : Scores κ) (ballots : List (κ × Bool)) : Prop where
  count_eq : ∀ k d, ballots.count (k, d) = weight (f k) d
  pos : ∀ {k d n}, f k = some (d, n) → 0 < n

namespace Counts

variable {f : Scores κ} {k : κ} {d : Bool} {l m : List (κ × Bool)}

theorem nil : Counts (fun _ : κ => none) [] where
  count_eq _ _ := rfl
  pos h := nomatch h

theorem perm (h : Counts f l) (hp : l.Perm m) : Counts f m where
  count_eq k d := hp.count_eq (k, d) ▸ h.count_eq k d
  pos := h.pos

/-- A ballot that was cast has a score, of its direction. -/
theorem exists_score (h : Counts f l) (hb : (k, d) ∈ l) : ∃ n, f k = some (d, n) := by
  have hpos := List.count_pos_iff.2 hb
  rw [h.count_eq] at hpos
  rcases hk : f k with _ | ⟨e, n⟩
  · rw [hk] at hpos
    exact absurd hpos (Nat.lt_irrefl 0)
  · rw [hk, weight] at hpos
    -- A score of the other direction would count no ballot of this one.
    split at hpos
    · rename_i he
      exact ⟨n, he ▸ rfl⟩
    · exact absurd hpos (Nat.lt_irrefl 0)

/-- A score stands for ballots. -/
theorem exists_ballot {n : Nat} (h : Counts f l) (hk : f k = some (d, n)) : (k, d) ∈ l := by
  have hc := h.count_eq k d
  rw [hk, weight, if_pos rfl] at hc
  exact List.count_pos_iff.1 (hc ▸ h.pos hk)

theorem eq_none_iff (h : Counts f l) : f k = none ↔ ∀ b ∈ l, b.1 ≠ k := by
  constructor
  · rintro hk b hb rfl
    obtain ⟨n, hn⟩ := h.exists_score hb
    rw [hk] at hn
    cases hn
  · intro hl
    rcases hk : f k with _ | score
    · rfl
    · exact absurd rfl (hl _ (h.exists_ballot hk))

/-- The ballots on a matter that has a score are of its direction. -/
theorem direction_eq {n : Nat} (h : Counts f l) (hk : f k = some (d, n)) {b : κ × Bool} (hb : b ∈ l)
    (hbk : b.1 = k) : b.2 = d := by
  subst hbk
  obtain ⟨n', hn'⟩ := h.exists_score hb
  rw [hk] at hn'
  exact (congrArg Prod.fst (Option.some.inj hn')).symm

/-- The score of a matter is the number of the ballots on it. -/
theorem number_eq {n : Nat} (h : Counts f l) (hk : f k = some (d, n)) :
    n = l.countP fun b => b.1 = k := by
  have hc := h.count_eq k d
  rw [hk, weight, if_pos rfl] at hc
  rw [← hc]
  refine List.countP_congr fun b hb => ?_
  simp only [beq_iff_eq, decide_eq_true_eq]
  exact ⟨fun hbk => hbk ▸ rfl, fun hbk => Prod.ext hbk (h.direction_eq hk hb hbk)⟩

/-- The score of one matter changes with the ballots on it. -/
theorem update (h : Counts f l) {score : Option (Bool × Nat)}
    (hk : ∀ d, m.count (k, d) = weight score d) (hpos : ∀ d n, score = some (d, n) → 0 < n)
    (hne : ∀ k', k' ≠ k → ∀ d, m.count (k', d) = l.count (k', d)) :
    Counts (Function.update f k score) m := by
  constructor
  · intro k' d
    by_cases hk' : k' = k
    · subst hk'
      rw [Function.update_self, hk]
    · rw [Function.update_of_ne hk', hne k' hk', h.count_eq]
  · intro k' d n hn
    by_cases hk' : k' = k
    · subst hk'
      rw [Function.update_self] at hn
      exact hpos d n hn
    · rw [Function.update_of_ne hk'] at hn
      exact h.pos hn

/-- A ballot of the direction of the others on the matter is counted. -/
theorem cast (h : Counts f l) (hd : ∀ b ∈ l, b.1 = k → b.2 = d) :
    Counts (f.cast k d) (l ++ [(k, d)]) := by
  refine h.update ?_ ?_ fun k' hk' d' => ?_
  · intro d'
    rw [List.count_append, h.count_eq, List.count_singleton]
    rcases hk : f k with _ | ⟨e, n⟩
    · simp
    · -- The score has the direction of the ballots before, and so of this one.
      obtain rfl : e = d := hd _ (h.exists_ballot hk) rfl
      by_cases hdd : e = d' <;> simp [hdd]
  · intro d' n' hn'
    rcases hk : f k with _ | score <;>
    · simp only [hk, Option.some.injEq, Prod.mk.injEq] at hn'
      omega
  · rw [List.count_append, List.count_singleton]
    simp [Ne.symm hk']

/-- A ballot that was cast is taken back. -/
theorem uncast (h : Counts f ((k, d) :: l)) : Counts (f.uncast k d) l := by
  obtain ⟨n, hn⟩ := h.exists_score List.mem_cons_self
  refine h.update ?_ ?_ fun k' hk' d' => ?_
  · intro d'
    have hc := h.count_eq k d'
    rw [List.count_cons, hn] at hc
    by_cases hdd : d = d' <;> by_cases h1 : 1 < n <;> simp [hn, hdd, h1] at hc ⊢ <;> omega
  · intro d' n' hn'
    -- The last ballot takes the score with it.
    simp only [hn, ne_eq, not_true_eq_false, if_false] at hn'
    split at hn'
    · simp only [Option.some.injEq, Prod.mk.injEq] at hn'
      omega
    · cases hn'
  · rw [List.count_cons]
    simp [Ne.symm hk']

/-- The ballots on a matter are dropped. -/
theorem erase (h : Counts f l) (k : κ) : Counts (f.erase k) (l.filter fun b => b.1 ≠ k) := by
  refine h.update (fun d => ?_) (fun _ _ hn => nomatch hn) fun k' hk' d => ?_
  · rw [weight, List.count_eq_zero]
    simp
  · exact List.count_filter (by simpa using hk')

end Counts

/-! ## Scores in maps -/

section OfMap

variable {τ : Type} [Ord κ] [Std.TransOrd κ] (view : τ → Bool × Nat)

/-- The scores that the entries of a map stand for. -/
def ofMap (t : Std.ExtTreeMap κ τ) : Scores κ := fun k => t[k]?.map view

omit [DecidableEq κ] in
theorem ofMap_empty : ofMap view (∅ : Std.ExtTreeMap κ τ) = fun _ => none := by
  funext k
  simp [ofMap]

theorem ofMap_alter [Std.LawfulEqOrd κ] (t : Std.ExtTreeMap κ τ) (k : κ) (g : Option τ → Option τ) :
    ofMap view (t.alter k g) = Function.update (ofMap view t) k ((g t[k]?).map view) := by
  funext k'
  rw [ofMap, Std.ExtTreeMap.getElem?_alter]
  by_cases hk : k' = k
  · subst hk
    simp
  · simp [hk, Ne.symm hk, ofMap, Std.LawfulEqCmp.compare_eq_iff_eq]

theorem ofMap_erase [Std.LawfulEqOrd κ] (t : Std.ExtTreeMap κ τ) (k : κ) :
    ofMap view (t.erase k) = (ofMap view t).erase k := by
  funext k'
  rw [ofMap, Std.ExtTreeMap.getElem?_erase, erase]
  by_cases hk : k' = k
  · subst hk
    simp
  · simp [hk, Ne.symm hk, ofMap, Std.LawfulEqCmp.compare_eq_iff_eq]

/-! ### Counted votes -/

variable {ν : Type} (ballot : ν → κ × Bool)

/-- A map has the score of every matter that there are votes on, and no other. -/
def Tallied (t : Std.ExtTreeMap κ τ) (votes : List ν) : Prop :=
  (ofMap view t).Counts (votes.map ballot)

namespace Tallied

variable {view ballot} {t t' : Std.ExtTreeMap κ τ} {votes votes' : List ν} {k : κ} {x : τ}

theorem empty : Tallied view ballot ∅ [] := by
  rw [Tallied, ofMap_empty]
  exact .nil

theorem mem_iff (h : Tallied view ballot t votes) : k ∈ t ↔ ∃ v ∈ votes, (ballot v).1 = k := by
  have hn : ofMap view t k = none ↔ k ∉ t := by
    rw [ofMap, Option.map_eq_none_iff, getElem?_eq_none_iff]
  rw [← not_iff_not, ← hn, h.eq_none_iff]
  simp

omit [DecidableEq κ] in
theorem ofMap_eq_some (hx : t[k]? = some x) : ofMap view t k = some (view x) := by
  rw [ofMap, hx]
  rfl

theorem exists_vote (h : Tallied view ballot t votes) (hx : t[k]? = some x) :
    ∃ v ∈ votes, (ballot v).1 = k := by
  obtain ⟨v, hv, hb⟩ := List.mem_map.1 (h.exists_ballot (ofMap_eq_some hx))
  exact ⟨v, hv, congrArg Prod.fst hb⟩

theorem countP_eq_zero (h : Tallied view ballot t votes) (hx : t[k]? = none) :
    (votes.countP fun v => (ballot v).1 = k) = 0 := by
  rw [getElem?_eq_none_iff] at hx
  refine List.countP_eq_zero.2 fun v hv hk => hx (h.mem_iff.2 ⟨v, hv, ?_⟩)
  exact of_decide_eq_true hk

/-- A score is the number of the votes. -/
theorem number_eq (h : Tallied view ballot t votes) (hx : t[k]? = some x) :
    (view x).2 = votes.countP fun v => (ballot v).1 = k := by
  rw [Counts.number_eq h (ofMap_eq_some hx), List.countP_map]
  rfl

theorem number_le (h : Tallied view ballot t votes) (hx : t[k]? = some x) :
    (view x).2 ≤ votes.length := by
  rw [h.number_eq hx]
  exact List.countP_le_length

/-- The votes on a matter have the direction of its score. -/
theorem direction_eq (h : Tallied view ballot t votes) (hx : t[k]? = some x) {v : ν}
    (hv : v ∈ votes) (hk : (ballot v).1 = k) : (ballot v).2 = (view x).1 :=
  Counts.direction_eq h (ofMap_eq_some hx) (List.mem_map_of_mem hv) hk

theorem perm (h : Tallied view ballot t votes) (hp : votes.Perm votes') :
    Tallied view ballot t votes' :=
  Counts.perm h (hp.map ballot)

theorem cast (h : Tallied view ballot t votes) {v : ν}
    (ht : ofMap view t' = (ofMap view t).cast (ballot v).1 (ballot v).2)
    (hv : ∀ w ∈ votes, (ballot w).1 = (ballot v).1 → (ballot w).2 = (ballot v).2) :
    Tallied view ballot t' (votes ++ [v]) := by
  rw [Tallied, ht, List.map_append]
  refine Counts.cast h fun b hb hbk => ?_
  obtain ⟨w, hw, rfl⟩ := List.mem_map.1 hb
  exact hv w hw hbk

theorem uncast {v : ν} (h : Tallied view ballot t (v :: votes))
    (ht : ofMap view t' = (ofMap view t).uncast (ballot v).1 (ballot v).2) :
    Tallied view ballot t' votes := by
  rw [Tallied, ht]
  exact Counts.uncast h

theorem erase [Std.LawfulEqOrd κ] (h : Tallied view ballot t votes) (k : κ) :
    Tallied view ballot (t.erase k) (votes.filter fun v => (ballot v).1 ≠ k) := by
  have he := Counts.erase h k
  rw [List.filter_map] at he
  rw [Tallied, ofMap_erase]
  exact he

end Tallied

end OfMap

end Scores

/-! ## Scores of accounts -/

/-- What a vote is about, with its direction. -/
abbrev Vote.ballot (v : Vote) : Address × Bool := (v.target, v.authorize)

/-- The votes of a signer, and then those of the others. -/
theorem perm_filter_signer_append (votes : List Vote) (signer : Address) :
    votes.Perm ((votes.filter fun v => v.signer = signer) ++
      votes.filter fun v => v.signer ≠ signer) := by
  have h := List.filter_append_perm (fun v : Vote => decide (v.signer = signer)) votes
  simp only [← decide_not] at h
  exact h.symm

namespace Tallies

/-- The scores of accounts. -/
def scores : Tallies → Scores Address := Scores.ofMap fun x => (x.authorize, x.votes.toNat)

/-- The tally has the score of every account that there are votes about, and no other. -/
abbrev Counts (t : Tallies) (votes : List Vote) : Prop :=
  Scores.Tallied (fun x : Tally => (x.authorize, x.votes.toNat)) Vote.ballot t votes

theorem scores_cast (t : Tallies) {target : Address} (authorize : Bool)
    (hroom : ∀ x, t[target]? = some x → x.votes.toNat + 1 < UInt64.size) :
    scores (t.cast target authorize) = t.scores.cast target authorize := by
  rw [cast, scores, Scores.ofMap_alter, Scores.cast]
  congr 1
  rw [Scores.ofMap]
  rcases hx : t[target]? with _ | x
  · rfl
  · simp [Word.toNat_add_one (hroom x hx)]

theorem scores_uncast (t : Tallies) (target : Address) (authorize : Bool) :
    scores (t.uncast target authorize) = t.scores.uncast target authorize := by
  rw [uncast, scores, Scores.ofMap_alter, Scores.uncast]
  congr 1
  rw [Scores.ofMap]
  rcases t[target]? with _ | x
  · rfl
  · have h1 : 1 < x.votes ↔ 1 < x.votes.toNat := UInt64.lt_iff_toNat_lt
    by_cases hd : x.authorize = authorize
    · by_cases hn : 1 < x.votes.toNat
      · simp [hd, hn, h1, Word.toNat_sub_one hn]
      · simp [hd, hn, h1]
    · simp [hd]

namespace Counts

variable {t : Tallies} {votes : List Vote} {v : Vote}

/-- A vote is counted, as long as there is room for all votes in one counter. -/
theorem cast (h : t.Counts votes) (hroom : votes.length + 1 < UInt64.size)
    (hv : ∀ w ∈ votes, w.target = v.target → w.authorize = v.authorize) :
    Counts (t.cast v.target v.authorize) (votes ++ [v]) := by
  refine Scores.Tallied.cast h (scores_cast t v.authorize fun x hx => ?_) hv
  exact Nat.lt_of_le_of_lt (Nat.succ_le_succ (h.number_le hx)) hroom

theorem uncast (h : t.Counts (v :: votes)) : Counts (t.uncast v.target v.authorize) votes :=
  Scores.Tallied.uncast h (scores_uncast t v.target v.authorize)

/-- Votes are taken back one after the other. -/
theorem foldl_uncast {removed : List Vote} (h : t.Counts (removed ++ votes)) :
    Counts (removed.foldl (fun t v => t.uncast v.target v.authorize) t) votes := by
  induction removed generalizing t with
  | nil => exact h
  | cons v removed ih => exact ih h.uncast

/-- The votes of a signer are taken back. -/
theorem purge (h : t.Counts votes) (signer : Address) :
    Counts ((votes.filter fun v => v.signer = signer).foldl
      (fun t v => t.uncast v.target v.authorize) t) (votes.filter fun v => v.signer ≠ signer) :=
  foldl_uncast (h.perm (perm_filter_signer_append votes signer))

end Counts

end Tallies

/-! ## Scores of percentages -/

/-- What a vote is for, with its direction. -/
abbrev QuorumVote.ballot (v : QuorumVote) : UInt64 × Bool := (v.percent, v.authorize)

namespace QuorumTallies

/-- The scores of percentages. -/
def scores : QuorumTallies → Scores UInt64 := Scores.ofMap fun x => (x.authorize, x.votes.toNat)

/-- The tally has the score of every percentage that there are votes for, and no other. -/
abbrev Counts (t : QuorumTallies) (votes : List QuorumVote) : Prop :=
  Scores.Tallied (fun x : QuorumTally => (x.authorize, x.votes.toNat)) QuorumVote.ballot t votes

theorem scores_cast (t : QuorumTallies) {percent : UInt64} (signer : Address)
    (hroom : ∀ x, t[percent]? = some x → x.votes.toNat + 1 < UInt64.size) :
    scores (t.cast percent signer) = t.scores.cast percent true := by
  rw [cast, scores, Scores.ofMap_alter, Scores.cast]
  congr 1
  rw [Scores.ofMap]
  rcases hx : t[percent]? with _ | x
  · rfl
  · simp [Word.toNat_add_one (hroom x hx)]

theorem scores_uncast (t : QuorumTallies) (percent : UInt64) :
    scores (t.uncast percent) = t.scores.uncast percent true := by
  rw [uncast, scores, Scores.ofMap_alter, Scores.uncast]
  congr 1
  rw [Scores.ofMap]
  rcases t[percent]? with _ | x
  · rfl
  · have h1 : 1 < x.votes ↔ 1 < x.votes.toNat := UInt64.lt_iff_toNat_lt
    by_cases hd : x.authorize = true
    · by_cases hn : 1 < x.votes.toNat
      · simp [hd, hn, h1, Word.toNat_sub_one hn]
      · simp [hd, hn, h1]
    · simp [hd]

namespace Counts

variable {t : QuorumTallies} {votes : List QuorumVote} {v : QuorumVote}

/-- A vote is counted, as long as there is room for all votes in one counter. -/
theorem cast (h : t.Counts votes) (hroom : votes.length + 1 < UInt64.size)
    (hall : ∀ w ∈ votes, w.authorize = true) (hv : v.authorize = true) :
    Counts (t.cast v.percent v.signer) (votes ++ [v]) := by
  refine Scores.Tallied.cast h ?_ fun w hw _ => (hall w hw).trans hv.symm
  rw [QuorumVote.ballot, hv]
  refine scores_cast t v.signer fun x hx => ?_
  exact Nat.lt_of_le_of_lt (Nat.succ_le_succ (h.number_le hx)) hroom

theorem uncast (h : t.Counts (v :: votes)) (hv : v.authorize = true) :
    Counts (t.uncast v.percent) votes := by
  refine Scores.Tallied.uncast h ?_
  rw [QuorumVote.ballot, hv]
  exact scores_uncast t v.percent

end Counts

end QuorumTallies

end SignerVoting
