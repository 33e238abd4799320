import SignerVoting.Proofs.Scores
import SignerVoting.Snapshot.Ballot

/-!
# Votes of one account dropped

When an account is stopped from sealing, the votes that it cast are dropped, and each of them is
taken back from the score of what it is about, one after the other. There may be any number of them
anywhere among the votes, and several about one account. Nothing is asked of the snapshot but that
its tally records its votes (`Tallies.Records`). This is what it means that the scores count the
votes, in terms of votes and entries (`Counts.records`, `Records.counts`).

* `exists_score_of_removed`: between two votes, the tally still records the later ones, so that each
  is taken back from a score of its direction;
* `foldl_uncast_of_perm`: in whatever order they are taken back, the tally ends as the same one;
* `purge_records`: in the end it records the votes that are kept.
-/

namespace SignerVoting

namespace Tallies

/-- A tally records votes: for each account, the votes about it have one direction, and there is an
    entry just if there is such a vote, with their direction and their number. -/
structure Records (t : Tallies) (votes : List Vote) : Prop where
  oneDirection : ∀ v ∈ votes, ∀ w ∈ votes, v.target = w.target → v.authorize = w.authorize
  mem_iff : ∀ a, a ∈ t ↔ ∃ v ∈ votes, v.target = a
  direction : ∀ a x, t[a]? = some x → ∀ v ∈ votes, v.target = a → v.authorize = x.authorize
  number : ∀ a x, t[a]? = some x → x.votes.toNat = votes.countP fun v => v.target = a

variable {t u : Tallies} {votes : List Vote}

theorem Counts.records (h : t.Counts votes) : t.Records votes where
  oneDirection v hv w hw hvw := by
    obtain ⟨x, hx⟩ := mem_iff_exists_getElem?.1 (h.mem_iff.2 ⟨w, hw, rfl⟩)
    have hvx : v.authorize = x.authorize := h.direction_eq hx hv hvw
    have hwx : w.authorize = x.authorize := h.direction_eq hx hw rfl
    exact hvx.trans hwx.symm
  mem_iff _ := h.mem_iff
  direction _ _ hx _ hv hva := h.direction_eq hx hv hva
  number _ _ hx := h.number_eq hx

theorem Records.counts (h : t.Records votes) : t.Counts votes where
  count_eq a d := by
    rw [List.count, List.countP_map, Scores.ofMap]
    rcases hx : t[a]? with _ | x
    · -- Without an entry there are no votes about the account.
      refine List.countP_eq_zero.2 fun v hv hb => ?_
      obtain ⟨x, hx'⟩ := mem_iff_exists_getElem?.1
        ((h.mem_iff a).2 ⟨v, hv, congrArg Prod.fst (eq_of_beq hb)⟩)
      rw [hx] at hx'
      cases hx'
    · have hdirection := h.direction a x hx
      rw [Option.map_some, Scores.weight]
      split
      · rename_i hd
        rw [h.number a x hx]
        refine List.countP_congr fun v hv => ?_
        simp only [Function.comp_apply, beq_iff_eq, Prod.mk.injEq, decide_eq_true_eq]
        exact and_iff_left_of_imp fun hva => (hdirection v hv hva).trans hd
      · rename_i hd
        refine List.countP_eq_zero.2 fun v hv hb => hd ?_
        obtain ⟨hva, hvd⟩ := Prod.mk.inj (eq_of_beq hb)
        exact (hdirection v hv hva).symm.trans hvd
  pos {a d n} hn := by
    obtain ⟨x, hx, hview⟩ := Option.map_eq_some_iff.1 hn
    obtain ⟨-, rfl⟩ := Prod.mk.inj hview
    obtain ⟨v, hv, hva⟩ := (h.mem_iff a).1 (mem_iff_exists_getElem?.2 ⟨x, hx⟩)
    rw [h.number a x hx]
    exact List.countP_pos_iff.2 ⟨v, hv, decide_eq_true hva⟩

/-- The votes say what is recorded. -/
theorem Records.getElem?_eq_some_iff (h : t.Records votes) {a : Address} {x : Tally} :
    t[a]? = some x ↔ (∃ v ∈ votes, v.target = a ∧ v.authorize = x.authorize) ∧
      x.votes.toNat = votes.countP fun v => v.target = a := by
  constructor
  · intro hx
    obtain ⟨v, hv, hva⟩ := (h.mem_iff a).1 (mem_iff_exists_getElem?.2 ⟨x, hx⟩)
    exact ⟨⟨v, hv, hva, h.direction a x hx v hv hva⟩, h.number a x hx⟩
  · rintro ⟨⟨v, hv, hva, hvx⟩, hnumber⟩
    obtain ⟨y, hy⟩ := mem_iff_exists_getElem?.1 ((h.mem_iff a).2 ⟨v, hv, hva⟩)
    have hdirection : y.authorize = x.authorize := (h.direction a y hy v hv hva).symm.trans hvx
    have hvotes : y.votes = x.votes := UInt64.toNat_inj.1 ((h.number a y hy).trans hnumber.symm)
    rw [hy]
    exact congrArg some (congrArg₂ Tally.mk hdirection hvotes)

/-- Votes are recorded by one tally. -/
theorem Records.unique (ht : t.Records votes) (hu : u.Records votes) : t = u :=
  Std.ExtTreeMap.ext_getElem? fun _ => Option.ext fun _ =>
    ht.getElem?_eq_some_iff.trans hu.getElem?_eq_some_iff.symm

/-- Votes of one direction about each account are recorded by casting one after the other, as long
    as there is room for all of them in one counter. -/
theorem Counts.foldl_cast {added : List Vote} (h : t.Counts votes)
    (hroom : (votes ++ added).length < UInt64.size)
    (hdirection : ∀ v ∈ votes ++ added, ∀ w ∈ votes ++ added,
      v.target = w.target → v.authorize = w.authorize) :
    Counts (added.foldl (fun t v => t.cast v.target v.authorize) t) (votes ++ added) := by
  induction added generalizing t votes with
  | nil =>
    rw [List.append_nil]
    exact h
  | cons v added ih =>
    have hlength : votes.length + 1 < UInt64.size := by
      rw [List.length_append, List.length_cons] at hroom
      omega
    have hcast := h.cast (v := v) hlength fun w hw hwv =>
      hdirection w (List.mem_append_left _ hw) v (by simp) hwv
    rw [List.append_cons] at hroom hdirection ⊢
    exact ih hcast hroom hdirection

end Tallies

namespace Snapshot

variable {s : Snapshot} {signer : Address}

/-- The votes are those of the account, in whatever order, and those that are kept. -/
theorem perm_append_kept {removed : List Vote}
    (hp : removed.Perm (s.votes.filter fun v => v.signer = signer)) :
    s.votes.Perm (removed ++ s.votes.filter fun v => v.signer ≠ signer) :=
  (perm_filter_signer_append s.votes signer).trans (hp.symm.append_right _)

/-- Each vote that is taken back finds a score of its direction, so that none is passed over,
    whichever come before it. -/
theorem exists_score_of_removed (h : s.tally.Records s.votes) {done rest : List Vote} {v : Vote}
    (hp : (done ++ v :: rest).Perm (s.votes.filter fun v => v.signer = signer)) :
    ∃ x, (done.foldl (fun t v => t.uncast v.target v.authorize) s.tally)[v.target]? = some x ∧
      x.authorize = v.authorize ∧ 1 ≤ x.votes.toNat := by
  have hfirst := perm_append_kept hp
  rw [List.append_assoc] at hfirst
  have hbefore := (Tallies.Counts.foldl_uncast (h.counts.perm hfirst)).records
  obtain ⟨x, hx⟩ := mem_iff_exists_getElem?.1 ((hbefore.mem_iff v.target).2 ⟨v, by simp, rfl⟩)
  refine ⟨x, hx, (hbefore.direction _ x hx v (by simp) rfl).symm, ?_⟩
  rw [hbefore.number _ x hx]
  exact List.countP_pos_iff.2 ⟨v, by simp, decide_eq_true rfl⟩

/-- The votes of an account may be taken back in any order. -/
theorem foldl_uncast_of_perm (h : s.tally.Records s.votes) {removed : List Vote}
    (hp : removed.Perm (s.votes.filter fun v => v.signer = signer)) :
    removed.foldl (fun t v => t.uncast v.target v.authorize) s.tally = (s.purge signer).tally := by
  have hremoved := Tallies.Counts.foldl_uncast (h.counts.perm (perm_append_kept hp))
  exact hremoved.records.unique (h.counts.purge signer).records

/-- Whatever the votes and their tally are, as long as the tally records the votes: when the votes
    of an account are dropped, all votes of others stay in their order, and the tally records them.
    All else stays as it is. In whatever order the votes are taken back, the tally is the same in
    the end, and each finds a score of its direction when its turn comes. -/
theorem purge_records (h : s.tally.Records s.votes) (signer : Address) :
    (s.purge signer).votes = s.votes.filter (fun v => v.signer ≠ signer) ∧
      (s.purge signer).tally.Records (s.votes.filter fun v => v.signer ≠ signer) ∧
      s.purge signer =
        { s with votes := (s.purge signer).votes, tally := (s.purge signer).tally } ∧
      ∀ removed : List Vote, removed.Perm (s.votes.filter fun v => v.signer = signer) →
        removed.foldl (fun t v => t.uncast v.target v.authorize) s.tally =
            (s.purge signer).tally ∧
          ∀ done v rest, removed = done ++ v :: rest →
            ∃ x, (done.foldl (fun t v => t.uncast v.target v.authorize) s.tally)[v.target]? =
                some x ∧
              x.authorize = v.authorize ∧ 1 ≤ x.votes.toNat := by
  refine ⟨rfl, (h.counts.purge signer).records, rfl, fun removed hp => ?_⟩
  refine ⟨foldl_uncast_of_perm h hp, fun done v rest hremoved => ?_⟩
  rw [hremoved] at hp
  exact exists_score_of_removed h hp

/-- The first account voted twice in a row about the fourth one, which the second did as well, and
    then about the fifth one. The score of the fourth goes from three to one, and that of the fifth
    is gone. -/
theorem purge_records_repeated :
    let votes : List Vote :=
      [⟨.ofLow64 1, 1, .ofLow64 4, true⟩, ⟨.ofLow64 1, 2, .ofLow64 4, true⟩,
        ⟨.ofLow64 2, 3, .ofLow64 4, true⟩, ⟨.ofLow64 1, 4, .ofLow64 5, true⟩,
        ⟨.ofLow64 3, 5, .ofLow64 1, false⟩]
    let tally : Tallies := votes.foldl (fun t v => t.cast v.target v.authorize) ∅
    let s : Snapshot := { ofSigners {} 5 (.replicate 32 1) [.ofLow64 1] with votes, tally }
    s.tally.Records s.votes ∧
      (s.purge (.ofLow64 1)).votes =
        [⟨.ofLow64 2, 3, .ofLow64 4, true⟩, ⟨.ofLow64 3, 5, .ofLow64 1, false⟩] ∧
      (s.purge (.ofLow64 1)).tally[Address.ofLow64 4]? = some ⟨true, 1⟩ ∧
      Address.ofLow64 5 ∉ (s.purge (.ofLow64 1)).tally := by
  intro votes tally s
  have hdirection : ∀ v ∈ votes, ∀ w ∈ votes, v.target = w.target → v.authorize = w.authorize := by
    decide
  have hrecords : s.tally.Records s.votes :=
    (Tallies.Counts.foldl_cast .empty (by decide) hdirection).records
  obtain ⟨hvotes, hpurged, -⟩ := purge_records hrecords (.ofLow64 1)
  refine ⟨hrecords, hvotes, ?_, ?_⟩
  · exact hpurged.getElem?_eq_some_iff.2 (by decide)
  · rw [hpurged.mem_iff]
    decide

end Snapshot

end SignerVoting
