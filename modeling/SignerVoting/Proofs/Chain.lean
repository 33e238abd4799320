import SignerVoting.Snapshot.Replay

/-!
# Chains of snapshots

A replay of many headers takes a snapshot from block to block. It numbers the result only at its
end, but no vote depends on the number or the hash of the snapshot (`acceptBlock_relabel`), so that
a replay is one header after the other, each on the snapshot of the block before.

* `apply_singleton_eq_ok_iff`: one header is replayed if its number is the next one and its block is
  accepted, and the result is labelled with it;
* `apply_cons`: headers that follow on are replayed one after the other, and so fail;
* `apply_cons_eq_ok_iff`: a replay is that of the first header and then that of the rest.
-/

namespace SignerVoting

theorem bind_eq_ok_iff {ε α β : Type} {x : Except ε α} {f : α → Except ε β} {b : β} :
    x >>= f = .ok b ↔ ∃ a, x = .ok a ∧ f a = .ok b := by
  cases x <;> simp [bind, Except.bind]

theorem map_eq_ok_iff {ε α β : Type} {x : Except ε α} {f : α → β} {b : β} :
    x.map f = .ok b ↔ ∃ a, x = .ok a ∧ f a = b := by
  cases x <;> simp [Except.map]

theorem exists_eq_ok_of_any {ε α : Type} {x : Except ε α} {p : α → Bool}
    (h : x.toOption.any p = true) : ∃ a, x = .ok a ∧ p a = true := by
  cases x with
  | error e => cases h
  | ok a => exact ⟨a, rfl, h⟩

namespace Snapshot

/-! ## Number and hash -/

/-- The snapshot under another number and hash. -/
def relabel (s : Snapshot) (number : UInt64) (hash : Digest) : Snapshot :=
  { s with number, hash }

@[simp]
theorem relabel_self (s : Snapshot) : s.relabel s.number s.hash = s := rfl

section Relabel

variable (s : Snapshot) (n : UInt64) (d : Digest)

theorem openBlock_relabel (number : UInt64) :
    (s.relabel n d).openBlock number = (s.openBlock number).relabel n d := by
  have h : (s.relabel n d).isEpochStart number = s.isEpochStart number := rfl
  rw [openBlock, openBlock, h]
  split <;> rfl

theorem withdraw_relabel (signer target : Address) :
    (s.relabel n d).withdraw signer target = (s.withdraw signer target).relabel n d := by
  have h : (s.relabel n d).votes = s.votes := rfl
  rw [withdraw, withdraw, h]
  split <;> rfl

theorem cast_relabel (v : Vote) : (s.relabel n d).cast v = (s.cast v).relabel n d := by
  have h : (s.relabel n d).isMeaningful = s.isMeaningful := rfl
  rw [cast, cast, h]
  split <;> rfl

theorem settle_relabel (target : Address) (block : UInt64) :
    (s.relabel n d).settle target block = (s.settle target block).relabel n d := by
  have h : (s.relabel n d).decision? = s.decision? := rfl
  rw [settle, settle, h]
  split <;> rfl

theorem voteOnAccount_relabel (v : Vote) :
    (s.relabel n d).voteOnAccount v = (s.voteOnAccount v).relabel n d := by
  rw [voteOnAccount, withdraw_relabel, cast_relabel, settle_relabel, voteOnAccount]

theorem withdrawQuorum_relabel (signer : Address) (percent : UInt64) :
    (s.relabel n d).withdrawQuorum signer percent =
      (s.withdrawQuorum signer percent).relabel n d := by
  have h : (s.relabel n d).quorumVotes = s.quorumVotes := rfl
  rw [withdrawQuorum, withdrawQuorum, h]
  split <;> rfl

theorem castQuorum_relabel (v : QuorumVote) :
    (s.relabel n d).castQuorum v = (s.castQuorum v).relabel n d := by
  have h : (s.relabel n d).quorumPercent = s.quorumPercent := rfl
  rw [castQuorum, castQuorum, h]
  split <;> rfl

theorem settleQuorum_relabel (percent block : UInt64) :
    (s.relabel n d).settleQuorum percent block = (s.settleQuorum percent block).relabel n d := by
  have h : (s.relabel n d).passesQuorum = s.passesQuorum := rfl
  rw [settleQuorum, settleQuorum, h]
  split <;> rfl

theorem voteOnQuorum_relabel (v : QuorumVote) :
    (s.relabel n d).voteOnQuorum v = (s.voteOnQuorum v).relabel n d := by
  have h : ({ s.relabel n d with quorumCooldowns := ∅ } : Snapshot) =
    ({ s with quorumCooldowns := ∅ } : Snapshot).relabel n d := rfl
  rw [voteOnQuorum, h, withdrawQuorum_relabel, castQuorum_relabel, settleQuorum_relabel,
    voteOnQuorum]

/-- A block is accepted or refused whatever the number and the hash of the snapshot. -/
theorem acceptBlock_relabel (signer : Address) (h : Header) :
    (s.relabel n d).acceptBlock signer h = (s.acceptBlock signer h).map (·.relabel n d) := by
  have hs : (s.relabel n d).isSigner = s.isSigner := rfl
  have hr : (s.relabel n d).isRecent = s.isRecent := rfl
  have hi : ({ s.relabel n d with recents := s.recents.insert h.number signer } : Snapshot) =
    ({ s with recents := s.recents.insert h.number signer } : Snapshot).relabel n d := rfl
  have hv : (s.relabel n d).recents = s.recents := rfl
  rw [acceptBlock, acceptBlock, hs, hr, hv, hi]
  split
  · rfl
  split
  · rfl
  rw [vote, vote]
  split
  · rw [voteOnAccount_relabel]; rfl
  · rw [voteOnAccount_relabel]; rfl
  · rw [voteOnQuorum_relabel]; rfl
  · rfl

end Relabel

/-! ## Replays -/

/-- What a header does to a snapshot, which keeps its number and its hash. -/
def process (recover : Header → Except Failure Address) (s : Snapshot) (h : Header) :
    Except Failure Snapshot := do
  let signer ← recover h
  (s.openBlock h.number).acceptBlock signer h

section Replay

variable {recover : Header → Except Failure Address} {s t : Snapshot} {h : Header}
  {headers rest : List Header}

theorem process_relabel (recover : Header → Except Failure Address) (s : Snapshot) (h : Header)
    (n : UInt64) (d : Digest) :
    process recover (s.relabel n d) h = (process recover s h).map (·.relabel n d) := by
  rw [process, process]
  cases recover h with
  | error e => rfl
  | ok signer => exact (openBlock_relabel s n d h.number) ▸ acceptBlock_relabel _ n d signer h

theorem foldlM_process_relabel (recover : Header → Except Failure Address) (s : Snapshot)
    (headers : List Header) (n : UInt64) (d : Digest) :
    headers.foldlM (process recover) (s.relabel n d) =
      (headers.foldlM (process recover) s).map (·.relabel n d) := by
  induction headers generalizing s with
  | nil => rfl
  | cons h rest ih =>
    rw [List.foldlM_cons, List.foldlM_cons, process_relabel]
    cases process recover s h with
    | error e => rfl
    | ok t => exact ih t

/-- Headers do not change the number of a snapshot while they are processed. -/
theorem number_of_foldlM_process (hu : headers.foldlM (process recover) s = .ok t) :
    t.number = s.number := by
  -- Under its own number and hash the snapshot is the same, and so is the result under them.
  have h := foldlM_process_relabel recover s headers s.number s.hash
  rw [relabel_self, hu] at h
  have ht : t = t.relabel s.number s.hash := Except.ok.inj h
  exact (congrArg number ht).trans rfl

theorem run_applyHeader (recover : Header → Except Failure Address) (s : Snapshot) (h : Header) :
    (applyHeader recover s h : ExceptT Failure Id Snapshot).run = process recover s h := by
  rw [applyHeader, process]
  cases recover h <;> rfl

theorem run_applyHeaders (recover : Header → Except Failure Address) (processed : Nat)
    (s : Snapshot) (headers : List Header) :
    (applyHeaders recover (fun _ => false) processed s headers : ExceptT Failure Id Snapshot).run =
      headers.foldlM (process recover) s := by
  induction headers generalizing s processed with
  | nil => rfl
  | cons h rest ih =>
    rw [List.foldlM_cons, ← run_applyHeader]
    change (applyHeader recover s h >>= fun s =>
      applyHeaders recover (fun _ => false) (processed + 1) s rest : ExceptT Failure Id _).run = _
    rw [ExceptT.run_bind]
    cases (applyHeader recover s h : ExceptT Failure Id Snapshot).run with
    | error e => rfl
    | ok t => exact ih (processed + 1) t

/-- A replay that was not stopped is one that could not be. -/
theorem run_applyHeaders_eq_ok_of_abort {abort : Nat → Bool} {processed : Nat}
    (ht : (applyHeaders recover abort processed s headers : ExceptT Failure Id Snapshot).run =
      .ok t) : headers.foldlM (process recover) s = .ok t := by
  induction headers generalizing s processed with
  | nil => exact ht
  | cons h rest ih =>
    rw [applyHeaders] at ht
    split at ht
    · cases ht
    rw [ExceptT.run_bind, run_applyHeader] at ht
    rw [List.foldlM_cons]
    cases hu : process recover s h with
    | error e =>
      rw [hu] at ht
      cases ht
    | ok u =>
      rw [hu] at ht
      exact ih ht

theorem apply_nil (recover : Header → Except Failure Address) (s : Snapshot) :
    s.apply recover [] = .ok s := rfl

/-- The numbers of the headers are checked before anything else. -/
theorem applyWithAbort_of_ne_nil (recover : Header → Except Failure Address) (abort : Nat → Bool)
    (s : Snapshot) (hne : headers ≠ []) :
    s.applyWithAbort recover abort headers =
      match chainFailure? (Word.next? s.number) headers with
      | some failure => .error failure
      | none =>
        (applyHeaders recover abort 0 s headers : ExceptT Failure Id Snapshot).run.map fun u =>
          u.relabel (u.number + UInt64.ofNat headers.length) (headers.getLast hne).hash := by
  rw [applyWithAbort, replay, List.getLast?_eq_some_getLast hne]
  dsimp only
  cases chainFailure? (Word.next? s.number) headers with
  | some failure => rfl
  | none =>
    rw [ExceptT.run_bind]
    cases (applyHeaders recover abort 0 s headers : ExceptT Failure Id Snapshot).run <;> rfl

theorem apply_of_ne_nil (recover : Header → Except Failure Address) (s : Snapshot)
    (hne : headers ≠ []) :
    s.apply recover headers =
      match chainFailure? (Word.next? s.number) headers with
      | some failure => .error failure
      | none => (headers.foldlM (process recover) s).map fun u =>
          u.relabel (u.number + UInt64.ofNat headers.length) (headers.getLast hne).hash := by
  rw [← run_applyHeaders recover 0]
  exact applyWithAbort_of_ne_nil recover (fun _ => false) s hne

/-- A replay that was not stopped gives what one gives that cannot be. -/
theorem apply_eq_ok_of_applyWithAbort {abort : Nat → Bool}
    (ht : s.applyWithAbort recover abort headers = .ok t) : s.apply recover headers = .ok t := by
  by_cases hne : headers = []
  · subst hne
    exact ht
  rw [applyWithAbort_of_ne_nil recover abort s hne] at ht
  rw [apply_of_ne_nil recover s hne]
  cases hchain : chainFailure? (Word.next? s.number) headers with
  | some failure =>
    rw [hchain] at ht
    cases ht
  | none =>
    rw [hchain] at ht
    obtain ⟨u, hu, rfl⟩ := map_eq_ok_iff.1 ht
    exact map_eq_ok_iff.2 ⟨u, run_applyHeaders_eq_ok_of_abort hu, rfl⟩

theorem chainFailure?_cons_eq_none_iff {n : UInt64} :
    chainFailure? (Word.next? n) (h :: rest) = none ↔
      h.number.toNat = n.toNat + 1 ∧ chainFailure? (Word.next? h.number) rest = none := by
  rw [chainFailure?, ← Word.next?_eq_some_iff]
  split
  · rename_i hn
    exact (and_iff_right hn).symm
  · rename_i hn
    simp [hn]

/-- Where the headers follow on the block, the snapshot they lead to is numbered after the last one
    and takes its hash. -/
theorem apply_of_chain (hne : headers ≠ [])
    (hchain : chainFailure? (Word.next? s.number) headers = none) :
    s.apply recover headers = (headers.foldlM (process recover) s).map fun u =>
      u.relabel (s.number + UInt64.ofNat headers.length) (headers.getLast hne).hash := by
  rw [apply_of_ne_nil recover s hne, hchain]
  cases hu : headers.foldlM (process recover) s with
  | error e => rfl
  | ok u =>
    rw [← number_of_foldlM_process hu]
    rfl

/-- A replay ends in the snapshot numbered after the last header, whose hash it takes. -/
theorem apply_eq_ok_iff (hne : headers ≠ []) :
    s.apply recover headers = .ok t ↔
      chainFailure? (Word.next? s.number) headers = none ∧
        ∃ u, headers.foldlM (process recover) s = .ok u ∧
          t = u.relabel (s.number + UInt64.ofNat headers.length) (headers.getLast hne).hash := by
  cases hchain : chainFailure? (Word.next? s.number) headers with
  | some failure => simp [apply_of_ne_nil recover s hne, hchain]
  | none => simp only [apply_of_chain hne hchain, map_eq_ok_iff, true_and, eq_comm (a := t)]

/-- One header that has the next number is processed, and the result is labelled with it. -/
theorem apply_singleton (hn : h.number.toNat = s.number.toNat + 1) :
    s.apply recover [h] = (process recover s h).map (·.relabel h.number h.hash) := by
  have hchain : chainFailure? (Word.next? s.number) [h] = none :=
    chainFailure?_cons_eq_none_iff.2 ⟨hn, rfl⟩
  rw [apply_of_chain (List.cons_ne_nil h []) hchain, List.foldlM_cons, Word.eq_add_one hn]
  simp only [List.foldlM_nil, bind_pure]
  rfl

/-- One header is replayed if it has the next number, its signer is found, and the block is
    accepted. -/
theorem apply_singleton_eq_ok_iff :
    s.apply recover [h] = .ok t ↔
      h.number.toNat = s.number.toNat + 1 ∧
        ∃ u, process recover s h = .ok u ∧ t = u.relabel h.number h.hash := by
  rw [apply_eq_ok_iff (List.cons_ne_nil h []), chainFailure?_cons_eq_none_iff]
  simp only [chainFailure?, and_true, List.foldlM_cons, List.foldlM_nil, bind_pure,
    List.length_singleton, List.getLast_singleton]
  refine and_congr_right fun hn => ?_
  have hnum : s.number + UInt64.ofNat 1 = h.number := (Word.eq_add_one hn).symm
  rw [hnum]

/-- Headers that follow on the block are replayed one after the other, each on the snapshot of the
    block before, and the first failure among them is that of the replay. -/
theorem apply_cons (hchain : chainFailure? (Word.next? s.number) (h :: rest) = none) :
    s.apply recover (h :: rest) = s.apply recover [h] >>= fun m => m.apply recover rest := by
  by_cases hne : rest = []
  · subst hne
    exact (bind_pure _).symm
  obtain ⟨hn, hrest⟩ := chainFailure?_cons_eq_none_iff.1 hchain
  have hlen : h.number + UInt64.ofNat rest.length =
      s.number + UInt64.ofNat (h :: rest).length := by
    rw [Word.eq_add_one hn, List.length_cons, UInt64.add_assoc, Nat.add_comm, UInt64.ofNat_add]
    rfl
  rw [apply_of_chain (List.cons_ne_nil h rest) hchain, List.getLast_cons hne, List.foldlM_cons,
    apply_singleton hn, ← hlen]
  cases process recover s h with
  | error e => rfl
  | ok w =>
    -- The rest goes on from the snapshot numbered after the first header, or from the same one
    -- numbered as before: in the end both are numbered after the last header.
    change _ = (w.relabel h.number h.hash).apply recover rest
    rw [apply_of_chain hne hrest, foldlM_process_relabel]
    change (rest.foldlM (process recover) w).map _ = _
    cases rest.foldlM (process recover) w <;> rfl

/-- A replay is one header after the other, each on the snapshot of the block before. -/
theorem apply_cons_eq_ok_iff :
    s.apply recover (h :: rest) = .ok t ↔
      ∃ m, s.apply recover [h] = .ok m ∧ m.apply recover rest = .ok t := by
  by_cases hchain : chainFailure? (Word.next? s.number) (h :: rest) = none
  · rw [apply_cons hchain, bind_eq_ok_iff]
  constructor
  · intro ht
    exact absurd ((apply_eq_ok_iff (List.cons_ne_nil h rest)).1 ht).1 hchain
  · -- Where the rest goes on from the block of the first header, it follows on it.
    rintro ⟨m, hm, ht⟩
    obtain ⟨hn, u, -, rfl⟩ := apply_singleton_eq_ok_iff.1 hm
    refine absurd (chainFailure?_cons_eq_none_iff.2 ⟨hn, ?_⟩) hchain
    by_cases hne : rest = []
    · rw [hne]
      rfl
    · exact ((apply_eq_ok_iff hne).1 ht).1

end Replay

end Snapshot

end SignerVoting
