import Mathlib.Data.List.Basic
import SignerVoting.Proofs.Reachable

/-!
# Batches

Headers may be replayed in one batch or in several, one going on from where the other ended. A batch
looks at the numbers of all its headers first, works on one snapshot, and numbers that only at its
end. The result is the same however the headers are split.

So is the failure, where the headers follow on the block one after the other (`FollowOn`). Where
they do not, a longer batch is refused for a number before any signer of it is looked for.

* `chainFailure?_eq_none_iff`: the check of the numbers passes exactly then;
* `apply_append_of_followOn`: then two parts are one replay after the other, failures included.
-/

namespace SignerVoting

namespace Snapshot

variable {recover : Header → Except Failure Address} {s t : Snapshot} {n : UInt64}
  {headers first second : List Header}

/-- The headers are numbered one after the other, from the block after that of number `n` on. -/
def FollowOn (n : UInt64) (headers : List Header) : Prop :=
  headers.map (fun h => h.number.toNat) = List.range' (n.toNat + 1) headers.length

instance (n : UInt64) (headers : List Header) : Decidable (FollowOn n headers) :=
  inferInstanceAs (Decidable (_ = _))

theorem followOn_cons_iff {h : Header} :
    FollowOn n (h :: headers) ↔ h.number.toNat = n.toNat + 1 ∧ FollowOn h.number headers := by
  rw [FollowOn, List.map_cons, List.length_cons, List.range'_succ, List.cons.injEq]
  refine and_congr_right fun hn => ?_
  rw [FollowOn, hn]

theorem chainFailure?_eq_none_iff :
    chainFailure? (Word.next? n) headers = none ↔ FollowOn n headers := by
  induction headers generalizing n with
  | nil => exact iff_of_true rfl rfl
  | cons h headers ih => rw [chainFailure?_cons_eq_none_iff, followOn_cons_iff, ih]

theorem FollowOn.left (h : FollowOn n (first ++ second)) : FollowOn n first := by
  induction first generalizing n with
  | nil => exact rfl
  | cons h first ih =>
    obtain ⟨hn, hrest⟩ := followOn_cons_iff.1 h
    exact followOn_cons_iff.2 ⟨hn, ih hrest⟩

/-- Headers that follow on a block end at a number that fits into a word. -/
theorem FollowOn.add_length_lt (hf : FollowOn n headers) :
    n.toNat + headers.length < UInt64.size := by
  induction headers generalizing n with
  | nil => exact n.toNat_lt
  | cons h rest ih =>
    obtain ⟨hn, hrest⟩ := followOn_cons_iff.1 hf
    have hlt := ih hrest
    rw [List.length_cons]
    omega

/-- A batch succeeds exactly if its two parts do, one on the result of the other. -/
theorem apply_append_eq_ok_iff :
    s.apply recover (first ++ second) = .ok t ↔
      ∃ m, s.apply recover first = .ok m ∧ m.apply recover second = .ok t := by
  induction first generalizing s with
  | nil => simp [apply_nil]
  | cons h first ih =>
    rw [List.cons_append, apply_cons_eq_ok_iff]
    simp only [ih]
    constructor
    · rintro ⟨u, hu, m, hm, ht⟩
      exact ⟨m, apply_cons_eq_ok_iff.2 ⟨u, hu, hm⟩, ht⟩
    · rintro ⟨m, hfirst, ht⟩
      obtain ⟨u, hu, hm⟩ := apply_cons_eq_ok_iff.1 hfirst
      exact ⟨u, hu, m, hm, ht⟩

/-- Headers that follow on the block are replayed one part after the other. -/
theorem apply_append_of_followOn (hf : FollowOn s.number (first ++ second)) :
    s.apply recover (first ++ second) = s.apply recover first >>= fun m =>
      m.apply recover second := by
  induction first generalizing s with
  | nil => rfl
  | cons h first ih =>
    -- The first header can be taken off both the whole batch and its first part.
    have hleft : FollowOn s.number (h :: first) := hf.left
    rw [List.cons_append] at hf
    rw [List.cons_append, apply_cons (chainFailure?_eq_none_iff.2 hf),
      apply_cons (chainFailure?_eq_none_iff.2 hleft), bind_assoc]
    cases hm : s.apply recover [h] with
    | error e => rfl
    | ok m =>
      obtain ⟨-, u, -, rfl⟩ := apply_singleton_eq_ok_iff.1 hm
      exact ih (followOn_cons_iff.1 hf).2

/-- A batch leads to the snapshot that its two parts lead to, one on the result of the other. If the
    headers follow on the block, it also fails for the reason that the first part fails for, or the
    second part on the result of the first. -/
theorem apply_append (recover : Header → Except Failure Address) (s : Snapshot)
    (first second : List Header) :
    (∀ t, s.apply recover (first ++ second) = .ok t ↔
      ∃ m, s.apply recover first = .ok m ∧ m.apply recover second = .ok t) ∧
    (FollowOn s.number (first ++ second) → ∀ e,
      s.apply recover (first ++ second) = .error e ↔
        s.apply recover first = .error e ∨
          ∃ m, s.apply recover first = .ok m ∧ m.apply recover second = .error e) := by
  refine ⟨fun t => apply_append_eq_ok_iff, fun hf e => ?_⟩
  rw [apply_append_of_followOn hf]
  cases s.apply recover first with
  | error e' => simp [bind, Except.bind]
  | ok m => simp [bind, Except.bind]

/-- The first of two signers seals two blocks on end, and the second one is refused, in a batch of
    its own as in one with the first. -/
theorem apply_append_refused :
    ∃ (s : Snapshot) (first second : List Header), FollowOn s.number (first ++ second) ∧
      s.apply declared (first ++ second) = .error (.recentlySigned (.ofLow64 1)) ∧
        ∃ m, s.apply declared first = .ok m ∧
          m.apply declared second = .error (.recentlySigned (.ofLow64 1)) := by
  let s := genesis {} [.ofLow64 1, .ofLow64 2]
  let first := [Header.declaring (.ofLow64 1) 1 .authorize (.ofLow64 3)]
  let second := [Header.declaring (.ofLow64 1) 2 .authorize (.ofLow64 4)]
  have hf : FollowOn s.number (first ++ second) := by decide
  have hrefused : s.apply declared (first ++ second) = .error (.recentlySigned (.ofLow64 1)) := by
    decide +kernel
  refine ⟨s, first, second, hf, hrefused, ?_⟩
  obtain hfirst | hsecond := ((apply_append declared s first second).2 hf _).1 hrefused
  · -- The first block alone is accepted.
    have hok : (s.apply declared first).toOption.isSome = true := by decide +kernel
    rw [hfirst] at hok
    cases hok
  · exact hsecond

end Snapshot

end SignerVoting
