import SignerVoting.Proofs.Runs
import SignerVoting.Proofs.Stopping

/-!
# Numbers of headers

The headers of a replay are to be numbered one after the other from the block of the snapshot on. A
header with another number is *out of place* (`OutOfPlace`). The numbers are looked at before
anything else, so that a replay is refused for the first header out of place, whatever is wrong with
those before it, and whether or not it is to stop there. The number that was expected is held at the
greatest word: behind the last block that can be numbered, no header has a place.

Where every header is in its place, the replay comes to one after the other (`Reaches`), and is not
refused for a number any more, unless that is what the search for a signer answers.

* `followOn_iff`: the check passes if no header is out of place;
* `chainFailure?_of_outOfPlace`: it fails at the first one that is;
* `run_applyHeaders_eq_brokenChain_iff`: what is left of the failure behind the check;
* `refusesNumber_applyWithAbort_iff`: when a replay is refused for a number.
-/

namespace SignerVoting

theorem bind_eq_error_iff {ε α β : Type} {x : Except ε α} {f : α → Except ε β} {e : ε} :
    x >>= f = .error e ↔ x = .error e ∨ ∃ a, x = .ok a ∧ f a = .error e := by
  cases x <;> simp [bind, Except.bind]

theorem map_eq_error_iff {ε α β : Type} {x : Except ε α} {f : α → β} {e : ε} :
    x.map f = .error e ↔ x = .error e := by
  cases x <;> simp [Except.map]

namespace Snapshot

variable {recover : Header → Except Failure Address} {abort : Nat → Bool} {s t : Snapshot}
  {n : UInt64} {signer : Address} {h : Header} {headers rest : List Header} {i processed : Nat}
  {expected found : UInt64}

/-- Whether the answer is that a header does not follow the one before it. -/
def RefusesNumber {α : Type} (answer : Except Failure α) : Prop :=
  ∃ expected found, answer = .error (.brokenChain expected found)

/-! ## Headers out of place -/

/-- Whether the header at a position does not have the number that it should have behind the block
    of number `n`. -/
def OutOfPlace (n : UInt64) (headers : List Header) (i : Nat) : Prop :=
  ∃ h, headers[i]? = some h ∧ h.number.toNat ≠ n.toNat + 1 + i

theorem outOfPlace_cons_zero : OutOfPlace n (h :: rest) 0 ↔ h.number.toNat ≠ n.toNat + 1 := by
  simp [OutOfPlace]

/-- Behind a header in its place, the others have theirs as behind its block. -/
theorem outOfPlace_cons_succ (hn : h.number.toNat = n.toNat + 1) :
    OutOfPlace n (h :: rest) (i + 1) ↔ OutOfPlace h.number rest i := by
  rw [OutOfPlace, OutOfPlace, hn, List.getElem?_cons_succ, Nat.add_assoc (n.toNat + 1) 1 i,
    Nat.add_comm 1 i]

theorem followOn_iff : FollowOn n headers ↔ ∀ i, ¬OutOfPlace n headers i := by
  induction headers generalizing n with
  | nil => exact iff_of_true rfl fun i ⟨_, hi, _⟩ => nomatch hi
  | cons h rest ih =>
    rw [followOn_cons_iff, ih]
    constructor
    · rintro ⟨hn, hrest⟩ (_ | i)
      · exact fun hout => outOfPlace_cons_zero.1 hout hn
      · exact fun hout => hrest i ((outOfPlace_cons_succ hn).1 hout)
    · intro hall
      have hn : h.number.toNat = n.toNat + 1 := by
        by_contra hne
        exact hall 0 (outOfPlace_cons_zero.2 hne)
      exact ⟨hn, fun i hout => hall (i + 1) ((outOfPlace_cons_succ hn).2 hout)⟩

/-- The check fails at the first header that is out of place. -/
theorem chainFailure?_of_outOfPlace (hi : headers[i]? = some h)
    (hne : h.number.toNat ≠ n.toNat + 1 + i) (hfirst : ∀ j < i, ¬OutOfPlace n headers j) :
    ∃ expected : UInt64, expected.toNat = min (n.toNat + 1 + i) (UInt64.size - 1) ∧
      chainFailure? (Word.next? n) headers = some (.brokenChain expected h.number) := by
  induction headers generalizing n i with
  | nil => cases hi
  | cons g rest ih =>
    rcases i with _ | i
    · obtain rfl : g = h := Option.some.inj hi
      refine ⟨(Word.next? n).getD Word.greatest, Word.toNat_getD_next? n, ?_⟩
      rw [chainFailure?, if_neg]
      rwa [Word.next?_eq_some_iff]
    · -- The first header is in its place, and the others are checked from there.
      have hn : g.number.toNat = n.toNat + 1 := by
        by_contra hout
        exact hfirst 0 (Nat.zero_lt_succ i) (outOfPlace_cons_zero.2 hout)
      have hplace : n.toNat + 1 + (i + 1) = g.number.toNat + 1 + i := by omega
      rw [hplace] at hne ⊢
      obtain ⟨expected, hexpected, hfailure⟩ := ih hi hne fun j hj hout =>
        hfirst (j + 1) (Nat.succ_lt_succ hj) ((outOfPlace_cons_succ hn).2 hout)
      refine ⟨expected, hexpected, ?_⟩
      rwa [chainFailure?, if_pos (Word.next?_eq_some_iff.2 hn)]

/-- A replay is refused for the first header out of place, whether or not it is to stop. -/
theorem applyWithAbort_of_outOfPlace (hi : headers[i]? = some h)
    (hne : h.number.toNat ≠ s.number.toNat + 1 + i)
    (hfirst : ∀ j < i, ¬OutOfPlace s.number headers j) :
    ∃ expected : UInt64, expected.toNat = min (s.number.toNat + 1 + i) (UInt64.size - 1) ∧
      ∀ abort, s.applyWithAbort recover abort headers =
        .error (.brokenChain expected h.number) := by
  obtain ⟨expected, hexpected, hfailure⟩ := chainFailure?_of_outOfPlace hi hne hfirst
  refine ⟨expected, hexpected, fun abort => ?_⟩
  have hnil : headers ≠ [] := List.ne_nil_of_mem (List.mem_of_getElem? hi)
  rw [applyWithAbort_of_ne_nil recover abort s hnil, hfailure]

/-! ## Headers in their places -/

theorem acceptBlock_ne_brokenChain :
    s.acceptBlock signer h ≠ .error (.brokenChain expected found) := by
  rw [acceptBlock]
  split
  · simp
  split
  · simp
  rw [vote]
  split <;> simp

/-- A header is not refused for its number, unless the search for its signer answers so. -/
theorem process_eq_brokenChain_iff :
    process recover s h = .error (.brokenChain expected found) ↔
      recover h = .error (.brokenChain expected found) := by
  rw [process, bind_eq_error_iff]
  simp [acceptBlock_ne_brokenChain]

/-- A replay comes to its first header, and goes on from there with the others. -/
theorem run_applyHeaders_cons :
    (applyHeaders recover abort processed s (h :: rest) : ExceptT Failure Id Snapshot).run =
      if abort processed then .error (.aborted processed)
      else process recover s h >>= fun u =>
        (applyHeaders recover abort (processed + 1) u rest : ExceptT Failure Id Snapshot).run := by
  rw [applyHeaders]
  split
  · rfl
  · rw [ExceptT.run_bind, run_applyHeader]
    cases process recover s h <;> rfl

/-- Behind the check, a replay is refused for a number only if it comes to a header for which the
    search for the signer answers so. -/
theorem run_applyHeaders_eq_brokenChain_iff :
    (applyHeaders recover abort processed s headers : ExceptT Failure Id Snapshot).run =
        .error (.brokenChain expected found) ↔
      ∃ i h, headers[i]? = some h ∧ recover h = .error (.brokenChain expected found) ∧
        (∀ j < i + 1, abort (processed + j) = false) ∧
          ∃ u, (headers.take i).foldlM (process recover) s = .ok u := by
  induction headers generalizing processed s with
  | nil => exact iff_of_false nofun fun ⟨_, _, hi, _⟩ => nomatch hi
  | cons g rest ih =>
    rw [run_applyHeaders_cons, ← Nat.or_exists_add_one]
    cases hgo : abort processed with
    | true =>
      -- It stops before the first header.
      refine iff_of_false nofun ?_
      rintro (⟨h, -, -, hunseen, -⟩ | ⟨i, h, -, -, hunseen, -⟩) <;>
      · have hfirst := hunseen 0 (Nat.zero_lt_succ _)
        rw [Nat.add_zero, hgo] at hfirst
        cases hfirst
    | false =>
      rw [if_neg Bool.false_ne_true, bind_eq_error_iff, process_eq_brokenChain_iff]
      refine or_congr ?_ ?_
      · have hnone : ∃ u, [].foldlM (process recover) s = .ok u := ⟨s, rfl⟩
        simp only [List.getElem?_cons_zero, List.take_zero, hnone]
        simp [hgo]
      · simp only [ih, List.take_succ_cons, List.foldlM_cons, bind_eq_ok_iff]
        constructor
        · rintro ⟨u, hu, i, h, hi, hr, hunseen, v, hv⟩
          refine ⟨i, h, hi, hr, Nat.forall_lt_succ_left.2 ⟨hgo, fun j hj => ?_⟩, v, u, hu, hv⟩
          rw [← hunseen j hj, Nat.add_right_comm]
          rfl
        · rintro ⟨i, h, hi, hr, hunseen, v, u, hu, hv⟩
          refine ⟨u, hu, i, h, hi, hr, fun j hj => ?_, v, hv⟩
          rw [← hunseen (j + 1) (Nat.succ_lt_succ hj), Nat.add_right_comm]
          rfl

/-- Whether a replay comes to the header at a position: it is not to stop before that one or an
    earlier one, and the earlier ones can be replayed. -/
def Reaches (recover : Header → Except Failure Address) (abort : Nat → Bool) (s : Snapshot)
    (headers : List Header) (i : Nat) : Prop :=
  (∀ j ≤ i, abort j = false) ∧ ∃ t, s.apply recover (headers.take i) = .ok t

/-- Headers in their places can be replayed if they can be processed. -/
theorem exists_apply_eq_ok_iff (hf : FollowOn s.number headers) :
    (∃ t, s.apply recover headers = .ok t) ↔
      ∃ u, headers.foldlM (process recover) s = .ok u := by
  by_cases hnil : headers = []
  · subst hnil
    exact iff_of_true ⟨s, rfl⟩ ⟨s, rfl⟩
  · simp [apply_of_chain hnil (chainFailure?_eq_none_iff.2 hf), map_eq_ok_iff]

/-- A replay of headers in their places is refused for a number only if it comes to one for which
    the search for the signer answers so. -/
theorem applyWithAbort_eq_brokenChain_iff (hf : FollowOn s.number headers) :
    s.applyWithAbort recover abort headers = .error (.brokenChain expected found) ↔
      ∃ i h, headers[i]? = some h ∧ Reaches recover abort s headers i ∧
        recover h = .error (.brokenChain expected found) := by
  by_cases hnil : headers = []
  · subst hnil
    exact iff_of_false nofun fun ⟨_, _, hi, _⟩ => nomatch hi
  rw [applyWithAbort_of_ne_nil recover abort s hnil, chainFailure?_eq_none_iff.2 hf]
  refine map_eq_error_iff.trans (run_applyHeaders_eq_brokenChain_iff.trans ?_)
  simp only [Reaches, exists_apply_eq_ok_iff (hf.take _), Nat.zero_add, Nat.lt_succ_iff]
  exact exists_congr fun i => exists_congr fun h => and_congr_right fun _ => and_comm

/-! ## The law of numbers -/

theorem toNat_number_of_apply (ht : s.apply recover headers = .ok t) :
    t.number.toNat = s.number.toNat + headers.length := by
  obtain ⟨blocks, hr, rfl, -⟩ := apply_eq_ok_iff_run.1 ht
  rw [List.length_map, hr.number_eq]

/-- A replay is refused for a number exactly if a header is out of place, or it comes to one for
    which the search for the signer answers so. -/
theorem refusesNumber_applyWithAbort_iff (recover : Header → Except Failure Address)
    (abort : Nat → Bool) (s : Snapshot) (headers : List Header) :
    RefusesNumber (s.applyWithAbort recover abort headers) ↔
      (∃ i, OutOfPlace s.number headers i) ∨
        ∃ i h, headers[i]? = some h ∧ Reaches recover abort s headers i ∧
          RefusesNumber (recover h) := by
  by_cases hf : FollowOn s.number headers
  · rw [or_iff_right (not_exists.2 (followOn_iff.1 hf))]
    simp only [RefusesNumber, applyWithAbort_eq_brokenChain_iff hf]
    constructor
    · rintro ⟨expected, found, i, h, hi, hreach, hr⟩
      exact ⟨i, h, hi, hreach, expected, found, hr⟩
    · rintro ⟨i, h, hi, hreach, expected, found, hr⟩
      exact ⟨expected, found, i, h, hi, hreach, hr⟩
  · obtain ⟨expected, found, hall⟩ := exists_eq_error_brokenChain recover hf
    rw [followOn_iff, not_forall_not] at hf
    exact iff_of_true ⟨expected, found, hall abort⟩ (.inl hf)

/-- A search for signers that never answers so leaves the headers out of place. -/
theorem refusesNumber_applyWithAbort_iff_exists_outOfPlace
    (hrecover : ∀ h, ¬RefusesNumber (recover h)) (abort : Nat → Bool) (s : Snapshot)
    (headers : List Header) :
    RefusesNumber (s.applyWithAbort recover abort headers) ↔
      ∃ i, OutOfPlace s.number headers i := by
  rw [refusesNumber_applyWithAbort_iff, or_iff_left]
  rintro ⟨_, h, -, -, hr⟩
  exact hrecover h hr

/-- A replay is refused for the first header out of place, with the number that it should have, held
    at the greatest word, and the number that it has: whatever the signers of the headers before it
    are, and whether or not the replay is to stop at one of them. If every header is in its place,
    it is not refused for a number: the search for a signer would have to answer so itself, for a
    header that the replay comes to. A replay that is not refused leads to the number and the hash
    of the last header, which is as many blocks after the snapshot as there are headers. -/
theorem refused_iff_outOfPlace (recover : Header → Except Failure Address) (s : Snapshot)
    (headers : List Header) :
    (∀ i h, headers[i]? = some h → h.number.toNat ≠ s.number.toNat + 1 + i →
      (∀ j < i, ¬OutOfPlace s.number headers j) →
        ∃ expected : UInt64, expected.toNat = min (s.number.toNat + 1 + i) (UInt64.size - 1) ∧
          s.apply recover headers = .error (.brokenChain expected h.number) ∧
          ∀ abort, s.applyWithAbort recover abort headers =
            .error (.brokenChain expected h.number)) ∧
    ((∀ h, ¬RefusesNumber (recover h)) →
      (RefusesNumber (s.apply recover headers) ↔ ∃ i, OutOfPlace s.number headers i) ∧
      ∀ abort, RefusesNumber (s.applyWithAbort recover abort headers) ↔
        ∃ i, OutOfPlace s.number headers i) ∧
    ((RefusesNumber (s.apply recover headers) ↔
        (∃ i, OutOfPlace s.number headers i) ∨
          ∃ i h, headers[i]? = some h ∧ Reaches recover (fun _ => false) s headers i ∧
            RefusesNumber (recover h)) ∧
      ∀ abort, RefusesNumber (s.applyWithAbort recover abort headers) ↔
        (∃ i, OutOfPlace s.number headers i) ∨
          ∃ i h, headers[i]? = some h ∧ Reaches recover abort s headers i ∧
            RefusesNumber (recover h)) ∧
    ∀ (hne : headers ≠ []) t, s.apply recover headers = .ok t →
      t.number = (headers.getLast hne).number ∧
        t.number.toNat = s.number.toNat + headers.length ∧
          t.hash = (headers.getLast hne).hash := by
  refine ⟨fun i h hi hne hfirst => ?_, fun hrecover => ?_, ?_, fun hne t ht => ?_⟩
  · obtain ⟨expected, hexpected, hall⟩ := applyWithAbort_of_outOfPlace hi hne hfirst
    exact ⟨expected, hexpected, hall fun _ => false, hall⟩
  · have hiff (abort : Nat → Bool) :=
      refusesNumber_applyWithAbort_iff_exists_outOfPlace hrecover abort s headers
    exact ⟨hiff fun _ => false, hiff⟩
  · have hiff (abort : Nat → Bool) := refusesNumber_applyWithAbort_iff recover abort s headers
    exact ⟨hiff fun _ => false, hiff⟩
  · obtain ⟨hnumber, hhash⟩ := label_of_apply hne ht
    exact ⟨hnumber, toNat_number_of_apply ht, hhash⟩

/-- One block can be numbered yet, and a second header is numbered from zero again. The replay is
    refused for it, although a stranger has sealed the first one, and although it is to stop before
    that. The first one alone is not refused for its number, and if the signer has sealed it, it can
    be replayed. -/
theorem refused_iff_outOfPlace_wrapped :
    ∃ (s t : Snapshot) (stranger first second : Header),
      second.number = 0 ∧
      s.apply declared [stranger, second] = .error (.brokenChain Word.greatest 0) ∧
      s.applyWithAbort declared (fun _ => true) [stranger, second] =
        .error (.brokenChain Word.greatest 0) ∧
      ¬RefusesNumber (s.apply declared [stranger]) ∧
      s.apply declared [first] = .ok t ∧ t.number = Word.greatest := by
  let s := ofSigners {} (Word.greatest - 1) (.replicate 32 0) [.ofLow64 1]
  let stranger := Header.declaring (.ofLow64 2) Word.greatest .authorize (.ofLow64 3)
  let first := Header.declaring (.ofLow64 1) Word.greatest .authorize (.ofLow64 3)
  let second := Header.declaring (.ofLow64 1) 0 .authorize (.ofLow64 3)
  obtain ⟨t, ht, -⟩ := exists_eq_ok_of_any (x := s.apply declared [first]) (p := fun _ => true)
    (by decide +kernel)
  have hin (rest : List Header) : ¬OutOfPlace s.number (stranger :: rest) 0 := by
    rw [outOfPlace_cons_zero]
    decide
  have hdeclared (h : Header) : ¬RefusesNumber (declared h) := by
    rw [declared]
    cases h.declaredSigner <;> simp [RefusesNumber, Except.mapError]
  obtain ⟨expected, hexpected, hrefused, hall⟩ :=
    (refused_iff_outOfPlace declared s [stranger, second]).1 1 second rfl (by decide)
      fun j hj => Nat.lt_one_iff.1 hj ▸ hin [second]
  obtain rfl : expected = Word.greatest := UInt64.toNat_inj.1 hexpected
  have hplace := ((refused_iff_outOfPlace declared s [stranger]).2.1 hdeclared).1
  have hkept : ¬RefusesNumber (s.apply declared [stranger]) := by
    rw [hplace]
    rintro ⟨_ | i, hout⟩
    · exact hin [] hout
    · obtain ⟨_, hi, -⟩ := hout
      cases hi
  have hnumber := ((refused_iff_outOfPlace declared s [first]).2.2.2 (by simp) t ht).1
  exact ⟨s, t, stranger, first, second, rfl, hrefused, hall _, hkept, ht, hnumber⟩

/-- A search for signers may answer itself that a number is wrong. Then a replay of a header in its
    place is refused for its number. -/
theorem not_forall_refusesNumber_iff_outOfPlace :
    ¬∀ (recover : Header → Except Failure Address) (s : Snapshot) (headers : List Header),
      headers ≠ [] →
        (RefusesNumber (s.apply recover headers) ↔ ∃ i, OutOfPlace s.number headers i) := by
  intro hall
  let recover (_ : Header) : Except Failure Address := .error (.brokenChain 7 9)
  let s := ofSigners {} 0 (.replicate 32 0) [.ofLow64 1]
  let h := Header.declaring (.ofLow64 1) 1 .authorize (.ofLow64 2)
  have hinPlace : FollowOn s.number [h] := by decide
  have hreach : Reaches recover (fun _ => false) s [h] 0 := ⟨fun _ _ => rfl, s, rfl⟩
  have hrefused : RefusesNumber (s.apply recover [h]) :=
    (refusesNumber_applyWithAbort_iff recover (fun _ => false) s [h]).2
      (.inr ⟨0, h, rfl, hreach, 7, 9, rfl⟩)
  obtain ⟨i, hout⟩ := (hall recover s [h] (List.cons_ne_nil h [])).1 hrefused
  exact followOn_iff.1 hinPlace i hout

end Snapshot

end SignerVoting
