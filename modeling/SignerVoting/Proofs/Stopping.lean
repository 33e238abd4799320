import SignerVoting.Proofs.Batches

/-!
# Stopped replays

A replay looks before each header whether it is to stop, and stops at the first header where it is.
The headers before that one are then replayed as if there were no others: if one of them is refused,
the replay is refused for the same reason, and never sees that it is to stop.

* `applyWithAbort_of_forall`: a replay that is not to stop before any of its headers is not stopped;
* `applyWithAbort_of_abort`: a replay that is stopped replays the headers before, and fails.
-/

namespace SignerVoting

namespace Snapshot

variable {recover : Header → Except Failure Address} {abort : Nat → Bool}
  {s t : Snapshot} {processed i : Nat} {headers : List Header}

/-! ## What is seen before the headers -/

section Replay

variable {m : Type → Type} [Monad m] {resolve : Resolver m}

/-- A replay that is not to stop before any of its headers is one that cannot be stopped. -/
theorem applyHeaders_of_forall (h : ∀ i < headers.length, abort (processed + i) = false) :
    applyHeaders resolve abort processed s headers =
      applyHeaders resolve (fun _ => false) processed s headers := by
  induction headers generalizing processed s with
  | nil => rfl
  | cons header rest ih =>
    have hfirst : abort processed = false := h 0 (Nat.zero_lt_succ _)
    have hrest : ∀ i < rest.length, abort (processed + 1 + i) = false := by
      intro i hi
      rw [Nat.add_assoc, Nat.add_comm 1]
      exact h (i + 1) (Nat.succ_lt_succ hi)
    simp only [applyHeaders, hfirst, ih hrest]

/-- A replay that is to stop before a header replays those before it, and stops. -/
theorem applyHeaders_of_abort [LawfulMonad m] (hi : i < headers.length)
    (habort : abort (processed + i) = true) :
    applyHeaders resolve abort processed s headers =
      applyHeaders resolve abort processed s (headers.take i) >>= fun _ =>
        throw (.aborted (processed + i)) := by
  have hsplit : headers = headers.take i ++ headers[i] :: headers.drop (i + 1) := by
    rw [List.getElem_cons_drop, List.take_append_drop]
  have hlength : (headers.take i).length = i := List.length_take_of_le (Nat.le_of_lt hi)
  conv_lhs => rw [hsplit, applyHeaders_append, hlength]
  simp only [applyHeaders, habort, if_true]

end Replay

/-! ## Refused for a number -/

theorem exists_eq_brokenChain {expected : Option UInt64} {failure : Failure}
    (h : chainFailure? expected headers = some failure) :
    ∃ wanted found, failure = .brokenChain wanted found := by
  induction headers generalizing expected with
  | nil => cases h
  | cons header rest ih =>
    rw [chainFailure?] at h
    split at h
    · exact ih h
    · exact ⟨_, _, (Option.some.inj h).symm⟩

/-- The numbers are looked at before the headers, also before whether to stop. -/
theorem exists_eq_error_brokenChain (recover : Header → Except Failure Address)
    (hf : ¬FollowOn s.number headers) :
    ∃ wanted found, ∀ abort,
      s.applyWithAbort recover abort headers = .error (.brokenChain wanted found) := by
  have hne : headers ≠ [] := by
    rintro rfl
    exact hf rfl
  cases hchain : chainFailure? (Word.next? s.number) headers with
  | none => exact absurd (chainFailure?_eq_none_iff.1 hchain) hf
  | some failure =>
    obtain ⟨wanted, found, rfl⟩ := exists_eq_brokenChain hchain
    refine ⟨wanted, found, fun abort => ?_⟩
    rw [applyWithAbort_of_ne_nil recover abort s hne, hchain]

/-! ## Stopped at a header -/

theorem FollowOn.take {n : UInt64} (hf : FollowOn n headers) (i : Nat) :
    FollowOn n (headers.take i) := by
  rw [← List.take_append_drop i headers] at hf
  exact hf.left

/-- Whether headers that follow on are replayed, or for what reason not, is told by processing
    them. -/
theorem apply_bind_const {α : Type} (hf : FollowOn s.number headers) (next : Except Failure α) :
    (s.apply recover headers >>= fun _ => next) =
      headers.foldlM (process recover) s >>= fun _ => next := by
  by_cases hne : headers = []
  · rw [hne]
    rfl
  rw [apply_of_chain hne (chainFailure?_eq_none_iff.2 hf)]
  cases headers.foldlM (process recover) s <;> rfl

/-- A replay of headers that follow on is stopped at the first header where it is to stop, unless
    one of those before it is refused. -/
theorem applyWithAbort_of_abort (hf : FollowOn s.number headers) (hi : i < headers.length)
    (habort : abort i = true) (hbefore : ∀ j < i, abort j = false) :
    s.applyWithAbort recover abort headers =
      s.apply recover (headers.take i) >>= fun _ => .error (.aborted i) := by
  have hne : headers ≠ [] := List.ne_nil_of_length_pos (Nat.zero_lt_of_lt hi)
  have hunseen : ∀ j < (headers.take i).length, abort (0 + j) = false := by
    intro j hj
    rw [Nat.zero_add]
    exact hbefore j (Nat.lt_of_lt_of_le hj (List.length_take_le i headers))
  rw [applyWithAbort_of_ne_nil recover abort s hne, chainFailure?_eq_none_iff.2 hf,
    apply_bind_const (hf.take i)]
  dsimp only
  rw [applyHeaders_of_abort hi (by rwa [Nat.zero_add]), applyHeaders_of_forall hunseen,
    ExceptT.run_bind, run_applyHeaders, Nat.zero_add]
  cases (headers.take i).foldlM (process recover) s <;> rfl

theorem applyWithAbort_of_forall (h : ∀ i < headers.length, abort i = false) :
    s.applyWithAbort recover abort headers = s.apply recover headers := by
  by_cases hne : headers = []
  · rw [hne]
    rfl
  have hunseen : ∀ i < headers.length, abort (0 + i) = false := by
    simpa only [Nat.zero_add] using h
  rw [applyWithAbort_of_ne_nil recover abort s hne, applyHeaders_of_forall hunseen,
    ← applyWithAbort_of_ne_nil recover _ s hne]
  rfl

/-- A replay that can be stopped leaves the snapshot as it is if there are no headers, and is
    refused for the numbers of the headers, stopped or not. Where they follow on it is one that
    cannot be stopped, unless it is to stop before one of them. At the first such header it is
    stopped if the headers before can be replayed, and else refused for the reason for which they
    are. It never gives a snapshot but that of the last header. -/
theorem applyWithAbort_eq (recover : Header → Except Failure Address) (abort : Nat → Bool)
    (s : Snapshot) (headers : List Header) :
    (headers = [] → s.applyWithAbort recover abort headers = .ok s) ∧
    (¬FollowOn s.number headers → ∃ wanted found,
      s.applyWithAbort recover abort headers = .error (.brokenChain wanted found) ∧
        s.apply recover headers = .error (.brokenChain wanted found)) ∧
    (FollowOn s.number headers →
      ((∀ i < headers.length, abort i = false) →
        s.applyWithAbort recover abort headers = s.apply recover headers) ∧
      ∀ i < headers.length, abort i = true → (∀ j < i, abort j = false) →
        (∀ t, s.apply recover (headers.take i) = .ok t →
          s.applyWithAbort recover abort headers = .error (.aborted i)) ∧
        ∀ e, s.apply recover (headers.take i) = .error e →
          s.applyWithAbort recover abort headers = .error e) ∧
    ∀ t, s.applyWithAbort recover abort headers = .ok t → s.apply recover headers = .ok t := by
  refine ⟨?_, fun hf => ?_, fun hf => ⟨applyWithAbort_of_forall, ?_⟩,
    fun t => apply_eq_ok_of_applyWithAbort⟩
  · rintro rfl
    rfl
  · obtain ⟨wanted, found, hall⟩ := exists_eq_error_brokenChain recover hf
    exact ⟨wanted, found, hall abort, hall fun _ => false⟩
  · intro i hi habort hbefore
    rw [applyWithAbort_of_abort hf hi habort hbefore]
    refine ⟨fun t ht => ?_, fun e he => ?_⟩
    · rw [ht]
      rfl
    · rw [he]
      rfl

/-- A replay of two headers is to stop before the second one. It is stopped there if the first one
    is sealed by a signer, and refused for the first one otherwise. -/
theorem applyWithAbort_eq_second :
    ∃ (s : Snapshot) (first refused second : Header),
      FollowOn s.number [first, second] ∧ FollowOn s.number [refused, second] ∧
        s.applyWithAbort declared (fun i => i % 2 = 1) [first, second] = .error (.aborted 1) ∧
          s.applyWithAbort declared (fun i => i % 2 = 1) [refused, second] =
            .error (.unauthorizedSigner (.ofLow64 3)) := by
  let s := genesis {} [.ofLow64 1, .ofLow64 2]
  let first := Header.declaring (.ofLow64 1) 1 .authorize (.ofLow64 4)
  let refused := Header.declaring (.ofLow64 3) 1 .authorize (.ofLow64 4)
  let second := Header.declaring (.ofLow64 2) 2 .authorize (.ofLow64 4)
  have hf : FollowOn s.number [first, second] := by decide
  have hf' : FollowOn s.number [refused, second] := by decide
  obtain ⟨t, ht, -⟩ := exists_eq_ok_of_any (x := s.apply declared [first]) (p := fun _ => true)
    (by decide +kernel)
  have hrefused : s.apply declared [refused] = .error (.unauthorizedSigner (.ofLow64 3)) := by
    decide +kernel
  have hstopped := ((applyWithAbort_eq declared (fun i => i % 2 = 1) s [first, second]).2.2.1 hf).2
    1 (by decide) (by decide) (by decide)
  have hfirst := ((applyWithAbort_eq declared (fun i => i % 2 = 1) s [refused, second]).2.2.1 hf').2
    1 (by decide) (by decide) (by decide)
  exact ⟨s, first, refused, second, hf, hf', hstopped.1 t ht, hfirst.2 _ hrefused⟩

end Snapshot

end SignerVoting
