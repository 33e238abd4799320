import SignerVoting.Recovery
import SignerVoting.Snapshot.Ballot

/-!
# Replay

A replay takes a snapshot through the headers that follow its block, one after the other, and gives
the snapshot of the last one, or the first failure. The numbers of all headers are looked at before
anything else. Between two headers a replay can be stopped.
-/

namespace SignerVoting

namespace Snapshot

/-! ## One header -/

/-- Drops all pending votes. -/
def discardVotes (s : Snapshot) : Snapshot :=
  { s with votes := [], tally := ∅, quorumVotes := [], quorumTally := ∅ }

/-- Whether pending votes are discarded on a block. With an epoch of zero they never are. -/
def isEpochStart (s : Snapshot) (number : UInt64) : Bool :=
  s.config.epoch ≠ 0 ∧ number % s.config.epoch = 0

/-- What a block does before its signer is known. -/
def openBlock (s : Snapshot) (number : UInt64) : Snapshot :=
  (if s.isEpochStart number then s.discardVotes else s).shrinkRecents number

/-- Whether an account is among those that sealed lately. -/
def isRecent (s : Snapshot) (signer : Address) : Bool :=
  s.recents.toList.any fun (_, recent) => recent = signer

/-- The vote of a header that the signer sealed. -/
def vote (s : Snapshot) (signer : Address) (h : Header) : Except Failure Snapshot :=
  match h.voteKind? with
  | some .authorize => .ok (s.voteOnAccount ⟨signer, h.number, h.coinbase, true⟩)
  | some .drop => .ok (s.voteOnAccount ⟨signer, h.number, h.coinbase, false⟩)
  | some .quorumPercent =>
    .ok (s.voteOnQuorum ⟨signer, h.number, h.coinbase, h.quorumProposal, true⟩)
  | none => .error (.invalidVote h.nonce)

/-- What a block does once its signer is known. -/
def acceptBlock (s : Snapshot) (signer : Address) (h : Header) : Except Failure Snapshot :=
  if !s.isSigner signer then .error (.unauthorizedSigner signer)
  else if s.isRecent signer then .error (.recentlySigned signer)
  else { s with recents := s.recents.insert h.number signer }.vote signer h

section Replay

variable {m : Type → Type} [Monad m]

/-- One header. The number and the hash of the snapshot stay. -/
def applyHeader (resolve : Resolver m) (s : Snapshot) (h : Header) :
    ExceptT Failure m Snapshot := do
  let s := s.openBlock h.number
  let signer ← resolve h
  ExceptT.mk (pure (s.acceptBlock signer h))

/-! ## Many headers -/

/-- The failure of the first header that does not have the number expected. -/
def chainFailure? : Option UInt64 → List Header → Option Failure
  | _, [] => none
  | expected, h :: rest =>
    if expected = some h.number then chainFailure? (Word.next? h.number) rest
    else some (.brokenChain (expected.getD Word.greatest) h.number)

/-- The headers one after the other, when so many have been processed. -/
def applyHeaders (resolve : Resolver m) (abort : Nat → Bool) (processed : Nat) (s : Snapshot) :
    List Header → ExceptT Failure m Snapshot
  | [] => return s
  | h :: rest =>
    if abort processed then throw (.aborted processed)
    else do
      let s ← applyHeader resolve s h
      applyHeaders resolve abort (processed + 1) s rest

/-- Headers in two parts are applied one part after the other. -/
theorem applyHeaders_append [LawfulMonad m] (resolve : Resolver m) (abort : Nat → Bool)
    (processed : Nat) (s : Snapshot) (headers more : List Header) :
    applyHeaders resolve abort processed s (headers ++ more) =
      applyHeaders resolve abort processed s headers >>= fun t =>
        applyHeaders resolve abort (processed + headers.length) t more := by
  induction headers generalizing s processed with
  | nil => simp [applyHeaders]
  | cons h headers ih =>
    have hk : processed + 1 + headers.length = processed + (h :: headers).length := by
      rw [List.length_cons, Nat.add_right_comm, Nat.add_assoc]
    simp only [List.cons_append, applyHeaders]
    split
    · apply ExceptT.ext
      simp
    · simp [ih, hk]

/-- The snapshot of the last header. `abort` tells, before each header, whether to stop. -/
def replay (resolve : Resolver m) (abort : Nat → Bool) (s : Snapshot) (headers : List Header) :
    ExceptT Failure m Snapshot :=
  match headers.getLast? with
  | none => return s
  | some last =>
    match chainFailure? (Word.next? s.number) headers with
    | some failure => throw failure
    | none => do
      let t ← applyHeaders resolve abort 0 s headers
      return { t with number := t.number + UInt64.ofNat headers.length, hash := last.hash }

end Replay

/-- The snapshot of the last header, when signers are found by a function. -/
def apply (recover : Header → Except Failure Address) (s : Snapshot) (headers : List Header) :
    Except Failure Snapshot :=
  (replay recover (fun _ => false) s headers : ExceptT Failure Id Snapshot).run

/-- The snapshot of the last header, if the replay is not told to stop. -/
def applyWithAbort (recover : Header → Except Failure Address) (abort : Nat → Bool) (s : Snapshot)
    (headers : List Header) : Except Failure Snapshot :=
  (replay recover abort s headers : ExceptT Failure Id Snapshot).run

end Snapshot

end SignerVoting
