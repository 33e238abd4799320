import SignerVoting.Address

/-!
# Configuration

The parameters of voting and of keeping snapshots. A configuration may hold any values until it is
validated.
-/

namespace SignerVoting

/-- The parameters. -/
structure Config where
  /-- On every multiple of it, pending votes are discarded. -/
  epoch : UInt64 := 30000
  /-- On every multiple of it, the snapshot is written to the store. -/
  checkpointInterval : UInt64 := 1024
  /-- How many snapshots are kept in memory. -/
  snapshotsInMemory : UInt64 := 128
  /-- How many recovered signers are remembered. -/
  signersRemembered : UInt64 := 4096
  /-- The percentage that a first snapshot starts with. -/
  quorumPercent : UInt64 := 50
  /-- The accounts that a first snapshot lets seal. -/
  signers : List Address := []
  deriving DecidableEq

/-- What is wrong with a configuration. -/
inductive ConfigFault
  | zeroEpoch
  | zeroCheckpointInterval
  | zeroCapacity
  | quorumOutOfRange (percent : UInt64)
  | noSigners
  /-- The memory for recovered signers has no room. -/
  | zeroMemory
  /-- The text is not one of a configuration. -/
  | unreadable
  deriving DecidableEq

/-- The fault in words. -/
def ConfigFault.message : ConfigFault → String
  | zeroEpoch => "epoch must be non-zero"
  | zeroCheckpointInterval => "checkpoint_interval must be non-zero"
  | zeroCapacity => "cache sizes must be non-zero"
  | quorumOutOfRange percent =>
    "quorum_percent must be within 1..=100, got " ++ toString percent.toNat
  | noSigners => "at least one genesis signer is required"
  | zeroMemory => "signature cache capacity must be non-zero"
  | unreadable => "the text does not read as a configuration"

namespace Config

/-- The first fault of a configuration, if it has one. -/
def fault? (c : Config) : Option ConfigFault :=
  if c.epoch = 0 then some .zeroEpoch
  else if c.checkpointInterval = 0 then some .zeroCheckpointInterval
  else if c.snapshotsInMemory = 0 ∨ c.signersRemembered = 0 then some .zeroCapacity
  else if c.quorumPercent < 1 ∨ 100 < c.quorumPercent then
    some (.quorumOutOfRange c.quorumPercent)
  else if c.signers = [] then some .noSigners
  else none

/-- The configuration, if it has no fault. -/
def validated (c : Config) : Except ConfigFault Config :=
  match c.fault? with
  | none => .ok c
  | some fault => .error fault

theorem fault?_eq_none_iff {c : Config} :
    c.fault? = none ↔
      c.epoch ≠ 0 ∧ c.checkpointInterval ≠ 0 ∧
        (c.snapshotsInMemory ≠ 0 ∧ c.signersRemembered ≠ 0) ∧
          (1 ≤ c.quorumPercent ∧ c.quorumPercent ≤ 100) ∧ c.signers ≠ [] := by
  -- Each test passes if it finds no fault and the later ones find none.
  have hite {p : Prop} [Decidable p] {fault : ConfigFault} {rest : Option ConfigFault} :
      (if p then some fault else rest) = none ↔ ¬p ∧ rest = none := by
    split <;> simp [*]
  simp only [fault?, hite, not_or, UInt64.not_lt, and_true, ne_eq]

theorem validated_eq_ok_iff {c d : Config} : c.validated = .ok d ↔ c = d ∧ c.fault? = none := by
  rw [validated]
  cases c.fault? <;> simp

end Config

end SignerVoting
