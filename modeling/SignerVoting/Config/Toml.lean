import SignerVoting.Config
import SignerVoting.Toml

/-!
# Configurations as TOML

A configuration is a document whose keys are the names of its fields. Keys of other names are passed
over, and a field without a key has its default.
-/

namespace SignerVoting

namespace Config

/-- A number that is not negative. -/
def wordOfToml? : Toml.Value → Option UInt64
  | .integer n => if 0 ≤ n then some (UInt64.ofNat n.toNat) else none
  | _ => none

/-- The account named by a text. -/
def addressOfToml? : Toml.Value → Option Address
  | .text s => (Address.ofText s).toOption
  | _ => none

/-- The accounts named by the texts of an array. -/
def addressesOfToml? : Toml.Value → Option (List Address)
  | .array items => items.mapM addressOfToml?
  | _ => none

/-- The value of a field, or its default. -/
def fieldOfToml? {α : Type} (members : Toml.Members) (name : String) (default : α)
    (read? : Toml.Value → Option α) : Option α :=
  match members.lookup name with
  | some v => read? v
  | none => some default

/-- The configuration of a document. -/
def ofToml? (members : Toml.Members) : Option Config := do
  let default : Config := {}
  let epoch ← fieldOfToml? members "epoch" default.epoch wordOfToml?
  let checkpointInterval ←
    fieldOfToml? members "checkpoint_interval" default.checkpointInterval wordOfToml?
  let snapshotsInMemory ←
    fieldOfToml? members "inmemory_snapshots" default.snapshotsInMemory wordOfToml?
  let signersRemembered ←
    fieldOfToml? members "signature_cache_size" default.signersRemembered wordOfToml?
  let quorumPercent ← fieldOfToml? members "quorum_percent" default.quorumPercent wordOfToml?
  let signers ← fieldOfToml? members "signers" default.signers addressesOfToml?
  return {
    epoch, checkpointInterval, snapshotsInMemory, signersRemembered, quorumPercent, signers }

/-- The configuration of a text, if it has no fault. -/
def ofTomlText (text : String) : Except ConfigFault Config :=
  match Toml.parse? text >>= ofToml? with
  | some c => c.validated
  | none => .error .unreadable

end Config

end SignerVoting
