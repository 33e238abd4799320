import SignerVoting.Config
import SignerVoting.Json.Reading

/-!
# Configurations as JSON

A configuration is a record of which every field may be missing.
-/

namespace SignerVoting

namespace Config

/-- The names of the fields, in their order. -/
def fieldNames : List String :=
  ["epoch", "checkpoint_interval", "inmemory_snapshots", "signature_cache_size", "quorum_percent",
    "signers"]

/-- The JSON value of a configuration. -/
def toJson (c : Config) : Json :=
  .ofMembers
    [("epoch", .ofNat c.epoch.toNat),
      ("checkpoint_interval", .ofNat c.checkpointInterval.toNat),
      ("inmemory_snapshots", .ofNat c.snapshotsInMemory.toNat),
      ("signature_cache_size", .ofNat c.signersRemembered.toNat),
      ("quorum_percent", .ofNat c.quorumPercent.toNat),
      ("signers", .array (c.signers.map .ofAddress))]

/-- The configuration of a JSON value. A field that is missing has its default. -/
def ofJson? (v : Json) : Option Config := do
  let r ← v.record? fieldNames
  let default : Config := {}
  let epoch ← r.optional "epoch" default.epoch Json.word?
  let checkpointInterval ← r.optional "checkpoint_interval" default.checkpointInterval Json.word?
  let snapshotsInMemory ← r.optional "inmemory_snapshots" default.snapshotsInMemory Json.word?
  let signersRemembered ← r.optional "signature_cache_size" default.signersRemembered Json.word?
  let quorumPercent ← r.optional "quorum_percent" default.quorumPercent Json.word?
  let signers ← r.optional "signers" default.signers (Json.list? Json.address?)
  return {
    epoch, checkpointInterval, snapshotsInMemory, signersRemembered, quorumPercent, signers }

/-- The JSON text of a configuration. -/
def encode (c : Config) : List UInt8 := c.toJson.render

/-- The configuration of a JSON text. -/
def decode? (text : List UInt8) : Option Config := do
  let v ← Json.parse? text
  ofJson? v

end Config

end SignerVoting
