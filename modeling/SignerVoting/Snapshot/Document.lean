import SignerVoting.Json.Reading
import SignerVoting.Snapshot

/-!
# Snapshots as JSON

A snapshot is stored as a record. Its number, hash and signers have to be there; what else is
missing is empty, and the percentage fifty. The configuration is no part of it.

The sets and mappings of a snapshot have no order of their own. An *arrangement* is an order in
which they are written; they are read in any.
-/

namespace SignerVoting

namespace Vote

/-- The names of the fields, in their order. -/
def fieldNames : List String := ["signer", "block", "address", "authorize"]

/-- The JSON value of a vote. -/
def toJson (v : Vote) : Json :=
  .ofMembers
    [("signer", .ofAddress v.signer), ("block", .ofNat v.block.toNat),
      ("address", .ofAddress v.target), ("authorize", .boolean v.authorize)]

/-- The vote of a JSON value. -/
def ofJson? (v : Json) : Option Vote := do
  let r ← v.record? fieldNames
  let signer ← r.required "signer" Json.address?
  let block ← r.required "block" Json.word?
  let target ← r.required "address" Json.address?
  let authorize ← r.required "authorize" Json.flag?
  return { signer, block, target, authorize }

end Vote

namespace QuorumVote

/-- The names of the fields, in their order. -/
def fieldNames : List String := ["signer", "block", "address", "percent", "authorize"]

/-- The JSON value of a vote. -/
def toJson (v : QuorumVote) : Json :=
  .ofMembers
    [("signer", .ofAddress v.signer), ("block", .ofNat v.block.toNat),
      ("address", .ofAddress v.coinbase), ("percent", .ofNat v.percent.toNat),
      ("authorize", .boolean v.authorize)]

/-- The vote of a JSON value. -/
def ofJson? (v : Json) : Option QuorumVote := do
  let r ← v.record? fieldNames
  let signer ← r.required "signer" Json.address?
  let block ← r.required "block" Json.word?
  let coinbase ← r.required "address" Json.address?
  let percent ← r.required "percent" Json.word?
  let authorize ← r.required "authorize" Json.flag?
  return { signer, block, coinbase, percent, authorize }

end QuorumVote

namespace Tally

/-- The names of the fields, in their order. -/
def fieldNames : List String := ["authorize", "votes"]

/-- The JSON value of a score. -/
def toJson (t : Tally) : Json :=
  .ofMembers [("authorize", .boolean t.authorize), ("votes", .ofNat t.votes.toNat)]

/-- The score of a JSON value. -/
def ofJson? (v : Json) : Option Tally := do
  let r ← v.record? fieldNames
  let authorize ← r.required "authorize" Json.flag?
  let votes ← r.required "votes" Json.word?
  return { authorize, votes }

end Tally

namespace QuorumTally

/-- The names of the fields, in their order. -/
def fieldNames : List String := ["authorize", "votes", "signer"]

/-- The JSON value of a score. -/
def toJson (t : QuorumTally) : Json :=
  .ofMembers
    [("authorize", .boolean t.authorize), ("votes", .ofNat t.votes.toNat),
      ("signer", .ofAddress t.signer)]

/-- The score of a JSON value. -/
def ofJson? (v : Json) : Option QuorumTally := do
  let r ← v.record? fieldNames
  let authorize ← r.required "authorize" Json.flag?
  let votes ← r.required "votes" Json.word?
  let signer ← r.required "signer" Json.address?
  return { authorize, votes, signer }

end QuorumTally

namespace QuorumCooldown

/-- The names of the fields. -/
def fieldNames : List String := ["block"]

/-- The JSON value of a cooldown. -/
def toJson (c : QuorumCooldown) : Json := .ofMembers [("block", .ofNat c.block.toNat)]

/-- The cooldown of a JSON value. -/
def ofJson? (v : Json) : Option QuorumCooldown := do
  let r ← v.record? fieldNames
  let block ← r.required "block" Json.word?
  return { block }

end QuorumCooldown

namespace Snapshot

/-- The names of the fields, in their order. -/
def fieldNames : List String :=
  ["number", "hash", "signers", "recents", "votes", "tally", "quorumPercent", "quorumVotes",
    "quorumTally", "quorumCooldowns"]

/-- The percentage of a stored snapshot that does not say it. -/
def defaultQuorumPercent : UInt64 := 50

/-- The object whose members are named by numbers. -/
def byNumber {ν : Type} (value : ν → Json) (entries : List (UInt64 × ν)) : Json :=
  .object (entries.map fun (n, v) => (Decimal.digits n.toNat, value v))

/-- The object whose members are named by accounts. -/
def byAddress {ν : Type} (value : ν → Json) (entries : List (Address × ν)) : Json :=
  .object (entries.map fun (a, v) => (Bytes.ofString a.text, value v))

/-- The account that names a member. -/
def addressOfName? (name : List UInt8) : Option Address := do
  let text ← Json.unquote? name
  (Address.ofText text).toOption

/-- An order in which the sets and mappings of a snapshot may be written. -/
structure Arrangement (s : Snapshot) where
  signers : List Address
  recents : List (UInt64 × Address)
  tally : List (Address × Tally)
  quorumTally : List (UInt64 × QuorumTally)
  quorumCooldowns : List (UInt64 × QuorumCooldown)
  signers_perm : signers.Perm s.signers.toList
  recents_perm : recents.Perm s.recents.toList
  tally_perm : tally.Perm s.tally.toList
  quorumTally_perm : quorumTally.Perm s.quorumTally.toList
  quorumCooldowns_perm : quorumCooldowns.Perm s.quorumCooldowns.toList

/-- Sets and mappings in their sorted order. -/
def Arrangement.sorted (s : Snapshot) : s.Arrangement where
  signers := s.signers.toList
  recents := s.recents.toList
  tally := s.tally.toList
  quorumTally := s.quorumTally.toList
  quorumCooldowns := s.quorumCooldowns.toList
  signers_perm := .refl _
  recents_perm := .refl _
  tally_perm := .refl _
  quorumTally_perm := .refl _
  quorumCooldowns_perm := .refl _

/-- The choices of the orders in which snapshots are written. -/
abbrev Arranging := ∀ s : Snapshot, s.Arrangement

/-- The fields of a snapshot, its sets and mappings in the order given. -/
def fields (s : Snapshot) (order : s.Arrangement) : Json.Record :=
  [("number", .ofNat s.number.toNat),
    ("hash", .ofText (Hex.encode s.hash.toList)),
    ("signers", .array (order.signers.map .ofAddress)),
    ("recents", byNumber .ofAddress order.recents),
    ("votes", .array (s.votes.map Vote.toJson)),
    ("tally", byAddress Tally.toJson order.tally),
    ("quorumPercent", .ofNat s.quorumPercent.toNat),
    ("quorumVotes", .array (s.quorumVotes.map QuorumVote.toJson)),
    ("quorumTally", byNumber QuorumTally.toJson order.quorumTally),
    ("quorumCooldowns", byNumber QuorumCooldown.toJson order.quorumCooldowns)]

/-- The JSON value of a snapshot, its sets and mappings in the order given. -/
def document (s : Snapshot) (order : s.Arrangement) : Json := .ofMembers (s.fields order)

/-- The JSON value of a snapshot, its sets and mappings in their sorted order. -/
def toJson (s : Snapshot) : Json := s.document (.sorted s)

/-- The snapshot of a JSON value, with a configuration. Of two entries of a mapping under one key
    the later one counts. -/
def ofJson? (config : Config) (v : Json) : Option Snapshot := do
  let r ← v.record? fieldNames
  let number ← r.required "number" Json.word?
  let hash ← r.required "hash" Json.digest?
  let signers ← r.required "signers" (Json.list? Json.address?)
  let recents ← r.optional "recents" [] (Json.entries? Json.wordOfText? Json.address?)
  let votes ← r.optional "votes" [] (Json.list? Vote.ofJson?)
  let tally ← r.optional "tally" [] (Json.entries? addressOfName? Tally.ofJson?)
  let quorumPercent ← r.optional "quorumPercent" defaultQuorumPercent Json.word?
  let quorumVotes ← r.optional "quorumVotes" [] (Json.list? QuorumVote.ofJson?)
  let quorumTally ←
    r.optional "quorumTally" [] (Json.entries? Json.wordOfText? QuorumTally.ofJson?)
  let quorumCooldowns ←
    r.optional "quorumCooldowns" [] (Json.entries? Json.wordOfText? QuorumCooldown.ofJson?)
  return {
    config, number, hash, signers := .ofList signers, recents := .ofList recents, votes,
    tally := .ofList tally, quorumPercent, quorumVotes, quorumTally := .ofList quorumTally,
    quorumCooldowns := .ofList quorumCooldowns }

/-- The JSON text of a snapshot, its sets and mappings in the order given. -/
def encode (s : Snapshot) (order : s.Arrangement) : List UInt8 := (s.document order).render

/-- The snapshot of a JSON text, with a configuration. -/
def decode? (config : Config) (text : List UInt8) : Option Snapshot := do
  let v ← Json.parse? text
  ofJson? config v

end Snapshot

end SignerVoting
