import SignerVoting.Header
import SignerVoting.Json.Reading

/-!
# Headers as JSON

A header is a record of which every field has to be there. Bytes are arrays of numbers, and the
coinbase is a text.
-/

namespace SignerVoting

namespace Header

/-- The names of the fields, in their order. -/
def fieldNames : List String :=
  ["parent_hash", "number", "timestamp", "coinbase", "nonce", "extra", "seal"]

/-- The JSON value of a header. -/
def toJson (h : Header) : Json :=
  .ofMembers
    [("parent_hash", .ofBytes h.parentHash.toList),
      ("number", .ofNat h.number.toNat),
      ("timestamp", .ofNat h.timestamp.toNat),
      ("coinbase", .ofAddress h.coinbase),
      ("nonce", .ofBytes h.nonce.toList),
      ("extra", .ofBytes h.extra),
      ("seal", .ofBytes h.sealBytes)]

/-- The header of a JSON value. -/
def ofJson? (v : Json) : Option Header := do
  let r ← v.record? fieldNames
  let parentHash ← r.required "parent_hash" (Json.bytes? 32)
  let number ← r.required "number" Json.word?
  let timestamp ← r.required "timestamp" Json.word?
  let coinbase ← r.required "coinbase" Json.address?
  let nonce ← r.required "nonce" (Json.bytes? 8)
  let extra ← r.required "extra" (Json.list? Json.byte?)
  let sealBytes ← r.required "seal" (Json.list? Json.byte?)
  return { parentHash, number, timestamp, coinbase, nonce, extra, sealBytes }

/-- The JSON text of a header. -/
def encode (h : Header) : List UInt8 := h.toJson.render

/-- The header of a JSON text. -/
def decode? (text : List UInt8) : Option Header := do
  let v ← Json.parse? text
  ofJson? v

end Header

end SignerVoting
