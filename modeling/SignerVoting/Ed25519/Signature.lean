import SignerVoting.Ed25519.Point
import SignerVoting.Hash.Sha512

/-!
# Ed25519 signatures

A secret seed of 32 bytes gives a public key and signs messages deterministically. A signature is a
point, the commitment, and a number, the response; it holds for a key and a message if the
commitment is, byte for byte, the point that response, key and message call for.
-/

namespace SignerVoting

namespace Ed25519

/-- The order of the group that the base point generates. -/
def order : Nat := Nat.pow 2 252 + 27742317777372353535851937790883648493

/-- The number in a hash of 64 bytes, modulo the order of the group. -/
def reduced (bytes : List UInt8) : Nat := Bytes.ofLittleEndian bytes % order

/-- The number a secret seed stands for: a multiple of eight with its highest bit set. -/
def secretNumber (seed : Vector UInt8 32) : Nat :=
  let n := Bytes.ofLittleEndian ((Sha512.hash seed.toList).take 32)
  n % Nat.pow 2 254 / 8 * 8 + Nat.pow 2 254

/-- The public key of a secret seed. -/
def publicKey (seed : Vector UInt8 32) : Vector UInt8 32 :=
  (Point.base.multiple 256 (secretNumber seed)).toBytes

/-- The two halves of a signature. -/
structure Signature where
  commitment : Vector UInt8 32
  response : Vector UInt8 32

namespace Signature

/-- The bytes of a signature. -/
def toBytes (s : Signature) : List UInt8 := s.commitment.toList ++ s.response.toList

/-- The signature in the bytes. There are 64 of them, and the three highest bits are not set. -/
def ofBytes? (bytes : List UInt8) : Option Signature := do
  let commitment ← Bytes.toVector? 32 (bytes.take 32)
  let response ← Bytes.toVector? 32 (bytes.drop 32)
  if response[31] < 32 then some ⟨commitment, response⟩ else none

end Signature

/-- The number by which commitment, key and message weigh the secret. -/
def challenge (commitment key : Vector UInt8 32) (message : List UInt8) : Nat :=
  reduced (Sha512.hash (commitment.toList ++ key.toList ++ message))

/-- The signature of a message. -/
def sign (seed : Vector UInt8 32) (message : List UInt8) : Signature :=
  let nonce := reduced (Sha512.hash ((Sha512.hash seed.toList).drop 32 ++ message))
  let commitment := (Point.base.multiple 256 nonce).toBytes
  let k := challenge commitment (publicKey seed) message
  let response := (nonce + k * secretNumber seed) % order
  ⟨commitment, ⟨(Bytes.littleEndian 32 response).toArray, by simp⟩⟩

/-- A public key: its bytes as given, and the point they stand for. -/
structure PublicKey where
  bytes : Vector UInt8 32
  point : Point

/-- The public key in the bytes, if they stand for a point. -/
def PublicKey.ofBytes? (bytes : Vector UInt8 32) : Option PublicKey :=
  (Point.ofBytes? bytes).map fun point => ⟨bytes, point⟩

/-- Whether a signature holds for a key and a message. The response has to be below the order of the
    group, and the points are compared as they are, not up to the cofactor. -/
def PublicKey.verifies (key : PublicKey) (message : List UInt8) (s : Signature) : Bool :=
  let response := Bytes.ofLittleEndian s.response.toList
  let k := challenge s.commitment key.bytes message
  let expected := (Point.base.multiple 256 response).add (key.point.negate.multiple 256 k)
  decide (response < order) && decide (expected.toBytes = s.commitment)

end Ed25519

end SignerVoting
