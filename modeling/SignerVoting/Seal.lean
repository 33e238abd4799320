import SignerVoting.Header
import SignerVoting.Ed25519.Signature

/-!
# Seals

A signer seals a header with the public key, 32 bytes, followed by the signature of the seal hash,
64 bytes. Whoever holds the header finds the account back from the key in the seal, once the
signature is seen to hold.
-/

namespace SignerVoting

/-- Why a seal names no account. -/
inductive SealError
  /-- The seal has the wrong number of bytes. -/
  | wrongLength (expected found : Nat)
  /-- The key stands for no point of the curve. -/
  | invalidKey
  /-- The signature has bits set that none has. -/
  | malformedSignature
  /-- The signature does not hold for the header of that hash. -/
  | mismatch (header : Digest)
  deriving DecidableEq

/-- The fault in words. -/
def SealError.message : SealError → String
  | wrongLength expected found =>
    "Invalid seal length: expected " ++ toString expected ++ " bytes, got " ++ toString found
  | invalidKey => "Invalid seal public key: signature error: Cannot decompress Edwards point"
  | malformedSignature => "Malformed seal signature: signature error"
  | mismatch header =>
    "Seal signature does not verify for header " ++ Hex.encode header.toList

/-- The account that owns a public key: the first twenty bytes of the hash of the key. -/
def Address.ofPublicKey (key : Vector UInt8 32) : Address :=
  ⟨(Blake3.hash key.toList).extract 0 20⟩

/-- The secret that a signer seals with. -/
structure SealKey where
  seed : Vector UInt8 32

namespace SealKey

/-- The public key. -/
def publicKey (key : SealKey) : Vector UInt8 32 := Ed25519.publicKey key.seed

/-- The account that seals with the key. -/
def address (key : SealKey) : Address := Address.ofPublicKey key.publicKey

/-- The seal of a header. -/
def sealOf (key : SealKey) (h : Header) : List UInt8 :=
  key.publicKey.toList ++ (Ed25519.sign key.seed h.sealHash.toList).toBytes

/-- The header with its seal replaced by that of the key. -/
def sealHeader (key : SealKey) (h : Header) : Header := { h with sealBytes := key.sealOf h }

end SealKey

/-- The account that sealed the header, if the seal holds. -/
def Header.sealer (h : Header) : Except SealError Address :=
  match Bytes.toVector? 96 h.sealBytes with
  | none => .error (.wrongLength 96 h.sealBytes.length)
  | some bytes =>
    let keyBytes : Vector UInt8 32 := bytes.extract 0 32
    match Ed25519.PublicKey.ofBytes? keyBytes with
    | none => .error .invalidKey
    | some key =>
      match Ed25519.Signature.ofBytes? (bytes.extract 32 96).toList with
      | none => .error .malformedSignature
      | some signature =>
        if key.verifies h.sealHash.toList signature then .ok (Address.ofPublicKey keyBytes)
        else .error (.mismatch h.hash)

end SignerVoting
