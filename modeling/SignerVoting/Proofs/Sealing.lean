import SignerVoting.Proofs.Encoding
import SignerVoting.Seal

/-!
# Sealing and finding the signer

A seal is the bytes of a key followed by those of a signature, and the reader of a seal takes it
apart again at the same place (`sealer_of_sealBytes`). Both sides work on the seal hash, which the
seal is no part of.

* `Ed25519.ofBytes?_sign`: a signature that was made is read from its bytes;
* `sealer_sealHeader`: a header that a key has sealed names the account of the key, if the library
  of signatures takes the key from its bytes and finds the signature to hold.
-/

namespace SignerVoting

/-! ## Signatures -/

namespace Bytes

theorem getElem_littleEndian {k n i : Nat} (hi : i < (littleEndian k n).length) :
    (littleEndian k n)[i] = UInt8.ofNat (n / Nat.pow 256 i) := by
  induction k generalizing n i with
  | zero => exact absurd hi (Nat.not_lt_zero i)
  | succ k ih =>
    cases i with
    | zero => simp [littleEndian]
    | succ i =>
      have hpow : Nat.pow 256 (i + 1) = 256 * Nat.pow 256 i := Nat.pow_succ'
      simp only [littleEndian, List.getElem_cons_succ]
      rw [ih, Nat.div_div_eq_div_mul, hpow]

end Bytes

namespace Ed25519

/-- The bytes of a signature are taken apart where they were put together. -/
theorem Signature.ofBytes?_toBytes {s : Signature} (hs : s.response.get 31 < 32) :
    ofBytes? s.toBytes = some s := by
  have hcommitment : s.toBytes.take 32 = s.commitment.toList := by
    rw [toBytes, List.take_left' (by simp)]
  have hresponse : s.toBytes.drop 32 = s.response.toList := by
    rw [toBytes, List.drop_left' (by simp)]
  have hlast : s.response[31] < 32 := hs
  simp [ofBytes?, hcommitment, hresponse, hlast]

/-- The response is below the order of the group, so that its three highest bits are not set. -/
theorem response_sign_lt (seed : Vector UInt8 32) (message : List UInt8) :
    (sign seed message).response.get 31 < 32 := by
  have horder : order < 32 * Nat.pow 256 31 := by decide
  have hlast : ∀ n, n < order → UInt8.ofNat (n / Nat.pow 256 31) < 32 := fun n hn => by
    have hdiv : n / Nat.pow 256 31 < 32 := Nat.div_lt_of_lt_mul (by omega)
    rw [UInt8.lt_iff_toNat_lt, UInt8.toNat_ofNat', Nat.mod_eq_of_lt (by omega)]
    exact hdiv
  change (sign seed message).response[31] < 32
  simp only [sign, Vector.getElem_mk, List.getElem_toArray, Bytes.getElem_littleEndian]
  exact hlast _ (Nat.mod_lt _ (by decide))

/-- A signature that was made is read from its bytes. -/
theorem ofBytes?_sign (seed : Vector UInt8 32) (message : List UInt8) :
    Signature.ofBytes? (sign seed message).toBytes = some (sign seed message) :=
  Signature.ofBytes?_toBytes (response_sign_lt seed message)

end Ed25519

/-! ## Seals -/

namespace Header

/-- A seal that is a key followed by a signature names the account of the key, if the key is one and
    the signature holds for it. -/
theorem sealer_of_sealBytes {h : Header} {bytes : Vector UInt8 32} {decoded : Ed25519.PublicKey}
    {s : Ed25519.Signature} (hseal : h.sealBytes = bytes.toList ++ s.toBytes)
    (hdecodes : Ed25519.PublicKey.ofBytes? bytes = some decoded)
    (hparses : Ed25519.Signature.ofBytes? s.toBytes = some s)
    (hverifies : decoded.verifies h.sealHash.toList s = true) :
    h.sealer = .ok (Address.ofPublicKey bytes) := by
  have hlength : s.toBytes.length = 64 := by simp [Ed25519.Signature.toBytes]
  let whole : Vector UInt8 96 := ⟨(bytes.toList ++ s.toBytes).toArray, by simp [hlength]⟩
  have hwhole : Bytes.toVector? 96 h.sealBytes = some whole := Bytes.toVector?_eq_some_iff.2 hseal
  have hkey : (whole.extract 0 32 : Vector UInt8 32) = bytes := by
    apply Vector.toList_inj.1
    change ((bytes.toList ++ s.toBytes).toArray.extract 0 32).toList = _
    simp [List.extract_toArray, List.extract, List.take_left']
  have hsignature : (whole.extract 32 96).toList = s.toBytes := by
    change ((bytes.toList ++ s.toBytes).toArray.extract 32 96).toList = _
    simp [List.extract_toArray, List.extract, List.drop_left', List.take_of_length_le, hlength]
  simp only [sealer, hwhole, hkey, hdecodes, hsignature, hparses, hverifies, if_true]

end Header

namespace SealKey

variable {key : SealKey} {h g : Header}

theorem sameContent_sealHeader : (key.sealHeader h).SameContent h := ⟨rfl, rfl, rfl, rfl, rfl, rfl⟩

theorem length_sealOf : (key.sealOf h).length = 96 := by
  simp [sealOf, Ed25519.Signature.toBytes]

/-- The seal hash does not look at the seal. -/
theorem sealHash_sealHeader : (key.sealHeader h).sealHash = h.sealHash := rfl

/-- If the library of signatures takes the public key of a seed from its bytes, and finds the
    signature to hold that the seed gives the seal hash of a header: sealing the header changes its
    seal alone, into 96 bytes that sealing it again does not change, and the sealed header names the
    account of the key. So does every header that differs from it in its seal at most, once it has
    this seal. -/
theorem sealer_sealHeader (key : SealKey) (h : Header) {decoded : Ed25519.PublicKey}
    (hdecodes : Ed25519.PublicKey.ofBytes? key.publicKey = some decoded)
    (hverifies : decoded.verifies h.sealHash.toList
      (Ed25519.sign key.seed h.sealHash.toList) = true) :
    let sealed := key.sealHeader h
    sealed.SameContent h ∧ sealed.sealBytes.length = 96 ∧ key.sealHeader sealed = sealed ∧
      sealed.sealHash = h.sealHash ∧ sealed.sealer = .ok key.address ∧
      ∀ g : Header, g.SameContent h →
        { g with sealBytes := sealed.sealBytes }.sealer = .ok key.address := by
  intro sealed
  have hsealer : sealed.sealer = .ok key.address :=
    Header.sealer_of_sealBytes rfl hdecodes (Ed25519.ofBytes?_sign _ _) hverifies
  refine ⟨sameContent_sealHeader, length_sealOf, rfl, sealHash_sealHeader, hsealer, fun g hg => ?_⟩
  have hcopy : { g with sealBytes := sealed.sealBytes } = sealed :=
    Header.eq_iff_sameContent.2 ⟨hg, rfl⟩
  rw [hcopy, hsealer]

/-- A header with a seal that says nothing is sealed, and the new seal copied onto the header
    without the old one. -/
theorem sealer_sealHeader_over :
    let key : SealKey := ⟨.replicate 32 7⟩
    let bare : Header := .mk (.replicate 32 0) 3 0 (.ofLow64 9) VoteKind.drop.nonce [1] []
    let h : Header := { bare with sealBytes := [0] }
    let sealed := key.sealHeader h
    (∃ decoded, Ed25519.PublicKey.ofBytes? key.publicKey = some decoded ∧
      decoded.verifies h.sealHash.toList (Ed25519.sign key.seed h.sealHash.toList) = true) ∧
    sealed.sealBytes.length = 96 ∧ key.sealHeader sealed = sealed ∧
    sealed.sealer = .ok key.address ∧
    { bare with sealBytes := sealed.sealBytes }.sealer = .ok key.address := by
  intro key bare h sealed
  have hholds : (Ed25519.PublicKey.ofBytes? key.publicKey).any (fun decoded =>
      decoded.verifies h.sealHash.toList (Ed25519.sign key.seed h.sealHash.toList)) = true := by
    decide +kernel
  obtain ⟨decoded, hdecodes, hverifies⟩ := (Option.any_eq_true _ _).1 hholds
  obtain ⟨-, hlength, hagain, -, hsealer, hcopy⟩ := sealer_sealHeader key h hdecodes hverifies
  exact ⟨⟨decoded, hdecodes, hverifies⟩, hlength, hagain, hsealer, hcopy bare (by decide)⟩

end SealKey

end SignerVoting
