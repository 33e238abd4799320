import SignerVoting.Address
import SignerVoting.Hash.Blake3

/-!
# Block headers

A header carries one vote: its nonce says of which kind, its coinbase what it is about. The block is
named by the hash of the whole header. A seal commits to the seal hash, which leaves the seal out.

Both hashes are taken of a byte string. Fields of fixed size stand as they are, numbers in eight
bytes with the lowest first, and what may have any length (the text of the coinbase included)
follows its own length.
-/

namespace SignerVoting

/-- What the vote in a header asks for. -/
inductive VoteKind
  /-- To let the coinbase account seal blocks. -/
  | authorize
  /-- To stop the coinbase account from sealing blocks. -/
  | drop
  /-- To change the percentage of signers that a proposal needs. -/
  | quorumPercent
  deriving DecidableEq

namespace VoteKind

/-- The nonce that marks a vote of this kind. -/
def nonce : VoteKind → Nonce
  | authorize => #v[0xff, 0xff, 0xff, 0xff, 0xff, 0xff, 0xff, 0xff]
  | drop => #v[0, 0, 0, 0, 0, 0, 0, 0]
  | quorumPercent => #v[0xff, 0xff, 0xff, 0xff, 0, 0, 0, 0]

/-- The kind of vote that a nonce marks. -/
def ofNonce? (mark : Nonce) : Option VoteKind :=
  [authorize, drop, quorumPercent].find? fun kind => kind.nonce = mark

end VoteKind

/-- The part of a block that voting depends on. -/
structure Header where
  /-- The hash of the block before. -/
  parentHash : Digest
  /-- The height of the block. -/
  number : UInt64
  /-- Seconds since the start of 1970. -/
  timestamp : UInt64
  /-- What the vote is about. -/
  coinbase : Address
  /-- The mark of the vote. -/
  nonce : Nonce
  /-- Bytes that voting does not look at. -/
  extra : List UInt8
  /-- The signer's key and signature. -/
  sealBytes : List UInt8
  deriving DecidableEq

namespace Header

/-! ## Hashes -/

/-- A number in eight bytes. -/
def encodeWord (n : UInt64) : List UInt8 := Bytes.littleEndian 8 n.toNat

/-- Bytes after their length. -/
def encodeBytes (bytes : List UInt8) : List UInt8 :=
  Bytes.littleEndian 8 bytes.length ++ bytes

/-- The bytes that a seal commits to: every field but the seal. -/
def sealedBytes (h : Header) : List UInt8 :=
  h.parentHash.toList ++ (encodeWord h.number ++ (encodeWord h.timestamp ++
    (encodeBytes (h.coinbase.chars.map Char.toUInt8) ++ (h.nonce.toList ++ encodeBytes h.extra))))

/-- The bytes of the whole header. -/
def allBytes (h : Header) : List UInt8 := h.sealedBytes ++ encodeBytes h.sealBytes

/-- The hash that names the block. -/
def hash (h : Header) : Digest := Blake3.hash h.allBytes

/-- The hash that a seal commits to. -/
def sealHash (h : Header) : Digest := Blake3.hash h.sealedBytes

/-! ## Vote -/

/-- The kind of the vote, if the nonce marks one. -/
def voteKind? (h : Header) : Option VoteKind := VoteKind.ofNonce? h.nonce

/-- The percentage proposed by a vote on the quorum. -/
def quorumProposal (h : Header) : UInt64 := h.coinbase.low64

end Header

end SignerVoting
