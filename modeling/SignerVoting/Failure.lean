import SignerVoting.Config
import SignerVoting.Seal

/-!
# Failures

Every reason for which a replay, a look-up or a change of configuration is refused.
-/

namespace SignerVoting

/-- Why a stored text gives no snapshot of the block asked for. -/
inductive DecodeFault
  /-- The text is not one of a snapshot. -/
  | unreadable
  /-- The snapshot is that of another block. -/
  | otherBlock (stored requested : Digest)
  deriving DecidableEq

/-- The fault in words. -/
def DecodeFault.message : DecodeFault → String
  | unreadable => "the text does not read as a snapshot"
  | otherBlock stored requested =>
    "stored snapshot is for block 0x" ++ Hex.encode stored.toList ++ ", requested 0x" ++
      Hex.encode requested.toList

/-- Why a request is refused. -/
inductive Failure
  /-- A header does not follow the one before it. -/
  | brokenChain (expected found : UInt64)
  /-- A header was sealed by an account that may not seal. -/
  | unauthorizedSigner (signer : Address)
  /-- A header was sealed by an account that has to wait for others. -/
  | recentlySigned (signer : Address)
  /-- The nonce of a header marks no vote. -/
  | invalidVote (nonce : Nonce)
  /-- The signer of a header cannot be found. -/
  | noSigner (fault : SealError)
  /-- No snapshot of that block is stored. -/
  | snapshotNotFound (block : Digest)
  /-- What is stored is no snapshot of the block asked for. -/
  | undecodable (fault : DecodeFault)
  /-- The store refuses. -/
  | persistence (reason : String)
  /-- The configuration has a fault. -/
  | invalidConfig (fault : ConfigFault)
  /-- The replay was told to stop. -/
  | aborted (processed : Nat)
  /-- There is no snapshot to go on from. -/
  | noSnapshot
  deriving DecidableEq

/-- The failure in words. -/
def Failure.message : Failure → String
  | brokenChain expected found =>
    "Invalid voting chain: expected block " ++ toString expected.toNat ++ ", found " ++
      toString found.toNat
  | unauthorizedSigner signer => "Unauthorized signer: " ++ signer.text
  | recentlySigned signer => "Signer " ++ signer.text ++ " signed recently, must wait for others"
  | invalidVote nonce => "Invalid vote nonce: 0x" ++ Hex.encode nonce.toList
  | noSigner fault => "Signature recovery failed: " ++ fault.message
  | snapshotNotFound block => "Snapshot 0x" ++ Hex.encode block.toList ++ " not found"
  | undecodable fault => "Failed to decode snapshot: " ++ fault.message
  | persistence reason => "Persistence error: " ++ reason
  | invalidConfig fault => "Invalid configuration: " ++ fault.message
  | aborted processed => "Replay aborted after " ++ toString processed ++ " headers"
  | noSnapshot => "No current snapshot, initialize from genesis or a stored checkpoint first"

end SignerVoting
