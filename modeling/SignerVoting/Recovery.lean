import SignerVoting.Failure
import SignerVoting.Lru

/-!
# Finding the signer of a header

The signer is found from the seal. Signers that were found are remembered by the hash of the header;
what was refused is not.
-/

namespace SignerVoting

/-- A way of finding the signer of a header, which may remember things. -/
abbrev Resolver (m : Type → Type) := Header → ExceptT Failure m Address

/-- The signers found so far, by the hash of the header. -/
abbrev SealMemory := Lru Digest Address

namespace SealMemory

/-- The remembered signer of a header, or else the one that the seal names, which is then
    remembered. -/
def recover (h : Header) : ExceptT SealError (StateM SealMemory) Address := do
  let (known, memory) := (← get).access h.hash
  set memory
  match known with
  | some signer => return signer
  | none =>
    let signer ← ExceptT.mk (pure h.sealer)
    modify fun memory => memory.insert h.hash signer
    return signer

end SealMemory

/-- The signer that a header without a seal declares in its extra bytes. -/
def Header.declaredSigner (h : Header) : Except SealError Address :=
  match Address.ofBytes h.extra with
  | .ok signer => .ok signer
  | .error _ => .error (.wrongLength 20 h.extra.length)

/-- How the signers of a chain are found. -/
inductive Recovery
  /-- Headers declare their signers. -/
  | declared
  /-- Headers are sealed. -/
  | fromSeal (memory : SealMemory)

namespace Recovery

/-- Recovery from seals, with room for so many signers. -/
def ofCapacity (capacity : UInt64) : Except Failure Recovery :=
  if capacity = 0 then .error (.invalidConfig .zeroMemory)
  else .ok (.fromSeal (.empty capacity.toNat))

/-- The signer of a header. -/
def resolve : Resolver (StateM Recovery) := fun h => do
  match ← get with
  | .declared => ExceptT.mk (pure (h.declaredSigner.mapError .noSigner))
  | .fromSeal memory =>
    let (signer, memory) := (SealMemory.recover h).run.run memory
    set (Recovery.fromSeal memory)
    ExceptT.mk (pure (signer.mapError .noSigner))

end Recovery

end SignerVoting
