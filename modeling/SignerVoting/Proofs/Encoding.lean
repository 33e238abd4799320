import SignerVoting.Header

/-!
# What the hashes of a header commit to

Both hashes of a header are taken of its fields one after the other. Each field ends by itself: it
has a fixed size, or its length stands before it. So whatever follows, the fields of one header are
told from those of another (`sealedBytes_append_inj`), and what follows is told as well.

* `bytes_commit`: the bytes behind the hash of a block determine the header, those behind its seal
  hash all of it but the seal, and no header has the one where another has the other. Headers that
  have a hash in common without being the same there are a collision of the hash function.
-/

namespace SignerVoting

/-- Different bytes with the same hash. -/
def Blake3.Collide (a b : List UInt8) : Prop := a ≠ b ∧ Blake3.hash a = Blake3.hash b

/-! ## Bytes of a known length -/

namespace Bytes

variable {s t : List UInt8}

theorem append_inj_of_length {a b : List UInt8} (hlength : a.length = b.length) :
    a ++ s = b ++ t ↔ a = b ∧ s = t :=
  ⟨fun heq => List.append_inj heq hlength, fun ⟨ha, hs⟩ => by rw [ha, hs]⟩

theorem toList_append_inj {n : Nat} {a b : Vector UInt8 n} :
    a.toList ++ s = b.toList ++ t ↔ a = b ∧ s = t := by
  rw [append_inj_of_length (by simp), Vector.toList_inj]

theorem littleEndian_inj {m n : Nat} (hm : m < UInt64.size) (hn : n < UInt64.size) :
    littleEndian 8 m = littleEndian 8 n ↔ m = n := by
  refine ⟨fun heq => ?_, fun heq => heq ▸ rfl⟩
  have hread := congrArg ofLittleEndian heq
  rw [ofLittleEndian_littleEndian, ofLittleEndian_littleEndian] at hread
  rwa [Nat.mod_eq_of_lt hm, Nat.mod_eq_of_lt hn] at hread

end Bytes

namespace Header

/-- Whether two headers agree in every field but the seal. -/
def SameContent (h g : Header) : Prop :=
  h.parentHash = g.parentHash ∧ h.number = g.number ∧ h.timestamp = g.timestamp ∧
    h.coinbase = g.coinbase ∧ h.nonce = g.nonce ∧ h.extra = g.extra

instance (h g : Header) : Decidable (h.SameContent g) :=
  inferInstanceAs (Decidable (_ ∧ _))

/-- Whether the fields of any length are short enough for 64 bits to say how long they are. -/
def Fits (h : Header) : Prop :=
  h.extra.length < UInt64.size ∧ h.sealBytes.length < UInt64.size

instance (h : Header) : Decidable h.Fits := inferInstanceAs (Decidable (_ ∧ _))

variable {h g : Header} {s t : List UInt8}

theorem eq_iff_sameContent : h = g ↔ h.SameContent g ∧ h.sealBytes = g.sealBytes := by
  cases h
  cases g
  simp [SameContent, and_assoc]

/-! ## Fields that end by themselves -/

theorem encodeWord_append_inj {m n : UInt64} :
    encodeWord m ++ s = encodeWord n ++ t ↔ m = n ∧ s = t := by
  rw [Bytes.append_inj_of_length (by simp [encodeWord]), encodeWord, encodeWord,
    Bytes.littleEndian_inj m.toNat_lt n.toNat_lt, UInt64.toNat_inj]

/-- The length before the bytes says where they end. -/
theorem encodeBytes_append_inj {a b : List UInt8} (ha : a.length < UInt64.size)
    (hb : b.length < UInt64.size) :
    encodeBytes a ++ s = encodeBytes b ++ t ↔ a = b ∧ s = t := by
  rw [encodeBytes, encodeBytes, List.append_assoc, List.append_assoc,
    Bytes.append_inj_of_length (by simp), Bytes.littleEndian_inj ha hb]
  constructor
  · rintro ⟨hlength, heq⟩
    exact (Bytes.append_inj_of_length hlength).1 heq
  · rintro ⟨rfl, rfl⟩
    exact ⟨rfl, rfl⟩

theorem encodeAddress_append_inj {a b : Address} :
    encodeBytes (a.chars.map Char.toUInt8) ++ s = encodeBytes (b.chars.map Char.toUInt8) ++ t ↔
      a = b ∧ s = t := by
  have hlength : ∀ c : Address, (c.chars.map Char.toUInt8).length < UInt64.size := fun c => by
    simp [Address.chars, UInt64.size]
  rw [encodeBytes_append_inj (hlength a) (hlength b), ← Address.ofString_text,
    ← Address.ofString_text, Bytes.ofString_inj, Address.text_inj]

/-! ## Headers -/

/-- The fields that a seal commits to are told from those of another header, whatever follows. -/
theorem sealedBytes_append_inj (hh : h.Fits) (hg : g.Fits) :
    h.sealedBytes ++ s = g.sealedBytes ++ t ↔ h.SameContent g ∧ s = t := by
  simp only [sealedBytes, List.append_assoc, Bytes.toList_append_inj, encodeWord_append_inj,
    encodeAddress_append_inj, encodeBytes_append_inj hh.1 hg.1, SameContent, and_assoc]

theorem sealedBytes_inj (hh : h.Fits) (hg : g.Fits) :
    h.sealedBytes = g.sealedBytes ↔ h.SameContent g := by
  simpa using sealedBytes_append_inj (s := []) (t := []) hh hg

theorem allBytes_inj (hh : h.Fits) (hg : g.Fits) : h.allBytes = g.allBytes ↔ h = g := by
  have hseal : encodeBytes h.sealBytes = encodeBytes g.sealBytes ↔ h.sealBytes = g.sealBytes := by
    simpa using encodeBytes_append_inj (s := []) (t := []) hh.2 hg.2
  rw [allBytes, allBytes, sealedBytes_append_inj hh hg, hseal, eq_iff_sameContent]

/-- Where the fields that a seal commits to end, the length of a seal would have to follow. -/
theorem sealedBytes_ne_allBytes (hh : h.Fits) (hg : g.Fits) : h.sealedBytes ≠ g.allBytes := by
  intro heq
  rw [allBytes, ← List.append_nil h.sealedBytes, sealedBytes_append_inj hh hg] at heq
  have hlength := congrArg List.length heq.2
  rw [encodeBytes, List.length_append, Bytes.length_littleEndian, List.length_nil] at hlength
  omega

/-- The bytes behind the hash of a header determine the header, those behind its seal hash every
    field but the seal, and no bytes are behind both. So where the hash function has no collision,
    the hash of a header names it, its seal hash covers what is not the seal, and no hash is taken
    for a seal hash. -/
theorem bytes_commit (hh : h.Fits) (hg : g.Fits) :
    (h.allBytes = g.allBytes ↔ h = g) ∧
    (h.sealedBytes = g.sealedBytes ↔ h.SameContent g) ∧
    h.sealedBytes ≠ g.allBytes ∧
    (h.hash = g.hash → h = g ∨ Blake3.Collide h.allBytes g.allBytes) ∧
    (h.sealHash = g.sealHash → h.SameContent g ∨ Blake3.Collide h.sealedBytes g.sealedBytes) ∧
    (h.sealHash = g.hash → Blake3.Collide h.sealedBytes g.allBytes) := by
  have hall := allBytes_inj hh hg
  have hsealed := sealedBytes_inj hh hg
  have hne := sealedBytes_ne_allBytes hh hg
  refine ⟨hall, hsealed, hne, fun heq => ?_, fun heq => ?_, fun heq => ⟨hne, heq⟩⟩
  · by_cases hbytes : h.allBytes = g.allBytes
    · exact .inl (hall.1 hbytes)
    · exact .inr ⟨hbytes, heq⟩
  · by_cases hbytes : h.sealedBytes = g.sealedBytes
    · exact .inl (hsealed.1 hbytes)
    · exact .inr ⟨hbytes, heq⟩

/-- Eight zeros in the free field of one header against the length of an empty seal in another: the
    bytes are as many, and differ in the length of the free field alone. -/
theorem bytes_commit_shifted :
    let g : Header := .mk (.replicate 32 0) 1 0 .zero (.replicate 8 0) [] []
    let h : Header := { g with extra := .replicate 8 0 }
    h.Fits ∧ g.Fits ∧ h.sealedBytes.length = g.allBytes.length ∧
      h.sealedBytes ≠ g.allBytes ∧ h.sealedBytes ≠ g.sealedBytes ∧ h.allBytes ≠ g.allBytes := by
  intro g h
  have hh : h.Fits := by decide
  have hg : g.Fits := by decide
  have hlength : h.sealedBytes.length = g.allBytes.length := by decide +kernel
  obtain ⟨hall, hsealed, hne, -⟩ := bytes_commit hh hg
  refine ⟨hh, hg, hlength, hne, fun heq => ?_, fun heq => ?_⟩
  · exact absurd (hsealed.1 heq) (by decide)
  · exact absurd (hall.1 heq) (by decide)

end Header

end SignerVoting
