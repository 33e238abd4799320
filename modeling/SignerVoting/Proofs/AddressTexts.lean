import SignerVoting.Address

/-!
# Texts of accounts

Which texts name an account, which one they name, and why the others name none. What matters of a
text is its *body*, what is left without the mark `0x`: it has to be forty hexadecimal digits, of
either case, and these are the digits of the account.

* `Hex.decode_of_digits`, `Hex.decode_of_not_digit`: digits that pair up are read, and the first
  byte that is none is found;
* `ofText_classifies`: every text is an account's or has a fault, as its body says.
-/

namespace SignerVoting

/-! ## Bytes and characters -/

namespace Bytes

/-- Only a character of ASCII starts with a byte below 128. -/
theorem toNat_lt_of_utf8EncodeChar {c : Char} {b : UInt8} {rest : List UInt8} (hb : b.toNat < 128)
    (h : String.utf8EncodeChar c = b :: rest) : c.toNat < 128 := by
  refine Nat.lt_of_not_le fun hc => ?_
  have hlarge : ¬c.val.toNat ≤ 127 := Nat.not_le.2 hc
  simp only [String.utf8EncodeChar, if_neg hlarge] at h
  split at h
  · obtain ⟨rfl, -⟩ := List.cons.inj h
    rw [UInt8.toNat_ofNat'] at hb
    omega
  split at h <;>
  · obtain ⟨rfl, -⟩ := List.cons.inj h
    rw [UInt8.toNat_ofNat'] at hb
    omega

/-- A byte below 128 that starts a text is the first character. -/
theorem eq_cons_of_ascii {cs : List Char} {b : UInt8} {rest : List UInt8} (hb : b.toNat < 128)
    (h : cs.flatMap String.utf8EncodeChar = b :: rest) :
    ∃ cs', cs = Char.ofNat b.toNat :: cs' ∧ cs'.flatMap String.utf8EncodeChar = rest := by
  cases cs with
  | nil => cases h
  | cons c cs =>
    rw [List.flatMap_cons] at h
    -- Every character has a first byte, and here it is `b`.
    obtain ⟨b', tail, htail⟩ : ∃ b' tail, String.utf8EncodeChar c = b' :: tail := by
      refine List.exists_cons_of_ne_nil fun hnil => ?_
      have hlength := String.length_utf8EncodeChar c
      rw [hnil] at hlength
      exact absurd hlength.symm (Nat.ne_of_gt c.utf8Size_pos)
    obtain rfl : b' = b := by
      rw [htail] at h
      exact (List.cons.inj h).1
    have hc := toNat_lt_of_utf8EncodeChar hb htail
    rw [utf8EncodeChar_of_lt hc] at h
    obtain ⟨rfl, hrest⟩ := List.cons.inj h
    refine ⟨cs, ?_, hrest⟩
    have hnat : c.toUInt8.toNat = c.toNat := Nat.mod_eq_of_lt (Nat.lt_trans hc (by decide))
    rw [hnat, Char.ofNat_toNat]

/-- A byte below 128 is the character of its number. -/
theorem ofNat_toNat_of_lt {b : UInt8} (hb : b.toNat < 128) :
    (Char.ofNat b.toNat).toNat = b.toNat ∧ (Char.ofNat b.toNat).toUInt8 = b := by
  have hread : ∀ n < 128, (Char.ofNat n).toNat = n ∧ (Char.ofNat n).toUInt8 = UInt8.ofNat n := by
    decide
  simpa using hread b.toNat hb

/-- Bytes of ASCII are the characters of the text. -/
theorem toList_eq_of_ascii {text : String} (h : ∀ b ∈ ofString text, b.toNat < 128) :
    text.toList = (ofString text).map fun b => Char.ofNat b.toNat := by
  have hascii : ∀ c ∈ (ofString text).map fun b => Char.ofNat b.toNat, c.toNat < 128 := by
    intro c hc
    obtain ⟨b, hb, rfl⟩ := List.mem_map.1 hc
    rw [(ofNat_toNat_of_lt (h b hb)).1]
    exact h b hb
  have hbytes : ofString (String.ofList ((ofString text).map fun b => Char.ofNat b.toNat)) =
      ofString text := by
    rw [ofString_ofList_of_lt hascii, List.map_map]
    conv => rhs; rw [← List.map_id (ofString text)]
    refine List.map_congr_left fun b hb => ?_
    exact (ofNat_toNat_of_lt (h b hb)).2
  conv => lhs; rw [← ofString_inj.1 hbytes]
  rw [String.toList_ofList]

end Bytes

/-! ## Hexadecimal digits -/

namespace Hex

/-- The character of a byte, in lower case. -/
def lowerChar (b : UInt8) : Char := (Char.ofNat b.toNat).toLower

/-- A digit is one of ASCII, and its value is written by the same digit in lower case. -/
theorem digitValue?_of_isDigit {b : UInt8} (hb : isDigit b = true) :
    b.toNat < 128 ∧
      ∃ value < 16, digitValue? b = some value ∧ Nat.digitChar value = lowerChar b := by
  have hall : ∀ n < 256, isDigit (UInt8.ofNat n) = true → n < 128 ∧ ∃ value < 16,
      digitValue? (UInt8.ofNat n) = some value ∧
        Nat.digitChar value = lowerChar (UInt8.ofNat n) := by decide +kernel
  simpa using hall b.toNat b.toNat_lt (by simpa using hb)

theorem digitValue?_of_not_digit {b : UInt8} (hb : isDigit b = false) : digitValue? b = none :=
  Option.not_isSome_iff_eq_none.1 (by simpa [isDigit] using hb)

/-- Digits that pair up are read, as the bytes of which they are the digits. -/
theorem decodeFrom_of_digits (position : Nat) :
    ∀ {text : List UInt8}, text.length % 2 = 0 → (∀ b ∈ text, isDigit b = true) →
      ∃ bytes, decodeFrom position text = .ok bytes ∧ digits bytes = text.map lowerChar
  | [], _, _ => ⟨[], rfl, rfl⟩
  | [_], heven, _ => by simp at heven
  | high :: low :: rest, heven, hdigits => by
    rw [List.forall_mem_cons, List.forall_mem_cons] at hdigits
    obtain ⟨hhigh, hlow, hrest⟩ := hdigits
    have heven' : rest.length % 2 = 0 := by
      simp only [List.length_cons] at heven
      omega
    obtain ⟨bytes, hbytes, hchars⟩ := decodeFrom_of_digits (position + 2) heven' hrest
    obtain ⟨-, h, hh, hvalue, hchar⟩ := digitValue?_of_isDigit hhigh
    obtain ⟨-, l, hl, hvalue', hchar'⟩ := digitValue?_of_isDigit hlow
    have hjoin : (UInt8.ofNat (16 * h + l)).toNat = 16 * h + l := by
      rw [UInt8.toNat_ofNat', Nat.mod_eq_of_lt (by omega)]
    refine ⟨UInt8.ofNat (16 * h + l) :: bytes, ?_, ?_⟩
    · simp only [decodeFrom, digitAt, hvalue, hvalue', hbytes]
      rfl
    · have hdiv : (16 * h + l) / 16 = h := by omega
      have hmod : (16 * h + l) % 16 = l := by omega
      simp only [digits, hjoin, hdiv, hmod, hchar, hchar', hchars, List.map_cons]

/-- The first byte that is no digit is found, at its position. -/
theorem decodeFrom_of_not_digit (position : Nat) {b : UInt8} (after : List UInt8)
    (hb : isDigit b = false) :
    ∀ {before : List UInt8}, (before ++ b :: after).length % 2 = 0 →
      (∀ c ∈ before, isDigit c = true) →
        decodeFrom position (before ++ b :: after) =
          .error (.invalidDigit b (position + before.length))
  | [], heven, _ => by
    cases after with
    | nil => simp at heven
    | cons low after =>
      simp only [List.nil_append, decodeFrom, digitAt, digitValue?_of_not_digit hb]
      rfl
  | [high], heven, hbefore => by
    obtain ⟨-, h, -, hvalue, -⟩ := digitValue?_of_isDigit (hbefore high List.mem_cons_self)
    simp only [List.cons_append, List.nil_append, decodeFrom, digitAt, hvalue,
      digitValue?_of_not_digit hb]
    rfl
  | high :: low :: before, heven, hbefore => by
    rw [List.forall_mem_cons, List.forall_mem_cons] at hbefore
    obtain ⟨hhigh, hlow, hbefore⟩ := hbefore
    have heven' : (before ++ b :: after).length % 2 = 0 := by
      simp only [List.cons_append, List.length_cons] at heven
      omega
    have hrest := decodeFrom_of_not_digit (position + 2) after hb heven' hbefore
    obtain ⟨-, h, -, hvalue, -⟩ := digitValue?_of_isDigit hhigh
    obtain ⟨-, l, -, hvalue', -⟩ := digitValue?_of_isDigit hlow
    simp only [List.cons_append, decodeFrom, digitAt, hvalue, hvalue', hrest, List.length_cons]
    rw [Nat.add_right_comm position 2]
    rfl

theorem decode_of_digits {text : List UInt8} (heven : text.length % 2 = 0)
    (hdigits : ∀ b ∈ text, isDigit b = true) :
    ∃ bytes, decode text = .ok bytes ∧ digits bytes = text.map lowerChar := by
  rw [decode, if_neg (by omega)]
  exact decodeFrom_of_digits 0 heven hdigits

theorem decode_of_not_digit {before after : List UInt8} {b : UInt8}
    (heven : (before ++ b :: after).length % 2 = 0) (hbefore : ∀ c ∈ before, isDigit c = true)
    (hb : isDigit b = false) :
    decode (before ++ b :: after) = .error (.invalidDigit b before.length) := by
  rw [decode, if_neg (by omega), decodeFrom_of_not_digit 0 after hb heven hbefore, Nat.zero_add]

/-- Whether a character is a digit, of either case. -/
def IsDigitChar (c : Char) : Prop := c.toNat < 128 ∧ isDigit c.toUInt8 = true

theorem isDigitChar_toLower_iff {c : Char} : IsDigitChar c.toLower ↔ IsDigitChar c := by
  by_cases hc : c.toNat < 128
  · have hall : ∀ n < 128, isDigit (Char.ofNat n).toLower.toUInt8 = isDigit (Char.ofNat n).toUInt8 ∧
        (Char.ofNat n).toLower.toNat < 128 := by decide +kernel
    obtain ⟨hdigit, hlt⟩ := hall c.toNat hc
    rw [Char.ofNat_toNat] at hdigit hlt
    simp only [IsDigitChar, hdigit, hlt, hc, true_and]
  · -- Only letters of ASCII have a lower case here.
    have hlower : c.toLower = c := by
      unfold Char.toLower
      split
      · rename_i h
        exact absurd (Nat.lt_of_le_of_lt h.2 (by decide)) hc
      · rfl
    rw [hlower]

/-- The bytes of a text are digits if its characters are, and they are as many. -/
theorem forall_isDigit_ofString_iff {text : String} {n : Nat} :
    ((Bytes.ofString text).length = n ∧ ∀ b ∈ Bytes.ofString text, isDigit b = true) ↔
      text.toList.length = n ∧ ∀ c ∈ text.toList, IsDigitChar c := by
  constructor
  · rintro ⟨hlength, hdigits⟩
    have hascii : ∀ b ∈ Bytes.ofString text, b.toNat < 128 := fun b hb =>
      (digitValue?_of_isDigit (hdigits b hb)).1
    rw [Bytes.toList_eq_of_ascii hascii, List.length_map, List.forall_mem_map]
    refine ⟨hlength, fun b hb => ?_⟩
    have hchar := Bytes.ofNat_toNat_of_lt (hascii b hb)
    rw [IsDigitChar, hchar.1, hchar.2]
    exact ⟨hascii b hb, hdigits b hb⟩
  · rintro ⟨hlength, hdigits⟩
    have hbytes : Bytes.ofString text = text.toList.map Char.toUInt8 := by
      conv => lhs; rw [← String.ofList_toList (s := text)]
      exact Bytes.ofString_ofList_of_lt fun c hc => (hdigits c hc).1
    rw [hbytes, List.length_map, List.forall_mem_map]
    exact ⟨hlength, fun c hc => (hdigits c hc).2⟩

/-- A text is of digits, or has a first byte that is none. -/
theorem digits_or_not_digit (text : List UInt8) :
    (∀ b ∈ text, isDigit b = true) ∨ ∃ before b after, text = before ++ b :: after ∧
      (∀ c ∈ before, isDigit c = true) ∧ isDigit b = false := by
  induction text with
  | nil => exact .inl nofun
  | cons b text ih =>
    cases hb : isDigit b with
    | false => exact .inr ⟨[], b, text, rfl, nofun, hb⟩
    | true =>
      rcases ih with hall | ⟨before, c, after, rfl, hbefore, hc⟩
      · exact .inl (List.forall_mem_cons.2 ⟨hb, hall⟩)
      · exact .inr ⟨b :: before, c, after, rfl, List.forall_mem_cons.2 ⟨hb, hbefore⟩, hc⟩

end Hex

/-! ## Accounts -/

namespace Address

/-- A text without the mark `0x` it may start with. -/
def body (text : String) : String :=
  match text.toList with
  | '0' :: 'x' :: rest => String.ofList rest
  | _ => text

/-- Whether a text is forty hexadecimal digits, of either case. -/
def IsFortyDigits (text : String) : Prop :=
  (Bytes.ofString text).length = 40 ∧ ∀ b ∈ Bytes.ofString text, Hex.isDigit b = true

/-- The mark is taken off the bytes of a text where it is taken off the text. -/
theorem unmarked_ofString (text : String) :
    unmarked (Bytes.ofString text) = Bytes.ofString (body text) := by
  obtain ⟨cs, rfl⟩ : ∃ cs, text = String.ofList cs := ⟨_, String.ofList_toList.symm⟩
  rw [body, String.toList_ofList]
  split
  · rw [Bytes.ofString_ofList, Bytes.ofString_ofList]
    rfl
  · rename_i hbody
    rw [Bytes.ofString_ofList]
    unfold unmarked
    split
    · -- The bytes of the mark can only come from its characters.
      rename_i rest h
      obtain ⟨cs', rfl, htail⟩ := Bytes.eq_cons_of_ascii (by decide) h
      obtain ⟨cs'', rfl, -⟩ := Bytes.eq_cons_of_ascii (by decide) htail
      exact absurd rfl (hbody cs'')
    · rfl

/-- Forty digits name the account whose digits they are. -/
theorem ofText_of_isFortyDigits {v : String} (h : IsFortyDigits (body v)) :
    ∃ a, ofText v = .ok a ∧ a.text = "0x" ++ (body v).toLower := by
  obtain ⟨hlength, hdigits⟩ := h
  obtain ⟨bytes, hdecode, hchars⟩ := Hex.decode_of_digits (by omega) hdigits
  have hbytes : bytes.length = 20 := by
    have h := congrArg List.length hchars
    rw [Hex.length_digits, List.length_map] at h
    omega
  obtain ⟨raw, hraw⟩ : ∃ raw : Vector UInt8 20, bytes = raw.toList :=
    ⟨⟨bytes.toArray, by simpa using hbytes⟩, rfl⟩
  refine ⟨⟨raw⟩, ?_, ?_⟩
  · rw [ofText, unmarked_ofString, hdecode, hraw]
    exact ofBytes_toList ⟨raw⟩
  · have hascii : (body v).toList = _ := Bytes.toList_eq_of_ascii fun b hb =>
      (Hex.digitValue?_of_isDigit (hdigits b hb)).1
    have hlower : (body v).toLower.toList = Hex.digits bytes := by
      change ((body v).map Char.toLower).toList = _
      rw [String.toList_map, hascii, List.map_map, hchars]
      rfl
    apply String.toList_inj.1
    rw [String.toList_append, hlower, hraw, text, String.toList_ofList]
    rfl

/-- A text of as many digits as make up bytes, but not twenty, is of a wrong length. -/
theorem ofText_of_length_ne {v : String} (heven : (Bytes.ofString (body v)).length % 2 = 0)
    (hdigits : ∀ b ∈ Bytes.ofString (body v), Hex.isDigit b = true)
    (hlength : (Bytes.ofString (body v)).length ≠ 40) :
    ofText v = .error (.wrongLength ((Bytes.ofString (body v)).length / 2)) := by
  obtain ⟨bytes, hdecode, hchars⟩ := Hex.decode_of_digits heven hdigits
  have hbytes : 2 * bytes.length = (Bytes.ofString (body v)).length := by
    have h := congrArg List.length hchars
    rwa [Hex.length_digits, List.length_map] at h
  have hnone : Bytes.toVector? 20 bytes = none := dif_neg (by omega)
  simp only [ofText, unmarked_ofString, hdecode, ofBytes, hnone]
  rw [← hbytes, Nat.mul_div_cancel_left _ (by decide)]

theorem ofText_of_odd {v : String} (hodd : (Bytes.ofString (body v)).length % 2 = 1) :
    ofText v = .error (.notHex .oddLength) := by
  rw [ofText, unmarked_ofString, Hex.decode, if_pos hodd]

/-- Where bytes pair up, the first one that is no digit is named. -/
theorem ofText_of_not_digit {v : String} {before after : List UInt8} {b : UInt8}
    (hbytes : Bytes.ofString (body v) = before ++ b :: after)
    (heven : (Bytes.ofString (body v)).length % 2 = 0)
    (hbefore : ∀ c ∈ before, Hex.isDigit c = true) (hb : Hex.isDigit b = false) :
    ofText v = .error (.notHex (.invalidDigit b before.length)) := by
  rw [hbytes] at heven
  rw [ofText, unmarked_ofString, hbytes, Hex.decode_of_not_digit heven hbefore hb]

theorem isFortyDigits_of_ofText {v : String} {a : Address} (h : ofText v = .ok a) :
    IsFortyDigits (body v) := by
  by_cases hodd : (Bytes.ofString (body v)).length % 2 = 1
  · rw [ofText_of_odd hodd] at h
    cases h
  have heven : (Bytes.ofString (body v)).length % 2 = 0 := by omega
  rcases Hex.digits_or_not_digit (Bytes.ofString (body v)) with
    hdigits | ⟨before, b, after, hbytes, hbefore, hb⟩
  · refine ⟨Decidable.not_not.1 fun hlength => ?_, hdigits⟩
    rw [ofText_of_length_ne heven hdigits hlength] at h
    cases h
  · rw [ofText_of_not_digit hbytes heven hbefore hb] at h
    cases h

/-- The case of its digits does not matter for whether a text has forty of them. -/
theorem isFortyDigits_of_toLower_eq {s t : String} (h : s.toLower = t.toLower)
    (ht : IsFortyDigits t) : IsFortyDigits s := by
  have hmap : s.toList.map Char.toLower = t.toList.map Char.toLower := by
    rw [← String.toList_map, ← String.toList_map]
    exact congrArg String.toList h
  obtain ⟨hlength, hdigits⟩ := Hex.forall_isDigit_ofString_iff.1 ht
  refine Hex.forall_isDigit_ofString_iff.2 ⟨?_, fun c hc => ?_⟩
  · have hlengths := congrArg List.length hmap
    rwa [List.length_map, List.length_map, hlength] at hlengths
  · have hmem : c.toLower ∈ t.toList.map Char.toLower := hmap ▸ List.mem_map_of_mem hc
    obtain ⟨d, hd, hlower⟩ := List.mem_map.1 hmem
    rw [← Hex.isDigitChar_toLower_iff, ← hlower, Hex.isDigitChar_toLower_iff]
    exact hdigits d hd

/-- A text names an account if its body is forty digits, and then it is the one whose text is the
    mark and these digits in lower case: texts name the same account if their bodies are the same
    but for the case. Every other text has a fault. Its bytes do not pair up, or the first one is
    named that is no digit, or there are too few or too many bytes for an account. -/
theorem ofText_classifies (v : String) :
    let bytes := Bytes.ofString (body v)
    ((∃ a, ofText v = .ok a) ↔ IsFortyDigits (body v)) ∧
    (∀ a, ofText v = .ok a → a.text = "0x" ++ (body v).toLower ∧
      ∀ w, ofText w = .ok a ↔ (body w).toLower = (body v).toLower) ∧
    (∀ a : Address, ofText a.text = .ok a) ∧
    (bytes.length % 2 = 1 → ofText v = .error (.notHex .oddLength)) ∧
    (bytes.length % 2 = 0 → ∀ before b after, bytes = before ++ b :: after →
      (∀ c ∈ before, Hex.isDigit c = true) → Hex.isDigit b = false →
        ofText v = .error (.notHex (.invalidDigit b before.length))) ∧
    (bytes.length % 2 = 0 → (∀ b ∈ bytes, Hex.isDigit b = true) → bytes.length ≠ 40 →
      ofText v = .error (.wrongLength (bytes.length / 2))) := by
  have htext : ∀ w a, ofText w = .ok a → a.text = "0x" ++ (body w).toLower := by
    intro w a h
    obtain ⟨b, hb, hchars⟩ := ofText_of_isFortyDigits (isFortyDigits_of_ofText h)
    rw [h] at hb
    exact Except.ok.inj hb ▸ hchars
  refine ⟨⟨fun ⟨_, h⟩ => isFortyDigits_of_ofText h, fun h => ?_⟩, fun a h => ⟨htext v a h, ?_⟩,
    ofText_text, ofText_of_odd,
    fun heven _ _ _ hbytes hbefore hb => ofText_of_not_digit hbytes heven hbefore hb,
    fun heven hdigits hlength => ofText_of_length_ne heven hdigits hlength⟩
  · obtain ⟨a, ha, -⟩ := ofText_of_isFortyDigits h
    exact ⟨a, ha⟩
  · intro w
    constructor
    · intro hw
      have hsame := (htext w a hw).symm.trans (htext v a h)
      exact (String.append_right_inj _).1 hsame
    · intro hlower
      have hforty := isFortyDigits_of_toLower_eq hlower (isFortyDigits_of_ofText h)
      obtain ⟨b, hb, hchars⟩ := ofText_of_isFortyDigits hforty
      rw [hlower, ← htext v a h] at hchars
      rw [hb, text_inj.1 hchars]

/-- Digits of either case after the mark, a letter of two bytes between two digits, the same letter
    before one digit, and the mark before a single pair of digits. -/
theorem ofText_classifies_mixed :
    (∃ a, ofText "0xAbCdEf0000000000000000000000000000AbCdEf" = .ok a ∧
      a.text = "0xabcdef0000000000000000000000000000abcdef") ∧
    ofText "1é1" = .error (.notHex (.invalidDigit 0xc3 1)) ∧
    ofText "é1" = .error (.notHex .oddLength) ∧
    ofText "0x11" = .error (.wrongLength 1) := by
  refine ⟨?_, ?_, ?_, ?_⟩
  · obtain ⟨hiff, htext, -⟩ := ofText_classifies "0xAbCdEf0000000000000000000000000000AbCdEf"
    obtain ⟨a, ha⟩ := hiff.2 (by unfold IsFortyDigits; decide +kernel)
    exact ⟨a, ha, (htext a ha).1.trans (by decide +kernel)⟩
  · obtain ⟨-, -, -, -, hdigit, -⟩ := ofText_classifies "1é1"
    have hone : ∀ c ∈ [0x31], Hex.isDigit c = true := List.forall_mem_singleton.2 rfl
    exact hdigit (by decide +kernel) [0x31] 0xc3 [0xa9, 0x31] (by decide +kernel) hone rfl
  · obtain ⟨-, -, -, hodd, -⟩ := ofText_classifies "é1"
    exact hodd (by decide +kernel)
  · obtain ⟨-, -, -, -, -, hlength⟩ := ofText_classifies "0x11"
    exact hlength (by decide +kernel) (by decide +kernel) (by decide +kernel)

end Address

end SignerVoting
