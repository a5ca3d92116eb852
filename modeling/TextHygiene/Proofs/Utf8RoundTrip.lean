import Mathlib.Data.List.Basic
import TextHygiene.Utf8

/-! Decoding reads exactly what encoding writes. `IsSequence` lists the byte sequences of single
characters; the decoder reads each of them as its character and takes no other, so that the
well-formed byte strings are the encoded texts. -/

namespace TextHygiene.Utf8

/-! ## The sequences of single characters -/

/-- A byte that goes on with a character. -/
def IsTail (b : UInt8) : Prop := 0x80 ≤ b.toNat ∧ b.toNat ≤ 0xBF

/-- A byte sequence of a character and the number of that character. The second byte is kept from
overlong forms, surrogates and numbers above U+10FFFF. -/
inductive IsSequence : Nat → Bytes → Prop
  | one {a : UInt8} : a.toNat < 0x80 → IsSequence a.toNat [a]
  | two {a b : UInt8} : 0xC2 ≤ a.toNat → a.toNat ≤ 0xDF → IsTail b →
      IsSequence ((a.toNat - 0xC0) * 64 + (b.toNat - 0x80)) [a, b]
  | three {a b c : UInt8} : 0xE0 ≤ a.toNat → a.toNat ≤ 0xEF → IsTail b → IsTail c →
      (a.toNat = 0xE0 → 0xA0 ≤ b.toNat) → (a.toNat = 0xED → b.toNat ≤ 0x9F) →
      IsSequence (((a.toNat - 0xE0) * 64 + (b.toNat - 0x80)) * 64 + (c.toNat - 0x80)) [a, b, c]
  | four {a b c d : UInt8} : 0xF0 ≤ a.toNat → a.toNat ≤ 0xF4 → IsTail b → IsTail c → IsTail d →
      (a.toNat = 0xF0 → 0x90 ≤ b.toNat) → (a.toNat = 0xF4 → b.toNat ≤ 0x8F) →
      IsSequence ((((a.toNat - 0xF0) * 64 + (b.toNat - 0x80)) * 64 + (c.toNat - 0x80)) * 64 +
        (d.toNat - 0x80)) [a, b, c, d]

/-! ## What the decoder makes of them -/

/-- The range of the next byte of an open character. -/
def Open.Admits (o : Open) (b : UInt8) : Prop := o.low ≤ b ∧ b ≤ o.high

theorem Open.admits_iff_isTail {bits missing : Nat} {b : UInt8} :
    Admits ⟨bits, missing, 0x80, 0xBF⟩ b ↔ IsTail b := Iff.rfl

theorem lead?_two {a : UInt8} (h : 0xC2 ≤ a.toNat) (h' : a.toNat ≤ 0xDF) :
    lead? a = some ⟨a.toNat - 0xC0, 1, 0x80, 0xBF⟩ := by
  simp only [lead?, UInt8.lt_iff_toNat_lt, UInt8.reduceToNat]
  rw [if_neg (by omega), if_pos (by omega)]

theorem lead?_three {a : UInt8} (h : 0xE0 ≤ a.toNat) (h' : a.toNat ≤ 0xEF) :
    ∃ low high, lead? a = some ⟨a.toNat - 0xE0, 2, low, high⟩ ∧
      ∀ b, Open.Admits ⟨a.toNat - 0xE0, 2, low, high⟩ b ↔
        IsTail b ∧ (a.toNat = 0xE0 → 0xA0 ≤ b.toNat) ∧ (a.toNat = 0xED → b.toNat ≤ 0x9F) := by
  simp only [lead?, UInt8.lt_iff_toNat_lt, UInt8.le_iff_toNat_le, ← UInt8.toNat_inj,
    UInt8.reduceToNat, IsTail, Open.Admits]
  rw [if_neg (by omega), if_neg (by omega)]
  split
  · exact ⟨0xA0, 0xBF, by simp [*], fun b => by simp only [UInt8.reduceToNat]; omega⟩
  split
  · exact ⟨0x80, 0x9F, by simp [*], fun b => by simp only [UInt8.reduceToNat]; omega⟩
  · rw [if_pos (by omega)]
    exact ⟨0x80, 0xBF, rfl, fun b => by simp only [UInt8.reduceToNat]; omega⟩

theorem lead?_four {a : UInt8} (h : 0xF0 ≤ a.toNat) (h' : a.toNat ≤ 0xF4) :
    ∃ low high, lead? a = some ⟨a.toNat - 0xF0, 3, low, high⟩ ∧
      ∀ b, Open.Admits ⟨a.toNat - 0xF0, 3, low, high⟩ b ↔
        IsTail b ∧ (a.toNat = 0xF0 → 0x90 ≤ b.toNat) ∧ (a.toNat = 0xF4 → b.toNat ≤ 0x8F) := by
  simp only [lead?, UInt8.lt_iff_toNat_lt, UInt8.le_iff_toNat_le, ← UInt8.toNat_inj,
    UInt8.reduceToNat, IsTail, Open.Admits]
  rw [if_neg (by omega), if_neg (by omega), if_neg (by omega), if_neg (by omega),
    if_neg (by omega)]
  split
  · exact ⟨0x90, 0xBF, by simp [*], fun b => by simp only [UInt8.reduceToNat]; omega⟩
  split
  · exact ⟨0x80, 0xBF, rfl, fun b => by simp only [UInt8.reduceToNat]; omega⟩
  · have ha : a.toNat = 0xF4 := by omega
    exact ⟨0x80, 0x8F, by simp [ha], fun b => by simp only [UInt8.reduceToNat]; omega⟩

theorem lead?_eq_none {a : UInt8} (h : a.toNat < 0xC2 ∨ 0xF4 < a.toNat) : lead? a = none := by
  simp only [lead?, UInt8.lt_iff_toNat_lt, ← UInt8.toNat_inj, UInt8.reduceToNat]
  rcases h with h | h
  · rw [if_pos h]
  · rw [if_neg (by omega), if_neg (by omega), if_neg (by omega), if_neg (by omega),
      if_neg (by omega), if_neg (by omega), if_neg (by omega), if_neg (by omega)]

theorem isAscii_iff {b : UInt8} : Byte.isAscii b = true ↔ b.toNat < 0x80 := by
  simp [Byte.isAscii, UInt8.lt_iff_toNat_lt]

theorem piecesFrom_ascii {a : UInt8} (h : a.toNat < 0x80) (rest : Bytes) :
    piecesFrom none (a :: rest) = some (Char.ofNat a.toNat) :: piecesFrom none rest := by
  simp [piecesFrom, feed, start, isAscii_iff.mpr h]

theorem piecesFrom_lead {a : UInt8} (h : 0x80 ≤ a.toNat) {o : Open} (hlead : lead? a = some o)
    (rest : Bytes) : piecesFrom none (a :: rest) = piecesFrom (some o) rest := by
  have hascii : ¬ Byte.isAscii a = true := fun ha => Nat.not_lt_of_le h (isAscii_iff.mp ha)
  simp [piecesFrom, feed, start, hascii, hlead]

theorem piecesFrom_last {bits : Nat} {low high b : UInt8} (h : Open.Admits ⟨bits, 1, low, high⟩ b)
    (rest : Bytes) : piecesFrom (some ⟨bits, 1, low, high⟩) (b :: rest) =
      some (Char.ofNat (bits * 64 + (b.toNat - 0x80))) :: piecesFrom none rest := by
  have hrange : low ≤ b ∧ b ≤ high := h
  simp [piecesFrom, feed, hrange]

theorem piecesFrom_more {bits m : Nat} {low high b : UInt8}
    (h : Open.Admits ⟨bits, m + 2, low, high⟩ b) (rest : Bytes) :
    piecesFrom (some ⟨bits, m + 2, low, high⟩) (b :: rest) =
      piecesFrom (some ⟨bits * 64 + (b.toNat - 0x80), m + 1, 0x80, 0xBF⟩) rest := by
  have hrange : low ≤ b ∧ b ≤ high := h
  simp [piecesFrom, feed, hrange]

theorem piecesFrom_of_isSequence {n : Nat} {bs : Bytes} (h : IsSequence n bs) (rest : Bytes) :
    piecesFrom none (bs ++ rest) = some (Char.ofNat n) :: piecesFrom none rest := by
  cases h with
  | one ha => exact piecesFrom_ascii ha rest
  | two ha ha' hb =>
    rw [List.cons_append, List.cons_append, List.nil_append,
      piecesFrom_lead (by omega) (lead?_two ha ha'),
      piecesFrom_last (Open.admits_iff_isTail.mpr hb)]
  | three ha ha' hb hc hlow hhigh =>
    obtain ⟨low, high, hlead, hadmits⟩ := lead?_three ha ha'
    rw [List.cons_append, List.cons_append, List.cons_append, List.nil_append,
      piecesFrom_lead (by omega) hlead,
      piecesFrom_more ((hadmits _).mpr ⟨hb, hlow, hhigh⟩),
      piecesFrom_last (Open.admits_iff_isTail.mpr hc)]
  | four ha ha' hb hc hd hlow hhigh =>
    obtain ⟨low, high, hlead, hadmits⟩ := lead?_four ha ha'
    rw [List.cons_append, List.cons_append, List.cons_append, List.cons_append, List.nil_append,
      piecesFrom_lead (by omega) hlead,
      piecesFrom_more ((hadmits _).mpr ⟨hb, hlow, hhigh⟩),
      piecesFrom_more (Open.admits_iff_isTail.mpr hc),
      piecesFrom_last (Open.admits_iff_isTail.mpr hd)]

/-- An open character goes on, or else it is an ill-formed run. -/
theorem exists_admitted {o : Open} {bs : Bytes} (h : none ∉ piecesFrom (some o) bs) :
    ∃ b rest, bs = b :: rest ∧ o.Admits b := by
  cases bs with
  | nil => exact absurd (List.mem_singleton_self _) h
  | cons b rest =>
    by_cases hrange : o.low ≤ b ∧ b ≤ o.high
    · exact ⟨b, rest, rfl, hrange⟩
    · exact absurd (by simp [piecesFrom, feed, hrange]) h

theorem exists_isSequence {a : UInt8} {bs : Bytes} (h : none ∉ piecesFrom none (a :: bs)) :
    ∃ n seq rest, a :: bs = seq ++ rest ∧ IsSequence n seq := by
  by_cases hascii : a.toNat < 0x80
  · exact ⟨_, [a], bs, rfl, .one hascii⟩
  have hge : 0x80 ≤ a.toNat := Nat.le_of_not_lt hascii
  by_cases hlead : a.toNat < 0xC2 ∨ 0xF4 < a.toNat
  · have hnot : ¬ Byte.isAscii a = true := fun ha => hascii (isAscii_iff.mp ha)
    exact absurd (by simp [piecesFrom, feed, start, hnot, lead?_eq_none hlead]) h
  by_cases htwo : a.toNat ≤ 0xDF
  · have hc2 : 0xC2 ≤ a.toNat := by omega
    rw [piecesFrom_lead hge (lead?_two hc2 htwo)] at h
    obtain ⟨b, rest, rfl, hb⟩ := exists_admitted h
    exact ⟨_, [a, b], rest, rfl, .two hc2 htwo (Open.admits_iff_isTail.mp hb)⟩
  by_cases hthree : a.toNat ≤ 0xEF
  · obtain ⟨low, high, heq, hadmits⟩ := lead?_three (a := a) (by omega) hthree
    rw [piecesFrom_lead hge heq] at h
    obtain ⟨b, rest, rfl, hb⟩ := exists_admitted h
    rw [piecesFrom_more hb] at h
    obtain ⟨c, rest, rfl, hc⟩ := exists_admitted h
    obtain ⟨hb, hlow, hhigh⟩ := (hadmits b).mp hb
    exact ⟨_, [a, b, c], rest, rfl,
      .three (by omega) hthree hb (Open.admits_iff_isTail.mp hc) hlow hhigh⟩
  · have hf0 : 0xF0 ≤ a.toNat ∧ a.toNat ≤ 0xF4 := by omega
    obtain ⟨low, high, heq, hadmits⟩ := lead?_four hf0.1 hf0.2
    rw [piecesFrom_lead hge heq] at h
    obtain ⟨b, rest, rfl, hb⟩ := exists_admitted h
    rw [piecesFrom_more hb] at h
    obtain ⟨c, rest, rfl, hc⟩ := exists_admitted h
    rw [piecesFrom_more hc] at h
    obtain ⟨d, rest, rfl, hd⟩ := exists_admitted h
    obtain ⟨hb, hlow, hhigh⟩ := (hadmits b).mp hb
    exact ⟨_, [a, b, c, d], rest, rfl, .four hf0.1 hf0.2 hb (Open.admits_iff_isTail.mp hc)
      (Open.admits_iff_isTail.mp hd) hlow hhigh⟩

/-! ## What the encoder writes -/

theorem toNat_ofNat_byte {n : Nat} (h : n < 256) : (UInt8.ofNat n).toNat = n :=
  UInt8.toNat_ofNat_of_lt' h

/-- The number of a character is not that of a surrogate and not above U+10FFFF. -/
theorem toNat_valid (c : Char) : c.toNat < 0xD800 ∨ 0xDFFF < c.toNat ∧ c.toNat < 0x110000 := c.valid

theorem isSequence_encodeChar (c : Char) : IsSequence c.toNat (String.utf8EncodeChar c) := by
  have hvalid := toNat_valid c
  have hval : c.val.toNat = c.toNat := rfl
  simp only [String.utf8EncodeChar, hval]
  generalize c.toNat = v at hvalid ⊢
  split
  · have ha : (UInt8.ofNat v).toNat = v := toNat_ofNat_byte (by omega)
    have h := IsSequence.one (a := UInt8.ofNat v) (by omega)
    rwa [ha] at h
  split
  · have ha : (UInt8.ofNat (v / 64 % 32 + 192)).toNat = v / 64 % 32 + 192 :=
      toNat_ofNat_byte (by omega)
    have hb : (UInt8.ofNat (v % 64 + 128)).toNat = v % 64 + 128 := toNat_ofNat_byte (by omega)
    have h := IsSequence.two (a := UInt8.ofNat (v / 64 % 32 + 192))
      (b := UInt8.ofNat (v % 64 + 128)) (by omega) (by omega) ⟨by omega, by omega⟩
    have hv : (v / 64 % 32 + 192 - 0xC0) * 64 + (v % 64 + 128 - 0x80) = v := by omega
    rwa [ha, hb, hv] at h
  split
  · have ha : (UInt8.ofNat (v / 4096 % 16 + 224)).toNat = v / 4096 % 16 + 224 :=
      toNat_ofNat_byte (by omega)
    have hb : (UInt8.ofNat (v / 64 % 64 + 128)).toNat = v / 64 % 64 + 128 :=
      toNat_ofNat_byte (by omega)
    have hc : (UInt8.ofNat (v % 64 + 128)).toNat = v % 64 + 128 := toNat_ofNat_byte (by omega)
    have h := IsSequence.three (a := UInt8.ofNat (v / 4096 % 16 + 224))
      (b := UInt8.ofNat (v / 64 % 64 + 128)) (c := UInt8.ofNat (v % 64 + 128))
      (by omega) (by omega) ⟨by omega, by omega⟩ ⟨by omega, by omega⟩ (by omega) (by omega)
    have hv : ((v / 4096 % 16 + 224 - 0xE0) * 64 + (v / 64 % 64 + 128 - 0x80)) * 64 +
        (v % 64 + 128 - 0x80) = v := by omega
    rwa [ha, hb, hc, hv] at h
  · have ha : (UInt8.ofNat (v / 262144 % 8 + 240)).toNat = v / 262144 % 8 + 240 :=
      toNat_ofNat_byte (by omega)
    have hb : (UInt8.ofNat (v / 4096 % 64 + 128)).toNat = v / 4096 % 64 + 128 :=
      toNat_ofNat_byte (by omega)
    have hc : (UInt8.ofNat (v / 64 % 64 + 128)).toNat = v / 64 % 64 + 128 :=
      toNat_ofNat_byte (by omega)
    have hd : (UInt8.ofNat (v % 64 + 128)).toNat = v % 64 + 128 := toNat_ofNat_byte (by omega)
    have h := IsSequence.four (a := UInt8.ofNat (v / 262144 % 8 + 240))
      (b := UInt8.ofNat (v / 4096 % 64 + 128)) (c := UInt8.ofNat (v / 64 % 64 + 128))
      (d := UInt8.ofNat (v % 64 + 128)) (by omega) (by omega) ⟨by omega, by omega⟩
      ⟨by omega, by omega⟩ ⟨by omega, by omega⟩ (by omega) (by omega)
    have hv : (((v / 262144 % 8 + 240 - 0xF0) * 64 + (v / 4096 % 64 + 128 - 0x80)) * 64 +
        (v / 64 % 64 + 128 - 0x80)) * 64 + (v % 64 + 128 - 0x80) = v := by omega
    rwa [ha, hb, hc, hd, hv] at h

theorem toNat_ofNat_char {n : Nat} (h : n.isValidChar) : (Char.ofNat n).toNat = n := by
  rw [Char.ofNat, dif_pos h]
  rfl

theorem ofNat_eq_byte {n : Nat} {b : UInt8} (h : n = b.toNat) : UInt8.ofNat n = b := by
  rw [h, UInt8.ofNat_toNat]

theorem isValidChar_of_isSequence {n : Nat} {bs : Bytes} (h : IsSequence n bs) :
    n.isValidChar := by
  cases h with
  | one => exact .inl (by omega)
  | two => exact .inl (by simp only [IsTail] at *; omega)
  | three => simp only [IsTail, Nat.isValidChar] at *; omega
  | four => simp only [IsTail, Nat.isValidChar] at *; omega

/-- A sequence of bytes is the encoding of its character. -/
theorem encodeChar_of_isSequence {n : Nat} {bs : Bytes} (h : IsSequence n bs) :
    String.utf8EncodeChar (Char.ofNat n) = bs := by
  have hval : (Char.ofNat n).val.toNat = n := toNat_ofNat_char (isValidChar_of_isSequence h)
  simp only [String.utf8EncodeChar, hval]
  cases h with
  | one ha => rw [if_pos (by omega), ofNat_eq_byte rfl]
  | two ha ha' hb =>
    obtain ⟨hb, hb'⟩ := hb
    rw [if_neg (by omega), if_pos (by omega)]
    simp only [List.cons.injEq, and_true]
    exact ⟨ofNat_eq_byte (by omega), ofNat_eq_byte (by omega)⟩
  | three ha ha' hb hc hlow hhigh =>
    obtain ⟨hb, hb'⟩ := hb
    obtain ⟨hc, hc'⟩ := hc
    rw [if_neg (by omega), if_neg (by omega), if_pos (by omega)]
    simp only [List.cons.injEq, and_true]
    exact ⟨ofNat_eq_byte (by omega), ofNat_eq_byte (by omega), ofNat_eq_byte (by omega)⟩
  | four ha ha' hb hc hd hlow hhigh =>
    obtain ⟨hb, hb'⟩ := hb
    obtain ⟨hc, hc'⟩ := hc
    obtain ⟨hd, hd'⟩ := hd
    rw [if_neg (by omega), if_neg (by omega), if_neg (by omega)]
    simp only [List.cons.injEq, and_true]
    exact ⟨ofNat_eq_byte (by omega), ofNat_eq_byte (by omega), ofNat_eq_byte (by omega),
      ofNat_eq_byte (by omega)⟩

theorem ascii_or_above_of_isSequence {n : Nat} {bs : Bytes} (h : IsSequence n bs) :
    (n < 0x80 ∧ bs = [UInt8.ofNat n]) ∨ (0x80 ≤ n ∧ ∀ a ∈ bs, 0x80 ≤ a.toNat) := by
  cases h with
  | one ha => exact .inl ⟨ha, by rw [UInt8.ofNat_toNat]⟩
  | two => simp only [IsTail] at *; simp; omega
  | three => simp only [IsTail] at *; simp; omega
  | four => simp only [IsTail] at *; simp; omega

/-- An ASCII byte stands in an encoded character only when it is that character. -/
theorem count_encodeChar {b : UInt8} (hb : b.toNat < 0x80) (c : Char) :
    (String.utf8EncodeChar c).count b = [c].count (Char.ofNat b.toNat) := by
  have hchar : c = Char.ofNat b.toNat ↔ c.toNat = b.toNat := by
    constructor
    · rintro rfl
      exact toNat_ofNat_char (.inl (by omega))
    · intro h
      rw [← h, Char.ofNat_toNat]
  simp only [List.count_singleton, beq_iff_eq, hchar]
  rcases ascii_or_above_of_isSequence (isSequence_encodeChar c) with ⟨hc, heq⟩ | ⟨hc, habove⟩
  · have hbyte : UInt8.ofNat c.toNat = b ↔ c.toNat = b.toNat := by
      rw [← UInt8.toNat_inj, toNat_ofNat_byte (by omega)]
    simp only [heq, List.count_singleton, beq_iff_eq, hbyte]
  · rw [if_neg (by omega), List.count_eq_zero]
    exact fun hmem => Nat.not_le_of_lt hb (habove b hmem)

/-! ## Texts -/

theorem encode_append (cs ds : List Char) : encode (cs ++ ds) = encode cs ++ encode ds :=
  List.flatMap_append

theorem pieces_encode_append (cs : List Char) (bs : Bytes) :
    pieces (encode cs ++ bs) = cs.map some ++ pieces bs := by
  induction cs with
  | nil => rfl
  | cons c rest ih =>
    rw [encode, List.flatMap_cons, ← encode, List.append_assoc, pieces,
      piecesFrom_of_isSequence (isSequence_encodeChar c), Char.ofNat_toNat, ← pieces, ih,
      List.map_cons, List.cons_append]

theorem pieces_encode (cs : List Char) : pieces (encode cs) = cs.map some := by
  have h := pieces_encode_append cs []
  rwa [List.append_nil, show pieces [] = [] from rfl, List.append_nil] at h

theorem count_encode {b : UInt8} (hb : b.toNat < 0x80) (cs : List Char) :
    (encode cs).count b = cs.count (Char.ofNat b.toNat) := by
  induction cs with
  | nil => rfl
  | cons c rest ih =>
    rw [encode, List.flatMap_cons, ← encode, List.count_append, count_encodeChar hb, ih,
      ← List.count_append, List.singleton_append]

theorem mem_encode_iff {b : UInt8} (hb : b.toNat < 0x80) {cs : List Char} :
    b ∈ encode cs ↔ Char.ofNat b.toNat ∈ cs := by
  rw [← List.count_pos_iff, count_encode hb, List.count_pos_iff]

/-- A byte string without an ill-formed run starts with an encoded character. -/
theorem exists_eq_encodeChar_append {a : UInt8} {bs : Bytes} (h : none ∉ pieces (a :: bs)) :
    ∃ c rest, a :: bs = String.utf8EncodeChar c ++ rest ∧
      pieces (a :: bs) = some c :: pieces rest := by
  obtain ⟨n, seq, rest, heq, hseq⟩ := exists_isSequence h
  refine ⟨Char.ofNat n, rest, ?_, ?_⟩
  · rw [encodeChar_of_isSequence hseq, heq]
  · rw [heq, pieces, piecesFrom_of_isSequence hseq, ← pieces]

/-- What is read without an ill-formed run was written. -/
theorem eq_encode_of_pieces {bs : Bytes} {cs : List Char} (h : pieces bs = cs.map some) :
    bs = encode cs := by
  have hwhole : none ∉ pieces bs := by simp [h]
  induction cs generalizing bs with
  | nil =>
    cases bs with
    | nil => rfl
    | cons a bs =>
      obtain ⟨c, rest, -, hpieces⟩ := exists_eq_encodeChar_append hwhole
      rw [hpieces] at h
      cases h
  | cons c cs ih =>
    cases bs with
    | nil => cases h
    | cons a bs =>
      obtain ⟨d, rest, heq, hpieces⟩ := exists_eq_encodeChar_append hwhole
      rw [hpieces, List.map_cons, List.cons.injEq, Option.some.injEq] at h
      obtain ⟨rfl, hrest⟩ := h
      rw [heq, encode, List.flatMap_cons, ← encode, ← ih hrest (by simp [hrest])]

/-- Texts of which one is encoded at the front of the other start with the same characters. -/
theorem exists_append_of_encode_append {cs front : List Char} {bs : Bytes}
    (h : encode front ++ bs = encode cs) : ∃ more, front ++ more = cs ∧ encode more = bs := by
  have hpieces := pieces_encode cs
  rw [← h, pieces_encode_append, eq_comm] at hpieces
  obtain ⟨front', more, rfl, hfront, hmore⟩ := List.map_eq_append_iff.mp hpieces
  obtain rfl := (List.map_inj_right fun _ _ => Option.some.inj).mp hfront
  exact ⟨more, rfl, (eq_encode_of_pieces hmore.symm).symm⟩

/-- The well-formed byte strings are the encoded texts, each of which is read as the text it is. -/
theorem decode?_eq_some_iff {bs : Bytes} {cs : List Char} :
    decode? bs = some cs ↔ bs = encode cs := by
  constructor
  · intro h
    simp only [decode?] at h
    split at h
    · rename_i hall
      obtain rfl := Option.some.inj h
      apply eq_encode_of_pieces
      have hsome : ∀ p ∈ pieces bs, (id p).map some = some p := by
        intro p hp
        obtain ⟨c, rfl⟩ := Option.isSome_iff_exists.mp (List.all_eq_true.mp hall p hp)
        rfl
      rw [List.map_filterMap, List.filterMap_congr hsome, List.filterMap_some]
    · cases h
  · rintro rfl
    simp [decode?, pieces_encode, Function.comp_def]

theorem isSome_decode?_iff {bs : Bytes} : (decode? bs).isSome ↔ ∃ cs, bs = encode cs := by
  rw [Option.isSome_iff_exists]
  simp only [decode?_eq_some_iff]

end TextHygiene.Utf8
