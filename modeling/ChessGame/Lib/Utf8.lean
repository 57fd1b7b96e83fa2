import Mathlib
/-!
# UTF-8

Which bytes may follow one another in an encoded text, and that exactly the encoded
characters are made of such bytes.
-/

namespace Utf8

/-- The bounds of a byte. -/
abbrev Bounds := UInt8 × UInt8

/-- A byte that is not the first of its character. -/
def tail : Bounds := (0x80, 0xBF)

/-- What may follow the first byte of a character; `none` if no character begins with it. -/
def following (b : UInt8) : Option (List Bounds) :=
  if b ≤ 0x7F then some []
  else if 0xC2 ≤ b ∧ b ≤ 0xDF then some [tail]
  else if b = 0xE0 then some [(0xA0, 0xBF), tail]
  else if 0xE1 ≤ b ∧ b ≤ 0xEC ∨ b = 0xEE ∨ b = 0xEF then some [tail, tail]
  else if b = 0xED then some [(0x80, 0x9F), tail]
  else if b = 0xF0 then some [(0x90, 0xBF), tail, tail]
  else if 0xF1 ≤ b ∧ b ≤ 0xF3 then some [tail, tail, tail]
  else if b = 0xF4 then some [(0x80, 0x8F), tail, tail]
  else none

/-- Reads a byte for each pair of bounds. -/
def take : List Bounds → List UInt8 → Option (List UInt8 × List UInt8)
  | [], bytes => some ([], bytes)
  | _ :: _, [] => none
  | bounds :: rest, b :: bytes =>
    if bounds.1 ≤ b ∧ b ≤ bounds.2 then (take rest bytes).map fun x => (b :: x.1, x.2) else none

/-- The characters of an encoded text. -/
def decode : List UInt8 → List Char
  | [] => []
  | a :: bytes =>
    if a.toNat < 0x80 then Char.ofNat a.toNat :: decode bytes
    else
      match bytes with
      | [] => []
      | b :: bytes =>
        if a.toNat < 0xE0 then Char.ofNat (a.toNat % 32 * 64 + b.toNat % 64) :: decode bytes
        else
          match bytes with
          | [] => []
          | c :: bytes =>
            if a.toNat < 0xF0 then
              Char.ofNat (a.toNat % 16 * 4096 + b.toNat % 64 * 64 + c.toNat % 64) :: decode bytes
            else
              match bytes with
              | [] => []
              | d :: bytes =>
                Char.ofNat (a.toNat % 8 * 262144 + b.toNat % 64 * 4096 + c.toNat % 64 * 64 + d.toNat % 64) ::
                  decode bytes

/-- The bytes of a text. -/
def encode (cs : List Char) : List UInt8 := cs.flatMap String.utf8EncodeChar

variable {a b : UInt8} {bytes rest taken : List UInt8} {bounds : List Bounds}

/-- One byte for each pair of bounds, within them. -/
def Within (bytes : List UInt8) (bounds : List Bounds) : Prop :=
  List.Forall₂ (fun b x => x.1 ≤ b ∧ b ≤ x.2) bytes bounds

theorem take_eq_some : take bounds bytes = some (taken, rest) ↔ bytes = taken ++ rest ∧ Within taken bounds := by
  induction bounds generalizing bytes taken with
  | nil =>
    rw [take, Option.some.injEq, Prod.mk.injEq, Within, List.forall₂_nil_right_iff]
    constructor
    · rintro ⟨rfl, rfl⟩
      exact ⟨rfl, rfl⟩
    · rintro ⟨rfl, rfl⟩
      exact ⟨rfl, rfl⟩
  | cons x bounds ih =>
    cases bytes with
    | nil =>
      rw [take]
      constructor
      · intro h
        cases h
      · rintro ⟨he, hw⟩
        obtain ⟨rfl, -⟩ := List.append_eq_nil_iff.1 he.symm
        cases hw
    | cons b bytes =>
      rw [take]
      constructor
      · intro h
        split at h
        · rename_i hb
          obtain ⟨⟨taken', rest'⟩, htake, heq⟩ := Option.map_eq_some_iff.1 h
          cases heq
          obtain ⟨rfl, hw⟩ := ih.1 htake
          exact ⟨rfl, .cons hb hw⟩
        · cases h
      · rintro ⟨he, hw⟩
        cases hw with
        | @cons b' _ taken' _ hb hw =>
          rw [List.cons_append, List.cons.injEq] at he
          obtain ⟨rfl, rfl⟩ := he
          rw [if_pos hb, ih.2 ⟨rfl, hw⟩, Option.map_some]

/-! ## One character -/

/-- The bytes of the code point with this number. -/
def encodeNat (n : ℕ) : List UInt8 :=
  if n ≤ 0x7F then [UInt8.ofNat n]
  else if n ≤ 0x7FF then [UInt8.ofNat (n / 64 % 0x20 + 0xC0), UInt8.ofNat (n % 0x40 + 0x80)]
  else if n ≤ 0xFFFF then
    [UInt8.ofNat (n / 4096 % 0x10 + 0xE0), UInt8.ofNat (n / 64 % 0x40 + 0x80), UInt8.ofNat (n % 0x40 + 0x80)]
  else
    [UInt8.ofNat (n / 262144 % 0x08 + 0xF0), UInt8.ofNat (n / 4096 % 0x40 + 0x80), UInt8.ofNat (n / 64 % 0x40 + 0x80),
      UInt8.ofNat (n % 0x40 + 0x80)]

theorem utf8EncodeChar_eq (c : Char) : String.utf8EncodeChar c = encodeNat c.toNat := rfl

/-- Code points are not surrogates. -/
theorem char_range (c : Char) : c.toNat < 0xD800 ∨ 0xDFFF < c.toNat ∧ c.toNat < 0x110000 := c.valid

theorem toNat_ofNat {n : ℕ} (h : n < 0xD800 ∨ 0xDFFF < n ∧ n < 0x110000) : (Char.ofNat n).toNat = n := by
  have hvalid : n.isValidChar := h
  simp [Char.ofNat, hvalid, Char.toNat, Char.ofNatAux]

theorem following_toNat (b : UInt8) : following b =
    if b.toNat ≤ 0x7F then some []
    else if 0xC2 ≤ b.toNat ∧ b.toNat ≤ 0xDF then some [tail]
    else if b.toNat = 0xE0 then some [(0xA0, 0xBF), tail]
    else if 0xE1 ≤ b.toNat ∧ b.toNat ≤ 0xEC ∨ b.toNat = 0xEE ∨ b.toNat = 0xEF then some [tail, tail]
    else if b.toNat = 0xED then some [(0x80, 0x9F), tail]
    else if b.toNat = 0xF0 then some [(0x90, 0xBF), tail, tail]
    else if 0xF1 ≤ b.toNat ∧ b.toNat ≤ 0xF3 then some [tail, tail, tail]
    else if b.toNat = 0xF4 then some [(0x80, 0x8F), tail, tail]
    else none := by
  simp only [following, UInt8.le_iff_toNat_le, ← UInt8.toNat_inj]
  rfl

theorem within_one {x : Bounds} : Within bytes [x] ↔ ∃ b, bytes = [b] ∧ x.1.toNat ≤ b.toNat ∧ b.toNat ≤ x.2.toNat := by
  simp only [Within, List.forall₂_cons_right_iff, List.forall₂_nil_right_iff, UInt8.le_iff_toNat_le]
  constructor
  · rintro ⟨b, _, hb, rfl, rfl⟩
    exact ⟨b, rfl, hb⟩
  · rintro ⟨b, rfl, hb⟩
    exact ⟨b, [], hb, rfl, rfl⟩

theorem within_cons {x : Bounds} : Within bytes (x :: bounds) ↔
    ∃ b bytes', bytes = b :: bytes' ∧ x.1.toNat ≤ b.toNat ∧ b.toNat ≤ x.2.toNat ∧ Within bytes' bounds := by
  simp only [Within, List.forall₂_cons_right_iff, UInt8.le_iff_toNat_le]
  constructor
  · rintro ⟨b, bytes', hb, hrest, rfl⟩
    exact ⟨b, bytes', rfl, hb.1, hb.2, hrest⟩
  · rintro ⟨b, bytes', rfl, hb, hb', hrest⟩
    exact ⟨b, bytes', ⟨hb, hb'⟩, hrest, rfl⟩

/-- A byte and what follows it make a character. -/
def Begins (a : UInt8) (bytes : List UInt8) : Prop := ∃ bounds, following a = some bounds ∧ Within bytes bounds

theorem ofNat_eq {n : ℕ} (h : n % 256 = a.toNat) : UInt8.ofNat n = a := by
  rw [← UInt8.toNat_inj, UInt8.toNat_ofNat', ← h]

variable {c d : UInt8}

theorem encodeNat_two (ha : 0xC2 ≤ a.toNat ∧ a.toNat ≤ 0xDF) (hb : 0x80 ≤ b.toNat ∧ b.toNat ≤ 0xBF) :
    encodeNat (a.toNat % 32 * 64 + b.toNat % 64) = [a, b] := by
  rw [encodeNat, if_neg (by omega), if_pos (by omega), ofNat_eq (a := a) (by omega), ofNat_eq (a := b) (by omega)]

theorem encodeNat_three (ha : 0xE0 ≤ a.toNat ∧ a.toNat ≤ 0xEF) (hb : 0x80 ≤ b.toNat ∧ b.toNat ≤ 0xBF)
    (hc : 0x80 ≤ c.toNat ∧ c.toNat ≤ 0xBF) (h : a.toNat = 0xE0 → 0xA0 ≤ b.toNat) :
    encodeNat (a.toNat % 16 * 4096 + b.toNat % 64 * 64 + c.toNat % 64) = [a, b, c] := by
  rw [encodeNat, if_neg (by omega), if_neg (by omega), if_pos (by omega), ofNat_eq (a := a) (by omega),
    ofNat_eq (a := b) (by omega), ofNat_eq (a := c) (by omega)]

theorem encodeNat_four (ha : 0xF0 ≤ a.toNat ∧ a.toNat ≤ 0xF4) (hb : 0x80 ≤ b.toNat ∧ b.toNat ≤ 0xBF)
    (hc : 0x80 ≤ c.toNat ∧ c.toNat ≤ 0xBF) (hd : 0x80 ≤ d.toNat ∧ d.toNat ≤ 0xBF)
    (h : a.toNat = 0xF0 → 0x90 ≤ b.toNat) :
    encodeNat (a.toNat % 8 * 262144 + b.toNat % 64 * 4096 + c.toNat % 64 * 64 + d.toNat % 64) = [a, b, c, d] := by
  rw [encodeNat, if_neg (by omega), if_neg (by omega), if_neg (by omega), ofNat_eq (a := a) (by omega),
    ofNat_eq (a := b) (by omega), ofNat_eq (a := c) (by omega), ofNat_eq (a := d) (by omega)]

/-- Such bytes encode a character. -/
theorem Begins.encoded (h : Begins a bytes) : ∃ c, String.utf8EncodeChar c = a :: bytes := by
  have hmade : ∀ n, (n < 0xD800 ∨ 0xDFFF < n ∧ n < 0x110000) → encodeNat n = a :: bytes →
      ∃ c, String.utf8EncodeChar c = a :: bytes := by
    intro n hn he
    exact ⟨Char.ofNat n, by rw [utf8EncodeChar_eq, toNat_ofNat hn, he]⟩
  have ha := a.toNat_lt
  obtain ⟨bounds, hbounds, hwithin⟩ := h
  rw [following_toNat] at hbounds
  split_ifs at hbounds with h1 h2 h3 h4 h5 h6 h7 h8 <;> cases hbounds
  · cases hwithin
    refine hmade a.toNat (by omega) ?_
    rw [encodeNat, if_pos h1, UInt8.ofNat_toNat]
  · obtain ⟨b, rfl, hb⟩ := within_one.1 hwithin
    simp only [tail, UInt8.reduceToNat] at hb
    exact hmade _ (by omega) (encodeNat_two h2 hb)
  -- three bytes
  iterate 3
    obtain ⟨b, _, rfl, hb, hb', hrest⟩ := within_cons.1 hwithin
    obtain ⟨c, rfl, hc⟩ := within_one.1 hrest
    simp only [tail, UInt8.reduceToNat] at hb hb' hc
    exact hmade _ (by omega) (encodeNat_three (by omega) (by omega) hc (by omega))
  -- four bytes
  iterate 3
    obtain ⟨b, _, rfl, hb, hb', hrest⟩ := within_cons.1 hwithin
    obtain ⟨c, _, rfl, hc, hc', hlast⟩ := within_cons.1 hrest
    obtain ⟨d, rfl, hd⟩ := within_one.1 hlast
    simp only [tail, UInt8.reduceToNat] at hb hb' hc hc' hd
    exact hmade _ (by omega) (encodeNat_four (by omega) (by omega) (by omega) hd (by omega))

/-- What a character is encoded as, by the number of its bytes. -/
inductive Shape (n : ℕ) : List UInt8 → Prop
  | one {a : UInt8} : a.toNat = n → n ≤ 0x7F → Shape n [a]
  | two {a b : UInt8} : 0xC2 ≤ a.toNat → a.toNat ≤ 0xDF → 0x80 ≤ b.toNat → b.toNat ≤ 0xBF →
      n = a.toNat % 32 * 64 + b.toNat % 64 → Shape n [a, b]
  | three {a b c : UInt8} : 0xE0 ≤ a.toNat → a.toNat ≤ 0xEF → 0x80 ≤ b.toNat → b.toNat ≤ 0xBF → 0x80 ≤ c.toNat →
      c.toNat ≤ 0xBF → (a.toNat = 0xE0 → 0xA0 ≤ b.toNat) → (a.toNat = 0xED → b.toNat ≤ 0x9F) →
      n = a.toNat % 16 * 4096 + b.toNat % 64 * 64 + c.toNat % 64 → Shape n [a, b, c]
  | four {a b c d : UInt8} : 0xF0 ≤ a.toNat → a.toNat ≤ 0xF4 → 0x80 ≤ b.toNat → b.toNat ≤ 0xBF → 0x80 ≤ c.toNat →
      c.toNat ≤ 0xBF → 0x80 ≤ d.toNat → d.toNat ≤ 0xBF → (a.toNat = 0xF0 → 0x90 ≤ b.toNat) →
      (a.toNat = 0xF4 → b.toNat ≤ 0x8F) →
      n = a.toNat % 8 * 262144 + b.toNat % 64 * 4096 + c.toNat % 64 * 64 + d.toNat % 64 → Shape n [a, b, c, d]

theorem shape (c : Char) : Shape c.toNat (String.utf8EncodeChar c) := by
  have hc := char_range c
  rw [utf8EncodeChar_eq, encodeNat]
  split_ifs with h1 h2 h3
  · exact .one (by rw [UInt8.toNat_ofNat']; omega) h1
  · apply Shape.two <;> simp only [UInt8.toNat_ofNat'] <;> omega
  · apply Shape.three <;> simp only [UInt8.toNat_ofNat'] <;> omega
  · apply Shape.four <;> simp only [UInt8.toNat_ofNat'] <;> omega

/-- A character is encoded as such bytes. -/
theorem begins_encode (c : Char) : ∃ a bytes, String.utf8EncodeChar c = a :: bytes ∧ Begins a bytes := by
  have hshape := shape c
  generalize String.utf8EncodeChar c = encoded at hshape
  cases hshape with
  | @one a _ ha =>
    refine ⟨a, [], rfl, [], ?_, .nil⟩
    rw [following_toNat, if_pos (by omega)]
  | @two a b ha ha' hb hb' =>
    refine ⟨a, [b], rfl, [tail], ?_, within_one.2 ⟨b, rfl, hb, hb'⟩⟩
    rw [following_toNat, if_neg (by omega), if_pos (by omega)]
  | @three a b c ha ha' hb hb' hc hc' h0 hD =>
    have hbounds : ∃ low high : UInt8, following a = some [(low, high), tail] ∧ low.toNat ≤ b.toNat ∧
        b.toNat ≤ high.toNat := by
      rw [following_toNat, if_neg (by omega), if_neg (by omega)]
      by_cases h : a.toNat = 0xE0
      · exact ⟨0xA0, 0xBF, by rw [if_pos h], h0 h, hb'⟩
      rw [if_neg h]
      by_cases h' : a.toNat = 0xED
      · exact ⟨0x80, 0x9F, by rw [if_neg (by omega), if_pos h'], hb, hD h'⟩
      · exact ⟨0x80, 0xBF, by rw [if_pos (by omega)]; rfl, hb, hb'⟩
    obtain ⟨low, high, hf, hl, hh⟩ := hbounds
    exact ⟨a, [b, c], rfl, _, hf, within_cons.2 ⟨b, [c], rfl, hl, hh, within_one.2 ⟨c, rfl, hc, hc'⟩⟩⟩
  | @four a b c d ha ha' hb hb' hc hc' hd hd' h0 h4 =>
    have hbounds : ∃ low high : UInt8, following a = some [(low, high), tail, tail] ∧ low.toNat ≤ b.toNat ∧
        b.toNat ≤ high.toNat := by
      rw [following_toNat, if_neg (by omega), if_neg (by omega), if_neg (by omega), if_neg (by omega),
        if_neg (by omega)]
      by_cases h : a.toNat = 0xF0
      · exact ⟨0x90, 0xBF, by rw [if_pos h], h0 h, hb'⟩
      rw [if_neg h]
      by_cases h' : a.toNat = 0xF4
      · exact ⟨0x80, 0x8F, by rw [if_neg (by omega), if_pos h'], hb, h4 h'⟩
      · exact ⟨0x80, 0xBF, by rw [if_pos (by omega)]; rfl, hb, hb'⟩
    obtain ⟨low, high, hf, hl, hh⟩ := hbounds
    exact ⟨a, [b, c, d], rfl, _, hf, within_cons.2 ⟨b, [c, d], rfl, hl, hh,
      within_cons.2 ⟨c, [d], rfl, hc, hc', within_one.2 ⟨d, rfl, hd, hd'⟩⟩⟩⟩

/-! ## A text -/

theorem decode_cons (c : Char) (bytes : List UInt8) :
    decode (String.utf8EncodeChar c ++ bytes) = c :: decode bytes := by
  have hn : Char.ofNat c.toNat = c := Char.ofNat_toNat c
  have hshape := shape c
  generalize String.utf8EncodeChar c = encoded at hshape
  rw [decode.eq_def]
  cases hshape with
  | one ha hle =>
    dsimp only [List.singleton_append]
    rw [if_pos (by omega), ha, hn]
  | two ha ha' hb hb' he =>
    dsimp only [List.cons_append, List.nil_append]
    rw [if_neg (by omega), if_pos (by omega), ← he, hn]
  | three ha ha' hb hb' hc hc' _ _ he =>
    dsimp only [List.cons_append, List.nil_append]
    rw [if_neg (by omega), if_neg (by omega), if_pos (by omega), ← he, hn]
  | four ha ha' hb hb' hc hc' hd hd' _ _ he =>
    dsimp only [List.cons_append, List.nil_append]
    rw [if_neg (by omega), if_neg (by omega), if_neg (by omega), ← he, hn]

theorem decode_encode (cs : List Char) : decode (encode cs) = cs := by
  induction cs with
  | nil => rfl
  | cons c cs ih =>
    rw [encode, List.flatMap_cons, decode_cons, ← encode, ih]

end Utf8
