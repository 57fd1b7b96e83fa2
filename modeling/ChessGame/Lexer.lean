import ChessGame.Lib.Utf8
import ChessGame.Json
/-!
# The tokens of a JSON text

The lexer of `json.hpp`. A text is read byte by byte; its strings are checked to be
UTF-8 while they are read. `toFloat` is what `dump` writes for the `double` that
`strtod` reads, and `none` if that is not finite.
-/
open Utf8

namespace ChessGame

namespace Json

/-- `token_type`, with what the lexer keeps for the token. A number is the text that `dump` writes for it. -/
inductive Token where
  | beginArray | endArray | beginObject | endObject | nameSeparator | valueSeparator
  | literalTrue | literalFalse | literalNull
  | valueString (buffer : List Byte)
  | valueNumber (text : String)
  | endOfInput
  | parseError
  deriving DecidableEq, Repr

/-! ## Strings -/

/-- The value of a hexadecimal digit. -/
def hexValue (b : Byte) : Option ℕ :=
  if 48 ≤ b ∧ b ≤ 57 then some (b.toNat - 0x30)
  else if 65 ≤ b ∧ b ≤ 70 then some (b.toNat - 0x37)
  else if 97 ≤ b ∧ b ≤ 102 then some (b.toNat - 0x57)
  else none

/-- `get_codepoint`, after `\u`; `none` is the source's -1. -/
def getCodepoint : List Byte → Option (ℕ × List Byte)
  | a :: b :: c :: d :: rest => do
    let a ← hexValue a
    let b ← hexValue b
    let c ← hexValue c
    let d ← hexValue d
    some (a * 0x1000 + b * 0x100 + c * 0x10 + d, rest)
  | _ => none

/-- The code point after `\u`, from one unit or from two surrogates. -/
def getUnicode (input : List Byte) : Option (ℕ × List Byte) := do
  let (codepoint1, rest) ← getCodepoint input
  if 0xD800 ≤ codepoint1 ∧ codepoint1 ≤ 0xDBFF then
    match rest with
    | 92 :: 117 :: rest => do
      let (codepoint2, rest) ← getCodepoint rest
      if 0xDC00 ≤ codepoint2 ∧ codepoint2 ≤ 0xDFFF then
        some (codepoint1 * 0x400 + codepoint2 - 0x35FDC00, rest)
      else none
    | _ => none
  else if 0xDC00 ≤ codepoint1 ∧ codepoint1 ≤ 0xDFFF then none
  else some (codepoint1, rest)

/-- What stands after a backslash: the bytes that are added, and the rest. -/
def getEscaped : List Byte → Option (List Byte × List Byte)
  | 34 :: rest => some ([34], rest)
  | 92 :: rest => some ([92], rest)
  | 47 :: rest => some ([47], rest)
  | 98 :: rest => some ([8], rest)
  | 102 :: rest => some ([12], rest)
  | 110 :: rest => some ([10], rest)
  | 114 :: rest => some ([13], rest)
  | 116 :: rest => some ([9], rest)
  | 117 :: rest => (getUnicode rest).map fun (codepoint, rest) => (encodeNat codepoint, rest)
  | _ => none

/-- `scan_string`, after the opening quote. Each turn of the loop takes at least a byte. -/
def scanString : ℕ → List Byte → List Byte → Option (List Byte × List Byte)
  | 0, _, _ => none
  | _, _, [] => none
  | n + 1, buffer, b :: rest =>
    if b = 34 then some (buffer, rest)
    else if b = 92 then
      match getEscaped rest with
      | some (added, rest) => scanString n (buffer ++ added) rest
      | none => none
    else if b < 0x20 then none
    else
      match following b with
      | none => none
      | some bounds =>
        match take bounds rest with
        | some (taken, rest) => scanString n (buffer ++ b :: taken) rest
        | none => none

/-! ## Numbers -/

/-- The labels of `scan_number`. -/
inductive NumberState where
  | minus | zero | any1 | decimal1 | decimal2 | exponent | sign | any2
  deriving DecidableEq, Repr

def isDigitByte (b : Byte) : Bool := 48 ≤ b && b ≤ 57

/-- `'e'` or `'E'` -/
def isExponent (b : Byte) : Bool := b = 101 || b = 69

namespace NumberState

/-- Where the next byte leads; `none` if it is not part of the number. -/
def next : NumberState → Byte → Option NumberState
  | minus, b => if b = 48 then some zero else if isDigitByte b then some any1 else none
  | zero, b => if b = 46 then some decimal1 else if isExponent b then some exponent else none
  | any1, b =>
    if isDigitByte b then some any1 else if b = 46 then some decimal1 else if isExponent b then some exponent else none
  | decimal1, b => if isDigitByte b then some decimal2 else none
  | decimal2, b => if isDigitByte b then some decimal2 else if isExponent b then some exponent else none
  | exponent, b => if b = 43 || b = 45 then some sign else if isDigitByte b then some any2 else none
  | sign, b => if isDigitByte b then some any2 else none
  | any2, b => if isDigitByte b then some any2 else none

/-- Whether the number may end here. -/
def done : NumberState → Bool
  | zero | any1 | decimal2 | any2 => true
  | _ => false

/-- Whether a decimal point or an exponent has been read by then. -/
def isFloat : NumberState → Bool
  | minus | zero | any1 => false
  | _ => true

end NumberState

/-- The bytes of the number, where it ended and the rest. -/
def scanDigits : NumberState → List Byte → List Byte → Option (NumberState × List Byte × List Byte)
  | st, buffer, [] => if st.done then some (st, buffer, []) else none
  | st, buffer, b :: rest =>
    match st.next b with
    | some st => scanDigits st (buffer ++ [b]) rest
    | none => if st.done then some (st, buffer, b :: rest) else none

/-- The value of some digits. -/
def digitsValue (bytes : List Byte) : ℕ := bytes.foldl (fun n b => 10 * n + (b.toNat - 48)) 0

/-- The integer in the buffer, if it is one and has 64 bits: `strtoull`, `strtoll` -/
def toInteger (st : NumberState) (buffer : List Byte) : Option ℤ :=
  if st.isFloat then none
  else
    match buffer with
    | 45 :: digits => if digitsValue digits ≤ 2 ^ 63 then some (-(digitsValue digits : ℤ)) else none
    | digits => if digitsValue digits < 2 ^ 64 then some (digitsValue digits : ℤ) else none

/-- `scan_number`, with its first byte. -/
def scanNumber (toFloat : List Byte → Option String) (b : Byte) (rest : List Byte) : Token × List Byte :=
  let st := if b = 45 then .minus else if b = 48 then .zero else NumberState.any1
  match scanDigits st [b] rest with
  | none => (.parseError, [])
  | some (st, buffer, rest) =>
    match toInteger st buffer with
    | some x => (.valueNumber (toString x), rest)
    | none =>
      match toFloat buffer with
      | some text => (.valueNumber text, rest)
      | none => (.parseError, [])

/-! ## Tokens -/

/-- `scan_literal`, after the first byte. -/
def scanLiteral (literal : List Byte) (type : Token) (rest : List Byte) : Token × List Byte :=
  if literal <+: rest then (type, rest.drop literal.length) else (.parseError, [])

/-- `skip_whitespace` -/
def isSpace (b : Byte) : Bool := b = 32 || b = 9 || b = 10 || b = 13

/-- `scan`, after white space. -/
def scanToken (toFloat : List Byte → Option String) : List Byte → Token × List Byte
  | [] => (.endOfInput, [])
  | b :: rest =>
    match b with
    | 91 => (.beginArray, rest)
    | 93 => (.endArray, rest)
    | 123 => (.beginObject, rest)
    | 125 => (.endObject, rest)
    | 58 => (.nameSeparator, rest)
    | 44 => (.valueSeparator, rest)
    | 116 => scanLiteral (utf8 "rue") .literalTrue rest
    | 102 => scanLiteral (utf8 "alse") .literalFalse rest
    | 110 => scanLiteral (utf8 "ull") .literalNull rest
    | 34 =>
      match scanString (rest.length + 1) [] rest with
      | some (buffer, rest) => (.valueString buffer, rest)
      | none => (.parseError, [])
    | 0 => (.endOfInput, rest)
    | b => if b = 45 || isDigitByte b then scanNumber toFloat b rest else (.parseError, [])

/-- `skip_bom` -/
def skipBom : List Byte → Option (List Byte)
  | 0xEF :: 0xBB :: 0xBF :: rest => some rest
  | 0xEF :: _ => none
  | input => some input

/-- The tokens up to the end of the input or the first that is none. Each takes at least a byte. -/
def tokens (toFloat : List Byte → Option String) : ℕ → List Byte → List Token
  | 0, _ => []
  | n + 1, input =>
    match scanToken toFloat (input.dropWhile isSpace) with
    | (.endOfInput, _) => [.endOfInput]
    | (.parseError, _) => [.parseError]
    | (token, rest) => token :: tokens toFloat n rest

/-! ## Progress -/

variable {toFloat : List Byte → Option String} {n m : ℕ} {b : Byte} {buffer added input rest rest' : List Byte}
  {token : Token}

theorem getCodepoint_length {codepoint : ℕ} (h : getCodepoint input = some (codepoint, rest)) :
    rest.length < input.length := by
  unfold getCodepoint at h
  split at h
  · simp only [Option.bind_eq_bind, Option.bind_eq_some_iff, Option.some.injEq, Prod.mk.injEq] at h
    obtain ⟨_, -, _, -, _, -, _, -, -, rfl⟩ := h
    simp only [List.length_cons]
    omega
  · cases h

theorem getUnicode_length {codepoint : ℕ} (h : getUnicode input = some (codepoint, rest)) :
    rest.length < input.length := by
  unfold getUnicode at h
  obtain ⟨⟨codepoint1, rest1⟩, h1, h⟩ := Option.bind_eq_some_iff.1 h
  have hlt := getCodepoint_length h1
  dsimp only at h
  split_ifs at h
  · split at h
    · obtain ⟨⟨codepoint2, rest2⟩, h2, h⟩ := Option.bind_eq_some_iff.1 h
      have hlt' := getCodepoint_length h2
      simp only [List.length_cons] at hlt
      dsimp only at h
      split_ifs at h
      obtain ⟨-, rfl⟩ := Prod.mk.inj (Option.some.inj h)
      omega
    · cases h
  · cases h
    exact hlt

theorem getEscaped_length (h : getEscaped input = some (added, rest)) : rest.length < input.length := by
  unfold getEscaped at h
  split at h
  case h_9 =>
    obtain ⟨⟨codepoint, rest'⟩, hu, heq⟩ := Option.map_eq_some_iff.1 h
    cases heq
    exact (getUnicode_length hu).trans (Nat.lt_succ_self _)
  case h_10 => cases h
  all_goals
    simp only [Option.some.injEq, Prod.mk.injEq] at h
    obtain ⟨-, rfl⟩ := h
    exact Nat.lt_succ_self _

theorem scanString_length (h : scanString n buffer input = some (added, rest)) : rest.length < input.length := by
  induction n generalizing buffer input with
  | zero => cases h
  | succ n ih =>
    cases input with
    | nil => cases h
    | cons b input =>
      rw [scanString] at h
      split_ifs at h
      · cases h
        exact Nat.lt_succ_self _
      · split at h
        · rename_i hescaped
          exact (ih h).trans ((getEscaped_length hescaped).trans (Nat.lt_succ_self _))
        · cases h
      · split at h
        · cases h
        · split at h
          · rename_i htake
            obtain ⟨rfl, -⟩ := take_eq_some.1 htake
            have hlt := ih h
            rw [List.length_cons, List.length_append]
            omega
          · cases h

theorem scanDigits_length {st st' : NumberState} (h : scanDigits st buffer input = some (st', added, rest)) :
    rest.length ≤ input.length := by
  induction input generalizing st buffer with
  | nil =>
    rw [scanDigits] at h
    split_ifs at h
    cases h
    exact le_refl _
  | cons b input ih =>
    rw [scanDigits] at h
    split at h
    · exact (ih h).trans (Nat.le_succ _)
    · split_ifs at h
      cases h
      exact le_refl _

/-- A token that the lexer can go on after. -/
def Token.Proper (token : Token) : Prop := token ≠ .endOfInput ∧ token ≠ .parseError

theorem scanLiteral_length {literal : List Byte} {type : Token} (h : scanLiteral literal type input = (token, rest))
    (ht : token.Proper) : rest.length ≤ input.length := by
  unfold scanLiteral at h
  split_ifs at h <;> cases h
  · rw [List.length_drop]
    omega
  · exact absurd rfl ht.2

theorem scanNumber_length (h : scanNumber toFloat b input = (token, rest)) (ht : token.Proper) :
    rest.length ≤ input.length := by
  unfold scanNumber at h
  dsimp only at h
  split at h
  · cases h
    exact absurd rfl ht.2
  · rename_i hdigits
    have hlt := scanDigits_length hdigits
    split at h
    · cases h
      exact hlt
    · split at h <;> cases h
      · exact hlt
      · exact absurd rfl ht.2

/-- A token takes at least a byte. -/
theorem scanToken_length (h : scanToken toFloat input = (token, rest)) (ht : token.Proper) :
    rest.length < input.length := by
  unfold scanToken at h
  split at h
  · cases h
    exact absurd rfl ht.1
  rename_i b input
  rw [List.length_cons, Nat.lt_succ_iff]
  split at h
  case h_7 | h_8 | h_9 => exact scanLiteral_length h ht
  case h_10 =>
    split at h <;> cases h
    · rename_i hstring
      exact (scanString_length hstring).le
    · exact absurd rfl ht.2
  case h_11 =>
    cases h
    exact absurd rfl ht.1
  case h_12 =>
    split_ifs at h
    · exact scanNumber_length h ht
    · cases h
      exact absurd rfl ht.2
  all_goals
    cases h
    exact le_refl _

/-- The tokens of a text. -/
def lex (toFloat : List Byte → Option String) (input : List Byte) : List Token :=
  tokens toFloat (input.length + 1) input

theorem tokens_eq_lex (h : input.length < n) : tokens toFloat n input = lex toFloat input := by
  have hfuel : ∀ n m input, input.length < n → input.length < m → tokens toFloat n input = tokens toFloat m input := by
    intro n
    induction n with
    | zero => exact fun m input h => absurd h (Nat.not_lt_zero _)
    | succ n ih =>
      intro m input hn hm
      obtain ⟨m, rfl⟩ := Nat.exists_eq_succ_of_ne_zero (Nat.ne_of_gt (Nat.zero_lt_of_lt hm))
      rw [tokens, tokens]
      split
      · rfl
      · rfl
      · rename_i token rest hend herror hscan
        have hlt := scanToken_length hscan ⟨hend, herror⟩
        have hle := (List.dropWhile_suffix isSpace (l := input)).length_le
        rw [ih m rest (by omega) (by omega)]
  exact hfuel n (input.length + 1) input h (Nat.lt_succ_self _)

theorem lex_cons (h : scanToken toFloat (input.dropWhile isSpace) = (token, rest)) (ht : token.Proper) :
    lex toFloat input = token :: lex toFloat rest := by
  have hlt := scanToken_length h ht
  have hle := (List.dropWhile_suffix isSpace (l := input)).length_le
  rw [lex, tokens, h]
  split
  · rename_i he
    cases he
    exact absurd rfl ht.1
  · rename_i he
    cases he
    exact absurd rfl ht.2
  · rename_i he
    cases he
    rw [tokens_eq_lex (by omega)]

theorem lex_nil : lex toFloat [] = [.endOfInput] := rfl

/-! ## What `dump` writes -/

theorem hexValue_hexDigit {d : ℕ} (h : d < 16) : hexValue (hexDigit d) = some d := by
  interval_cases d <;> decide

theorem getEscaped_hex {k : ℕ} (hk : k ≤ 0x1F) (rest : List Byte) :
    getEscaped (117 :: 48 :: 48 :: hexDigit (k / 16) :: hexDigit (k % 16) :: rest) = some ([UInt8.ofNat k], rest) := by
  have hzero : hexValue 48 = some 0 := by decide
  have hcode : getCodepoint (48 :: 48 :: hexDigit (k / 16) :: hexDigit (k % 16) :: rest) = some (k, rest) := by
    simp only [getCodepoint, hzero, hexValue_hexDigit (show k / 16 < 16 by omega),
      hexValue_hexDigit (show k % 16 < 16 by omega), Option.bind_eq_bind, Option.bind_some]
    exact congrArg (fun n => some (n, rest)) (by omega)
  have hunicode : getUnicode (48 :: 48 :: hexDigit (k / 16) :: hexDigit (k % 16) :: rest) = some (k, rest) := by
    rw [getUnicode, hcode, Option.bind_eq_bind, Option.bind_some]
    dsimp only
    rw [if_neg (by omega), if_neg (by omega)]
  have hone : encodeNat k = [UInt8.ofNat k] := if_pos (by omega)
  rw [getEscaped, hunicode, Option.map_some]
  dsimp only
  rw [hone]

theorem scanString_plain (c : Char) (hc : 0x1F < c.toNat) (hquote : c.toNat ≠ 34) (hslash : c.toNat ≠ 92) (n : ℕ)
    (buffer rest : List Byte) : scanString (n + 1) buffer (String.utf8EncodeChar c ++ rest) =
      scanString n (buffer ++ String.utf8EncodeChar c) rest := by
  have hshape := shape c
  obtain ⟨a, bytes, he, bounds, hbounds, hwithin⟩ := begins_encode c
  rw [he] at hshape ⊢
  have ha : 0x1F < a.toNat ∧ a.toNat ≠ 34 ∧ a.toNat ≠ 92 := by cases hshape <;> omega
  have htake : take bounds (bytes ++ rest) = some (bytes, rest) := take_eq_some.2 ⟨rfl, hwithin⟩
  rw [List.cons_append, scanString, if_neg, if_neg, if_neg, hbounds]
  · dsimp only
    rw [htake]
  · rw [UInt8.lt_iff_toNat_lt]
    simp only [UInt8.reduceToNat]
    omega
  · rw [← UInt8.toNat_inj]
    exact ha.2.2
  · rw [← UInt8.toNat_inj]
    exact ha.2.1

/-- One escaped character is read back in one turn. -/
theorem scanString_escape (c : Char) (n : ℕ) (buffer rest : List Byte) :
    scanString (n + 1) buffer (escape c ++ rest) = scanString n (buffer ++ String.utf8EncodeChar c) rest := by
  have hcode : ∀ {k}, c.toNat = k → String.utf8EncodeChar c = encodeNat k := fun hk => hk ▸ utf8EncodeChar_eq c
  unfold escape
  split
  case h_8 k _ _ _ _ _ hquote hslash =>
    split
    · rename_i hk
      have hone : encodeNat c.toNat = [UInt8.ofNat c.toNat] := if_pos (by omega)
      rw [utf8EncodeChar_eq, hone]
      show scanString (n + 1) buffer
        (92 :: (117 :: 48 :: 48 :: hexDigit (c.toNat / 16) :: hexDigit (c.toNat % 16) :: rest)) = _
      rw [scanString, if_neg (by decide), if_pos rfl, getEscaped_hex hk]
    · exact scanString_plain c (by omega) hquote hslash n buffer rest
  all_goals
    rename_i hk
    rw [hcode hk]
    rfl

theorem scanString_quoted (s : String) (rest : List Byte) :
    scanString (s.toList.flatMap escape ++ 34 :: rest).length.succ [] (s.toList.flatMap escape ++ 34 :: rest) =
      some (utf8 s, rest) := by
  have hall : ∀ (cs : List Char) n buffer, cs.length < n →
      scanString n buffer (cs.flatMap escape ++ 34 :: rest) = some (buffer ++ cs.flatMap String.utf8EncodeChar,
        rest) := by
    intro cs
    induction cs with
    | nil =>
      intro n buffer hn
      obtain ⟨n, rfl⟩ := Nat.exists_eq_succ_of_ne_zero (Nat.ne_of_gt hn)
      rw [List.flatMap_nil, List.nil_append, scanString, if_pos rfl, List.flatMap_nil, List.append_nil]
    | cons c cs ih =>
      intro n buffer hn
      obtain ⟨n, rfl⟩ := Nat.exists_eq_succ_of_ne_zero (Nat.ne_of_gt (Nat.zero_lt_of_lt hn))
      rw [List.flatMap_cons, List.append_assoc, scanString_escape, ih n _ (Nat.lt_of_succ_lt_succ hn),
        List.flatMap_cons, List.append_assoc]
  have hescape : ∀ cs : List Char, cs.length ≤ (cs.flatMap escape).length := by
    intro cs
    induction cs with
    | nil => exact le_refl _
    | cons c cs ih =>
      have hpos : 0 < (escape c).length := by
        have hne : escape c ≠ [] := by
          intro hnil
          have hturn := scanString_escape c 1 [] [34]
          rw [hnil] at hturn
          obtain ⟨a, bytes, he, -⟩ := begins_encode c
          rw [he] at hturn
          simp [scanString] at hturn
        exact List.length_pos_iff.2 hne
      rw [List.flatMap_cons, List.length_append, List.length_cons]
      omega
  have hlen := hescape s.toList
  rw [hall s.toList _ [] (by rw [List.length_append]; omega)]
  rfl

/-- A number may end before these bytes. -/
def Stops (rest : List Byte) : Prop := ∀ b ∈ rest.head?, isDigitByte b = false ∧ b ≠ 46 ∧ isExponent b = false

/-- The text is read back as it is. -/
def Number (toFloat : List Byte → Option String) (text : String) : Prop :=
  ∃ b bytes, utf8 text = b :: bytes ∧ (b = 45 ∨ isDigitByte b = true) ∧
    ∀ rest, Stops rest → scanNumber toFloat b (bytes ++ rest) = (.valueNumber text, rest)

theorem lex_string (s : String) (rest : List Byte) :
    lex toFloat (quoted s ++ rest) = .valueString (utf8 s) :: lex toFloat rest := by
  have hquoted : quoted s ++ rest = 34 :: (s.toList.flatMap escape ++ 34 :: rest) := by
    unfold quoted
    simp only [List.append_assoc]
    rfl
  rw [hquoted]
  apply lex_cons
  · show scanToken toFloat (34 :: (s.toList.flatMap escape ++ 34 :: rest)) = _
    unfold scanToken
    simp only [scanString_quoted]
  · simp [Token.Proper]

/-- A digit or a minus sign begins a number, and nothing else. -/
theorem scanToken_number (hb : b = 45 ∨ isDigitByte b = true) (rest : List Byte) :
    scanToken toFloat ((b :: rest).dropWhile isSpace) = scanNumber toFloat b rest := by
  have hrange : b.toNat = 45 ∨ 48 ≤ b.toNat ∧ b.toNat ≤ 57 := by
    simp only [isDigitByte, Bool.and_eq_true, decide_eq_true_eq, ← UInt8.toNat_inj, UInt8.le_iff_toNat_le] at hb
    exact hb
  have hcases : b = 45 ∨ b = 48 ∨ b = 49 ∨ b = 50 ∨ b = 51 ∨ b = 52 ∨ b = 53 ∨ b = 54 ∨ b = 55 ∨ b = 56 ∨ b = 57 := by
    simp only [← UInt8.toNat_inj, UInt8.reduceToNat]
    omega
  rcases hcases with rfl | rfl | rfl | rfl | rfl | rfl | rfl | rfl | rfl | rfl | rfl <;> rfl

theorem lex_number {text : String} (h : Number toFloat text) (hrest : Stops rest) :
    lex toFloat (utf8 text ++ rest) = .valueNumber text :: lex toFloat rest := by
  obtain ⟨b, bytes, he, hb, hscan⟩ := h
  rw [he, List.cons_append]
  refine lex_cons ?_ (by simp [Token.Proper])
  rw [scanToken_number hb, hscan rest hrest]

/-! ## Integers -/

theorem Stops.nil : Stops [] := by
  intro b hb
  cases hb

theorem stops_cons (h : isDigitByte b = false ∧ b ≠ 46 ∧ isExponent b = false) (rest : List Byte) :
    Stops (b :: rest) := by
  intro b' hb'
  cases hb'
  exact h

/-- The digits are read to the end. -/
theorem scanDigits_any1 {digits : List Byte} (h : ∀ b ∈ digits, isDigitByte b = true) (hrest : Stops rest)
    (buffer : List Byte) : scanDigits .any1 buffer (digits ++ rest) = some (.any1, buffer ++ digits, rest) := by
  induction digits generalizing buffer with
  | nil =>
    rw [List.append_nil, List.nil_append]
    cases rest with
    | nil => rfl
    | cons b rest =>
      obtain ⟨hdigit, hpoint, hexp⟩ := hrest b rfl
      have hnext : NumberState.any1.next b = none := by simp [NumberState.next, hdigit, hpoint, hexp]
      rw [scanDigits, hnext]
      rfl
  | cons b digits ih =>
    obtain ⟨hb, hdigits⟩ := List.forall_mem_cons.1 h
    have hnext : NumberState.any1.next b = some .any1 := by simp [NumberState.next, hb]
    rw [List.cons_append, scanDigits, hnext]
    dsimp only
    rw [ih hdigits, List.append_assoc]
    rfl

theorem scanDigits_zero (hrest : Stops rest) (buffer : List Byte) :
    scanDigits .zero buffer rest = some (.zero, buffer, rest) := by
  cases rest with
  | nil => rfl
  | cons b rest =>
    obtain ⟨-, hpoint, hexp⟩ := hrest b rfl
    have hnext : NumberState.zero.next b = none := by simp [NumberState.next, hpoint, hexp]
    rw [scanDigits, hnext]
    rfl

/-- The digits of a number, as bytes. -/
def natBytes (n : ℕ) : List Byte := (Nat.toDigits 10 n).map fun c => UInt8.ofNat c.toNat

theorem utf8_digits {cs : List Char} (h : ∀ c ∈ cs, c.isDigit = true) :
    cs.flatMap String.utf8EncodeChar = cs.map fun c => UInt8.ofNat c.toNat := by
  induction cs with
  | nil => rfl
  | cons c cs ih =>
    obtain ⟨hc, hcs⟩ := List.forall_mem_cons.1 h
    have hle : c.toNat ≤ 0x7F := by
      simp only [Char.isDigit, Bool.and_eq_true, decide_eq_true_eq, ge_iff_le, UInt32.le_iff_toNat_le] at hc
      have hnine : c.toNat ≤ 57 := hc.2
      omega
    have hone : encodeNat c.toNat = [UInt8.ofNat c.toNat] := if_pos hle
    rw [List.flatMap_cons, ih hcs, utf8EncodeChar_eq, hone]
    rfl

theorem utf8_nat (k : ℕ) : utf8 (toString k) = natBytes k := by
  rw [utf8, Nat.toString_eq_ofList_toDigits, String.toList_ofList]
  exact utf8_digits fun c hc => Nat.isDigit_of_mem_toDigits (by decide) (by decide) hc

theorem natBytes_digits {k : ℕ} (hb : b ∈ natBytes k) : isDigitByte b = true := by
  obtain ⟨c, hc, rfl⟩ := List.mem_map.1 hb
  have hdigit := Nat.isDigit_of_mem_toDigits (by decide) (by decide) hc
  simp only [Char.isDigit, Bool.and_eq_true, decide_eq_true_eq, ge_iff_le, UInt32.le_iff_toNat_le] at hdigit
  have hzero : 48 ≤ c.toNat := hdigit.1
  have hnine : c.toNat ≤ 57 := hdigit.2
  simp only [isDigitByte, Bool.and_eq_true, decide_eq_true_eq, UInt8.le_iff_toNat_le, UInt8.toNat_ofNat',
    UInt8.reduceToNat]
  omega

theorem digitsValue_natBytes (k : ℕ) : digitsValue (natBytes k) = k := by
  have hfold : ∀ (cs : List Char) n, (∀ c ∈ cs, c.isDigit = true) →
      (cs.map fun c => UInt8.ofNat c.toNat).foldl (fun n b =>
        10 * n + (b.toNat - 48)) n = Nat.ofDigitChars 10 cs n := by
    intro cs
    induction cs with
    | nil => exact fun n _ => rfl
    | cons c cs ih =>
      intro n h
      obtain ⟨hc, hcs⟩ := List.forall_mem_cons.1 h
      simp only [Char.isDigit, Bool.and_eq_true, decide_eq_true_eq, ge_iff_le, UInt32.le_iff_toNat_le] at hc
      have hnine : c.toNat ≤ 57 := hc.2
      have hbyte : (UInt8.ofNat c.toNat).toNat = c.toNat := by
        rw [UInt8.toNat_ofNat']
        omega
      rw [List.map_cons, List.foldl_cons, ih _ hcs, hbyte, Nat.ofDigitChars_cons]
      rfl
  rw [digitsValue, natBytes, hfold _ 0 fun c hc => Nat.isDigit_of_mem_toDigits (by decide) (by decide) hc,
    Nat.ofDigitChars_ten_toDigits]

/-- A number other than 0 does not begin with a zero. -/
theorem natBytes_head {k : ℕ} (hk : 0 < k) : ∃ b bytes, natBytes k = b :: bytes ∧ b ≠ 48 := by
  have hhead : ∃ c cs, Nat.toDigits 10 k = c :: cs ∧ UInt8.ofNat c.toNat ≠ 48 := by
    induction k using Nat.strong_induction_on with
    | _ k ih =>
      by_cases hlt : k < 10
      · rw [Nat.toDigits_of_lt_base hlt]
        refine ⟨_, [], rfl, ?_⟩
        interval_cases k <;> decide
      · obtain ⟨c, cs, he, hne⟩ := ih (k / 10) (by omega) (by omega)
        rw [Nat.toDigits_of_base_le (by decide) (by omega), he]
        exact ⟨c, _, rfl, hne⟩
  obtain ⟨c, cs, he, hne⟩ := hhead
  exact ⟨_, _, by rw [natBytes, he, List.map_cons], hne⟩

/-- `scan_number` reads the digits of a number. -/
theorem scanDigits_nat {k : ℕ} {bytes : List Byte} (he : natBytes k = b :: bytes) (hrest : Stops rest)
    (buffer : List Byte) :
    ∃ st, scanDigits (if b = 48 then .zero else .any1) buffer (bytes ++ rest) = some (st, buffer ++ bytes, rest) ∧
      st.isFloat = false := by
  have hdigits : ∀ b' ∈ bytes, isDigitByte b' = true := fun b' hb' =>
    natBytes_digits (by rw [he]; exact List.mem_cons_of_mem _ hb')
  by_cases hk : k = 0
  · have hzero : natBytes 0 = [48] := by decide
    rw [hk, hzero] at he
    cases he
    exact ⟨.zero, by rw [if_pos rfl, List.nil_append, scanDigits_zero hrest, List.append_nil], rfl⟩
  · obtain ⟨b', bytes', he', hne⟩ := natBytes_head (Nat.pos_of_ne_zero hk)
    cases he.symm.trans he'
    exact ⟨.any1, by rw [if_neg hne, scanDigits_any1 hdigits hrest], rfl⟩

theorem natBytes_cons (k : ℕ) : ∃ b bytes, natBytes k = b :: bytes := by
  refine List.exists_cons_of_ne_nil ?_
  rw [natBytes, Ne, List.map_eq_nil_iff]
  exact Nat.toDigits_ne_nil

theorem isDigitByte_ne {c : Byte} (h : isDigitByte b = true) (hc : isDigitByte c = false) : b ≠ c := by
  rintro rfl
  rw [h] at hc
  cases hc

theorem toInteger_nat {st : NumberState} (hst : st.isFloat = false) {k : ℕ} (hk : k < 2 ^ 64) :
    toInteger st (natBytes k) = some (k : ℤ) := by
  have hminus : ∀ digits, natBytes k ≠ 45 :: digits := fun digits heq =>
    isDigitByte_ne (natBytes_digits (by rw [heq]; exact List.mem_cons_self)) (by decide) rfl
  rw [toInteger, hst, if_neg Bool.false_ne_true, digitsValue_natBytes, if_pos hk]
  exact hminus

theorem toInteger_neg {st : NumberState} (hst : st.isFloat = false) {k : ℕ} (hk : k ≤ 2 ^ 63) :
    toInteger st (45 :: natBytes k) = some (-(k : ℤ)) := by
  rw [toInteger, hst, if_neg Bool.false_ne_true, digitsValue_natBytes, if_pos hk]

theorem utf8_neg {k : ℕ} (hpos : 0 < k) : utf8 (toString (-(k : ℤ))) = 45 :: natBytes k := by
  obtain ⟨j, rfl⟩ := Nat.exists_eq_succ_of_ne_zero hpos.ne'
  have hneg : toString (-((j + 1 : ℕ) : ℤ)) = "-" ++ toString (j + 1) := rfl
  rw [hneg, utf8, String.toList_append, List.flatMap_append]
  show 45 :: utf8 (toString (j + 1)) = _
  rw [utf8_nat]

/-- The text of an integer is converted to the integer. -/
theorem toInteger_toString {st : NumberState} (hst : st.isFloat = false) {x : ℤ} (hlow : -2 ^ 63 ≤ x)
    (hhigh : x < 2 ^ 64) :
    toInteger st (utf8 (toString x)) = some x := by
  rcases lt_or_ge x 0 with hneg | hpos
  · obtain ⟨k, rfl⟩ : ∃ k : ℕ, x = -(k : ℤ) := ⟨x.natAbs, by omega⟩
    rw [utf8_neg (by omega), toInteger_neg hst (by omega)]
  · obtain ⟨k, rfl⟩ := Int.eq_ofNat_of_zero_le hpos
    show toInteger st (utf8 (toString k)) = _
    rw [utf8_nat, toInteger_nat hst (by omega)]

theorem number_nat {k : ℕ} (hk : k < 2 ^ 64) : Number toFloat (toString k) := by
  obtain ⟨b, bytes, he⟩ := natBytes_cons k
  have hb : isDigitByte b = true := natBytes_digits (by rw [he]; exact List.mem_cons_self)
  have hminus : b ≠ 45 := isDigitByte_ne hb (by decide)
  refine ⟨b, bytes, by rw [utf8_nat, he], .inr hb, fun rest hrest => ?_⟩
  obtain ⟨st, hscan, hst⟩ := scanDigits_nat he hrest [b]
  have hint : toInteger st (b :: bytes) = some (k : ℤ) := he ▸ toInteger_nat hst hk
  unfold scanNumber
  simp only [if_neg hminus, hscan, List.singleton_append, hint]
  rfl

theorem number_neg {k : ℕ} (hk : k ≤ 2 ^ 63) (hpos : 0 < k) : Number toFloat (toString (-(k : ℤ))) := by
  obtain ⟨b, bytes, he⟩ := natBytes_cons k
  have hb : isDigitByte b = true := natBytes_digits (by rw [he]; exact List.mem_cons_self)
  refine ⟨45, b :: bytes, by rw [utf8_neg hpos, he], .inl rfl, fun rest hrest => ?_⟩
  obtain ⟨st, hscan, hst⟩ := scanDigits_nat he hrest [45, b]
  have hint : toInteger st (45 :: b :: bytes) = some (-(k : ℤ)) := he ▸ toInteger_neg hst hk
  have hnext : NumberState.minus.next b = some (if b = 48 then .zero else .any1) := by
    show (if b = 48 then some NumberState.zero else if isDigitByte b then some NumberState.any1 else none) = _
    rw [if_pos hb]
    split_ifs <;> rfl
  unfold scanNumber
  simp only [if_true, List.cons_append, scanDigits, hnext, List.nil_append] at hscan ⊢
  simp only [hscan, hint]

theorem number_int {x : ℤ} (hlow : -2 ^ 63 ≤ x) (hhigh : x < 2 ^ 64) : Number toFloat (toString x) := by
  rcases lt_or_ge x 0 with hneg | hpos
  · obtain ⟨k, rfl⟩ : ∃ k : ℕ, x = -(k : ℤ) := ⟨x.natAbs, by omega⟩
    exact number_neg (by omega) (by omega)
  · obtain ⟨k, rfl⟩ := Int.eq_ofNat_of_zero_le hpos
    exact number_nat (by omega)

/-! ## What is read -/

/-- What `dump` writes for a `double` is read back as the same `double`. -/
def FloatsKept (toFloat : List Byte → Option String) : Prop :=
  ∀ buffer text, toFloat buffer = some text → Number toFloat text

theorem toInteger_range {st : NumberState} {x : ℤ} (h : toInteger st buffer = some x) : -2 ^ 63 ≤ x ∧ x < 2 ^ 64 := by
  unfold toInteger at h
  split at h
  · cases h
  split at h
  · split_ifs at h
    cases h
    omega
  · split_ifs at h
    cases h
    omega

theorem scanNumber_noString {buffer : List Byte} : scanNumber toFloat b input ≠ (.valueString buffer, rest) := by
  intro h
  unfold scanNumber at h
  dsimp only at h
  split at h
  · cases h
  split at h
  · cases h
  · split at h <;> cases h

/-- A number that is read is written so that it is read back. -/
theorem scanNumber_number (hfloat : FloatsKept toFloat) {text : String}
    (h : scanNumber toFloat b input = (.valueNumber text, rest)) : Number toFloat text := by
  unfold scanNumber at h
  dsimp only at h
  split at h
  · cases h
  split at h
  · rename_i hint
    cases h
    exact number_int (toInteger_range hint).1 (toInteger_range hint).2
  · split at h
    · rename_i htext
      cases h
      exact hfloat _ _ htext
    · cases h

theorem getCodepoint_lt {codepoint : ℕ} (h : getCodepoint input = some (codepoint, rest)) : codepoint < 0x10000 := by
  have hdigit : ∀ {b d}, hexValue b = some d → d < 16 := by
    intro b d hd
    have hb := b.toNat_lt
    simp only [hexValue, UInt8.le_iff_toNat_le, UInt8.reduceToNat] at hd
    split_ifs at hd <;> cases hd <;> omega
  unfold getCodepoint at h
  split at h
  · simp only [Option.bind_eq_bind, Option.bind_eq_some_iff, Option.some.injEq, Prod.mk.injEq] at h
    obtain ⟨a, ha, b, hb, c, hc, d, hd, rfl, -⟩ := h
    have := hdigit ha
    have := hdigit hb
    have := hdigit hc
    have := hdigit hd
    omega
  · cases h

/-- Surrogates come in pairs, so what is read is a code point. -/
theorem getUnicode_valid {codepoint : ℕ} (h : getUnicode input = some (codepoint, rest)) :
    codepoint < 0xD800 ∨ 0xDFFF < codepoint ∧ codepoint < 0x110000 := by
  unfold getUnicode at h
  obtain ⟨⟨codepoint1, rest1⟩, h1, h⟩ := Option.bind_eq_some_iff.1 h
  have hlt := getCodepoint_lt h1
  dsimp only at h
  split_ifs at h with hhigh hlow
  · split at h
    · obtain ⟨⟨codepoint2, rest2⟩, -, h⟩ := Option.bind_eq_some_iff.1 h
      dsimp only at h
      split_ifs at h with hpair
      obtain ⟨rfl, -⟩ := Prod.mk.inj (Option.some.inj h)
      omega
    · cases h
  · obtain ⟨rfl, -⟩ := Prod.mk.inj (Option.some.inj h)
    omega

/-- The bytes are UTF-8. -/
def Encoded (bytes : List Byte) : Prop := ∃ cs, bytes = encode cs

theorem Encoded.append (h : Encoded buffer) {c : Char} (he : added = String.utf8EncodeChar c) :
    Encoded (buffer ++ added) := by
  obtain ⟨cs, rfl⟩ := h
  exact ⟨cs ++ [c], by rw [he, encode, encode, List.flatMap_append, List.flatMap_singleton]⟩

theorem getEscaped_encoded (h : getEscaped input = some (added, rest)) : ∃ c, added = String.utf8EncodeChar c := by
  unfold getEscaped at h
  split at h
  case h_9 =>
    obtain ⟨⟨codepoint, rest'⟩, hu, heq⟩ := Option.map_eq_some_iff.1 h
    obtain ⟨rfl, -⟩ := Prod.mk.inj heq
    exact ⟨Char.ofNat codepoint, by rw [utf8EncodeChar_eq, toNat_ofNat (getUnicode_valid hu)]⟩
  case h_10 => cases h
  case h_1 => exact ⟨'"', (Prod.mk.inj (Option.some.inj h)).1.symm⟩
  case h_2 => exact ⟨'\\', (Prod.mk.inj (Option.some.inj h)).1.symm⟩
  case h_3 => exact ⟨'/', (Prod.mk.inj (Option.some.inj h)).1.symm⟩
  case h_4 => exact ⟨Char.ofNat 8, (Prod.mk.inj (Option.some.inj h)).1.symm⟩
  case h_5 => exact ⟨Char.ofNat 12, (Prod.mk.inj (Option.some.inj h)).1.symm⟩
  case h_6 => exact ⟨'\n', (Prod.mk.inj (Option.some.inj h)).1.symm⟩
  case h_7 => exact ⟨Char.ofNat 13, (Prod.mk.inj (Option.some.inj h)).1.symm⟩
  case h_8 => exact ⟨'\t', (Prod.mk.inj (Option.some.inj h)).1.symm⟩

/-- A string that is read is UTF-8, whatever bytes came. -/
theorem scanString_encoded (hbuffer : Encoded buffer) (h : scanString n buffer input = some (added, rest)) :
    Encoded added := by
  induction n generalizing buffer input with
  | zero => cases h
  | succ n ih =>
    cases input with
    | nil => cases h
    | cons b input =>
      rw [scanString] at h
      split_ifs at h
      · cases h
        exact hbuffer
      · split at h
        · rename_i hescaped
          obtain ⟨c, hc⟩ := getEscaped_encoded hescaped
          exact ih (hbuffer.append hc) h
        · cases h
      · split at h
        · cases h
        · rename_i bounds hbounds
          split at h
          · rename_i htake
            obtain ⟨-, hwithin⟩ := take_eq_some.1 htake
            obtain ⟨c, hc⟩ := Begins.encoded ⟨bounds, hbounds, hwithin⟩
            exact ih (hbuffer.append hc.symm) h
          · cases h

end Json

end ChessGame
