import ChessGame.Lexer
/-!
# Reading a JSON text

`nlohmann::json::parse` of `json.hpp`: `sax_parse_internal`, whose calls
`json_sax_dom_parser` turns into a value. What is parsed can be dumped and parsed again.
-/
open Utf8

namespace ChessGame

namespace Json

/-- A container that is not closed yet, with the key of the member that is being read. -/
inductive Frame where
  | array (items : List Json)
  | object (members : List (String × Json)) (key : String)

/-- The string in the lexer's buffer. -/
def ofBuffer (buffer : List Byte) : String := String.ofList (decode buffer)

/-- What a turn of the loop of `sax_parse_internal` comes to. -/
inductive Turn where
  /-- Into the container, for one more value. -/
  | opened (frame : Frame) (tokens : List Token)
  | value (x : Json) (tokens : List Token)

def Turn.left : Turn → List Token
  | opened _ tokens | value _ tokens => tokens

/-- The switch on `last_token`; `none` is an error. -/
def readValue : Token → List Token → Option Turn
  | .beginObject, .endObject :: tokens => some (.value (.object []) tokens)
  | .beginObject, .valueString key :: .nameSeparator :: tokens => some (.opened (.object [] (ofBuffer key)) tokens)
  | .beginArray, .endArray :: tokens => some (.value (.array []) tokens)
  | .beginArray, tokens => some (.opened (.array []) tokens)
  | .literalNull, tokens => some (.value .null tokens)
  | .literalTrue, tokens => some (.value (.bool true) tokens)
  | .literalFalse, tokens => some (.value (.bool false) tokens)
  | .valueNumber digits, tokens => some (.value (.number digits) tokens)
  | .valueString buffer, tokens => some (.value (.string (ofBuffer buffer)) tokens)
  | _, _ => none

/-- The evaluation of `states` after a value: the next one in the container, or its end. -/
def evaluate : Frame → Json → List Token → Option Turn
  | .array items, x, .valueSeparator :: tokens => some (.opened (.array (items ++ [x])) tokens)
  | .array items, x, .endArray :: tokens => some (.value (.array (items ++ [x])) tokens)
  | .object members key, x, .valueSeparator :: .valueString key' :: .nameSeparator :: tokens =>
    some (.opened (.object (set key x members) (ofBuffer key')) tokens)
  | .object members key, x, .endObject :: tokens => some (.value (.object (set key x members)) tokens)
  | _, _, _ => none

/-- The loop of `sax_parse_internal`, with the end of input that `parse` asks for. Each turn takes at least a token.
After a value the containers are evaluated (`skip_to_state_evaluation`). -/
def build : ℕ → List Frame → Option Json → List Token → Except JsonError Json
  | 0, _, _, _ => .error .parseError
  | _ + 1, _, none, [] => .error .parseError
  | n + 1, stack, none, token :: tokens =>
    match readValue token tokens with
    | some (.opened frame tokens) => build n (frame :: stack) none tokens
    | some (.value x tokens) => build n stack (some x) tokens
    | none => .error .parseError
  | _ + 1, [], some x, tokens => if tokens.head? = some .endOfInput then .ok x else .error .parseError
  | n + 1, frame :: stack, some x, tokens =>
    match evaluate frame x tokens with
    | some (.opened frame tokens) => build n (frame :: stack) none tokens
    | some (.value x tokens) => build n stack (some x) tokens
    | none => .error .parseError

def run (stack : List Frame) (done : Option Json) (tokens : List Token) : Except JsonError Json :=
  build (tokens.length + 1) stack done tokens

/-- `nlohmann::json::parse` -/
def parse (toFloat : List Byte → Option String) (input : List Byte) : Except JsonError Json :=
  match skipBom input with
  | none => .error .parseError
  | some input => run [] none (lex toFloat input)

variable {toFloat : List Byte → Option String} {input rest : List Byte} {x : Json} {stack : List Frame}
  {rest' : List Token}

/-! ## The loop -/

section

variable {token : Token} {tokens ts : List Token} {frame frame' : Frame} {y : Json} {n m : ℕ}

theorem readValue_length {turn : Turn} (h : readValue token tokens = some turn) : turn.left.length ≤ tokens.length := by
  unfold readValue at h
  split at h <;> cases h <;> simp only [Turn.left, List.length_cons] <;> omega

theorem evaluate_length {turn : Turn} (h : evaluate frame x tokens = some turn) :
    turn.left.length < tokens.length := by
  unfold evaluate at h
  split at h <;> cases h <;> simp only [Turn.left, List.length_cons] <;> omega

theorem build_fuel {done : Option Json} (hn : tokens.length < n) (hm : tokens.length < m) :
    build n stack done tokens = build m stack done tokens := by
  induction n generalizing m stack done tokens with
  | zero => exact absurd hn (Nat.not_lt_zero _)
  | succ n ih =>
    obtain ⟨m, rfl⟩ := Nat.exists_eq_succ_of_ne_zero (Nat.ne_of_gt (Nat.zero_lt_of_lt hm))
    cases done with
    | none =>
      cases tokens with
      | nil => rfl
      | cons token tokens =>
        rw [List.length_cons] at hn hm
        rw [build, build]
        split
        · rename_i h
          have hle := readValue_length h
          simp only [Turn.left] at hle
          exact ih (by omega) (by omega)
        · rename_i h
          have hle := readValue_length h
          simp only [Turn.left] at hle
          exact ih (by omega) (by omega)
        · rfl
    | some x =>
      cases stack with
      | nil => rfl
      | cons frame stack =>
        rw [build, build]
        split
        · rename_i h
          have hlt := evaluate_length h
          simp only [Turn.left] at hlt
          exact ih (by omega) (by omega)
        · rename_i h
          have hlt := evaluate_length h
          simp only [Turn.left] at hlt
          exact ih (by omega) (by omega)
        · rfl

theorem run_value (h : readValue token tokens = some (.value x ts)) :
    run stack none (token :: tokens) = run stack (some x) ts := by
  have hle := readValue_length h
  rw [run, List.length_cons, build, h]
  exact build_fuel (Nat.lt_succ_of_le hle) (Nat.lt_succ_self _)

theorem run_opened (h : readValue token tokens = some (.opened frame ts)) :
    run stack none (token :: tokens) = run (frame :: stack) none ts := by
  have hle := readValue_length h
  rw [run, List.length_cons, build, h]
  exact build_fuel (Nat.lt_succ_of_le hle) (Nat.lt_succ_self _)

theorem run_next (h : evaluate frame x tokens = some (.opened frame' ts)) :
    run (frame :: stack) (some x) tokens = run (frame' :: stack) none ts := by
  have hlt := evaluate_length h
  rw [run, build, h]
  exact build_fuel hlt (Nat.lt_succ_self _)

theorem run_close (h : evaluate frame x tokens = some (.value y ts)) :
    run (frame :: stack) (some x) tokens = run stack (some y) ts := by
  have hlt := evaluate_length h
  rw [run, build, h]
  exact build_fuel hlt (Nat.lt_succ_self _)

end

/-- Keys in the order of `std::map`, and numbers as `dump` writes them. -/
inductive Canonical (toFloat : List Byte → Option String) : Json → Prop
  | null : Canonical toFloat .null
  | bool (b : Bool) : Canonical toFloat (.bool b)
  | string (s : String) : Canonical toFloat (.string s)
  | number {text : String} : Number toFloat text → Canonical toFloat (.number text)
  | array {items : List Json} : (∀ x ∈ items, Canonical toFloat x) → Canonical toFloat (.array items)
  | object {members : List (String × Json)} : (members.map Prod.fst).Pairwise (· < ·) →
      (∀ m ∈ members, Canonical toFloat m.2) → Canonical toFloat (.object members)

/-! ## What is dumped is parsed -/

mutual

/-- The tokens that `dump` writes. -/
def valueTokens : Json → List Token
  | .null => [.literalNull]
  | .bool true => [.literalTrue]
  | .bool false => [.literalFalse]
  | .number text => [.valueNumber text]
  | .string s => [.valueString (utf8 s)]
  | .array [] => [.beginArray, .endArray]
  | .array (x :: items) => .beginArray :: valueTokens x ++ moreItems items
  | .object [] => [.beginObject, .endObject]
  | .object ((key, x) :: members) =>
    .beginObject :: .valueString (utf8 key) :: .nameSeparator :: valueTokens x ++ moreMembers members

def moreItems : List Json → List Token
  | [] => [.endArray]
  | x :: items => .valueSeparator :: valueTokens x ++ moreItems items

def moreMembers : List (String × Json) → List Token
  | [] => [.endObject]
  | (key, x) :: members =>
    .valueSeparator :: .valueString (utf8 key) :: .nameSeparator :: valueTokens x ++ moreMembers members

end

theorem ofBuffer_utf8 (s : String) : ofBuffer (utf8 s) = s := by
  show String.ofList (decode (encode s.toList)) = s
  rw [decode_encode, String.ofList_toList]

/-- Each token comes from a call of `scan`. -/
theorem mem_lex {token : Token} (h : token ∈ lex toFloat input) :
    ∃ input' rest, scanToken toFloat input' = (token, rest) := by
  have htokens : ∀ n input, token ∈ tokens toFloat n input →
      ∃ input' rest, scanToken toFloat input' = (token, rest) := by
    intro n
    induction n with
    | zero => exact fun input h => absurd h List.not_mem_nil
    | succ n ih =>
      intro input h
      rw [tokens] at h
      split at h
      · rename_i hscan
        rw [List.mem_singleton.1 h]
        exact ⟨_, _, hscan⟩
      · rename_i hscan
        rw [List.mem_singleton.1 h]
        exact ⟨_, _, hscan⟩
      · rename_i hscan
        obtain rfl | h := List.mem_cons.1 h
        · exact ⟨_, _, hscan⟩
        · exact ih _ h
  exact htokens _ input h

theorem scanLiteral_type {literal : List Byte} {type token : Token}
    (h : scanLiteral literal type input = (token, rest)) :
    token = type ∨ token = .parseError := by
  unfold scanLiteral at h
  split_ifs at h <;> cases h
  · exact .inl rfl
  · exact .inr rfl

theorem scanToken_string_encoded {buffer : List Byte} (h : scanToken toFloat input = (.valueString buffer, rest)) :
    Encoded buffer := by
  unfold scanToken at h
  split at h
  · cases h
  split at h
  case h_7 | h_8 | h_9 =>
    obtain hor | hor := scanLiteral_type h <;> cases hor
  case h_10 =>
    split at h <;> cases h
    rename_i hstring
    exact scanString_encoded ⟨[], rfl⟩ hstring
  case h_12 =>
    split_ifs at h
    · exact absurd h scanNumber_noString
    · cases h
  all_goals cases h

/-- The bytes of every string that is read are those of a text, escapes and surrogates included. -/
theorem lex_strings {buffer : List Byte} (h : .valueString buffer ∈ lex toFloat input) :
    utf8 (ofBuffer buffer) = buffer := by
  obtain ⟨input', rest, hscan⟩ := mem_lex h
  obtain ⟨cs, rfl⟩ := scanToken_string_encoded hscan
  show encode (String.ofList (decode (encode cs))).toList = encode cs
  rw [decode_encode, String.toList_ofList]

/-- A pair of surrogates and a letter of two bytes. -/
theorem lex_strings_surrogates :
    .valueString [240, 159, 152, 128, 195, 169] ∈ lex (fun _ => none) (utf8 "[\"\\ud83d\\uDE00é\"]") ∧
    utf8 (ofBuffer [240, 159, 152, 128, 195, 169]) = [240, 159, 152, 128, 195, 169] := by
  have hmem : .valueString [240, 159, 152, 128, 195, 169] ∈ lex (fun _ => none) (utf8 "[\"\\ud83d\\uDE00é\"]") := by
    decide +kernel
  exact ⟨hmem, lex_strings hmem⟩

section

variable (rest : List Byte)

theorem lex_openArray : lex toFloat (91 :: rest) = .beginArray :: lex toFloat rest :=
  lex_cons rfl (by simp [Token.Proper])

theorem lex_closeArray : lex toFloat (93 :: rest) = .endArray :: lex toFloat rest :=
  lex_cons rfl (by simp [Token.Proper])

theorem lex_openObject : lex toFloat (123 :: rest) = .beginObject :: lex toFloat rest :=
  lex_cons rfl (by simp [Token.Proper])

theorem lex_closeObject : lex toFloat (125 :: rest) = .endObject :: lex toFloat rest :=
  lex_cons rfl (by simp [Token.Proper])

theorem lex_colon : lex toFloat (58 :: rest) = .nameSeparator :: lex toFloat rest :=
  lex_cons rfl (by simp [Token.Proper])

theorem lex_comma : lex toFloat (44 :: rest) = .valueSeparator :: lex toFloat rest :=
  lex_cons rfl (by simp [Token.Proper])

end

/-- The dump of the value is read as its tokens, whatever follows it. -/
def Lexes (toFloat : List Byte → Option String) (x : Json) : Prop :=
  ∀ rest, Stops rest → lex toFloat (dump x ++ rest) = valueTokens x ++ lex toFloat rest

theorem lex_items {items : List Json} (h : ∀ x ∈ items, Lexes toFloat x) (hx : Lexes toFloat x) (rest : List Byte) :
    lex toFloat (dumpItems (x :: items) ++ 93 :: rest) = valueTokens x ++ moreItems items ++ lex toFloat rest := by
  induction items generalizing x with
  | nil =>
    rw [dumpItems, hx _ (stops_cons (by decide) rest), lex_closeArray, moreItems, List.append_assoc]
    rfl
  | cons y items ih =>
    obtain ⟨hy, hitems⟩ := List.forall_mem_cons.1 h
    have hcomma : dumpItems (x :: y :: items) ++ 93 :: rest =
        dump x ++ (44 :: (dumpItems (y :: items) ++ 93 :: rest)) := by
      rw [dumpItems, List.append_assoc, List.append_assoc]
      rfl
    rw [hcomma, hx _ (stops_cons (by decide) _), lex_comma, ih hitems hy, moreItems]
    simp only [List.append_assoc, List.cons_append]

theorem lex_member (key : String) (hx : Lexes toFloat x) (hrest : Stops rest) :
    lex toFloat (quoted key ++ utf8 ":" ++ dump x ++ rest) =
      .valueString (utf8 key) :: .nameSeparator :: valueTokens x ++ lex toFloat rest := by
  have hcolon : quoted key ++ utf8 ":" ++ dump x ++ rest = quoted key ++ (58 :: (dump x ++ rest)) := by
    simp only [List.append_assoc]
    rfl
  rw [hcolon, lex_string, lex_colon, hx rest hrest]
  rfl

theorem lex_members {key : String} {members : List (String × Json)} (h : ∀ m ∈ members, Lexes toFloat m.2)
    (hx : Lexes toFloat x) (rest : List Byte) : lex toFloat (dumpMembers ((key, x) :: members) ++ 125 :: rest) =
      .valueString (utf8 key) :: .nameSeparator :: valueTokens x ++ moreMembers members ++ lex toFloat rest := by
  induction members generalizing key x with
  | nil =>
    rw [dumpMembers, lex_member key hx (stops_cons (by decide) rest), lex_closeObject, moreMembers,
      List.append_assoc]
    rfl
  | cons m members ih =>
    obtain ⟨key', y⟩ := m
    obtain ⟨hy, hmembers⟩ := List.forall_mem_cons.1 h
    have hcomma : dumpMembers ((key, x) :: (key', y) :: members) ++ 125 :: rest =
        quoted key ++ utf8 ":" ++ dump x ++ (44 :: (dumpMembers ((key', y) :: members) ++ 125 :: rest)) := by
      rw [dumpMembers]
      simp only [List.append_assoc]
      rfl
    rw [hcomma, lex_member key hx (stops_cons (by decide) _), lex_comma, ih hmembers hy, moreMembers]
    simp only [List.append_assoc, List.cons_append]

theorem lex_dump (h : Canonical toFloat x) : Lexes toFloat x := by
  induction h with
  | null => exact fun rest _ => lex_cons rfl (by simp [Token.Proper])
  | bool b => cases b <;> exact fun rest _ => lex_cons rfl (by simp [Token.Proper])
  | string s => exact fun rest _ => lex_string s rest
  | number hnumber => exact fun rest hrest => lex_number hnumber hrest
  | @array items _ ih =>
    intro rest _
    cases items with
    | nil =>
      show lex toFloat (91 :: 93 :: rest) = _
      rw [lex_openArray, lex_closeArray]
      rfl
    | cons x items =>
      obtain ⟨hx, hitems⟩ := List.forall_mem_cons.1 ih
      have hbrackets : dump (.array (x :: items)) ++ rest = 91 :: (dumpItems (x :: items) ++ 93 :: rest) := by
        rw [dump, List.append_assoc, List.append_assoc]
        rfl
      rw [hbrackets, lex_openArray, lex_items hitems hx, valueTokens]
      rfl
  | @object members _ _ ih =>
    intro rest _
    cases members with
    | nil =>
      show lex toFloat (123 :: 125 :: rest) = _
      rw [lex_openObject, lex_closeObject]
      rfl
    | cons m members =>
      obtain ⟨key, x⟩ := m
      obtain ⟨hx, hmembers⟩ := List.forall_mem_cons.1 ih
      have hbraces : dump (.object ((key, x) :: members)) ++ rest =
          123 :: (dumpMembers ((key, x) :: members) ++ 125 :: rest) := by
        rw [dump, List.append_assoc, List.append_assoc]
        rfl
      rw [hbraces, lex_openObject, lex_members hmembers hx, valueTokens]
      rfl

/-- Its tokens are built to the value, whatever is open around it. -/
def Builds (x : Json) : Prop := ∀ stack ts, run stack none (valueTokens x ++ ts) = run stack (some x) ts

/-- No value begins with the end of an array. -/
theorem readValue_array (x : Json) (ts : List Token) :
    readValue .beginArray (valueTokens x ++ ts) = some (.opened (.array []) (valueTokens x ++ ts)) := by
  have hhead : ∃ token rest, valueTokens x = token :: rest ∧ token ≠ .endArray := by
    unfold valueTokens
    split <;> exact ⟨_, _, rfl, by simp⟩
  obtain ⟨token, rest, he, hne⟩ := hhead
  rw [he, List.cons_append]
  cases token <;> first | rfl | exact absurd rfl hne

theorem build_items {items : List Json} (h : ∀ x ∈ items, Builds x) (hx : Builds x) (done : List Json)
    (stack : List Frame) (ts : List Token) : run (.array done :: stack) none (valueTokens x ++ moreItems items ++ ts) =
      run stack (some (.array (done ++ x :: items))) ts := by
  induction items generalizing x done with
  | nil =>
    rw [moreItems, List.append_assoc, hx, List.singleton_append]
    exact run_close rfl
  | cons y items ih =>
    obtain ⟨hy, hitems⟩ := List.forall_mem_cons.1 h
    have hnext : evaluate (.array done) x (.valueSeparator :: (valueTokens y ++ moreItems items ++ ts)) =
        some (.opened (.array (done ++ [x])) (valueTokens y ++ moreItems items ++ ts)) := rfl
    rw [moreItems, List.append_assoc, hx]
    show run (.array done :: stack) (some x) (.valueSeparator :: (valueTokens y ++ moreItems items ++ ts)) = _
    rw [run_next hnext, ih hitems hy, List.append_assoc]
    rfl

/-- The last key in order is inserted at the end. -/
theorem set_last {key : String} {members : List (String × Json)} (h : ∀ m ∈ members, m.1 < key) (x : Json) :
    set key x members = members ++ [(key, x)] := by
  induction members with
  | nil => rfl
  | cons m members ih =>
    obtain ⟨k, y⟩ := m
    obtain ⟨hk, hmembers⟩ := List.forall_mem_cons.1 h
    have hlt : k < key := hk
    rw [set, if_neg hlt.ne', if_neg hlt.asymm, ih hmembers]
    rfl

theorem build_members {key : String} {members : List (String × Json)} (h : ∀ m ∈ members, Builds m.2) (hx : Builds x)
    {done : List (String × Json)} (hsorted : ((done ++ (key, x) :: members).map Prod.fst).Pairwise (· < ·))
    (stack : List Frame) (ts : List Token) :
    run (.object done key :: stack) none (valueTokens x ++ moreMembers members ++ ts) =
      run stack (some (.object (done ++ (key, x) :: members))) ts := by
  induction members generalizing key x done with
  | nil =>
    have hlast : set key x done = done ++ [(key, x)] := by
      refine set_last (fun m hm => ?_) x
      rw [List.map_append, List.pairwise_append] at hsorted
      exact hsorted.2.2 _ (List.mem_map_of_mem hm) _ (by simp)
    have hclose : evaluate (.object done key) x (.endObject :: ts) =
        some (.value (.object (done ++ [(key, x)])) ts) := by
      rw [evaluate, hlast]
    rw [moreMembers, List.append_assoc, hx, List.singleton_append]
    exact run_close hclose
  | cons m members ih =>
    obtain ⟨key', y⟩ := m
    obtain ⟨hy, hmembers⟩ := List.forall_mem_cons.1 h
    have hlast : set key x done = done ++ [(key, x)] := by
      refine set_last (fun m hm => ?_) x
      rw [List.map_append, List.pairwise_append] at hsorted
      exact hsorted.2.2 _ (List.mem_map_of_mem hm) _ (by simp)
    have hnext : evaluate (.object done key) x (.valueSeparator :: .valueString (utf8 key') :: .nameSeparator ::
        (valueTokens y ++ moreMembers members ++ ts)) =
        some (.opened (.object (done ++ [(key, x)]) key') (valueTokens y ++ moreMembers members ++ ts)) := by
      rw [evaluate, hlast, ofBuffer_utf8]
    have hsorted' : (((done ++ [(key, x)]) ++ (key', y) :: members).map Prod.fst).Pairwise (· < ·) := by
      rwa [List.append_assoc]
    rw [moreMembers, List.append_assoc, hx]
    show run (.object done key :: stack) (some x) (.valueSeparator :: .valueString (utf8 key') :: .nameSeparator ::
      (valueTokens y ++ moreMembers members ++ ts)) = _
    rw [run_next hnext, ih hmembers hy hsorted', List.append_assoc]
    rfl

theorem build_tokens (h : Canonical toFloat x) : Builds x := by
  induction h with
  | null => exact fun stack ts => run_value rfl
  | bool b => cases b <;> exact fun stack ts => run_value rfl
  | string s =>
    intro stack ts
    have hread : readValue (.valueString (utf8 s)) ts = some (.value (.string s) ts) := by rw [readValue, ofBuffer_utf8]
    rw [valueTokens, List.singleton_append, run_value hread]
  | number _ => exact fun stack ts => run_value rfl
  | @array items _ ih =>
    intro stack ts
    cases items with
    | nil => exact run_value rfl
    | cons x items =>
      obtain ⟨hx, hitems⟩ := List.forall_mem_cons.1 ih
      rw [valueTokens, List.append_assoc, List.cons_append, run_opened (readValue_array x _), ← List.append_assoc,
        build_items hitems hx]
      rfl
  | @object members hsorted _ ih =>
    intro stack ts
    cases members with
    | nil => exact run_value rfl
    | cons m members =>
      obtain ⟨key, x⟩ := m
      obtain ⟨hx, hmembers⟩ := List.forall_mem_cons.1 ih
      have hopen : readValue .beginObject (.valueString (utf8 key) :: .nameSeparator ::
          (valueTokens x ++ moreMembers members ++ ts)) =
          some (.opened (.object [] key) (valueTokens x ++ moreMembers members ++ ts)) := by
        rw [readValue, ofBuffer_utf8]
      rw [valueTokens]
      show run stack none (.beginObject :: .valueString (utf8 key) :: .nameSeparator ::
        (valueTokens x ++ moreMembers members ++ ts)) = _
      rw [run_opened hopen, build_members hmembers hx hsorted]
      rfl

theorem skipBom_cons {b : Byte} (hb : b ≠ 0xEF) (rest : List Byte) : skipBom (b :: rest) = some (b :: rest) := by
  unfold skipBom
  split
  · rename_i heq
    exact absurd (List.cons.inj heq).1 hb
  · rename_i heq
    exact absurd (List.cons.inj heq).1 hb
  · rfl

/-- No dump begins with a byte order mark. -/
theorem skipBom_dump (h : Canonical toFloat x) : skipBom (dump x) = some (dump x) := by
  have hhead : ∃ b rest, dump x = b :: rest ∧ b ≠ 0xEF := by
    cases h with
    | null => exact ⟨110, utf8 "ull", rfl, by decide⟩
    | bool b =>
      cases b with
      | true => exact ⟨116, utf8 "rue", rfl, by decide⟩
      | false => exact ⟨102, utf8 "alse", rfl, by decide⟩
    | string s => exact ⟨34, s.toList.flatMap escape ++ utf8 "\"", rfl, by decide⟩
    | number hnumber =>
      obtain ⟨b, bytes, he, hb, -⟩ := hnumber
      refine ⟨b, bytes, by rw [dump, he], ?_⟩
      rcases hb with rfl | hb
      · decide
      · exact isDigitByte_ne hb (by decide)
    | @array items _ => exact ⟨91, dumpItems items ++ utf8 "]", by rw [dump]; rfl, by decide⟩
    | @object members _ _ => exact ⟨123, dumpMembers members ++ utf8 "\x7d", by rw [dump]; rfl, by decide⟩
  obtain ⟨b, rest, he, hb⟩ := hhead
  rw [he, skipBom_cons hb]

/-- What `dump` writes is parsed as the value it was written for. -/
theorem parse_dump (h : Canonical toFloat x) : parse toFloat (dump x) = .ok x := by
  have hlex := lex_dump h [] .nil
  have hbuild := build_tokens h [] [.endOfInput]
  rw [List.append_nil, lex_nil] at hlex
  rw [parse, skipBom_dump h]
  dsimp only
  rw [hlex, hbuild]
  rfl

/-! ## What is parsed is canonical -/

/-- The numbers among the tokens are written so that they are read back. -/
def Written (toFloat : List Byte → Option String) (tokens : List Token) : Prop :=
  ∀ text, .valueNumber text ∈ tokens → Number toFloat text

theorem Written.cons {token : Token} {tokens : List Token} (h : Written toFloat (token :: tokens)) :
    Written toFloat tokens :=
  fun text ht => h text (List.mem_cons_of_mem _ ht)

theorem scanToken_number_written (hfloat : FloatsKept toFloat) {text : String}
    (h : scanToken toFloat input = (.valueNumber text, rest)) : Number toFloat text := by
  unfold scanToken at h
  split at h
  · cases h
  split at h
  case h_12 =>
    split_ifs at h
    · exact scanNumber_number hfloat h
    · cases h
  case h_7 | h_8 | h_9 =>
    obtain hor | hor := scanLiteral_type h <;> cases hor
  case h_10 => split at h <;> cases h
  all_goals cases h

theorem lex_written (hfloat : FloatsKept toFloat) (input : List Byte) : Written toFloat (lex toFloat input) := by
  intro text ht
  obtain ⟨input', rest, hscan⟩ := mem_lex ht
  exact scanToken_number_written hfloat hscan

theorem set_keys {key k : String} {members : List (String × Json)} (h : k ∈ (set key x members).map Prod.fst) :
    k = key ∨ k ∈ members.map Prod.fst := by
  obtain ⟨m, hm, rfl⟩ := List.mem_map.1 h
  obtain rfl | hm := mem_set hm
  · exact .inl rfl
  · exact .inr (List.mem_map_of_mem hm)

theorem set_sorted {members : List (String × Json)} (h : (members.map Prod.fst).Pairwise (· < ·)) (key : String)
    (x : Json) : ((set key x members).map Prod.fst).Pairwise (· < ·) := by
  induction members with
  | nil => exact List.pairwise_singleton _ _
  | cons m members ih =>
    obtain ⟨k, y⟩ := m
    rw [List.map_cons, List.pairwise_cons] at h
    obtain ⟨hk, hmembers⟩ := h
    unfold set
    split
    · rename_i he
      rw [List.map_cons, List.pairwise_cons]
      exact ⟨he ▸ hk, hmembers⟩
    split
    · rename_i hlt
      rw [List.map_cons, List.map_cons, List.pairwise_cons, List.pairwise_cons]
      refine ⟨fun k' hk' => ?_, hk, hmembers⟩
      obtain rfl | hk' := List.mem_cons.1 hk'
      · exact hlt
      · exact hlt.trans (hk k' hk')
    · rename_i hne hle
      rw [List.map_cons, List.pairwise_cons]
      refine ⟨fun k' hk' => ?_, ih hmembers⟩
      obtain rfl | hk' := set_keys hk'
      · exact lt_of_le_of_ne (not_lt.1 hle) (Ne.symm hne)
      · exact hk k' hk'

/-- What a container holds so far. -/
def Frame.Kept (toFloat : List Byte → Option String) : Frame → Prop
  | .array items => Canonical toFloat (.array items)
  | .object members _ => Canonical toFloat (.object members)

theorem Canonical.snoc {items : List Json} (h : Canonical toFloat (.array items)) (hx : Canonical toFloat x) :
    Canonical toFloat (.array (items ++ [x])) := by
  cases h with
  | array hitems => exact .array (List.forall_mem_append.2 ⟨hitems, List.forall_mem_singleton.2 hx⟩)

theorem Canonical.set {members : List (String × Json)} (h : Canonical toFloat (.object members))
    (hx : Canonical toFloat x) {key : String} : Canonical toFloat (.object (set key x members)) := by
  cases h with
  | object hsorted hmembers =>
    refine .object (set_sorted hsorted key x) fun m hm => ?_
    obtain rfl | hm := mem_set hm
    · exact hx
    · exact hmembers m hm

/-- What a turn of the loop goes on with. -/
def Turn.Kept (toFloat : List Byte → Option String) : Turn → Prop
  | .opened frame tokens => frame.Kept toFloat ∧ Written toFloat tokens
  | .value x tokens => Canonical toFloat x ∧ Written toFloat tokens

theorem readValue_kept {token : Token} {tokens : List Token} {turn : Turn} (hw : Written toFloat (token :: tokens))
    (h : readValue token tokens = some turn) : turn.Kept toFloat := by
  have harray : Canonical toFloat (.array []) := .array (List.forall_mem_nil _)
  have hobject : Canonical toFloat (.object []) := .object .nil (List.forall_mem_nil _)
  unfold readValue at h
  split at h <;> cases h
  · exact ⟨hobject, hw.cons.cons⟩
  · exact ⟨hobject, hw.cons.cons.cons⟩
  · exact ⟨harray, hw.cons.cons⟩
  · exact ⟨harray, hw.cons⟩
  · exact ⟨.null, hw.cons⟩
  · exact ⟨.bool true, hw.cons⟩
  · exact ⟨.bool false, hw.cons⟩
  · exact ⟨.number (hw _ List.mem_cons_self), hw.cons⟩
  · exact ⟨.string _, hw.cons⟩

theorem evaluate_kept {frame : Frame} {tokens : List Token} {turn : Turn} (hf : frame.Kept toFloat)
    (hx : Canonical toFloat x) (hw : Written toFloat tokens) (h : evaluate frame x tokens = some turn) :
    turn.Kept toFloat := by
  unfold evaluate at h
  split at h <;> cases h
  · exact ⟨Canonical.snoc hf hx, hw.cons⟩
  · exact ⟨Canonical.snoc hf hx, hw.cons⟩
  · exact ⟨Canonical.set hf hx, hw.cons.cons.cons⟩
  · exact ⟨Canonical.set hf hx, hw.cons⟩

theorem build_canonical {n : ℕ} {done : Option Json} {tokens : List Token}
    (hstack : ∀ frame ∈ stack, frame.Kept toFloat)
    (hdone : ∀ y ∈ done, Canonical toFloat y) (hw : Written toFloat tokens) (h : build n stack done tokens = .ok x) :
    Canonical toFloat x := by
  induction n generalizing stack done tokens with
  | zero => cases h
  | succ n ih =>
    have hturn : ∀ {stack turn}, (∀ frame ∈ stack, frame.Kept toFloat) → Turn.Kept toFloat turn →
        (∀ frame tokens, turn = .opened frame tokens → build n (frame :: stack) none tokens = .ok x) →
        (∀ y tokens, turn = .value y tokens → build n stack (some y) tokens = .ok x) → Canonical toFloat x := by
      intro stack turn hstack hkept hopened hvalue
      cases turn with
      | opened frame tokens =>
        exact ih (List.forall_mem_cons.2 ⟨hkept.1, hstack⟩) (by simp) hkept.2 (hopened frame tokens rfl)
      | value y tokens => exact ih hstack (by simpa using hkept.1) hkept.2 (hvalue y tokens rfl)
    cases done with
    | none =>
      cases tokens with
      | nil => cases h
      | cons token tokens =>
        rw [build] at h
        cases hread : readValue token tokens with
        | none =>
          rw [hread] at h
          cases h
        | some turn =>
          rw [hread] at h
          refine hturn hstack (readValue_kept hw hread) (fun frame tokens he => ?_) fun y tokens he => ?_
          · subst he
            exact h
          · subst he
            exact h
    | some y =>
      have hy : Canonical toFloat y := hdone y rfl
      cases stack with
      | nil =>
        rw [build] at h
        split_ifs at h
        cases h
        exact hy
      | cons frame stack =>
        obtain ⟨hframe, hstack⟩ := List.forall_mem_cons.1 hstack
        rw [build] at h
        cases heval : evaluate frame y tokens with
        | none =>
          rw [heval] at h
          cases h
        | some turn =>
          rw [heval] at h
          refine hturn hstack (evaluate_kept hframe hy hw heval) (fun frame tokens he => ?_) fun y tokens he => ?_
          · subst he
            exact h
          · subst he
            exact h

theorem parse_canonical (hfloat : FloatsKept toFloat) (h : parse toFloat input = .ok x) : Canonical toFloat x := by
  unfold parse at h
  split at h
  · cases h
  · exact build_canonical (List.forall_mem_nil _) (by simp) (lex_written hfloat _) h

/-- Whatever text is accepted, the value it stands for is dumped to a text that is parsed as the same value. Of a `-0`
only the tag changes: it is written `0`, and the unsigned 0 that comes back is equal to it. -/
theorem parse_dump_parse (hfloat : FloatsKept toFloat) (h : parse toFloat input = .ok x) :
    parse toFloat (dump x) = .ok x := parse_dump (parse_canonical hfloat h)

/-- One and a half, in two ways. -/
def halves (buffer : List Byte) : Option String :=
  if buffer = utf8 "1.5" ∨ buffer = utf8 "15e-1" then some "1.5" else none

theorem halves_kept : FloatsKept halves := by
  intro buffer text h
  unfold halves at h
  split_ifs at h
  cases h
  refine ⟨49, [46, 53], rfl, .inr rfl, fun rest hrest => ?_⟩
  have hscan : scanDigits .any1 [49] (46 :: 53 :: rest) = some (.decimal2, [49, 46, 53], rest) := by
    show scanDigits .decimal2 [49, 46, 53] rest = _
    cases rest with
    | nil => rfl
    | cons b rest =>
      obtain ⟨hdigit, -, hexp⟩ := hrest b rfl
      have hnext : NumberState.decimal2.next b = none := by simp [NumberState.next, hdigit, hexp]
      rw [scanDigits, hnext]
      rfl
  have hfirst : ¬ (49 : Byte) = 45 ∧ ¬ (49 : Byte) = 48 := by decide
  unfold scanNumber
  simp only [if_neg hfirst.1, if_neg hfirst.2, List.cons_append, List.nil_append, hscan]
  rfl

/-- White space, a key that comes twice, escapes and numbers. -/
def spaced : List Byte :=
  utf8 " \x7b \"b\": [12, -0, 15e-1],\n\"a\": \"\\u0041\\ud83d\\ude00\\/\", \"b\": [\x7b\x7d, 1.5] \x7d"

theorem parse_dump_parse_spaced : ∃ x, parse halves spaced = .ok x ∧
    dump x = utf8 "\x7b\"a\":\"A😀/\",\"b\":[\x7b\x7d,1.5]\x7d" ∧ parse halves (dump x) = .ok x := by
  have htest : ((parse halves spaced).toOption.map dump) =
      some (utf8 "\x7b\"a\":\"A😀/\",\"b\":[\x7b\x7d,1.5]\x7d") := by
    decide +kernel
  cases hparse : parse halves spaced with
  | error e =>
    rw [hparse] at htest
    cases htest
  | ok x =>
    rw [hparse] at htest
    exact ⟨x, rfl, Option.some.inj htest, parse_dump_parse halves_kept hparse⟩

end Json

end ChessGame
