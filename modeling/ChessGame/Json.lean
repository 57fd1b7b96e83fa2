import Mathlib
/-!
# JSON values

What the protocol uses of `nlohmann::json`: the values, reading members of an object,
and `dump`. A `number` is kept as the text that `dump` writes for it, since no
message reads one. Objects are kept in the order of their keys, as `std::map` does.
-/

namespace ChessGame

abbrev Byte := UInt8

/-- `'\n'` -/
def newline : Byte := 10

def utf8 (s : String) : List Byte := s.toList.flatMap String.utf8EncodeChar

inductive Json where
  | null
  | bool (b : Bool)
  | number (text : String)
  | string (s : String)
  | array (items : List Json)
  | object (members : List (String × Json))

/-- The exceptions of the library. All are `nlohmann::json::exception`. -/
inductive JsonError where
  | parseError
  | typeError
  deriving DecidableEq, Repr

namespace Json

/-- `j.find(key)`, `j[key]` where the key is known to be there; `none` is `j.end()`. -/
def find : Json → String → Option Json
  | .object members, key => members.lookup key
  | _, _ => none

def contains (j : Json) (key : String) : Bool := (j.find key).isSome

/-- `j.get<std::string>()` -/
def getString : Json → Except JsonError String
  | .string s => .ok s
  | _ => .error .typeError

/-- `j.value(key, default)` for a text. -/
def value (j : Json) (key default : String) : Except JsonError String :=
  match j with
  | .object _ =>
    match j.find key with
    | some x => x.getString
    | none => .ok default
  | _ => .error .typeError

/-- `j == s` -/
def equals : Json → String → Bool
  | .string t, s => t = s
  | _, _ => false

/-- `j[key] = x` on the members of an object, or on none. -/
def set (key : String) (x : Json) : List (String × Json) → List (String × Json)
  | [] => [(key, x)]
  | (k, y) :: members =>
    if key = k then (key, x) :: members
    else if key < k then (key, x) :: (k, y) :: members
    else (k, y) :: set key x members

theorem lookup_set (key key' : String) (x : Json) (members : List (String × Json)) :
    (set key x members).lookup key' = if key' = key then some x else members.lookup key' := by
  induction members with
  | nil =>
    unfold set
    rw [List.lookup_cons]
    split <;> rename_i h <;> simp_all
  | cons m members ih =>
    obtain ⟨k, y⟩ := m
    unfold set
    split
    · rename_i hk
      subst hk
      rw [List.lookup_cons, List.lookup_cons]
      split <;> simp_all
    split
    · rw [List.lookup_cons]
      split <;> simp_all
    · rename_i hk _
      rw [List.lookup_cons, List.lookup_cons, ih]
      split
      · rename_i heq
        rw [if_neg]
        rintro rfl
        exact hk (by simpa using heq)
      · rfl

theorem find_set (key key' : String) (x : Json) (members : List (String × Json)) :
    (object (set key x members)).find key' = if key' = key then some x else (object members).find key' :=
  lookup_set key key' x members

theorem mem_set {key : String} {x : Json} {members : List (String × Json)} {m : String × Json}
    (h : m ∈ set key x members) : m = (key, x) ∨ m ∈ members := by
  induction members with
  | nil => exact .inl (List.mem_singleton.1 h)
  | cons m' members ih =>
    obtain ⟨k, y⟩ := m'
    unfold set at h
    split at h
    · obtain h | h := List.mem_cons.1 h
      · exact .inl h
      · exact .inr (List.mem_cons_of_mem _ h)
    split at h
    · exact List.mem_cons.1 h
    · obtain h | h := List.mem_cons.1 h
      · exact .inr (h ▸ List.mem_cons_self)
      · exact (ih h).imp_right (List.mem_cons_of_mem _)

/-! ### Writing -/

def hexDigit (n : ℕ) : Byte := if n < 10 then UInt8.ofNat (48 + n) else UInt8.ofNat (87 + n)

/-- One code point of `dump_escaped`. -/
def escape (c : Char) : List Byte :=
  match c.toNat with
  | 0x08 => utf8 "\\b"
  | 0x09 => utf8 "\\t"
  | 0x0A => utf8 "\\n"
  | 0x0C => utf8 "\\f"
  | 0x0D => utf8 "\\r"
  | 0x22 => utf8 "\\\""
  | 0x5C => utf8 "\\\\"
  | n => if n ≤ 0x1F then utf8 "\\u00" ++ [hexDigit (n / 16), hexDigit (n % 16)] else String.utf8EncodeChar c

def quoted (s : String) : List Byte := utf8 "\"" ++ s.toList.flatMap escape ++ utf8 "\""

mutual

def dump : Json → List Byte
  | .null => utf8 "null"
  | .bool true => utf8 "true"
  | .bool false => utf8 "false"
  | .number text => utf8 text
  | .string s => quoted s
  | .array items => utf8 "[" ++ dumpItems items ++ utf8 "]"
  | .object members => utf8 "\x7b" ++ dumpMembers members ++ utf8 "\x7d"

def dumpItems : List Json → List Byte
  | [] => []
  | [x] => dump x
  | x :: y :: items => dump x ++ utf8 "," ++ dumpItems (y :: items)

def dumpMembers : List (String × Json) → List Byte
  | [] => []
  | [(key, x)] => quoted key ++ utf8 ":" ++ dump x
  | (key, x) :: y :: members => quoted key ++ utf8 ":" ++ dump x ++ utf8 "," ++ dumpMembers (y :: members)

end

/-! ## One line -/

theorem utf8EncodeChar_newline {c : Char} (h : c ≠ '\n') : newline ∉ String.utf8EncodeChar c := by
  have hne : c.val.toNat ≠ 10 := fun heq => h (Char.ext (UInt32.toNat_inj.1 heq))
  have hnl : newline.toNat = 10 := rfl
  unfold String.utf8EncodeChar
  simp only
  split_ifs with h1 h2 h3
  all_goals
    simp only [List.mem_cons, List.not_mem_nil, or_false, not_or, ← UInt8.toNat_inj, UInt8.toNat_ofNat', hnl]
    omega

theorem hexDigit_newline {n : ℕ} (h : n < 16) : newline ≠ hexDigit n := by
  interval_cases n <;> decide

theorem escape_newline (c : Char) : newline ∉ escape c := by
  unfold escape
  split
  case h_8 n _ _ hne _ _ _ _ =>
    split
    · rw [List.mem_append, not_or]
      refine ⟨by decide, ?_⟩
      simp [hexDigit_newline (show c.toNat / 16 < 16 by omega), hexDigit_newline (show c.toNat % 16 < 16 by omega)]
    · apply utf8EncodeChar_newline
      rintro rfl
      exact hne rfl
  all_goals decide

theorem quoted_newline (s : String) : newline ∉ quoted s := by
  unfold quoted
  rw [List.mem_append, List.mem_append, not_or, not_or]
  refine ⟨⟨by decide, ?_⟩, by decide⟩
  rw [List.mem_flatMap]
  rintro ⟨c, -, hc⟩
  exact escape_newline c hc

theorem dumpMembers_newline {members : List (String × Json)} (h : ∀ m ∈ members, newline ∉ dump m.2) :
    newline ∉ dumpMembers members := by
  induction members with
  | nil => exact List.not_mem_nil
  | cons m members ih =>
    obtain ⟨key, x⟩ := m
    rw [List.forall_mem_cons] at h
    have hmember : newline ∉ quoted key ++ utf8 ":" ++ dump x := by
      rw [List.mem_append, List.mem_append, not_or, not_or]
      exact ⟨⟨quoted_newline key, by decide⟩, h.1⟩
    cases members with
    | nil => exact hmember
    | cons y members =>
      rw [dumpMembers, List.mem_append, List.mem_append, not_or, not_or]
      exact ⟨⟨hmember, by decide⟩, ih h.2⟩

/-- An object is dumped on one line when its members are. -/
theorem dump_object_newline {members : List (String × Json)} (h : ∀ m ∈ members, newline ∉ dump m.2) :
    newline ∉ dump (.object members) := by
  rw [dump, List.mem_append, List.mem_append, not_or, not_or]
  exact ⟨⟨by decide, dumpMembers_newline h⟩, by decide⟩

theorem dump_string_newline (s : String) : newline ∉ dump (.string s) := quoted_newline s

end Json

end ChessGame
