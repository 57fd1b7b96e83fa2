import ChessGame.Lib.Literals
import ChessGame.Database
/-!
# The texts of the statements

The three statements of `database.cpp` that a nickname is spliced into, and how
SQLite reads them: it gets them through `c_str()`, so it stops at a NUL.
-/
open Literals

namespace ChessGame

theorem Plain.quote {s : String} (h : Plain s) : '\'' ∉ s.toList := fun hc => (h _ hc).1 rfl

theorem Plain.nul {s : String} (h : Plain s) : Char.ofNat 0 ∉ s.toList := fun hc => (h _ hc).2 rfl

namespace Database

/-- `hash_password`, with `std::hash` as a parameter. -/
def hashPassword (hasher : String → UInt64) (password : String) : String :=
  String.ofList (Nat.toDigits 16 (hasher password).toNat)

/-- A value between quotes, as the functions concatenate it. -/
def splice (before value after : String) : String := before ++ "'" ++ value ++ "'" ++ after

def userExistsSql (nickname : String) : String := splice "SELECT 1 FROM users WHERE nickname = " nickname ""

def loginUserSql (nickname : String) : String :=
  splice "SELECT id, nickname, rating, games_played, games_won, games_drawn, password_hash FROM users WHERE nickname = "
    nickname ""

def registerUserSql (nickname passwordHash : String) : String :=
  splice "INSERT INTO users (nickname, password_hash) VALUES (" nickname (splice ", " passwordHash ")")

/-- What is read of a text through `c_str()`. -/
def cStr (s : String) : List Char := s.toList.takeWhile (· ≠ Char.ofNat 0)

/-- Text outside the literals. -/
def plain (s : String) : List (Token Char) := s.toList.map .plain

/-- Each of the statements is read as the fixed one, with the nickname as the value
of the literal in its place. -/
structure IsData (hasher : String → UInt64) (read : String → List Char) (nickname password : String) : Prop where
  userExists : lex '\'' (read (userExistsSql nickname)) =
    plain "SELECT 1 FROM users WHERE nickname = " ++ [.literal nickname.toList]
  loginUser : lex '\'' (read (loginUserSql nickname)) = plain
    "SELECT id, nickname, rating, games_played, games_won, games_drawn, password_hash FROM users WHERE nickname = " ++
      [.literal nickname.toList]
  registerUser : lex '\'' (read (registerUserSql nickname (hashPassword hasher password))) =
    plain "INSERT INTO users (nickname, password_hash) VALUES (" ++ .literal nickname.toList ::
      (plain ", " ++ .literal (hashPassword hasher password).toList :: plain ")")

variable {hasher : String → UInt64} {before value after nickname password : String}

/-! ## The fixed texts -/

theorem plain_ofList {l : List Char} (h : (l.all fun c => c ≠ '\'' && c ≠ Char.ofNat 0) = true) :
    Plain (String.ofList l) := by
  intro c hc
  rw [String.toList_ofList] at hc
  simpa using List.all_eq_true.1 h c hc

theorem userExists_plain : Plain "SELECT 1 FROM users WHERE nickname = " := plain_ofList rfl

theorem loginUser_plain : Plain
    "SELECT id, nickname, rating, games_played, games_won, games_drawn, password_hash FROM users WHERE nickname = " :=
  plain_ofList rfl

theorem registerUser_plain : Plain "INSERT INTO users (nickname, password_hash) VALUES (" := plain_ofList rfl

theorem comma_plain : Plain ", " := plain_ofList rfl

theorem bracket_plain : Plain ")" := plain_ofList rfl

theorem mem_toDigits (n : ℕ) {c : Char} (h : c ∈ Nat.toDigits 16 n) : ∃ d < 16, c = Nat.digitChar d := by
  induction n using Nat.strong_induction_on with
  | _ n ih =>
    obtain hlt | hge := lt_or_ge n 16
    · rw [Nat.toDigits_of_lt_base hlt, List.mem_singleton] at h
      exact ⟨n, hlt, h⟩
    · rw [Nat.toDigits_of_base_le (by decide) hge, List.mem_append, List.mem_singleton] at h
      obtain h | h := h
      · exact ih (n / 16) (by omega) h
      · exact ⟨n % 16, Nat.mod_lt n (by decide), h⟩

theorem hashPassword_plain (hasher : String → UInt64) (password : String) : Plain (hashPassword hasher password) := by
  intro c hc
  rw [hashPassword, String.toList_ofList] at hc
  obtain ⟨d, hd, rfl⟩ := mem_toDigits _ hc
  have hall : ∀ d < 16, Nat.digitChar d ≠ '\'' ∧ Nat.digitChar d ≠ Char.ofNat 0 := by decide
  exact hall d hd

/-! ## A nickname between quotes -/

theorem splice_toList (before value after : String) :
    (splice before value after).toList = before.toList ++ '\'' :: (value.toList ++ '\'' :: after.toList) := by
  have hquote : "'".toList = ['\''] := String.toList_ofList
  simp only [splice, String.toList_append, hquote, List.append_assoc, List.cons_append, List.nil_append]

/-- A spliced value is read as itself exactly when it has no quote in it. -/
theorem lex_splice_toList (hb : Plain before) (ha : after.toList.head? ≠ some '\'') :
    lex '\'' (splice before value after).toList = plain before ++ .literal value.toList :: lex '\'' after.toList ↔
      '\'' ∉ value.toList := by
  rw [splice_toList]
  exact lex_splice hb.quote ha

theorem lex_plain_text {s : String} (h : Plain s) : lex '\'' s.toList = plain s := by
  have hlex := lex_plain h.quote ([] : List Char)
  rwa [List.append_nil, show lex '\'' [] = [] from rfl, List.append_nil] at hlex

/-- The rest of the registration after the nickname. -/
theorem lex_hash (hasher : String → UInt64) (password : String) :
    lex '\'' (splice ", " (hashPassword hasher password) ")").toList =
      plain ", " ++ .literal (hashPassword hasher password).toList :: plain ")" := by
  rw [← lex_plain_text bracket_plain]
  refine (lex_splice_toList comma_plain ?_).2 (hashPassword_plain hasher password).quote
  rw [show ")".toList = [')'] from String.toList_ofList]
  decide

theorem head_hash (hash : String) : (splice ", " hash ")").toList.head? ≠ some '\'' := by
  rw [splice_toList, show ", ".toList = [',', ' '] from String.toList_ofList]
  show some ',' ≠ some '\''
  decide

/-- The texts as they are built. -/
theorem isData_toList_iff (hasher : String → UInt64) (nickname password : String) :
    IsData hasher String.toList nickname password ↔ '\'' ∉ nickname.toList := by
  have hend : "".toList.head? ≠ some '\'' := by decide
  have hnil : lex '\'' "".toList = [] := rfl
  constructor
  · intro h
    refine (lex_splice_toList userExists_plain hend).1 ?_
    rw [hnil]
    exact h.userExists
  · intro h
    refine ⟨?_, ?_, ?_⟩
    · rw [userExistsSql, (lex_splice_toList userExists_plain hend).2 h, hnil]
    · rw [loginUserSql, (lex_splice_toList loginUser_plain hend).2 h, hnil]
    · rw [registerUserSql, (lex_splice_toList registerUser_plain (head_hash _)).2 h, lex_hash]

/-! ## The end of a C string -/

theorem cStr_eq {s : String} (h : Char.ofNat 0 ∉ s.toList) : cStr s = s.toList := by
  refine List.takeWhile_eq_self_iff.2 fun c hc => ?_
  rw [decide_eq_true_eq]
  rintro rfl
  exact h hc

theorem not_mem_cStr (s : String) : Char.ofNat 0 ∉ cStr s := by
  intro h
  have hne := List.mem_takeWhile_imp h
  simp at hne

theorem splice_nul (hb : Char.ofNat 0 ∉ before.toList) (hv : Char.ofNat 0 ∉ value.toList)
    (ha : Char.ofNat 0 ∉ after.toList) : Char.ofNat 0 ∉ (splice before value after).toList := by
  rw [splice_toList]
  have hquote : Char.ofNat 0 ≠ '\'' := by decide
  simp only [List.mem_append, List.mem_cons, not_or]
  exact ⟨hb, hquote, hv, hquote, ha⟩

/-- A nickname without a NUL is read to its end. -/
theorem isData_cStr (hn : Char.ofNat 0 ∉ nickname.toList) :
    IsData hasher cStr nickname password ↔ IsData hasher String.toList nickname password := by
  have hend : Char.ofNat 0 ∉ "".toList := List.not_mem_nil
  have hhash : Char.ofNat 0 ∉ (splice ", " (hashPassword hasher password) ")").toList :=
    splice_nul comma_plain.nul (hashPassword_plain hasher password).nul bracket_plain.nul
  have hexists : cStr (userExistsSql nickname) = (userExistsSql nickname).toList :=
    cStr_eq (splice_nul userExists_plain.nul hn hend)
  have hlogin : cStr (loginUserSql nickname) = (loginUserSql nickname).toList :=
    cStr_eq (splice_nul loginUser_plain.nul hn hend)
  have hregister : cStr (registerUserSql nickname (hashPassword hasher password)) =
      (registerUserSql nickname (hashPassword hasher password)).toList :=
    cStr_eq (splice_nul registerUser_plain.nul hn hhash)
  constructor
  · intro h
    exact ⟨by rw [← hexists, h.userExists], by rw [← hlogin, h.loginUser], by rw [← hregister, h.registerUser]⟩
  · intro h
    exact ⟨by rw [hexists, h.userExists], by rw [hlogin, h.loginUser], by rw [hregister, h.registerUser]⟩

/-- A nickname with a NUL is cut off there. -/
theorem IsData.nul (h : IsData hasher cStr nickname password) : Char.ofNat 0 ∉ nickname.toList := by
  intro hn
  have htext := congrArg (List.flatMap (Token.render '\'')) h.userExists
  rw [render_lex, List.flatMap_append, List.flatMap_singleton] at htext
  apply not_mem_cStr (userExistsSql nickname)
  rw [htext]
  refine List.mem_append_right _ (List.mem_append_left _ (List.mem_cons_of_mem _ (mem_double hn)))

/-- What SQLite reads of the texts. -/
theorem isData_cStr_iff (hasher : String → UInt64) (nickname password : String) :
    IsData hasher cStr nickname password ↔ Plain nickname := by
  constructor
  · intro h c hc
    have hquote := (isData_toList_iff hasher nickname password).1 ((isData_cStr h.nul).1 h)
    constructor
    · rintro rfl
      exact hquote hc
    · rintro rfl
      exact h.nul hc
  · intro h
    exact (isData_cStr h.nul).2 ((isData_toList_iff hasher nickname password).2 h.quote)

/-- The nickname is data in the texts as they are built exactly when it has no quote in
it, and in what SQLite reads of them exactly when it has no NUL in it either. -/
theorem isData_iff (hasher : String → UInt64) (nickname password : String) :
    (IsData hasher String.toList nickname password ↔ '\'' ∉ nickname.toList) ∧
      (IsData hasher cStr nickname password ↔ Plain nickname) :=
  ⟨isData_toList_iff hasher nickname password, isData_cStr_iff hasher nickname password⟩

/-- A condition that every row meets. -/
def anybody : String := "' OR '1'='1"

theorem anybody_toList : anybody.toList = ['\'', ' ', 'O', 'R', ' ', '\'', '1', '\'', '=', '\'', '1'] :=
  String.toList_ofList

/-- With this nickname the login asks for any row at all. -/
theorem isData_fails : anybody.isEmpty = false ∧ lex '\'' (cStr (loginUserSql anybody)) = plain
      "SELECT id, nickname, rating, games_played, games_won, games_drawn, password_hash FROM users WHERE nickname = " ++
        .literal [] :: (plain " OR " ++ .literal ['1'] :: (plain "=" ++ [.literal ['1']])) ∧
    ∀ hasher password, ¬ IsData hasher String.toList anybody password ∧ ¬ IsData hasher cStr anybody password := by
  have hquote : '\'' ∈ anybody.toList := by
    rw [anybody_toList]
    exact List.mem_cons_self
  refine ⟨by decide, ?_, fun hasher password => ⟨?_, ?_⟩⟩
  · have hn : Char.ofNat 0 ∉ anybody.toList := by
      rw [anybody_toList]
      decide
    have hend : Char.ofNat 0 ∉ "".toList := List.not_mem_nil
    rw [loginUserSql, cStr_eq (splice_nul loginUser_plain.nul hn hend), splice_toList,
      lex_plain loginUser_plain.quote, anybody_toList, plain, plain, plain,
      show " OR ".toList = [' ', 'O', 'R', ' '] from String.toList_ofList,
      show "=".toList = ['='] from String.toList_ofList]
    rfl
  · exact fun h => (isData_toList_iff hasher anybody password).1 h hquote
  · exact fun h => ((isData_cStr_iff hasher anybody password).1 h).quote hquote

end Database

end ChessGame
