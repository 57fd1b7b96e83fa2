import Mathlib
/-!
# The database

`database.cpp` on the tables `users` and `games`.
Statements are taken to succeed, and the time stamps are left out. The texts of
`login_or_register` splice the nickname into a string literal: where it breaks
out of the literal, what SQLite makes of the text is a parameter.
-/

namespace ChessGame

structure User where
  id : ℤ
  nickname : String
  passwordHash : String
  rating : ℤ
  gamesPlayed : ℕ
  gamesWon : ℕ
  gamesDrawn : ℕ
  deriving DecidableEq, Repr

/-- A row of `games`. -/
structure GameRow where
  whitePlayerId : ℤ
  blackPlayerId : ℤ
  winnerId : ℤ
  result : String
  pgn : String
  deriving DecidableEq, Repr

structure UserInfo where
  id : ℤ
  nickname : String
  rating : ℤ
  gamesPlayed : ℕ
  gamesWon : ℕ
  gamesDrawn : ℕ
  deriving DecidableEq, Repr

structure Database where
  users : List User
  games : List GameRow
  /-- The largest id handed out: `AUTOINCREMENT` never hands out one twice. -/
  lastId : ℕ
  deriving DecidableEq, Repr

/-- What the server takes from outside the repository. -/
structure Env where
  /-- `std::hash` on strings, in hexadecimal. -/
  hashPassword : String → String
  /-- `login_or_register` for a nickname that is not `Plain`. -/
  injected : String → String → Database → Option UserInfo × Database
  /-- The winner's expected score, from the two ratings: `std::pow` is in it. -/
  expectedScore : ℤ → ℤ → ℚ
  /-- `std::sort` with a comparison of keys. -/
  sort : (ℕ → ℤ) → List ℕ → List ℕ
  sort_perm : ∀ key l, (sort key l).Perm l
  sort_sorted : ∀ key l, (sort key l).Pairwise fun a b => key a ≤ key b

/-- As between players of equal ratings, whose expected score is one half. -/
def Env.even : Env where
  hashPassword := id
  injected _ _ db := (none, db)
  expectedScore _ _ := 1 / 2
  sort key l := l.insertionSort fun a b => key a ≤ key b
  sort_perm _ _ := List.perm_insertionSort ..
  sort_sorted key l := by
    have htotal : Std.Total fun a b => key a ≤ key b := ⟨fun a b => le_total (key a) (key b)⟩
    have htrans : IsTrans ℕ fun a b => key a ≤ key b := ⟨fun _ _ _ => le_trans⟩
    exact List.pairwise_insertionSort _ l

/-- The nickname stays inside its string literal. -/
def Plain (nickname : String) : Prop := ∀ c ∈ nickname.toList, c ≠ '\'' ∧ c ≠ Char.ofNat 0

instance (nickname : String) : Decidable (Plain nickname) :=
  decidable_of_iff (nickname.toList.all fun c => c ≠ '\'' && c ≠ Char.ofNat 0) (by simp [Plain])

namespace Database

/-- After `create_tables` on a new file: tables of an older file are kept as they are. -/
def empty : Database := ⟨[], [], 0⟩

def findUser (db : Database) (nickname : String) : Option User := db.users.find? (·.nickname = nickname)

def userExists (db : Database) (nickname : String) : Bool := (db.findUser nickname).isSome

def loginUser (env : Env) (db : Database) (nickname password : String) : Option UserInfo :=
  match db.findUser nickname with
  | none => none
  | some u =>
    if env.hashPassword password = u.passwordHash then
      some ⟨u.id, u.nickname, u.rating, u.gamesPlayed, u.gamesWon, u.gamesDrawn⟩
    else none

/-- A new row with the defaults of the table. -/
def insertUser (db : Database) (nickname passwordHash : String) : Database :=
  { db with
    users := db.users ++ [⟨db.lastId + 1, nickname, passwordHash, 1000, 0, 0, 0⟩]
    lastId := db.lastId + 1 }

def registerUser (env : Env) (db : Database) (nickname password : String) : Bool × Database :=
  if db.userExists nickname then (false, db)
  else (true, db.insertUser nickname (env.hashPassword password))

def loginOrRegister (env : Env) (db : Database) (nickname password : String) : Option UserInfo × Database :=
  if Plain nickname then
    match db.loginUser env nickname password with
    | some info => (some info, db)
    | none =>
      match db.registerUser env nickname password with
      | (true, db) => (db.loginUser env nickname password, db)
      | (false, db) => (none, db)
  else env.injected nickname password db

/-- `UPDATE users SET … WHERE id = …`. -/
def updateUser (db : Database) (id : ℤ) (f : User → User) : Database :=
  { db with users := db.users.map fun u => if u.id = id then f u else u }

def updateRating (db : Database) (id : ℤ) (rating : ℤ) : Database := db.updateUser id fun u => { u with rating }

def updateStats (db : Database) (id : ℤ) (won draw : Bool) : Database :=
  db.updateUser id fun u =>
    if won then { u with gamesPlayed := u.gamesPlayed + 1, gamesWon := u.gamesWon + 1 }
    else if draw then { u with gamesPlayed := u.gamesPlayed + 1, gamesDrawn := u.gamesDrawn + 1 }
    else { u with gamesPlayed := u.gamesPlayed + 1 }

def saveGame (db : Database) (whiteId blackId winnerId : ℤ) (result pgn : String) : Database :=
  { db with games := db.games ++ [⟨whiteId, blackId, winnerId, result, pgn⟩] }

/-- `ORDER BY rating DESC LIMIT`; the order of equal ratings is left to SQLite. -/
def getTopPlayers (db : Database) (limit : ℕ) : List (ℤ × String × ℤ) :=
  ((db.users.mergeSort fun u v => v.rating ≤ u.rating).take limit).map fun u => (u.id, u.nickname, u.rating)

/-! ## Signing in -/

variable {env : Env} {db db' : Database} {nickname password : String} {info : UserInfo}

theorem loginUser_some (h : db.loginUser env nickname password = some info) :
    ∃ u ∈ db.users, u.id = info.id ∧ u.rating = info.rating := by
  unfold loginUser at h
  split at h
  · cases h
  · rename_i u hu
    split at h
    · cases h
      exact ⟨u, List.mem_of_find?_eq_some hu, rfl, rfl⟩
    · cases h

/-- For a plain nickname the table stays as it is or gets one new row. -/
theorem loginOrRegister_db (hp : Plain nickname) : (db.loginOrRegister env nickname password).2 = db ∨
    (db.loginOrRegister env nickname password).2 = db.insertUser nickname (env.hashPassword password) := by
  unfold loginOrRegister registerUser
  rw [if_pos hp]
  cases db.loginUser env nickname password with
  | some info => exact .inl rfl
  | none =>
    cases db.userExists nickname with
    | true => exact .inl rfl
    | false => exact .inr rfl

/-- Whoever signs in has a row, and gets its id and rating. -/
theorem loginOrRegister_some (hp : Plain nickname) (h : db.loginOrRegister env nickname password = (some info, db')) :
    ∃ u ∈ db'.users, u.id = info.id ∧ u.rating = info.rating := by
  unfold loginOrRegister at h
  rw [if_pos hp] at h
  split at h
  · rename_i info' hlogin
    cases h
    exact loginUser_some hlogin
  · split at h
    · rw [Prod.mk.injEq] at h
      obtain ⟨hlogin, rfl⟩ := h
      exact loginUser_some hlogin
    · cases h

end Database

end ChessGame
