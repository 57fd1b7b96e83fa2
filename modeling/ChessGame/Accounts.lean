import ChessGame.Endings
/-!
# Accounts

As long as nicknames are plain, a session that has signed in belongs to a row of
`users`, and so does every id in the journal: a new row never comes with a history.
-/

namespace ChessGame

/-- The user ids an entry names. -/
def Entry.ids : Entry → List ℤ
  | .matched _ white black | .ended _ white black _ | .saved _ white black _ => [white, black]
  | .rated _ winner loser _ _ => [winner, loser]

namespace Server

open Runs

variable {env : Env} {s t : Server} {p q : SessionId} {r : RoomId} {ev : Event} {white black : SessionId}
  {decided : Option (SessionId × SessionId)} {rows : List GameRow}

def HasRow (s : Server) (id : ℤ) : Prop := ∃ u ∈ s.db.users, u.id = id

/-- The event signs nobody in, or with a plain nickname. -/
def PlainAuth : Event → Prop
  | .command _ (.auth nick _) => Plain nick
  | _ => True

instance : DecidablePred PlainAuth := fun ev => by unfold PlainAuth; split <;> infer_instance

structure Accounts (s : Server) : Prop where
  lobby : Lobby s
  bound : ∀ u ∈ s.db.users, u.id ≤ s.db.lastId
  owner : ∀ p, (s.sessions p).authorized = true → HasRow s (s.userId p)
  named : ∀ e ∈ s.journal, ∀ id ∈ e.ids, HasRow s id

theorem init_accounts : Accounts init where
  lobby := init_lobby
  bound := nofun
  owner p h := by cases h
  named := nofun

theorem Closes.users_eq (h : Closes env s t r white black decided rows) :
    (decided = none ∧ t.db.users = s.db.users) ∨
      ∃ winner loser, decided = some (winner, loser) ∧ t.db.users = s.db.users.map (booked env s winner loser) := by
  rw [h.users]
  cases decided with
  | none => exact .inl ⟨rfl, rfl⟩
  | some x => exact .inr ⟨x.1, x.2, rfl, rate_users ..⟩

/-- No row appears or disappears when a game ends. -/
theorem Closes.hasRow (h : Closes env s t r white black decided rows) {id : ℤ} : HasRow t id ↔ HasRow s id := by
  obtain ⟨-, hu⟩ | ⟨winner, loser, -, hu⟩ := h.users_eq
  · rw [HasRow, hu, HasRow]
  · rw [HasRow, hu, HasRow]
    simp [booked_id]

/-- An ending names the two players, who have signed in. -/
theorem Closes.accounts (h : Closes env s t r white black decided rows) (hs : Accounts s) (ht : Lobby t) :
    Accounts t where
  lobby := ht
  bound u hu := by
    rw [h.lastId]
    obtain ⟨-, he⟩ | ⟨winner, loser, -, he⟩ := h.users_eq
    · exact hs.bound u (he ▸ hu)
    · rw [he] at hu
      obtain ⟨v, hv, rfl⟩ := List.mem_map.1 hu
      rw [booked_id]
      exact hs.bound v hv
  owner p hp := by
    rw [h.hasRow, h.userId]
    exact hs.owner p (h.authorized p ▸ hp)
  named e he id hid := by
    rw [h.hasRow]
    rw [h.journal, List.mem_append] at he
    obtain he | he := he
    · exact hs.named e he id hid
    have hseat : ∀ q, (s.sessions q).room = some r → HasRow s (s.userId q) := fun q hq =>
      hs.owner q (hs.lobby.authorized q (.inr (by rw [hq]; exact Option.some_ne_none r)))
    have hw := hseat white h.seatWhite
    have hb := hseat black h.seatBlack
    have htwo : ∀ x ∈ [s.userId white, s.userId black], HasRow s x := by simp [hw, hb]
    simp only [List.mem_append, List.mem_map, List.mem_singleton] at he
    obtain (he | ⟨row, hrow, rfl⟩) | rfl := he
    · cases hd : decided with
      | none => rw [hd] at he; cases he
      | some x =>
        rw [hd, ratings, List.mem_singleton] at he
        subst he
        have hx := h.two x hd
        apply htwo
        obtain rfl | rfl := hx <;> simpa [Entry.ids, or_comm] using hid
    · obtain ⟨h1, h2, -⟩ := h.written row hrow
      apply htwo
      rw [← h1, ← h2]
      exact hid
    · exact htwo id hid

/-- Signing in keeps the rows and may add one, with a new id. -/
theorem signIn_users {nick password : String} (hp : Plain nick) {info : Option UserInfo} {db : Database}
    (h : s.db.loginOrRegister env nick password = (info, db)) : db = s.db ∨
      db = s.db.insertUser nick (env.hashPassword password) := by
  have hdb : (s.db.loginOrRegister env nick password).2 = db := by rw [h]
  rw [← hdb]
  exact Database.loginOrRegister_db hp

/-- A change of the table that keeps the rows and bounds the ids. -/
theorem Accounts.grow (hs : Accounts s) (ht : Lobby t) (hrow : ∀ id, HasRow s id → HasRow t id)
    (hbound : ∀ u ∈ t.db.users, u.id ≤ t.db.lastId) (hjournal : ∀ e ∈ t.journal, e ∈ s.journal ∨
      ∀ id ∈ e.ids, HasRow s id)
    (howner : ∀ p, (t.sessions p).authorized = true → HasRow t (t.userId p)) : Accounts t where
  lobby := ht
  bound := hbound
  owner := howner
  named e he id hid := by
    obtain he | he := hjournal e he
    · exact hrow id (hs.named e he id hid)
    · exact hrow id (he id hid)

theorem insertUser_bound {db : Database} (h : ∀ u ∈ db.users, u.id ≤ db.lastId) (nick hash : String) :
    ∀ u ∈ (db.insertUser nick hash).users, u.id ≤ (db.insertUser nick hash).lastId := by
  intro u hu
  have hlast : (db.insertUser nick hash).lastId = db.lastId + 1 := rfl
  rw [hlast]
  obtain hu | hu := List.mem_append.1 hu
  · have := h u hu
    push_cast
    omega
  · rw [List.mem_singleton.1 hu]
    push_cast
    exact le_refl _

theorem View.accounts (hs : Accounts s) (hv : View env s ev t) (ht : Lobby t) (hp : PlainAuth ev) : Accounts t := by
  cases hv with
  | quiet h =>
    have hrow : ∀ id, HasRow t id ↔ HasRow s id := fun id => by rw [HasRow, h.db, HasRow]
    refine hs.grow ht (fun id => (hrow id).2) (by rw [h.db]; exact hs.bound) (fun e he => .inl (h.journal ▸ he)) ?_
    intro p hp
    rw [hrow, h.userId]
    exact hs.owner p (h.authorized p ▸ hp)
  | @refused p nick password db h =>
    obtain rfl | rfl := signIn_users hp h
    · exact ⟨ht, hs.bound, hs.owner, hs.named⟩
    · have hrow : ∀ id, HasRow s id → HasRow { s with db := s.db.insertUser nick (env.hashPassword password) } id :=
        fun id ⟨u, hu, hid⟩ => ⟨u, List.mem_append_left _ hu, hid⟩
      exact hs.grow ht hrow (insertUser_bound hs.bound _ _) (fun e he => .inl he) fun q hq => hrow _ (hs.owner q hq)
  | @login p nick password info db _ h =>
    have hrow : ∀ id, HasRow s id → HasRow (setSession { s with db } p (loggedIn info)) id := by
      rintro id ⟨u, hu, hid⟩
      obtain rfl | rfl := signIn_users hp h
      · exact ⟨u, hu, hid⟩
      · exact ⟨u, List.mem_append_left _ hu, hid⟩
    have hbound : ∀ u ∈ db.users, u.id ≤ db.lastId := by
      obtain rfl | rfl := signIn_users hp h
      · exact hs.bound
      · exact insertUser_bound hs.bound _ _
    refine hs.grow ht hrow hbound (fun e he => .inl he) fun q hq => ?_
    rw [sessions_setSession] at hq
    rw [userId, sessions_setSession]
    split at hq
    · rename_i hqp
      rw [if_pos hqp]
      obtain ⟨u, hu, hid, -⟩ := Database.loginOrRegister_some hp h
      exact ⟨u, hu, hid⟩
    · rename_i hqp
      rw [if_neg hqp]
      exact hrow _ (hs.owner q hq)
  | @paired _ white black hw hb =>
    have hseat : ∀ q, q = white ∨ q = black → HasRow s (s.userId q) := by
      intro q hq
      refine hs.owner q (pair_authorized q ▸ ht.authorized q (.inr ?_))
      rw [pair_seat hq]
      exact Option.some_ne_none _
    refine hs.grow ht (fun id h => h) hs.bound (fun e he => ?_) fun q hq => ?_
    · obtain he | he := List.mem_append.1 he
      · exact .inl he
      · rw [List.mem_singleton.1 he]
        refine .inr fun id hid => ?_
        simp only [Entry.ids, List.mem_cons, List.not_mem_nil, or_false] at hid
        obtain rfl | rfl := hid
        · exact hseat white (.inl rfl)
        · exact hseat black (.inr rfl)
    · rw [pair_userId]
      exact hs.owner q (pair_authorized q ▸ hq)
  | ended _ hc => exact hc.accounts hs ht
  | quit _ hc => exact hc.accounts hs ht

end Server

end ChessGame
