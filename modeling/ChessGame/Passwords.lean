import ChessGame.Accounts
import ChessGame.Told
/-!
# Passwords

Whoever uses a nickname first chooses its password: `login_or_register` registers it then,
and from then on compares hashes. Ending a game writes to the same rows and leaves these
columns alone. So the rows that the server found in its tables and the events since then
tell who may sign in, and whom a session stands for.
-/
open Runs

namespace ChessGame

/-- The columns of a row that are never written again. -/
def User.credentials (u : User) : ℤ × String × String := (u.id, u.nickname, u.passwordHash)

/-- The row as `login_user` returns it. -/
def User.info (u : User) : UserInfo := ⟨u.id, u.nickname, u.rating, u.gamesPlayed, u.gamesWon, u.gamesDrawn⟩

/-- What only signing in changes about a session. -/
def Session.identity (x : Session) : Bool × String × ℤ := (x.authorized, x.nick, x.userId)

/-- Nickname and password of an attempt to sign in. -/
def Event.attempt : Event → Option (String × String)
  | .command _ (.auth nick password) => some (nick, password)
  | _ => none

namespace Database

variable {env : Env} {db : Database} {nick nick' hash password : String}

def credentials (db : Database) : List (ℤ × String × String) := db.users.map User.credentials

/-- The stored hash for a nickname. -/
def storedHash (db : Database) (nick : String) : Option String := (db.findUser nick).map (·.passwordHash)

/-- What `create_tables` declares: ids and nicknames are unique, and no id is above the largest one handed out. -/
structure Keyed (db : Database) : Prop where
  bound : ∀ c ∈ db.credentials, c.1 ≤ db.lastId
  ids : (db.credentials.map Prod.fst).Nodup
  nicknames : (db.credentials.map (·.2.1)).Nodup

theorem storedHash_eq (db : Database) (nick : String) :
    db.storedHash nick = (db.credentials.find? (·.2.1 = nick)).map (·.2.2) := by
  rw [storedHash, findUser, credentials, List.find?_map, Option.map_map]
  rfl

theorem findUser_mem {u : User} (h : db.findUser nick = some u) : u ∈ db.users ∧ u.nickname = nick :=
  ⟨List.mem_of_find?_eq_some h, by simpa using List.find?_some h⟩

theorem findUser_none (h : db.findUser nick = none) : ∀ u ∈ db.users, u.nickname ≠ nick := by
  simpa [findUser] using h

/-- A nickname that stands in one row only is found there. -/
theorem findUser_of_mem (hd : (db.users.map (·.nickname)).Nodup) {u : User} (hu : u ∈ db.users) :
    db.findUser u.nickname = some u := by
  cases hfind : db.findUser u.nickname with
  | none => exact absurd rfl (findUser_none hfind u hu)
  | some v =>
    obtain ⟨hv, hname⟩ := findUser_mem hfind
    rw [List.inj_on_of_nodup_map hd hv hu hname]

theorem storedHash_insert (h : db.findUser nick = none) :
    (db.insertUser nick hash).storedHash nick' = if nick = nick' then some hash else db.storedHash nick' := by
  unfold storedHash findUser insertUser
  rw [List.find?_append]
  by_cases hn : nick = nick'
  · subst hn
    rw [show db.users.find? _ = none from h]
    simp
  · simp [hn]

theorem credentials_insert (db : Database) (nick hash : String) :
    (db.insertUser nick hash).credentials = db.credentials ++ [((db.lastId + 1 : ℤ), nick, hash)] := by
  simp [credentials, insertUser, User.credentials]

theorem Keyed.congr {db' : Database} (h : db.Keyed) (hrows : db'.credentials = db.credentials)
    (hlast : db'.lastId = db.lastId) : db'.Keyed := by
  constructor
  · rw [hrows, hlast]
    exact h.bound
  · rw [hrows]
    exact h.ids
  · rw [hrows]
    exact h.nicknames

/-- A new row with a new nickname. -/
theorem Keyed.insert (h : db.Keyed) (hu : db.findUser nick = none) (hash : String) :
    (db.insertUser nick hash).Keyed := by
  have hlast : ((db.insertUser nick hash).lastId : ℤ) = db.lastId + 1 := Nat.cast_succ _
  constructor
  · rw [credentials_insert, hlast, List.forall_mem_append, List.forall_mem_singleton]
    exact ⟨fun c hc => (h.bound c hc).trans (by omega), le_refl _⟩
  · rw [credentials_insert, List.map_append, List.map_singleton]
    refine List.nodup_append_comm.1 (List.nodup_cons.2 ⟨fun hold => ?_, h.ids⟩)
    obtain ⟨c, hc, he⟩ := List.mem_map.1 hold
    have := h.bound c hc
    omega
  · rw [credentials_insert, List.map_append, List.map_singleton]
    refine List.nodup_append_comm.1 (List.nodup_cons.2 ⟨fun hold => ?_, h.nicknames⟩)
    rw [credentials, List.map_map] at hold
    obtain ⟨u, hmem, he⟩ := List.mem_map.1 hold
    exact findUser_none hu u hmem he

/-- A nickname in use is asked for its password, a new one is taken. -/
theorem loginOrRegister_cases (env : Env) (hp : Plain nick) (password : String) :
    (∃ u, db.findUser nick = some u ∧ db.loginOrRegister env nick password =
      (if env.hashPassword password = u.passwordHash then some u.info else none, db)) ∨
    (db.findUser nick = none ∧ db.loginOrRegister env nick password =
      (some ⟨db.lastId + 1, nick, 1000, 0, 0, 0⟩, db.insertUser nick (env.hashPassword password))) := by
  unfold loginOrRegister registerUser userExists
  rw [if_pos hp]
  cases hfind : db.findUser nick with
  | some u =>
    refine .inl ⟨u, rfl, ?_⟩
    unfold loginUser
    rw [hfind]
    dsimp only [Option.isSome_some]
    by_cases hhash : env.hashPassword password = u.passwordHash
    · simp [hhash, User.info]
    · simp [hhash]
  | none =>
    refine .inr ⟨rfl, ?_⟩
    have hnone : db.loginUser env nick password = none := by
      unfold loginUser
      rw [hfind]
    have hnew : (db.insertUser nick (env.hashPassword password)).findUser nick =
        some ⟨db.lastId + 1, nick, env.hashPassword password, 1000, 0, 0, 0⟩ := by
      unfold findUser insertUser
      rw [List.find?_append, show db.users.find? _ = none from hfind]
      simp
    rw [hnone]
    simp [loginUser, hnew]

end Database

namespace Server

variable {env : Env} {s t : Server} {p q : SessionId} {ev : Event} {l : List (Server × Event)} {nick password : String}
  {base : Database}

/-- The server when it has opened its tables. -/
def opened (base : Database) : Server := { init with db := base }

/-! ## What the other events leave alone -/

theorem booked_credentials (env : Env) (s : Server) (winner loser : SessionId) (u : User) :
    (booked env s winner loser u).credentials = u.credentials := by
  simp only [booked, User.credentials]
  split_ifs <;> rfl

theorem finish_identity (env : Env) (r : RoomId) (room : GameRoom) (decided : Option (SessionId × SessionId))
    (write : Database → Database) (entries : List Entry) (s : Server) (q : SessionId) :
    ((s.finish env r room decided write entries).sessions q).identity = (s.sessions q).identity := by
  have hseat : ∀ (s : Server) (p : SessionId), ((s.setRoom p none).sessions q).identity = (s.sessions q).identity :=
    fun s p => setSession_field Session.identity (fun _ => by rfl) s p q
  unfold finish clearSeats
  rw [hseat, hseat, rate_session]
  rfl

theorem finish_credentials (env : Env) (r : RoomId) (room : GameRoom) (decided : Option (SessionId × SessionId))
    {write : Database → Database} (hwrite : ∀ db, (write db).users = db.users) (entries : List Entry) (s : Server) :
    (s.finish env r room decided write entries).db.credentials = s.db.credentials := by
  have husers : (s.finish env r room decided write entries).db.users = (s.rate env r decided).db.users := hwrite _
  unfold Database.credentials
  rw [husers]
  cases decided with
  | none => rfl
  | some x =>
    rw [rate_users, List.map_map]
    exact List.map_congr_left fun u _ => booked_credentials ..

theorem setInQueue_identity (s : Server) (p q : SessionId) (x : Bool) :
    ((s.setInQueue p x).sessions q).identity = (s.sessions q).identity :=
  setSession_field Session.identity (fun _ => by rfl) s p q

/-- Only an attempt to sign in touches credentials, or says who a session is. -/
theorem Change.keeps (hc : Change env s ev t) (hev : ev.attempt = none) :
    t.db.credentials = s.db.credentials ∧ t.db.lastId = s.db.lastId ∧
      ∀ q, (t.sessions q).identity = (s.sessions q).identity := by
  cases hc with
  | idle _ | changed _ _ _ _ => exact ⟨rfl, rfl, fun _ => rfl⟩
  | refused _ | login _ _ => cases hev
  | @queued p _ _ _ => exact ⟨rfl, rfl, fun q => setInQueue_identity s p q true⟩
  | @unqueued _ p _ _ => exact ⟨rfl, rfl, fun q => setInQueue_identity s p q false⟩
  | paired _ _ _ _ _ => exact ⟨rfl, rfl, fun q => pair_field Session.identity (fun _ _ _ => by rfl) q⟩
  | @ended _ r room e _ =>
    rw [endGame_eq]
    exact ⟨finish_credentials env r room _ (fun _ => by rfl) _ (s.setGame r room), rate_lastId ..,
      finish_identity env r room _ _ _ (s.setGame r room)⟩
  | @quit _ r room p _ _ =>
    rw [roomDisconnect_eq]
    exact ⟨finish_credentials env r room _ (fun _ => by rfl)
      [.ended r (s.userId room.white) (s.userId room.black) ((room.opponentOf p).map s.userId)] s, rate_lastId ..,
      finish_identity env r room _ _ _ s⟩

/-! ## What the events so far tell -/

def attempts (l : List (Server × Event)) : List (String × String) := l.filterMap fun x => x.2.attempt

/-- The password that came with the nickname when it was first used. -/
def firstPassword (nick : String) (l : List (Server × Event)) : Option String :=
  ((attempts l).find? (·.1 = nick)).map Prod.snd

theorem firstPassword_quiet (hev : ev.attempt = none) (nick : String) (l : List (Server × Event)) :
    firstPassword nick (l ++ [(s, ev)]) = firstPassword nick l := by
  simp [firstPassword, attempts, hev]

/-- Only the first attempt counts. -/
theorem firstPassword_attempt (hev : ev.attempt = some (nick, password)) (nick' : String) (l : List (Server × Event)) :
    firstPassword nick' (l ++ [(s, ev)]) =
      (firstPassword nick' l).or (if nick = nick' then some password else none) := by
  unfold firstPassword attempts
  rw [List.filterMap_append, List.find?_append]
  by_cases hn : nick = nick'
  · cases (List.filterMap (fun x : Server × Event => x.2.attempt) l).find? (·.1 = nick') <;> simp [hev, hn]
  · cases (List.filterMap (fun x : Server × Event => x.2.attempt) l).find? (·.1 = nick') <;> simp [hev, hn]

/-- The hash that counts for a nickname: the one in the tables that were opened, or else that of the password
with which the nickname was first used. -/
def knownHash (env : Env) (base : Database) (nick : String) (l : List (Server × Event)) : Option String :=
  (base.storedHash nick).or ((firstPassword nick l).map env.hashPassword)

/-- Only the first attempt with a nickname that had no row counts. -/
theorem knownHash_attempt (nick' : String) : knownHash env base nick' (l ++ [(s, .command p (.auth nick password))]) =
    (knownHash env base nick' l).or (if nick = nick' then some (env.hashPassword password) else none) := by
  unfold knownHash
  rw [firstPassword_attempt rfl, Option.or_assoc]
  cases firstPassword nick' l with
  | some first => rfl
  | none => split <;> rfl

/-- The session stands for a row whose password it has given. -/
def SignedIn (env : Env) (l : List (Server × Event)) (s : Server) (p : SessionId) : Prop :=
  (s.nick p).isEmpty = false ∧ ∃ hash, (s.userId p, s.nick p, hash) ∈ s.db.credentials ∧
    ∃ password, (∃ x ∈ l, x.2 = .command p (.auth (s.nick p) password)) ∧ env.hashPassword password = hash

/-- What the tables that were opened and the events since then say about the tables and the sessions. -/
structure Book (env : Env) (base : Database) (l : List (Server × Event)) (s : Server) : Prop where
  keyed : s.db.Keyed
  hash : ∀ nick, nick.isEmpty = false → s.db.storedHash nick = knownHash env base nick l
  signedIn : ∀ p, (s.sessions p).authorized = true → SignedIn env l s p

theorem opened_book (env : Env) (h : base.Keyed) : Book env base [] (opened base) where
  keyed := h
  hash _ _ := (Option.or_none ..).symm
  signedIn p h := by cases h

/-- More events and more rows take nothing away. -/
theorem SignedIn.mono {l' : List (Server × Event)} (h : SignedIn env l s p)
    (hp : (t.sessions p).identity = (s.sessions p).identity) (hrows : s.db.credentials ⊆ t.db.credentials)
    (hl : l ⊆ l') :
    SignedIn env l' t p := by
  have hnick : t.nick p = s.nick p := congrArg (·.2.1) hp
  have hid : t.userId p = s.userId p := congrArg (·.2.2) hp
  obtain ⟨hne, hash, hrow, password, ⟨x, hx, he⟩, hhash⟩ := h
  rw [SignedIn, hnick, hid]
  exact ⟨hne, hash, hrows hrow, password, ⟨x, hl hx, he⟩, hhash⟩

theorem Book.quiet (h : Book env base l s) (hc : Change env s ev t) (hev : ev.attempt = none) :
    Book env base (l ++ [(s, ev)]) t := by
  obtain ⟨hrows, hlast, hsame⟩ := hc.keeps hev
  refine ⟨h.keyed.congr hrows hlast, fun nick hne => ?_, fun p hp => ?_⟩
  · rw [Database.storedHash_eq, hrows, ← Database.storedHash_eq, knownHash, firstPassword_quiet hev]
    exact h.hash nick hne
  · have hauth : (t.sessions p).authorized = (s.sessions p).authorized := congrArg Prod.fst (hsame p)
    exact (h.signedIn p (hauth ▸ hp)).mono (hsame p) (hrows ▸ List.Subset.refl _) (List.subset_append_left ..)

/-! ## Signing in -/

theorem storedHash_some {u : User} (h : s.db.findUser nick = some u) : s.db.storedHash nick = some u.passwordHash := by
  rw [Database.storedHash, h]
  rfl

/-- An attempt with a nickname that has a row changes no row. -/
theorem Book.known (h : Book env base l s) {u : User} (hu : s.db.findUser nick = some u) (hnick : nick.isEmpty = false)
    (hs : t.db = s.db) (hself : (t.sessions p).authorized = true →
      ((t.sessions p).identity = (true, u.nickname, u.id) ∧ env.hashPassword password = u.passwordHash) ∨
        (t.sessions p).identity = (s.sessions p).identity)
    (hother : ∀ q ≠ p, (t.sessions q).identity = (s.sessions q).identity) :
    Book env base (l ++ [(s, .command p (.auth nick password))]) t := by
  obtain ⟨hmem, hname⟩ := Database.findUser_mem hu
  have hsame : ∀ q, (t.sessions q).authorized = true → (t.sessions q).identity = (s.sessions q).identity →
      SignedIn env (l ++ [(s, .command p (.auth nick password))]) t q := by
    intro q hq he
    have hauth : (t.sessions q).authorized = (s.sessions q).authorized := congrArg Prod.fst he
    exact (h.signedIn q (hauth ▸ hq)).mono he (hs ▸ List.Subset.refl _) (List.subset_append_left ..)
  refine ⟨hs ▸ h.keyed, fun nick' hne => ?_, fun q hq => ?_⟩
  · rw [hs, h.hash nick' hne, knownHash_attempt]
    by_cases hn : nick = nick'
    · -- it has a row, so its hash is known
      subst hn
      have hknown := h.hash nick hnick
      rw [storedHash_some hu] at hknown
      rw [← hknown]
      rfl
    · rw [if_neg hn, Option.or_none]
  · by_cases hqp : q = p
    · subst hqp
      obtain ⟨he, hhash⟩ | he := hself hq
      · have hn : t.nick q = nick := (congrArg (·.2.1) he).trans hname
        have hid : t.userId q = u.id := congrArg (·.2.2) he
        rw [SignedIn, hn, hid, hs]
        refine ⟨hnick, u.passwordHash, ?_, password, ⟨_, List.mem_concat_self, rfl⟩, hhash⟩
        exact List.mem_map.2 ⟨u, hmem, by rw [User.credentials, hname]⟩
      · exact hsame q hq he
    · exact hsame q hq (hother q hqp)

/-- An attempt with a new nickname adds its row. -/
theorem Book.fresh (h : Book env base l s) (hu : s.db.findUser nick = none) (hnick : nick.isEmpty = false)
    (hs : t.db = s.db.insertUser nick (env.hashPassword password))
    (hself : (t.sessions p).identity = (true, nick, (s.db.lastId + 1 : ℤ)))
    (hother : ∀ q ≠ p, (t.sessions q).identity = (s.sessions q).identity) :
    Book env base (l ++ [(s, .command p (.auth nick password))]) t := by
  have hrows : t.db.credentials = s.db.credentials ++ [((s.db.lastId + 1 : ℤ), nick, env.hashPassword password)] := by
    rw [hs, Database.credentials_insert]
  refine ⟨hs ▸ h.keyed.insert hu _, fun nick' hne => ?_, fun q hq => ?_⟩
  · rw [hs, Database.storedHash_insert hu, knownHash_attempt, ← h.hash nick' hne]
    by_cases hn : nick = nick'
    · -- it has no row, so this is its first use
      subst hn
      rw [if_pos rfl, if_pos rfl, Database.storedHash, hu]
      rfl
    · rw [if_neg hn, if_neg hn, Option.or_none]
  · by_cases hqp : q = p
    · subst hqp
      have hn : t.nick q = nick := congrArg (·.2.1) hself
      have hid : t.userId q = s.db.lastId + 1 := congrArg (·.2.2) hself
      rw [SignedIn, hn, hid, hrows]
      exact ⟨hnick, _, List.mem_concat_self, password, ⟨_, List.mem_concat_self, rfl⟩, rfl⟩
    · have hauth : (t.sessions q).authorized = (s.sessions q).authorized := congrArg Prod.fst (hother q hqp)
      refine (h.signedIn q (hauth ▸ hq)).mono (hother q hqp) ?_ (List.subset_append_left ..)
      rw [hrows]
      exact List.subset_append_left ..

/-- What `handle_auth` does with a nickname that has a row. -/
theorem handleAuth_known {u : User} (hp : Plain nick) (hnick : nick.isEmpty = false)
    (hu : s.db.findUser nick = some u) :
    s.handleAuth env p nick password =
      if env.hashPassword password = u.passwordHash then
        (s.setSession p (loggedIn u.info), [(p, .ok "authorized"), (p, .ratingUpdate u.rating)])
      else (s, [(p, .error "Authentication failed")]) := by
  obtain ⟨u', hu', hlogin⟩ | ⟨hnone, -⟩ := s.db.loginOrRegister_cases env hp password
  · obtain rfl := Option.some.inj (hu.symm.trans hu')
    unfold handleAuth
    rw [hnick, hlogin]
    by_cases hhash : env.hashPassword password = u.passwordHash
    · rw [if_pos hhash, if_pos hhash]
      have hrating : (s.setSession p (loggedIn u.info)).rating p = u.rating := by
        rw [rating, sessions_setSession, if_pos rfl]
        rfl
      rw [← hrating]
      rfl
    · rw [if_neg hhash, if_neg hhash]
      rfl
  · rw [hu] at hnone
    cases hnone

/-- What it does with a new one. -/
theorem handleAuth_fresh (hp : Plain nick) (hnick : nick.isEmpty = false) (hu : s.db.findUser nick = none) :
    s.handleAuth env p nick password =
      (setSession { s with db := s.db.insertUser nick (env.hashPassword password) } p
        (loggedIn ⟨s.db.lastId + 1, nick, 1000, 0, 0, 0⟩), [(p, .ok "authorized"), (p, .ratingUpdate 1000)]) := by
  obtain ⟨u, hu', -⟩ | ⟨-, hlogin⟩ := s.db.loginOrRegister_cases env hp password
  · rw [hu] at hu'
    cases hu'
  · have hrating : (setSession { s with db := s.db.insertUser nick (env.hashPassword password) } p
        (loggedIn ⟨s.db.lastId + 1, nick, 1000, 0, 0, 0⟩)).rating p = 1000 := by
      rw [rating, sessions_setSession, if_pos rfl]
      rfl
    unfold handleAuth
    rw [hnick, hlogin]
    exact congrArg (fun rating => (_, [(p, Message.ok "authorized"), (p, Message.ratingUpdate rating)])) hrating

theorem Book.attempt (h : Book env base l s) (hp : Plain nick) :
    Book env base (l ++ [(s, .command p (.auth nick password))]) (s.handleAuth env p nick password).1 := by
  cases hnick : nick.isEmpty with
  | true =>
    have hsame : (s.handleAuth env p nick password).1 = s := by
      unfold handleAuth
      rw [if_pos hnick]
    rw [hsame]
    refine ⟨h.keyed, fun nick' hne => ?_, fun q hq => ?_⟩
    · have hn : nick ≠ nick' := by
        rintro rfl
        rw [hnick] at hne
        cases hne
      rw [h.hash nick' hne, knownHash_attempt, if_neg hn, Option.or_none]
    · exact (h.signedIn q hq).mono rfl (List.Subset.refl _) (List.subset_append_left ..)
  | false =>
    cases hu : s.db.findUser nick with
    | some u =>
      rw [handleAuth_known hp hnick hu]
      by_cases hhash : env.hashPassword password = u.passwordHash
      · rw [if_pos hhash]
        refine h.known hu hnick rfl (fun _ => .inl ⟨?_, hhash⟩) fun q hq => ?_
        · rw [sessions_setSession, if_pos rfl]
          rfl
        · rw [sessions_setSession, if_neg hq]
      · rw [if_neg hhash]
        exact h.known hu hnick rfl (fun _ => .inr rfl) fun q _ => rfl
    | none =>
      rw [handleAuth_fresh hp hnick hu]
      refine h.fresh hu hnick rfl ?_ fun q hq => ?_
      · rw [sessions_setSession, if_pos rfl]
        rfl
      · rw [sessions_setSession, if_neg hq]

/-! ## Runs -/

theorem attempt_cases (ev : Event) :
    ev.attempt = none ∨ ∃ p nick password, ev = .command p (.auth nick password) := by
  cases ev with
  | connect _ | disconnect _ => exact .inl rfl
  | command p cmd =>
    cases cmd with
    | auth nick password => exact .inr ⟨p, nick, password, rfl⟩
    | _ => exact .inl rfl

/-- Rows are added at the end, and none is changed or removed. -/
theorem handle_credentials (env : Env) (hs : Lobby s) (hp : PlainAuth ev) :
    s.db.credentials <+: (s.handle env ev).1.db.credentials := by
  obtain hev | ⟨p, nick, password, rfl⟩ := attempt_cases ev
  · rw [((handle_change env hs ev).keeps hev).1]
  · show s.db.credentials <+: (s.handleAuth env p nick password).1.db.credentials
    cases hnick : nick.isEmpty with
    | true =>
      unfold handleAuth
      rw [if_pos hnick]
    | false =>
      cases hu : s.db.findUser nick with
      | some u =>
        rw [handleAuth_known hp hnick hu]
        split <;> exact List.prefix_rfl
      | none =>
        rw [handleAuth_fresh hp hnick hu]
        exact (Database.credentials_insert ..).symm ▸ List.prefix_append ..

theorem opened_run (hbase : base.Keyed) (h : Run (Handled env) (opened base) l s) (hplain : ∀ x ∈ l, PlainAuth x.2) :
    Lobby s ∧ Book env base l s ∧ ∀ x ∈ l, x.1.db.credentials <+: s.db.credentials := by
  induction h with
  | nil => exact ⟨init_lobby.same rfl rfl rfl, opened_book env hbase, nofun⟩
  | @snoc l s ev t hrun hh ih =>
    rw [List.forall_mem_append, List.forall_mem_singleton] at hplain
    obtain ⟨hl, hs, hkept⟩ := ih hplain.1
    have hc := handle_change env hl ev
    have hrows := handle_credentials env hl hplain.2
    rw [← hh] at hc hrows
    refine ⟨hc.lobby hl, ?_, ?_⟩
    · obtain hev | ⟨p, nick, password, rfl⟩ := attempt_cases ev
      · exact hs.quiet hc hev
      · rw [hh]
        exact hs.attempt hplain.2
    · rw [List.forall_mem_append, List.forall_mem_singleton]
      exact ⟨fun x hx => (hkept x hx).trans hrows, hrows⟩

/-- Two sessions stand for one row exactly when they have one nickname. -/
theorem Book.same_user (h : Book env base l s) (hp : (s.sessions p).authorized = true)
    (hq : (s.sessions q).authorized = true) : s.userId p = s.userId q ↔ s.nick p = s.nick q := by
  obtain ⟨-, hash, hrow, -⟩ := h.signedIn p hp
  obtain ⟨-, hash', hrow', -⟩ := h.signedIn q hq
  constructor
  · intro he
    exact congrArg (·.2.1) (List.inj_on_of_nodup_map h.keyed.ids hrow hrow' he)
  · intro he
    exact congrArg Prod.fst (List.inj_on_of_nodup_map h.keyed.nicknames hrow hrow' he)

/-- The password that the session has given has the hash that counts. -/
theorem Book.known_hash (h : Book env base l s) (hp : (s.sessions p).authorized = true) :
    ∃ password, (∃ x ∈ l, x.2 = .command p (.auth (s.nick p) password)) ∧
      knownHash env base (s.nick p) l = some (env.hashPassword password) := by
  obtain ⟨hne, hash, hrow, password, hx, hhash⟩ := h.signedIn p hp
  obtain ⟨u, hu, hcred⟩ := List.mem_map.1 hrow
  have hnames : (s.db.users.map (·.nickname)).Nodup := by
    have hn := h.keyed.nicknames
    rwa [Database.credentials, List.map_map] at hn
  have hname : u.nickname = s.nick p := congrArg (·.2.1) hcred
  have hsame : u.passwordHash = hash := congrArg (·.2.2) hcred
  have hstored : s.db.storedHash (s.nick p) = some u.passwordHash := by
    rw [← hname]
    exact storedHash_some (Database.findUser_of_mem hnames hu)
  rw [h.hash _ hne, hsame, ← hhash] at hstored
  exact ⟨password, hx, hstored⟩

theorem Book.accepts (h : Book env base l s) (hp : Plain nick) (hnick : nick.isEmpty = false) (p : SessionId)
    (password : String) : .ok "authorized" ∈ told p (s.handle env (.command p (.auth nick password))).2 ↔
      ∀ hash, knownHash env base nick l = some hash → env.hashPassword password = hash := by
  show .ok "authorized" ∈ told p (s.handleAuth env p nick password).2 ↔ _
  rw [← h.hash nick hnick]
  cases hu : s.db.findUser nick with
  | some u =>
    rw [handleAuth_known hp hnick hu, storedHash_some hu]
    by_cases hhash : env.hashPassword password = u.passwordHash
    · simp [hhash]
    · simp [hhash]
  | none =>
    rw [handleAuth_fresh hp hnick hu, Database.storedHash, hu]
    simp

/-- In every run with plain nicknames, whatever tables the server opens: an attempt to sign in succeeds exactly if no
hash is known for the nickname or the password has it, every session that has signed in has given such a password,
sessions stand for one row exactly if they have one nickname, and no id, nickname or hash is ever changed. -/
theorem first_password_counts (hbase : base.Keyed) (h : Run (Handled env) (opened base) l s)
    (hplain : ∀ x ∈ l, PlainAuth x.2) :
    (∀ p nick password, Plain nick → nick.isEmpty = false →
      (.ok "authorized" ∈ told p (s.handle env (.command p (.auth nick password))).2 ↔
        ∀ hash, knownHash env base nick l = some hash → env.hashPassword password = hash)) ∧
    (∀ p, (s.sessions p).authorized = true → ∃ password,
      (∃ x ∈ l, x.2 = .command p (.auth (s.nick p) password)) ∧
        knownHash env base (s.nick p) l = some (env.hashPassword password)) ∧
    (∀ p q, (s.sessions p).authorized = true → (s.sessions q).authorized = true →
      (s.userId p = s.userId q ↔ s.nick p = s.nick q)) ∧
    (∀ x ∈ l, x.1.db.credentials <+: s.db.credentials) := by
  obtain ⟨-, hbook, hkept⟩ := opened_run hbase h hplain
  exact ⟨fun p nick password hp hnick => hbook.accepts hp hnick p password, fun p hp => hbook.known_hash hp,
    fun p q hp hq => hbook.same_user hp hq, hkept⟩

/-- Dave has been here before. -/
def daveOnly : Database := ⟨[⟨1, "dave", "d", 1100, 3, 2, 0⟩], [], 1⟩

/-- Alice and Bob sign in and play. Then neither Alice's nickname nor Dave's can be used with another password. -/
theorem first_password_counts_refused : ∃ s, Run (Handled .even) (opened daveOnly)
    (steps .even (opened daveOnly) opening) s ∧
    .ok "authorized" ∉ told 2 (s.handle .even (.command 2 (.auth "alice" "x"))).2 ∧
    .ok "authorized" ∉ told 2 (s.handle .even (.command 2 (.auth "dave" "x"))).2 ∧
    .ok "authorized" ∈ told 2 (s.handle .even (.command 2 (.auth "dave" "d"))).2 := by
  have hbase : daveOnly.Keyed := ⟨by decide, by decide, by decide⟩
  have hplain : ∀ x ∈ steps .even (opened daveOnly) opening, PlainAuth x.2 := by decide +kernel
  have hrun := steps_run_from .even (opened daveOnly) opening
  obtain ⟨haccepts, -, -, -⟩ := first_password_counts hbase hrun hplain
  have halice : knownHash .even daveOnly "alice" (steps .even (opened daveOnly) opening) = some "a" := by decide +kernel
  have hdave : knownHash .even daveOnly "dave" (steps .even (opened daveOnly) opening) = some "d" := by decide +kernel
  refine ⟨_, hrun, ?_, ?_, ?_⟩
  · rw [haccepts 2 "alice" "x" (by decide) (by decide), halice]
    exact fun h => absurd (h "a" rfl) (by decide)
  · rw [haccepts 2 "dave" "x" (by decide) (by decide), hdave]
    exact fun h => absurd (h "d" rfl) (by decide)
  · rw [haccepts 2 "dave" "d" (by decide) (by decide), hdave]
    exact fun hash h => Option.some.inj h

end Server

end ChessGame
