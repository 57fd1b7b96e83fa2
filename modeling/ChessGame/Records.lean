import ChessGame.Accounts
import ChessGame.Turns
/-!
# Records of the games

Each ending should leave a row in `games` and raise the counters of its two users.
`end_game` writes the row and, when the game was decided, the counters; drawn games
raise no counter, and `GameRoom::on_disconnect` writes no row.
-/

namespace ChessGame

/-- An ending by its white user, its black user and the winner. -/
def Entry.ending : Entry → Option (ℤ × ℤ × Option ℤ)
  | .ended _ white black winner => some (white, black, winner)
  | _ => none

namespace Server

open Runs

variable {env : Env} {s t : Server} {p q : SessionId} {r : RoomId} {room : GameRoom} {ev : Event}

def endings (s : Server) : List (ℤ × ℤ × Option ℤ) := s.journal.filterMap Entry.ending

/-- The user played in the game. -/
def PlayedIn (id : ℤ) (x : ℤ × ℤ × Option ℤ) : Prop := id = x.1 ∨ id = x.2.1

instance (id : ℤ) : DecidablePred (PlayedIn id) := fun x => by unfold PlayedIn; infer_instance

/-- Every ending has its row, both its users, and is counted once for each of them. -/
structure RecordsAgree (s : Server) : Prop where
  rows : s.db.games.map (fun row => (row.whitePlayerId, row.blackPlayerId, row.winnerId)) =
    (endings s).map fun x => (x.1, x.2.1, x.2.2.getD (-1))
  users : ∀ x ∈ endings s, HasRow s x.1 ∧ HasRow s x.2.1
  winner : ∀ x ∈ endings s, ∀ id, x.2.2 = some id → PlayedIn id x
  played : ∀ u ∈ s.db.users, u.gamesPlayed = (endings s).countP (PlayedIn u.id ·)
  won : ∀ u ∈ s.db.users, u.gamesWon = (endings s).countP (·.2.2 = some u.id)
  drawn : ∀ u ∈ s.db.users, u.gamesDrawn = (endings s).countP fun x => x.2.2 = none ∧ PlayedIn u.id x
  total : ∀ u ∈ s.db.users,
    u.gamesPlayed = s.db.games.countP fun row => u.id = row.whitePlayerId ∨ u.id = row.blackPlayerId

/-- The event signs in with a plain nickname, ends no game but by mate, and that
between two different users. -/
def MatesOnly (s : Server) : Event → Prop
  | .command _ (.auth nick _) => Plain nick
  | .command p .leave => s.roomOf p = none
  | .disconnect p => s.roomOf p = none
  | .command p (.draw "accept") =>
    match s.roomOf p with
    | none => True
    | some (_, room) => room.onDrawAccept p = none
  | .command p (.move src dst promotion) =>
    match s.roomOf p with
    | none => True
    | some (_, room) =>
      match room.onMove ⟨p, src, dst, promotion⟩ with
      | .ok (_, some e) => e.result = .checkmate ∧ s.userId room.white ≠ s.userId room.black
      | _ => True
  | _ => True

theorem MatesOnly.plain (h : MatesOnly s ev) : PlainAuth ev := by
  unfold PlainAuth
  split
  · exact h
  · trivial

theorem MatesOnly.not_quits (h : MatesOnly s ev) : ¬ Quits s ev r room p := by
  rintro (hr | hr)
  · exact absurd (h.symm.trans hr) nofun
  · exact absurd (h.symm.trans hr) nofun

theorem MatesOnly.mate (h : MatesOnly s ev) {e : Ending} (he : Ends s ev r room e) :
    e.result = .checkmate ∧ s.userId room.white ≠ s.userId room.black := by
  cases he with
  | @move p r room room' src dst promotion e hr hm =>
    obtain ⟨m, hacc⟩ := onMove_ok hm
    have hmate : e.result = .checkmate ∧ s.userId room.white ≠ s.userId room.black := by
      simpa [MatesOnly, hr, hm] using h
    rwa [hacc.room]
  | @accept p r room e hr ha =>
    have hnone : room.onDrawAccept p = none := by simpa [MatesOnly, hr] using h
    exact absurd (hnone.symm.trans ha) nofun

/-! ## One ending -/

/-- What the bookings add to a row's counters. -/
theorem booked_counts {winner loser : SessionId} (hne : s.userId winner ≠ s.userId loser) (u : User) :
    (booked env s winner loser u).gamesPlayed =
        u.gamesPlayed + (if u.id = s.userId winner ∨ u.id = s.userId loser then 1 else 0) ∧
      (booked env s winner loser u).gamesWon = u.gamesWon + (if s.userId winner = u.id then 1 else 0) ∧
      (booked env s winner loser u).gamesDrawn = u.gamesDrawn := by
  by_cases hw : u.id = s.userId winner
  · have hl : u.id ≠ s.userId loser := hw ▸ hne
    simp [booked, hw, hne]
  · by_cases hl : u.id = s.userId loser
    · simp [booked, hl, Ne.symm hne, hne]
    · simp [booked, hw, hl, Ne.symm hw]

theorem Closes.endings {white black : SessionId} {decided : Option (SessionId × SessionId)} {rows : List GameRow}
    (h : Closes env s t r white black decided rows) :
    t.endings = s.endings ++ [(s.userId white, s.userId black, decided.map fun x => s.userId x.1)] := by
  have hrates : (ratings env r decided s).filterMap Entry.ending = [] := by cases decided <;> rfl
  have hrows : (rows.map (savedEntry r)).filterMap Entry.ending = [] := by
    rw [List.filterMap_map, List.filterMap_eq_nil_iff]
    exact fun _ _ => rfl
  unfold Server.endings
  rw [h.journal, List.filterMap_append, List.filterMap_append, List.filterMap_append, hrates, hrows]
  rfl

/-- A mate between two users is recorded as it should be. -/
theorem Closes.records {white black winner loser : SessionId} {row : GameRow}
    (h : Closes env s t r white black (some (winner, loser)) [row]) (hne : s.userId white ≠ s.userId black)
    (ha : Accounts s) (hr : RecordsAgree s) : RecordsAgree t := by
  have hend := h.endings
  have hwin : (winner = white ∧ loser = black) ∨ (winner = black ∧ loser = white) := by
    have := h.two _ rfl
    simpa using this
  have hne' : s.userId winner ≠ s.userId loser := by
    obtain ⟨rfl, rfl⟩ | ⟨rfl, rfl⟩ := hwin
    · exact hne
    · exact hne.symm
  have hplayed : ∀ id, PlayedIn id (s.userId white, s.userId black, some (s.userId winner)) ↔
      id = s.userId winner ∨ id = s.userId loser := by
    intro id
    unfold PlayedIn
    obtain ⟨rfl, rfl⟩ | ⟨rfl, rfl⟩ := hwin
    · exact Iff.rfl
    · exact or_comm
  have hmem : ∀ u ∈ t.db.users, ∃ v ∈ s.db.users, booked env s winner loser v = u := by
    intro u hu
    rw [h.users, rate_users] at hu
    exact List.mem_map.1 hu
  obtain ⟨hrow1, hrow2, hrow3⟩ := h.written row (List.mem_singleton_self row)
  have hseat : ∀ q, (s.sessions q).room = some r → HasRow s (s.userId q) := fun q hq =>
    ha.owner q (ha.lobby.authorized q (.inr (by rw [hq]; exact Option.some_ne_none r)))
  constructor
  · rw [h.games, hend, List.map_append, List.map_append, hr.rows, List.map_singleton, List.map_singleton, hrow1, hrow2,
      hrow3]
  · intro x hx
    rw [hend, List.mem_append, List.mem_singleton] at hx
    rw [h.hasRow, h.hasRow]
    obtain hx | rfl := hx
    · exact hr.users x hx
    · exact ⟨hseat white h.seatWhite, hseat black h.seatBlack⟩
  · intro x hx id hid
    rw [hend, List.mem_append, List.mem_singleton] at hx
    obtain hx | rfl := hx
    · exact hr.winner x hx id hid
    · exact (hplayed id).2 (.inl (Option.some.inj hid).symm)
  · intro u hu
    obtain ⟨v, hv, rfl⟩ := hmem u hu
    rw [hend, List.countP_append, (booked_counts hne' v).1, booked_id, hr.played v hv, List.countP_singleton]
    simp only [Option.map_some, decide_eq_true_eq, hplayed]
  · intro u hu
    obtain ⟨v, hv, rfl⟩ := hmem u hu
    rw [hend, List.countP_append, (booked_counts hne' v).2.1, booked_id, hr.won v hv, List.countP_singleton]
    simp
  · intro u hu
    obtain ⟨v, hv, rfl⟩ := hmem u hu
    rw [hend, List.countP_append, (booked_counts hne' v).2.2, booked_id, hr.drawn v hv, List.countP_singleton]
    simp
  · intro u hu
    obtain ⟨v, hv, rfl⟩ := hmem u hu
    rw [h.games, List.countP_append, (booked_counts hne' v).1, booked_id, hr.total v hv, List.countP_singleton, hrow1,
      hrow2]
    have := hplayed v.id
    simp only [PlayedIn] at this
    simp only [decide_eq_true_eq, this]

/-- Nobody has played under an id that is new. -/
theorem RecordsAgree.insert (h : RecordsAgree s) (ha : Accounts s) (nick hash : String)
    (hdb : t.db = s.db.insertUser nick hash) (hj : t.journal = s.journal) : RecordsAgree t := by
  have hend : t.endings = s.endings := by rw [endings, hj, endings]
  have husers : t.db.users = s.db.users ++ [⟨s.db.lastId + 1, nick, hash, 1000, 0, 0, 0⟩] := by rw [hdb]; rfl
  have hrow : ∀ id, HasRow s id → HasRow t id := by
    rintro id ⟨u, hu, hid⟩
    exact ⟨u, husers ▸ List.mem_append_left _ hu, hid⟩
  -- the ids of the endings are older
  have hold : ∀ x ∈ s.endings, ¬ PlayedIn (s.db.lastId + 1) x := by
    intro x hx hp
    have hle : ∀ id, HasRow s id → id ≤ s.db.lastId := fun id ⟨u, hu, hid⟩ => hid ▸ ha.bound u hu
    have h1 := hle _ (h.users x hx).1
    have h2 := hle _ (h.users x hx).2
    unfold PlayedIn at hp
    omega
  have hnew : ∀ x ∈ s.endings, x.2.2 ≠ some ((s.db.lastId : ℤ) + 1) := fun x hx he => hold x hx (h.winner x hx _ he)
  have hcases : ∀ u ∈ t.db.users, u ∈ s.db.users ∨ u = ⟨s.db.lastId + 1, nick, hash, 1000, 0, 0, 0⟩ := by
    intro u hu
    rw [husers] at hu
    exact (List.mem_append.1 hu).imp_right List.mem_singleton.1
  have hgame : t.db.games = s.db.games := by rw [hdb]; rfl
  have hzero : s.endings.countP (PlayedIn ((s.db.lastId : ℤ) + 1) ·) = 0 := by
    rw [List.countP_eq_zero]
    intro x hx
    simpa using hold x hx
  constructor
  · rw [hgame, hend]; exact h.rows
  · intro x hx
    rw [hend] at hx
    exact (h.users x hx).imp (hrow _) (hrow _)
  · rw [hend]; exact h.winner
  · intro u hu
    rw [hend]
    obtain hu | rfl := hcases u hu
    · exact h.played u hu
    · exact hzero.symm
  · intro u hu
    rw [hend]
    obtain hu | rfl := hcases u hu
    · exact h.won u hu
    · refine (List.countP_eq_zero.2 fun x hx => ?_).symm
      simpa using hnew x hx
  · intro u hu
    rw [hend]
    obtain hu | rfl := hcases u hu
    · exact h.drawn u hu
    · refine (List.countP_eq_zero.2 fun x hx => ?_).symm
      simpa using fun _ => hold x hx
  · intro u hu
    rw [hgame]
    obtain hu | rfl := hcases u hu
    · exact h.total u hu
    · have hrows := congrArg
        (List.countP fun x : ℤ × ℤ × ℤ => (s.db.lastId : ℤ) + 1 = x.1 ∨ (s.db.lastId : ℤ) + 1 = x.2.1) h.rows
      rw [List.countP_map, List.countP_map] at hrows
      exact (hrows.trans hzero).symm

theorem View.records (hr : RecordsAgree s) (ha : Accounts s) (hv : View env s ev t) (hm : MatesOnly s ev) :
    RecordsAgree t := by
  have hsame : ∀ t : Server, t.db = s.db → t.endings = s.endings → RecordsAgree t := by
    intro t hdb hend
    have hrow : ∀ id, HasRow t id ↔ HasRow s id := fun id => by rw [HasRow, hdb, HasRow]
    constructor
    · rw [hdb, hend]; exact hr.rows
    · simp only [hend, hrow]; exact hr.users
    · rw [hend]; exact hr.winner
    · rw [hdb, hend]; exact hr.played
    · rw [hdb, hend]; exact hr.won
    · rw [hdb, hend]; exact hr.drawn
    · rw [hdb]; exact hr.total
  cases hv with
  | quiet h => exact hsame t h.db (by rw [endings, h.journal, endings])
  | refused h =>
    obtain rfl | rfl := signIn_users hm.plain h
    · exact hr
    · exact hr.insert ha _ _ rfl rfl
  | login _ h =>
    obtain rfl | rfl := signIn_users hm.plain h
    · exact hsame _ rfl rfl
    · exact hr.insert ha _ _ rfl rfl
  | paired _ _ => exact hsame _ rfl ((List.filterMap_append ..).trans (List.append_nil _))
  | @ended _ _ r room e row he hc =>
    obtain ⟨hmate, hne⟩ := hm.mate he
    obtain ⟨-, hw⟩ | ⟨hd, -⟩ | ⟨hd, -⟩ := he.fits.decides hc.ne
    · have hsome := he.fits.mate.2 hmate
      rw [hw] at hsome
      cases hsome
    · rw [hd] at hc
      exact hc.records hne ha hr
    · rw [hd] at hc
      exact hc.records hne ha hr
  | quit hq _ => exact absurd hq hm.not_quits

/-! ## Runs -/

/-- Since the tables were created: where games end by mates between different users only, the records agree. -/
theorem records_agree {l : List (Server × Event)} (h : Run (Handled env) init l s)
    (hc : ∀ x ∈ l, MatesOnly x.1 x.2) : RecordsAgree s := by
  have hinit : RecordsAgree init := ⟨rfl, nofun, nofun, nofun, nofun, nofun, nofun⟩
  have hinv : Accounts s ∧ RecordsAgree s := by
    refine h.inv_of (fun s => Accounts s ∧ RecordsAgree s) MatesOnly ⟨init_accounts, hinit⟩ ?_ hc
    rintro s ev t hr ⟨ha, hrec⟩ hm hh
    have hv := hh.view ha.lobby
    exact ⟨hv.accounts ha ((hh.change ha.lobby).lobby ha.lobby) hm.plain, hv.records hrec ha hm⟩
  exact hinv.2

theorem matesOnly_draw {action : String} :
    (action = "accept" → ∀ x ∈ s.roomOf p, x.2.onDrawAccept p = none) ↔ MatesOnly s (.command p (.draw action)) := by
  by_cases ha : action = "accept"
  · subst ha
    cases hr : s.roomOf p <;> simp [MatesOnly, hr]
  · simp [MatesOnly, ha]

instance (s : Server) : DecidablePred (MatesOnly s)
  | .command _ (.auth nick _) => inferInstanceAs (Decidable (Plain nick))
  | .command p .leave | .disconnect p => inferInstanceAs (Decidable (s.roomOf p = none))
  | .command _ (.draw _) => decidable_of_iff _ matesOnly_draw
  | .command p (.move src dst promotion) => by
    dsimp only [MatesOnly]
    rcases s.roomOf p with _ | ⟨_, room⟩
    · infer_instance
    · dsimp only
      rcases room.onMove ⟨p, src, dst, promotion⟩ with _ | ⟨_, _ | e⟩ <;> infer_instance
  | .command _ .invalid | .command _ .ping | .command _ .leaderboard | .command _ .queue | .command _ (.chat _)
  | .command _ .unknown | .connect _ => instDecidableTrue

/-- 1.c4 Nc6 2.e3 Nb4 3.Ne2 Nd3 mate -/
def smotheredMate : List Event := opening ++ plies true [("c2", "c4"), ("b8", "c6"), ("e2", "e3"), ("c6", "b4"),
  ("g1", "e2"), ("b4", "d3")]

theorem records_smothered_mate :
    (after .even smotheredMate).db.games.length = 1 ∧ RecordsAgree (after .even smotheredMate) := by
  have hmates : ∀ x ∈ steps .even init smotheredMate, MatesOnly x.1 x.2 := by decide +kernel
  exact ⟨by decide +kernel, records_agree (steps_run .even smotheredMate) hmates⟩

/-- White leaves: black gets the rating, but the game leaves no row. -/
theorem records_fail_on_leave : ¬ RecordsAgree (after .even (opening ++ [.command 0 .leave])) := by
  intro h
  have hrows := congrArg List.length h.rows
  rw [List.length_map, List.length_map] at hrows
  exact absurd hrows (by decide +kernel)

end Server

end ChessGame
