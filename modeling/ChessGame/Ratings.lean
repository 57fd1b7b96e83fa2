import ChessGame.Records
/-!
# Stored ratings

`update_rating` computes from the copy of the rating in the session and stores the
result as it is. Nothing is lost as long as the copies are those of the table when
a game is decided.
-/

namespace ChessGame

/-- What the entry adds to the user's rating. -/
def Entry.change (id : ℤ) : Entry → ℤ
  | .rated _ winner loser gain loss => (if winner = id then gain else 0) + (if loser = id then loss else 0)
  | _ => 0

theorem Entry.change_eq_zero {id : ℤ} {e : Entry} (h : id ∉ e.ids) : e.change id = 0 := by
  cases e with
  | rated r winner loser gain loss =>
    simp only [Entry.ids, List.mem_cons, List.not_mem_nil, or_false, not_or] at h
    simp [Entry.change, Ne.symm h.1, Ne.symm h.2]
  | _ => rfl

namespace Server

open Runs

variable {env : Env} {s t : Server} {p q : SessionId} {r : RoomId} {room : GameRoom} {ev : Event}

/-- Every stored rating is 1000 and all the changes computed for its user. -/
def RatingsKept (s : Server) : Prop := ∀ u ∈ s.db.users, u.rating = 1000 + (s.journal.map (Entry.change u.id)).sum

/-- The session's copy of the rating is the stored one. -/
def UpToDate (s : Server) (p : SessionId) : Prop := ∀ u ∈ s.db.users, u.id = s.userId p → u.rating = s.rating p

/-- The two players of a room are different users, and both ratings are up to date. -/
def FreshRoom (s : Server) (room : GameRoom) : Prop :=
  UpToDate s room.white ∧ UpToDate s room.black ∧ s.userId room.white ≠ s.userId room.black

/-- The event signs in with a plain nickname, and decides a game between fresh copies only. -/
def FreshCopies (s : Server) : Event → Prop
  | .command _ (.auth nick _) => Plain nick
  | .command p .leave | .disconnect p =>
    match s.roomOf p with
    | none => True
    | some (_, room) => FreshRoom s room
  | .command p (.move src dst promotion) =>
    match s.roomOf p with
    | none => True
    | some (_, room) =>
      match room.onMove ⟨p, src, dst, promotion⟩ with
      | .ok (_, some e) => e.winner.isSome → FreshRoom s room
      | _ => True
  | _ => True

theorem FreshCopies.plain (h : FreshCopies s ev) : PlainAuth ev := by
  unfold PlainAuth
  split
  · exact h
  · trivial

theorem FreshCopies.quits (h : FreshCopies s ev) (hq : Quits s ev r room p) : FreshRoom s room := by
  cases hq with
  | leave hr => simpa [FreshCopies, hr] using h
  | disconnect hr => simpa [FreshCopies, hr] using h

theorem FreshCopies.ends (h : FreshCopies s ev) {e : Ending} (he : Ends s ev r room e) (hw : e.winner ≠ none) :
    FreshRoom s room := by
  cases he with
  | @move p r room room' src dst promotion e hr hm =>
    obtain ⟨m, hacc⟩ := onMove_ok hm
    have hfresh : FreshRoom s room := by
      have h' : e.winner.isSome → FreshRoom s room := by simpa [FreshCopies, hr, hm] using h
      exact h' (Option.isSome_iff_ne_none.2 hw)
    rwa [hacc.room]
  | accept _ ha =>
    unfold GameRoom.onDrawAccept at ha
    split at ha
    · cases ha
      exact absurd rfl hw
    · cases ha

/-- What the bookings make of a row's rating, if it was up to date. -/
theorem booked_rating {winner loser : SessionId} (hne : s.userId winner ≠ s.userId loser) (hw : UpToDate s winner)
    (hl : UpToDate s loser) {u : User} (hu : u ∈ s.db.users) : (booked env s winner loser u).rating =
      u.rating + ((ratings env r (some (winner, loser)) s).map (Entry.change u.id)).sum := by
  by_cases h1 : u.id = s.userId winner
  · have h2 : u.id ≠ s.userId loser := h1 ▸ hne
    simp [booked, ratings, Entry.change, h1, hne, hne.symm, hw u hu h1]
  · by_cases h2 : u.id = s.userId loser
    · simp [booked, ratings, Entry.change, h2, hne, hne.symm, hl u hu h2]
    · simp [booked, ratings, Entry.change, h1, h2, Ne.symm h1, Ne.symm h2]

theorem Closes.ratingsKept {white black : SessionId} {decided : Option (SessionId × SessionId)} {rows : List GameRow}
    (h : Closes env s t r white black decided rows) (hfresh : decided ≠ none → UpToDate s white ∧ UpToDate s black ∧
      s.userId white ≠ s.userId black) (hk : RatingsKept s) : RatingsKept t := by
  have hsum : ∀ id, (t.journal.map (Entry.change id)).sum =
      (s.journal.map (Entry.change id)).sum + ((ratings env r decided s).map (Entry.change id)).sum := by
    intro id
    have hrows : ((rows.map (savedEntry r)).map (Entry.change id)).sum = 0 := by
      rw [List.map_map]
      exact List.sum_eq_zero fun x hx => by obtain ⟨row, -, rfl⟩ := List.mem_map.1 hx; rfl
    rw [h.journal]
    simp only [List.map_append, List.sum_append, hrows]
    simp [Entry.change]
  intro u hu
  rw [hsum]
  obtain ⟨hd, husers⟩ | ⟨winner, loser, hd, husers⟩ := h.users_eq
  · rw [husers] at hu
    rw [hk u hu, hd]
    simp [ratings]
  · rw [husers] at hu
    obtain ⟨v, hv, rfl⟩ := List.mem_map.1 hu
    obtain ⟨hw, hb, hne⟩ := hfresh (hd ▸ Option.some_ne_none _)
    have htwo := h.two _ hd
    simp only [Prod.mk.injEq] at htwo
    rw [booked_id, hd]
    obtain ⟨rfl, rfl⟩ | ⟨rfl, rfl⟩ := htwo
    · rw [booked_rating hne hw hb hv, hk v hv, add_assoc]
    · rw [booked_rating hne.symm hb hw hv, hk v hv, add_assoc]

/-- A new row starts at 1000, and no change is on record for it. -/
theorem RatingsKept.insert (h : RatingsKept s) (ha : Accounts s) (nick hash : String)
    (hdb : t.db = s.db.insertUser nick hash) (hj : t.journal = s.journal) : RatingsKept t := by
  intro u hu
  rw [hdb] at hu
  rw [hj]
  obtain hu | hu := List.mem_append.1 hu
  · exact h u hu
  · rw [List.mem_singleton.1 hu]
    have hzero : (s.journal.map (Entry.change (s.db.lastId + 1))).sum = 0 := by
      refine List.sum_eq_zero fun x hx => ?_
      obtain ⟨e, he, rfl⟩ := List.mem_map.1 hx
      apply Entry.change_eq_zero
      intro hid
      obtain ⟨v, hv, hvid⟩ := ha.named e he _ hid
      have := ha.bound v hv
      omega
    rw [hzero]
    rfl

theorem View.ratingsKept (hk : RatingsKept s) (ha : Accounts s) (hv : View env s ev t) (hf : FreshCopies s ev) :
    RatingsKept t := by
  have hsame : ∀ t : Server, t.db = s.db → t.journal = s.journal → RatingsKept t := by
    intro t hdb hj u hu
    rw [hj]
    exact hk u (hdb ▸ hu)
  cases hv with
  | quiet h => exact hsame t h.db h.journal
  | refused h =>
    obtain rfl | rfl := signIn_users hf.plain h
    · exact hk
    · exact hk.insert ha _ _ rfl rfl
  | login _ h =>
    obtain rfl | rfl := signIn_users hf.plain h
    · exact hsame _ rfl rfl
    · exact hk.insert ha _ _ rfl rfl
  | paired _ _ =>
    intro u hu
    have hsum := hk u hu
    simpa [pair, Entry.change] using hsum
  | @ended _ _ r room e row he hc =>
    refine hc.ratingsKept (fun hd => hf.ends he ?_) hk
    rintro hw
    rw [hw] at hd
    exact hd rfl
  | quit hq hc => exact hc.ratingsKept (fun _ => hf.quits hq) hk

/-! ## Runs -/

/-- Since the tables were created: where games are decided between fresh copies only, the table keeps every change. -/
theorem ratings_kept {l : List (Server × Event)} (h : Run (Handled env) init l s)
    (hc : ∀ x ∈ l, FreshCopies x.1 x.2) : RatingsKept s := by
  have hinv : Accounts s ∧ RatingsKept s := by
    refine h.inv_of (fun s => Accounts s ∧ RatingsKept s) FreshCopies ⟨init_accounts, nofun⟩ ?_ hc
    rintro s ev t hr ⟨ha, hk⟩ hf hh
    have hv := hh.view ha.lobby
    exact ⟨hv.accounts ha ((hh.change ha.lobby).lobby ha.lobby) hf.plain, hv.ratingsKept hk ha hf⟩
  exact hinv.2

instance (s : Server) (p : SessionId) : Decidable (UpToDate s p) := by
  unfold UpToDate; infer_instance

instance (s : Server) : DecidablePred (FreshRoom s) := fun room => by
  unfold FreshRoom; infer_instance

instance (s : Server) : DecidablePred (FreshCopies s)
  | .command _ (.auth nick _) => inferInstanceAs (Decidable (Plain nick))
  | .command p .leave | .disconnect p => by
    dsimp only [FreshCopies]
    cases s.roomOf p <;> infer_instance
  | .command p (.move src dst promotion) => by
    dsimp only [FreshCopies]
    rcases s.roomOf p with _ | ⟨_, room⟩
    · infer_instance
    · dsimp only
      rcases room.onMove ⟨p, src, dst, promotion⟩ with _ | ⟨_, _ | e⟩ <;> infer_instance
  | .command _ .invalid | .command _ .ping | .command _ .leaderboard | .command _ .queue | .command _ (.chat _)
  | .command _ (.draw _) | .command _ .unknown | .connect _ => instDecidableTrue

theorem ratings_smothered_mate : (after .even smotheredMate).db.users.map (·.rating) = [984, 1016] ∧
    RatingsKept (after .even smotheredMate) := by
  have hfresh : ∀ x ∈ steps .even init smotheredMate, FreshCopies x.1 x.2 := by decide +kernel
  exact ⟨by decide +kernel, ratings_kept (steps_run .even smotheredMate) hfresh⟩

/-- Alice signs in twice, and both her opponents leave: the second game is rated from the old copy. -/
def twoLogins : List Event := opening ++ [.command 2 (.auth "alice" "a"), .command 3 (.auth "carol" "c"),
  .command 2 .queue, .command 3 .queue, .command 1 .leave, .command 3 .leave]

theorem ratings_lost : ¬ RatingsKept (after .even twoLogins) := by
  have hlost : ¬ ∀ u ∈ (after .even twoLogins).db.users,
      u.rating = 1000 + ((after .even twoLogins).journal.map (Entry.change u.id)).sum := by decide +kernel
  exact hlost

end Server

end ChessGame
