import ChessGame.Lib.Nearest
import ChessGame.Tables
/-!
# Points for a game

`update_rating` moves points from the loser to the winner. The two new ratings are
rounded independently of each other, with halves away from zero, and are then set on
the sessions and written to the database. Of `std::pow` only the range of the expected
score is used.
-/
open Nearest

namespace ChessGame

namespace Server

variable {env : Env} {s t : Server} {p q : SessionId} {r : RoomId} {room : GameRoom} {ev : Event}
  {winner loser white black : SessionId} {ra rb : ℤ}

/-! ## The two roundings -/

theorem lround_rounds (x : ℚ) : Rounds x (lround x) := by
  unfold lround
  split
  · exact rounds_floor x
  · exact rounds_ceil x

/-- What the winner gains before rounding: `K * (1.0 - Ea)`. -/
def points (env : Env) (ra rb : ℤ) : ℚ := 32 * (1 - env.expectedScore ra rb)

theorem newWinnerRating_rounds (env : Env) (ra rb : ℤ) :
    Rounds (ra + points env ra rb) (newWinnerRating env ra rb) := lround_rounds _

theorem newLoserRating_rounds (env : Env) (ra rb : ℤ) : Rounds (rb - points env ra rb) (newLoserRating env ra rb) := by
  have hsame : rb + 32 * (0 - (1 - env.expectedScore ra rb)) = rb - points env ra rb := by
    rw [points]
    ring
  rw [← hsame]
  exact lround_rounds _

/-- What a game does to a pair of ratings. -/
structure Sane (env : Env) (ra rb : ℤ) : Prop where
  winner_ge : ra ≤ newWinnerRating env ra rb
  winner_le : newWinnerRating env ra rb ≤ ra + 32
  loser_le : newLoserRating env ra rb ≤ rb
  loser_ge : rb - 32 ≤ newLoserRating env ra rb
  sum_eq : ¬ Tie (points env ra rb) → newWinnerRating env ra rb + newLoserRating env ra rb = ra + rb
  sum_near : |newWinnerRating env ra rb + newLoserRating env ra rb - (ra + rb)| ≤ 1

theorem sane (h0 : 0 ≤ env.expectedScore ra rb) (h1 : env.expectedScore ra rb ≤ 1) : Sane env ra rb := by
  have hw := newWinnerRating_rounds env ra rb
  have hl := newLoserRating_rounds env ra rb
  have hnonneg : 0 ≤ points env ra rb := by
    rw [points]
    linarith
  have hle : points env ra rb ≤ 32 := by
    rw [points]
    linarith
  constructor
  · exact hw.ge (by linarith)
  · exact hw.le (by push_cast; linarith)
  · exact hl.le (by linarith)
  · exact hl.ge (by push_cast; linarith)
  · exact hw.sum_eq hl
  · exact hw.sum_near hl

/-! ## Sessions and database -/

/-- The new ratings are those of the sessions, and what the statements were given. -/
structure Exchanged (env : Env) (s t : Server) (winner loser : SessionId) : Prop where
  won : t.rating winner = newWinnerRating env (s.rating winner) (s.rating loser)
  lost : t.rating loser = newLoserRating env (s.rating winner) (s.rating loser)
  written : t.db.users = ((((s.db.updateRating (s.userId winner) (t.rating winner)).updateRating (s.userId loser)
    (t.rating loser)).updateStats (s.userId winner) true false).updateStats (s.userId loser) false false).users
  stored : s.userId winner ≠ s.userId loser → ∀ u ∈ t.db.users,
    (u.id = s.userId winner → u.rating = t.rating winner) ∧ (u.id = s.userId loser → u.rating = t.rating loser)

theorem booked_ratings (hne : s.userId winner ≠ s.userId loser) (u : User) :
    ((booked env s winner loser u).id = s.userId winner →
      (booked env s winner loser u).rating = newWinnerRating env (s.rating winner) (s.rating loser)) ∧
    ((booked env s winner loser u).id = s.userId loser →
      (booked env s winner loser u).rating = newLoserRating env (s.rating winner) (s.rating loser)) := by
  rw [booked_id]
  constructor
  · intro hid
    simp [booked, hid, hne]
  · intro hid
    simp [booked, hid, hne.symm]

theorem Closes.exchanged {rows : List GameRow} (h : Closes env s t r white black (some (winner, loser)) rows) :
    Exchanged env s t winner loser := by
  have hne : winner ≠ loser := by
    have htwo := h.two _ rfl
    simp only [Prod.mk.injEq] at htwo
    rcases htwo with ⟨rfl, rfl⟩ | ⟨rfl, rfl⟩
    · exact h.ne
    · exact h.ne.symm
  have hwinner : t.rating winner = newWinnerRating env (s.rating winner) (s.rating loser) := by
    rw [h.rating]
    show ((s.setRating winner _).setRating loser _).rating winner = _
    rw [setRating_rating, if_neg hne, setRating_rating, if_pos rfl]
  have hloser : t.rating loser = newLoserRating env (s.rating winner) (s.rating loser) := by
    rw [h.rating]
    show ((s.setRating winner _).setRating loser _).rating loser = _
    rw [setRating_rating, if_pos rfl]
  refine ⟨hwinner, hloser, ?_, fun hid u hu => ?_⟩
  · rw [h.users, rate_writes, hwinner, hloser]
  · rw [h.users, rate_users] at hu
    obtain ⟨v, -, rfl⟩ := List.mem_map.1 hu
    rw [hwinner, hloser]
    exact booked_ratings hid v

/-- The event makes `update_rating` run for this winner and this loser. -/
inductive Rates (s : Server) : Event → SessionId → SessionId → Prop
  /-- `end_game` -/
  | ended {ev : Event} {r : RoomId} {room : GameRoom} {e : Ending} {winner loser : SessionId} : Ends s ev r room e →
      room.decides e.winner = some (winner, loser) → Rates s ev winner loser
  /-- `GameRoom::on_disconnect` -/
  | left {ev : Event} {r : RoomId} {room : GameRoom} {other who : SessionId} : Quits s ev r room who →
      room.opponentOf who = some other → Rates s ev other who

theorem Rates.exchanged (h : Lobby s) (hr : Rates s ev winner loser) :
    Exchanged env s (s.handle env ev).1 winner loser := by
  cases hr with
  | ended he hd =>
    obtain ⟨row, hc⟩ := he.closes env h
    rw [hd] at hc
    rw [he.handled h]
    exact hc.exchanged
  | left hq ho =>
    obtain ⟨players, hhandled⟩ := hq.handled env h
    have hc := hq.closes env h
    rw [ho] at hc
    rw [hhandled]
    exact (hc.connected players).exchanged

/-- For all ratings the exchange is sane if the expected scores are scores, and in every reachable state it is what the
sessions and the database get. -/
theorem rating_exchange (env : Env) (hscore : ∀ ra rb, 0 ≤ env.expectedScore ra rb ∧ env.expectedScore ra rb ≤ 1) :
    (∀ ra rb, Sane env ra rb) ∧
      ∀ s ev winner loser, Reached env s → Rates s ev winner loser →
        Exchanged env s (s.handle env ev).1 winner loser := by
  constructor
  · intro ra rb
    exact sane (hscore ra rb).1 (hscore ra rb).2
  · intro s ev winner loser hs hr
    exact hr.exchanged hs.lobby

/-- Session 1 leaves the first game. -/
theorem rating_exchange_leave : Sane .even 1000 (-1000) ∧
    Exchanged .even (after .even opening) ((after .even opening).handle .even (.command 1 .leave)).1 0 1 := by
  have hroom : (after .even opening).roomOf 1 = some (0, GameRoom.new 0 1) := by decide +kernel
  obtain ⟨hsane, hexchanged⟩ := rating_exchange .even fun ra rb => by constructor <;> norm_num [Env.even]
  exact ⟨hsane 1000 (-1000), hexchanged _ _ 0 1 (after_reached .even opening) (.left (.leave hroom) (by decide))⟩

end Server

end ChessGame
