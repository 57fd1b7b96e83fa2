import ChessGame.Clocks
import ChessGame.Pace
/-!
# Where the move counter stops

The move counter tells whose turn it is. After 2^24 moves it shows 2^23 and stays there,
so White moves again and again; until then `apply_move` is the plain update of the board
(`applyMove_updates`). The games of a server are over long before (`rooms_exact`).
-/
open Runs

namespace ChessGame

open MoveGen Rules Position

variable {pos next : Position} {m : Move} {l : List (Position × Move)}

/-! ## The plain update -/

/-- Once the counter has stopped a move does not change whose turn it is. -/
theorem Single.applyMove_stuck (hctr : pos.moveCtr = 2 ^ 24) (h : Single.applyMove pos m = (true, next)) :
    next.sideToMove = pos.sideToMove := by
  have hnext := (Single.applyMove_counts h).1
  rw [hctr, Single.addHalf_eq le_rfl, min_eq_right (Nat.le_succ _), ← hctr] at hnext
  unfold Position.sideToMove
  rw [hnext]

/-- After any game, a generated move does to the position what the plain update does to a board exactly when fewer
than 2^24 moves have been made. -/
theorem applyMove_updates (h : Run Single.Played Position.init l pos) (hm : m ∈ pos.generateMoves.moves)
    (hh : FromHome pos m) :
    (∃ next, Single.applyMove pos m = (true, next) ∧ Updates pos m next) ↔ l.length < 2 ^ 24 := by
  constructor
  · rintro ⟨next, happly, hup⟩
    by_contra hge
    have hctr := (Single.run_counters h).1
    rw [min_eq_right (not_lt.1 hge)] at hctr
    -- the update asks for the other side, and it is the same side's turn
    have hstuck := Single.applyMove_stuck hctr happly
    rw [hup.turn] at hstuck
    exact PieceColor.ne_inverse _ hstuck.symm
  · intro hlt
    have hr : Reached pos := ⟨l, (Single.run_iff hlt.le).1 h⟩
    rw [Single.run_applyMove h hlt]
    exact hr.updates hm hh

/-- 1.e4 e5 2.Nf3 Nc6 3.Be2 Nf6, and White may castle. -/
theorem applyMove_updates_castling :
    ∃ l pos, Run Single.Played Position.init l pos ∧ l.map (fun x => (x.2.from, x.2.to)) = openGame ∧
      ∃ next, Single.applyMove pos (castleMove .wShort) = (true, next) ∧ Updates pos (castleMove .wShort) next := by
  have hend : (lineOf openGame).any (fun g => decide (castleMove .wShort ∈ g.2.generateMoves.moves) &&
      decide (g.2.pieces.board 4 = some (.white, .king)) && decide (g.2.pieces.board 7 = some (.white, .rook))) =
        true := by decide +kernel
  obtain ⟨⟨l, pos⟩, hg, htest⟩ := (Option.any_eq_true _ _).1 hend
  simp only [Bool.and_eq_true, decide_eq_true_eq] at htest
  obtain ⟨⟨hm, hking⟩, hrook⟩ := htest
  obtain ⟨hr, hsq⟩ := lineOf_run hg
  have hr := Single.run_of_squares hr hsq (by decide)
  have hl : l.length = 6 := by simpa [openGame] using congrArg List.length hsq
  have hhome : FromHome pos (castleMove .wShort) := by
    intro k hk hf
    rcases Castling.cases hk with rfl | rfl | rfl | rfl
    · exact ⟨hking, hrook⟩
    all_goals cases hf
  exact ⟨l, pos, hr, hsq, (applyMove_updates hr hm hhome).2 (by omega)⟩

/-- What can be played at the start can be played, and is accepted, in a position that looks the same. -/
theorem SamePosition.init_accepts (h : SamePosition Position.init pos) (hr : Reached pos)
    (hm : m ∈ Position.init.generateMoves.moves) : m ∈ pos.generateMoves.moves ∧ (pos.applyMove m).1 = true := by
  have hplayed : Played Position.init m (Position.init.applyMove m).2 :=
    ⟨hm, Prod.ext (Reached.accepts Reachable.init hm) rfl⟩
  obtain ⟨next, hp, -⟩ := h.played Reachable.init hr hplayed
  exact ⟨hp.1, by rw [hp.2]⟩

/-- 1.Nc3 Nc6 2.Nb1 Nb8, played 2^22 times, and Nc3 once more: White is to move again. -/
theorem applyMove_updates_fails :
    ∃ l pos m next, Run Single.Played Position.init l pos ∧
      l.map (fun x => (x.2.from, x.2.to)) = (List.replicate (2 ^ 22) [(1, 18), (57, 42), (18, 1), (42, 57)]).flatten ∧
      m ∈ pos.generateMoves.moves ∧ (m.from, m.to) = (1, 18) ∧ FromHome pos m ∧
      Single.applyMove pos m = (true, next) ∧ pos.sideToMove = .white ∧ next.sideToMove = .white ∧
      ¬ Updates pos m next := by
  have hend : (lineOf [(1, 18), (57, 42), (18, 1), (42, 57)]).any (fun g => SamePosition Position.init g.2) = true := by
    decide +kernel
  have hknight : Position.init.generateMoves.moves.any (fun m =>
      (m.from, m.to) = (1, 18) && m.flag = .default) = true := by
    decide +kernel
  obtain ⟨⟨l₀, pos₀⟩, hl₀, hsame₀⟩ := (Option.any_eq_true _ _).1 hend
  obtain ⟨m, hm, htest⟩ := List.any_eq_true.1 hknight
  simp only [Bool.and_eq_true, decide_eq_true_eq] at htest
  obtain ⟨hsq, hflag⟩ := htest
  -- each round ends in the position of the start, so the knight can go on for ever
  obtain ⟨l, pos, hr, hgame, hlength, -, hsame⟩ := cycle_run hl₀ (of_decide_eq_true hsame₀) (2 ^ 22)
  have hlimit : l.length = 2 ^ 24 := hlength.trans (by norm_num)
  have hrun := (Single.run_iff hlimit.le).2 hr
  have hctr : pos.moveCtr = 2 ^ 24 := by rw [(Single.run_counters hrun).1, hlimit, min_self]
  obtain ⟨hm', hacc⟩ := hsame.init_accepts ⟨l, hr⟩ hm
  have happly : Single.applyMove pos m = (true, (Single.applyMove pos m).2) :=
    Prod.ext ((Single.applyMove_fst pos m).trans hacc) rfl
  have hwhite : pos.sideToMove = .white := by
    unfold Position.sideToMove
    rw [hctr]
    rfl
  have hstuck := (Single.applyMove_stuck hctr happly).trans hwhite
  refine ⟨l, pos, m, _, hrun, hgame, hm', hsq, ?_, happly, hwhite, hstuck, fun hup => ?_⟩
  · intro k hk hf
    rw [hflag] at hf
    rcases Castling.cases hk with rfl | rfl | rfl | rfl <;> cases hf
  · have hturn := hup.turn
    rw [hstuck, hwhite] at hturn
    cases hturn

/-! ## The rooms of the server -/

namespace Server

variable {env : Env} {s : Server} {r : RoomId} {room : GameRoom}

/-- In every room of the server the counters are exact, and they stay so with the next move. -/
theorem rooms_exact (h : Reached env s) (hr : s.rooms[r]? = some room) :
    Single.Reached room.position ∧ ∀ m, Single.applyMove room.position m = room.position.applyMove m := by
  obtain ⟨l, hrun⟩ := h.games r room hr
  obtain ⟨hpace, hfifty⟩ := h.unhurried.inPace r room hr
  have hlength := moveCtr_eq hrun
  unfold InPace at hpace
  have hshort : l.length < 2 ^ 24 := by omega
  have hrun := (Single.run_iff hshort.le).2 hrun
  exact ⟨⟨l, hrun⟩, Single.run_applyMove hrun hshort⟩

/-- Alice has opened with e4. -/
theorem rooms_exact_opening : ∃ room,
    (after .even (opening ++ plies true [("e2", "e4")])).rooms[0]? = some room ∧ room.position.moveCtr = 1 ∧
      Single.Reached room.position ∧ ∀ m, Single.applyMove room.position m = room.position.applyMove m := by
  have hroom : (after .even (opening ++ plies true [("e2", "e4")])).rooms[0]?.any
      (fun room => room.position.moveCtr = 1) = true := by decide +kernel
  obtain ⟨room, hr, hctr⟩ := (Option.any_eq_true _ _).1 hroom
  exact ⟨room, hr, of_decide_eq_true hctr, rooms_exact ⟨_, steps_run ..⟩ hr⟩

end Server

end ChessGame
