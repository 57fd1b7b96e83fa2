import ChessGame.EnPassant
import ChessGame.Fen
import ChessGame.Hashing
import ChessGame.Mailbox
/-!
# The counters

Both counters hold half-moves. The fifty-move rule waits until its counter, read in
moves, has come to 100, which is two hundred half-moves, and the halfmove clock of
the FEN is the counter read in moves too.
-/
open Runs

namespace ChessGame

open MoveGen Rules Position

variable {pos next : Position} {m : Move} {l : List (Position × Move)}

/-- Neither a pawn move nor a capture. -/
def Quiet (pos : Position) (m : Move) : Prop := m.attackerType ≠ .pawn ∧ pos.pieces.board m.to = none

instance (pos : Position) (m : Move) : Decidable (Quiet pos m) := by
  unfold Quiet; infer_instance

/-- The half-moves since the last pawn move or capture, or since the start. -/
def quietPlies (l : List (Position × Move)) : ℕ := (l.reverse.takeWhile fun x => Quiet x.1 x.2).length

theorem quietPlies_concat (l : List (Position × Move)) (pos : Position) (m : Move) :
    quietPlies (l ++ [(pos, m)]) = if Quiet pos m then quietPlies l + 1 else 0 := by
  unfold quietPlies
  rw [List.reverse_append, List.reverse_singleton, List.singleton_append, List.takeWhile_cons]
  by_cases hq : Quiet pos m <;> simp [hq]

/-! ## What the counters count -/

theorem Effect.quiet_iff (h : Effect pos m next) : Quiet pos m ↔ isIrreversible m = false := by
  unfold Quiet isIrreversible
  rcases h.made with ⟨hg, -⟩ | ⟨k, hk, rfl⟩
  · rw [hg.carries.defender]
    simp
  · have hempty := hk.between _ (castling_geometry hk.mem).kingTo_between
    simp [castleMove, hempty]

theorem fiftyMovesCtr_eq (h : Run Played Position.init l pos) : pos.fiftyMovesCtr = quietPlies l := by
  induction h with
  | nil => rfl
  | @snoc l pos m next hr hp ih =>
    have hquiet := ((show Reached pos from ⟨l, hr⟩).effect hp).quiet_iff
    rw [(applyMove_counts hp.2).1, quietPlies_concat, ih]
    by_cases hi : isIrreversible m = true
    · rw [if_pos hi, if_neg fun hq => by rw [hquiet.1 hq] at hi; cases hi]
    · rw [if_neg hi, if_pos (hquiet.2 (Bool.not_eq_true _ ▸ hi))]

theorem moveCtr_eq (h : Run Played Position.init l pos) : pos.moveCtr = l.length := by
  induction h with
  | nil => rfl
  | @snoc l pos m next hr hp ih =>
    rw [((show Reached pos from ⟨l, hr⟩).effect hp).moveCtr, ih, List.length_append, List.length_singleton]

/-! ## The fifty-move rule -/

/-- The rule is told right after a game unless the quiet half-moves at its end
are at least a hundred and fewer than two hundred. -/
theorem isFiftyMoveRule_iff (h : Run Played Position.init l pos) :
    (pos.isFiftyMoveRule = true ↔ 100 ≤ quietPlies l) ↔ ¬ (100 ≤ quietPlies l ∧ quietPlies l < 200) := by
  unfold Position.isFiftyMoveRule
  rw [fiftyMovesCtr_eq h, decide_eq_true_eq]
  omega

/-- 1.Nf3 -/
theorem isFiftyMoveRule_knight :
    ∃ l pos, Run Played Position.init l pos ∧ l.map (fun x => (x.2.from, x.2.to)) = [(6, 21)] ∧
      (pos.isFiftyMoveRule = true ↔ 100 ≤ quietPlies l) := by
  have hend : (lineOf [(6, 21)]).any (fun r => quietPlies r.1 = 1) = true := by decide +kernel
  obtain ⟨⟨l, pos⟩, hl, hquiet⟩ := (Option.any_eq_true _ _).1 hend
  rw [decide_eq_true_eq] at hquiet
  obtain ⟨hr, hsq⟩ := lineOf_run hl
  refine ⟨l, pos, hr, hsq, (isFiftyMoveRule_iff hr).2 ?_⟩
  dsimp only at hquiet
  omega

/-- What is played in a position can be played in another that looks the same. -/
theorem SamePosition.played {pos' : Position} (h : SamePosition pos pos') (hr : Reached pos) (hr' : Reached pos')
    (hp : Played pos m next) : ∃ next', Played pos' m next' ∧ SamePosition next next' := by
  have hboard := h.board_eq hr.sound hr'.sound
  have hpieces : pos.pieces = pos'.pieces := hr.sound.valid.eq_of_board hr'.sound.valid fun q => congrFun hboard q
  have hmoves : pos'.generateMoves = pos.generateMoves := by
    unfold Position.generateMoves
    rw [hpieces, h.side, h.enPassant, h.rights]
  have hm : m ∈ pos'.generateMoves.moves := hmoves ▸ hp.1
  have hp' : Played pos' m (pos'.applyMove m).2 := ⟨hm, Prod.ext (hr'.accepts hm) rfl⟩
  have he := hr.effect hp
  have he' := hr'.effect hp'
  refine ⟨_, hp', fun q _ => ?_, ?_, ?_, ?_⟩
  · rw [he.board, he'.board, hboard]
  · rw [he.sideToMove, he'.sideToMove, h.side]
  · apply rights_ext
    intro k hk
    rw [he.right k hk, he'.right k hk, h.rights]
  · rw [he.enPassant, he'.enPassant]

theorem SamePosition.refl (pos : Position) : SamePosition pos pos := ⟨fun _ _ => rfl, rfl, rfl, rfl⟩

theorem SamePosition.trans {pos' pos'' : Position} (h : SamePosition pos pos') (h' : SamePosition pos' pos'') :
    SamePosition pos pos'' where
  pieces q hq := (h.pieces q hq).trans (h'.pieces q hq)
  side := h.side.trans h'.side
  rights := h.rights.trans h'.rights
  enPassant := h.enPassant.trans h'.enPassant

/-- Where every move can be taken back, every half-move counts. -/
theorem quietPlies_reversible (h : Run Played Position.init l pos)
    (hi : ∀ m ∈ l.map Prod.snd, isIrreversible m = false) :
    quietPlies l = l.length := by
  induction h with
  | nil => rfl
  | @snoc l pos m next hr hp ih =>
    simp only [List.map_append, List.map_singleton, List.forall_mem_append, List.forall_mem_singleton] at hi
    have hquiet := ((show Reached pos from ⟨l, hr⟩).effect hp).quiet_iff.2 hi.2
    rw [quietPlies_concat, if_pos hquiet, ih hi.1, List.length_append, List.length_singleton]

/-- A game that leads back to the start can be played any number of times. -/
theorem cycle_run {game : List (ℕ × ℕ)} (h : lineOf game = some (l, pos)) (hsame : SamePosition Position.init pos)
    (n : ℕ) : ∃ l' pos', Run Played Position.init l' pos' ∧
      l'.map (fun x => (x.2.from, x.2.to)) = (List.replicate n game).flatten ∧ l'.length = n * game.length ∧
      l'.map Prod.snd = (List.replicate n (l.map Prod.snd)).flatten ∧ SamePosition Position.init pos' := by
  obtain ⟨hr, hsq⟩ := lineOf_run h
  obtain ⟨l', pos', hr', hmap, hsame'⟩ := Run.cycle SamePosition (fun hs ht h hp => h.played hs ht hp) (.refl _)
    SamePosition.trans hr hsame n
  have hsq' : l'.map (fun x => (x.2.from, x.2.to)) = (List.replicate n game).flatten := by
    have hcomp : ∀ l : List (Position × Move), l.map (fun x => (x.2.from, x.2.to)) =
        (l.map Prod.snd).map fun m => (m.from, m.to) := by
      intro l
      rw [List.map_map]
      rfl
    rw [hcomp, hmap, List.map_flatten, List.map_replicate, ← hcomp, hsq]
  have hlength : l'.length = n * game.length := by
    have hcount := congrArg List.length hsq'
    rwa [List.length_map, List.length_flatten, List.map_replicate, List.sum_replicate_nat] at hcount
  exact ⟨l', pos', hr', hsq', hlength, hmap, hsame'⟩

/-- 1.Nf3 Nf6 2.Ng1 Ng8, played twenty-five times: fifty moves by each side. -/
theorem isFiftyMoveRule_late :
    ∃ l pos, Run Played Position.init l pos ∧ l.map (fun x => (x.2.from, x.2.to)) =
      (List.replicate 25 [(6, 21), (62, 45), (21, 6), (45, 62)]).flatten ∧
      quietPlies l = 100 ∧ pos.isFiftyMoveRule = false := by
  have hend : (lineOf [(6, 21), (62, 45), (21, 6), (45, 62)]).any (fun r => decide (SamePosition Position.init r.2) &&
      (r.1.map Prod.snd).all (fun m => !isIrreversible m)) = true := by decide +kernel
  obtain ⟨⟨l₀, pos₀⟩, hl, htest⟩ := (Option.any_eq_true _ _).1 hend
  rw [Bool.and_eq_true, decide_eq_true_eq] at htest
  obtain ⟨hsame, hback⟩ := htest
  obtain ⟨l, pos, hr, hsq, hlength, hmap, -⟩ := cycle_run hl hsame 25
  have hquiet : quietPlies l = 100 := by
    rw [quietPlies_reversible hr, hlength]
    · rfl
    · intro m hm
      rw [hmap, List.mem_flatten] at hm
      obtain ⟨ms, hms, hm⟩ := hm
      rw [List.eq_of_mem_replicate hms] at hm
      simpa using List.all_eq_true.1 hback m hm
  refine ⟨l, pos, hr, hsq, hquiet, ?_⟩
  unfold Position.isFiftyMoveRule
  rw [fiftyMovesCtr_eq hr, hquiet]
  rfl

/-! ## The fields of the FEN -/

/-- The text between the spaces. -/
def fenFields (fen : String) : List String := (fen.toList.splitOn ' ').map String.ofList

/-- The letters of the castlings whose flag is set. -/
def castlingLetters (rights : CastlingRights) : List Char :=
  ([('K', Castling.wShort), ('Q', .wLong), ('k', .bShort), ('q', .bLong)].filter fun x => x.2.right rights).map Prod.fst

/-- What the fields after the board should say of the game. -/
structure StateFields (l : List (Position × Move)) (pos : Position) (side castling ep clock number : String) :
    Prop where
  side : side = if l.length % 2 = 0 then "w" else "b"
  castling : castling = if castlingLetters pos.rights = [] then "-" else String.ofList (castlingLetters pos.rights)
  passed : ∀ e, PassedOver l e → ep = squareName e
  notPassed : (∀ e, ¬ PassedOver l e) → ep = "-"
  clock : clock = toString (quietPlies l)
  number : number = toString (1 + l.length / 2)

/-- The FEN has six fields, and the five after the board are right. -/
def FenRight (l : List (Position × Move)) (pos : Position) : Prop :=
  ∃ board side castling ep clock number, fenFields pos.getFen = [board, side, castling, ep, clock, number] ∧
    StateFields l pos side castling ep clock number

theorem fenCastling_eq (rights : CastlingRights) : fenCastling rights =
    if castlingLetters rights = [] then "-" else String.ofList (castlingLetters rights) := by
  obtain ⟨wl, ws, bl, bs⟩ := rights
  cases wl <;> cases ws <;> cases bl <;> cases bs <;> decide

theorem toString_no_space (n : ℕ) : ' ' ∉ (toString n).toList := by
  intro h
  have hdigit : ' ' ∈ Nat.toDigits 10 n := by rwa [← Nat.toList_repr]
  exact absurd (Nat.isDigit_of_mem_toDigits (by decide) (by decide) hdigit) (by decide)

theorem squareName_no_space {q : ℕ} (hq : q < 64) : ' ' ∉ (squareName q).toList := by
  have hall : (List.range 64).all (fun q => !(squareName q).toList.contains ' ') = true := by decide +kernel
  simpa using List.all_eq_true.1 hall q (List.mem_range.2 hq)

/-- The six fields as they are written. -/
theorem fenFields_getFen (h : pos.pieces.Valid) (hep : ∀ e, pos.enPassant = some e → e < 64) :
    fenFields pos.getFen = [String.ofList (rowsChars pos.pieces.board 8), if pos.sideToMove = .white then "w" else "b",
      fenCastling pos.rights, match pos.enPassant with | none => "-" | some ep => squareName ep,
      toString (pos.fiftyMovesCtr / 2), toString (pos.moveCtr / 2 + 1)] := by
  generalize hfields : [String.ofList (rowsChars pos.pieces.board 8), if pos.sideToMove = .white then "w" else "b",
      fenCastling pos.rights, match pos.enPassant with | none => "-" | some ep => squareName ep,
      toString (pos.fiftyMovesCtr / 2), toString (pos.moveCtr / 2 + 1)] = fields
  have hfen : pos.getFen.toList = [' '].intercalate (fields.map String.toList) := by
    rw [← hfields]
    unfold getFen
    dsimp only
    have hrows : [7, 6, 5, 4, 3, 2, 1, 0].flatMap (rowChars pos.pieces.board) = rowsChars pos.pieces.board 8 := rfl
    rw [foldl_fenRow h, String.empty_append, hrows]
    simp only [List.map_cons, List.map_nil, List.intercalate_cons_cons, List.intercalate_singleton,
      String.toList_append, String.toList_ofList, List.append_assoc]
    rfl
  have hspace : ∀ field ∈ fields.map String.toList, ' ' ∉ field := by
    rw [← hfields]
    simp only [List.map_cons, List.map_nil, List.forall_mem_cons]
    refine ⟨?_, ?_, ?_, ?_, toString_no_space _, toString_no_space _, List.forall_mem_nil _⟩
    · rw [String.toList_ofList]
      exact fun hc => rows_no_space _ _ hc rfl
    · split <;> decide
    · rw [fenCastling_eq]
      obtain ⟨wl, ws, bl, bs⟩ := pos.rights
      cases wl <;> cases ws <;> cases bl <;> cases bs <;> decide
    · cases he : pos.enPassant with
      | none => decide
      | some e => exact squareName_no_space (hep e he)
  have hne : fields.map String.toList ≠ [] := by simp [← hfields]
  unfold fenFields
  rw [hfen, List.splitOn_intercalate ' ' hspace hne, List.map_map]
  exact (List.map_congr_left fun field _ => String.ofList_toList).trans (List.map_id _)

theorem enPassant_lt (hs : Sound pos) {e : ℕ} (he : pos.enPassant = some e) : e < 64 := by
  have hpassed := hs.enPassant e he
  generalize pos.sideToMove.inverse = s at hpassed
  cases s <;> simp only [PassedBy] at hpassed <;> omega

/-- After any game the fields are right, except that the clock has counted only every other half-move. -/
theorem fenFields_played (h : Run Played Position.init l pos) : ∃ board side castling ep number,
    fenFields pos.getFen = [board, side, castling, ep, toString (quietPlies l / 2), number] ∧
      ∀ clock, StateFields l pos side castling ep clock number ↔ clock = toString (quietPlies l) := by
  have hs := (show Reached pos from ⟨l, h⟩).sound
  have hfields := fenFields_getFen hs.valid fun e he => enPassant_lt hs he
  rw [fiftyMovesCtr_eq h, moveCtr_eq h] at hfields
  refine ⟨_, _, _, _, _, hfields, fun clock => ⟨fun hf => hf.clock, fun hclock => ?_⟩⟩
  refine ⟨?_, fenCastling_eq _, fun e he => ?_, fun hno => ?_, hclock, by rw [Nat.add_comm]⟩
  · unfold Position.sideToMove
    rw [moveCtr_eq h]
    split <;> rfl
  · rw [(enPassant_iff h).2 he]
  · cases he : pos.enPassant with
    | none => rfl
    | some e => exact absurd ((enPassant_iff h).1 he) (hno e)

/-- After a game the state fields are right exactly when it has just seen a pawn move or a capture or no move at all. -/
theorem fenRight_iff (h : Run Played Position.init l pos) : FenRight l pos ↔ quietPlies l = 0 := by
  obtain ⟨board, side, castling, ep, number, hfields, hstate⟩ := fenFields_played h
  unfold FenRight
  rw [hfields]
  constructor
  · rintro ⟨_, _, _, _, clock, _, heq, hf⟩
    simp only [List.cons.injEq, and_true] at heq
    obtain ⟨-, rfl, rfl, rfl, rfl, rfl⟩ := heq
    have hclock := Nat.repr_injective ((hstate _).1 hf)
    omega
  · intro hzero
    refine ⟨_, _, _, _, _, _, rfl, (hstate _).2 ?_⟩
    rw [hzero]

/-- 1.e4 -/
theorem fenRight_pawn_move :
    ∃ l pos, Run Played Position.init l pos ∧ l.map (fun x => (x.2.from, x.2.to)) = [(12, 28)] ∧ FenRight l pos := by
  have hend : (lineOf [(12, 28)]).any (fun r => quietPlies r.1 = 0) = true := by decide +kernel
  obtain ⟨⟨l, pos⟩, hl, hquiet⟩ := (Option.any_eq_true _ _).1 hend
  rw [decide_eq_true_eq] at hquiet
  obtain ⟨hr, hsq⟩ := lineOf_run hl
  exact ⟨l, pos, hr, hsq, (fenRight_iff hr).2 hquiet⟩

/-- 1.Nf3: one half-move has been made, and the clock says 0. -/
theorem fenRight_fails :
    ∃ l pos, Run Played Position.init l pos ∧ l.map (fun x => (x.2.from, x.2.to)) = [(6, 21)] ∧
      (fenFields pos.getFen)[4]? = some "0" ∧ quietPlies l = 1 ∧ ¬ FenRight l pos := by
  have hend : (lineOf [(6, 21)]).any (fun r => quietPlies r.1 = 1) = true := by decide +kernel
  obtain ⟨⟨l, pos⟩, hl, hquiet⟩ := (Option.any_eq_true _ _).1 hend
  rw [decide_eq_true_eq] at hquiet
  dsimp only at hquiet
  obtain ⟨hr, hsq⟩ := lineOf_run hl
  refine ⟨l, pos, hr, hsq, ?_, hquiet, fun hf => ?_⟩
  · obtain ⟨_, _, _, _, _, hfields, -⟩ := fenFields_played hr
    rw [hfields, hquiet]
    rfl
  · rw [(fenRight_iff hr).1 hf] at hquiet
    cases hquiet

end ChessGame
