import ChessGame.Play
/-!
# Castling rights

`_update_castling_rights` looks at the square a move starts from. A rook that
is captured at home leaves its flag set, and the castling code trusts the flag.
-/
open Runs

namespace ChessGame

open MoveGen Rules

variable {pos next : Position} {m : Move} {b : Board} {k : Castling}

/-- Every flag still set has its king and its rook at home. -/
def Truthful (pos : Position) : Prop := ∀ k ∈ Castling.all, k.right pos.rights = true → k.AtHome pos.pieces.board

/-- The number of pieces on the board. -/
def pieceCount (b : Board) : ℕ := ((Finset.range 64).filter fun q => b q ≠ none).card

/-- The flags are truthful, and the generated castlings move a king and a rook
that exist and keep the number of pieces. -/
def CastlingTruth (pos : Position) : Prop :=
  Truthful pos ∧ ∀ m ∈ pos.generateMoves.moves, ∀ k ∈ Castling.all, m.flag = k.flag →
    k.AtHome pos.pieces.board ∧
      ∀ next, pos.applyMove m = (true, next) → pieceCount next.pieces.board = pieceCount pos.pieces.board

/-- The move does not land on the home square of a king or a rook whose flag is still set. -/
def SparesHome (pos : Position) (m : Move) : Prop :=
  ∀ k ∈ Castling.all, k.right pos.rights = true → m.to ≠ k.kingFrom ∧ m.to ≠ k.rookFrom

/-! ## What castling does to the number of pieces -/

theorem pieceCount_castled (hk : k ∈ Castling.all) (he : ∀ q ∈ k.between, b q = none) (hh : k.AtHome b) :
    pieceCount (castled b k) = pieceCount b := by
  obtain ⟨hkt, hrt, -, hlt⟩ := castling_geometry hk
  obtain ⟨⟨hkf_kt, hkf_rf, hkf_rt⟩, ⟨hkt_rf, hkt_rt⟩, hrf_rt⟩ := castling_apart hk
  simp only [List.forall_mem_cons, List.not_mem_nil, false_implies, implies_true, and_true] at hlt
  obtain ⟨hkf64, hkt64, hrf64, hrt64⟩ := hlt
  -- Two squares are left and two squares that were empty are taken.
  have hset : (Finset.range 64).filter (fun q => castled b k q ≠ none) =
      insert k.kingTo (insert k.rookTo ((((Finset.range 64).filter fun q => b q ≠ none).erase k.kingFrom).erase
        k.rookFrom)) := by
    ext q
    rw [Finset.mem_filter, Finset.mem_insert, Finset.mem_insert, Finset.mem_erase, Finset.mem_erase, Finset.mem_filter,
      Finset.mem_range, castled]
    by_cases h1 : q = k.kingTo
    · simp [h1, hkt64]
    · by_cases h2 : q = k.rookTo
      · simp [h2, hrt64, Ne.symm hkt_rt]
      · by_cases h3 : q = k.kingFrom
        · subst h3; simp [hh.1, h1, h2]
        · by_cases h4 : q = k.rookFrom
          · subst h4; simp [hh.2, h1, h2]
          · simp [h1, h2, h3, h4]
  have hnot : ∀ q ∈ k.between, q ∉ (Finset.range 64).filter (fun q => b q ≠ none) := by
    intro q hq hm
    exact (Finset.mem_filter.1 hm).2 (he q hq)
  have hking : k.kingFrom ∈ (Finset.range 64).filter (fun q => b q ≠ none) :=
    Finset.mem_filter.2 ⟨Finset.mem_range.2 hkf64, by simp [hh.1]⟩
  have hrook : k.rookFrom ∈ ((Finset.range 64).filter fun q => b q ≠ none).erase k.kingFrom :=
    Finset.mem_erase.2 ⟨Ne.symm hkf_rf, Finset.mem_filter.2 ⟨Finset.mem_range.2 hrf64, by simp [hh.2]⟩⟩
  unfold pieceCount
  rw [hset, Finset.card_insert_of_notMem, Finset.card_insert_of_notMem, Finset.card_erase_of_mem hrook,
    Finset.card_erase_of_mem hking]
  · have := Finset.card_pos.2 ⟨_, hrook⟩
    rw [Finset.card_erase_of_mem hking] at this
    omega
  · intro h
    exact hnot _ hrt (Finset.mem_of_mem_erase (Finset.mem_of_mem_erase h))
  · intro h
    rcases Finset.mem_insert.1 h with h | h
    · exact hkt_rt h
    · exact hnot _ hkt (Finset.mem_of_mem_erase (Finset.mem_of_mem_erase h))

/-- In a position reached, truthful flags are all that the castlings need. -/
theorem castlingTruth_iff (hr : Reached pos) : CastlingTruth pos ↔ Truthful pos := by
  refine ⟨fun h => h.1, fun h => ⟨h, fun m hm k hk hf => ?_⟩⟩
  rcases hr.sound.made hm with ⟨hg, -⟩ | ⟨k', hk', rfl⟩
  · -- The moves of the pieces carry no castling flag.
    have := hg.1.not_special.1
    rw [hf, find_castling hk] at this
    cases this
  · have hkk : k' = k := by
      have hf' : k'.flag = k.flag := hf
      have := find_castling hk'.mem
      rw [hf', find_castling hk] at this
      exact (Option.some.inj this).symm
    subst hkk
    have hh := h k' hk hk'.right
    refine ⟨hh, fun next ha => ?_⟩
    have he := hr.effect ⟨hm, ha⟩
    rw [he.board, moved_castle _ hk]
    exact pieceCount_castled hk hk'.between hh

/-! ## A turn -/

theorem kingFrom_eq {k' : Castling} (hk : k ∈ Castling.all) (hk' : k' ∈ Castling.all) (hs : k.side = k'.side) :
    k.kingFrom = k'.kingFrom := by
  rcases Castling.cases hk with rfl | rfl | rfl | rfl <;>
    rcases Castling.cases hk' with rfl | rfl | rfl | rfl <;> first | rfl | cases hs

/-- The squares on which a castling that keeps its flag stands are left alone. -/
theorem kept_home (h : Effect pos m next) (ht : Truthful pos) (hk : k ∈ Castling.all) (hr : k.right next.rights = true)
    (hto : m.to ≠ k.kingFrom ∧ m.to ≠ k.rookFrom) : k.AtHome next.pieces.board := by
  rw [h.right k hk, Bool.and_eq_true, decide_eq_true_eq] at hr
  obtain ⟨hright, hfrom⟩ := hr
  have hh := ht k hk hright
  rw [h.board]
  rcases h.made with ⟨hg, -⟩ | ⟨k', hk', rfl⟩
  · rw [moved, hg.1.not_special.1]
    show k.AtHome (after pos.pieces.board m.ply)
    rw [hg.1.after_eq]
    unfold Castling.AtHome placed
    rw [Function.update_of_ne hto.1.symm, Function.update_of_ne hto.2.symm, Function.update_of_ne hfrom.1.symm,
      Function.update_of_ne hfrom.2.symm]
    exact hh
  · rw [moved_castle _ hk'.mem]
    have hother : k.side = k'.side.inverse :=
      PieceColor.eq_inverse_of_ne fun hs => hfrom.1 (kingFrom_eq hk'.mem hk hs.symm)
    unfold Castling.AtHome at hh ⊢
    rw [hother] at hh ⊢
    exact ⟨(castled_enemy hk'.mem hk'.between).2 hh.1, (castled_enemy hk'.mem hk'.between).2 hh.2⟩

/-- What a move lands on belongs to the mover afterwards. -/
theorem landed (h : Effect pos m next) : ∃ t, next.pieces.board m.to = some (pos.sideToMove, t) := by
  rw [h.board]
  rcases h.made with ⟨hg, -⟩ | ⟨k, hk, rfl⟩
  · refine ⟨promoted m.flag m.attackerType, ?_⟩
    rw [moved, hg.1.not_special.1]
    show after pos.pieces.board m.ply m.to = _
    rw [hg.1.after_eq, placed, Function.update_self, hg.carries.side]
  · refine ⟨.king, ?_⟩
    rw [moved_castle _ hk.mem, ← hk.side]
    exact if_pos rfl

/-- The flags stay truthful exactly when the move spares the homes of the flags still set. -/
theorem truthful_next (h : Effect pos m next) (ht : Truthful pos) : Truthful next ↔ SparesHome pos m := by
  constructor
  · intro hn k hk hright
    have hh := ht k hk hright
    by_contra hland
    have hland : m.to = k.kingFrom ∨ m.to = k.rookFrom := by tauto
    have hocc : ∃ t, pos.pieces.board m.to = some (k.side, t) := by
      rcases hland with he | he <;> rw [he]
      · exact ⟨_, hh.1⟩
      · exact ⟨_, hh.2⟩
    obtain ⟨t, hocc⟩ := hocc
    rcases h.made with ⟨hg, -⟩ | ⟨k', hk', rfl⟩
    · -- The mover's own piece would stand on the target, so it is the other side's home.
      have hside : k.side ≠ pos.sideToMove := fun he => hg.carries.free t (he ▸ hocc)
      have hstart := hg.carries.start
      have hfrom : m.from ≠ k.kingFrom ∧ m.from ≠ k.rookFrom := by
        constructor <;> intro he <;> rw [he] at hstart
        · rw [hh.1] at hstart; simp at hstart; exact hside hstart.1
        · rw [hh.2] at hstart; simp at hstart; exact hside hstart.1
      have hright' : k.right next.rights = true := by
        rw [h.right k hk, hright]; simpa using hfrom
      obtain ⟨t', hl⟩ := landed h
      have hh' := hn k hk hright'
      rcases hland with he | he <;> rw [he] at hl
      · rw [hh'.1] at hl; simp at hl; exact hside hl.1
      · rw [hh'.2] at hl; simp at hl; exact hside hl.1
    · have hempty := hk'.between k'.kingTo (castling_geometry hk'.mem).kingTo_between
      rw [show (castleMove k').to = k'.kingTo from rfl, hempty] at hocc
      cases hocc
  · intro hs k hk hright
    have hright' := hright
    rw [h.right k hk, Bool.and_eq_true] at hright'
    exact kept_home h ht hk hright (hs k hk hright'.1)

theorem init_truthful : Truthful Position.init := by
  unfold Truthful Castling.AtHome
  decide +kernel

/-! ## Runs -/

/-- The castling flags tell the truth throughout a game exactly when no move of
the game lands on the home square of a king or rook whose flag is still set. -/
theorem castling_truth_iff {l : List (Position × Move)} (h : Run Played Position.init l pos) :
    ((∀ x ∈ l, CastlingTruth x.1) ∧ CastlingTruth pos) ↔ ∀ x ∈ l, SparesHome x.1 x.2 := by
  have hruns := (h.always_iff Truthful (fun _ => True) SparesHome init_truthful trivial fun hr ht _ hp =>
    ⟨trivial, truthful_next (Reached.effect hr hp) ht⟩).1
  rw [← hruns]
  refine and_congr (forall₂_congr fun x hx => ?_) (castlingTruth_iff ⟨l, h⟩)
  exact castlingTruth_iff (h.visited x hx)

/-- After 1.e4 e5. -/
theorem castling_truth_open_game :
    ∃ l pos, Run Played Position.init l pos ∧ l.map (fun x => (x.2.from, x.2.to)) = [(12, 28), (52, 36)] ∧
      CastlingTruth pos := by
  have hsome : (line [(12, 28), (52, 36)]).isSome = true := by decide +kernel
  obtain ⟨pos, hpos⟩ := Option.isSome_iff_exists.1 hsome
  obtain ⟨l, hr, hl⟩ := line_run hpos
  refine ⟨l, pos, hr, hl, ((castling_truth_iff hr).2 fun x hx => ?_).2⟩
  have hto : x.2.to = 28 ∨ x.2.to = 36 := by
    have hm := List.mem_map_of_mem (f := fun x => (x.2.from, x.2.to)) hx
    rw [hl] at hm
    simp only [List.mem_cons, Prod.mk.injEq, List.not_mem_nil, or_false] at hm
    exact hm.imp And.right And.right
  have hfar : ∀ k ∈ Castling.all, ∀ q ∈ [28, 36], q ≠ k.kingFrom ∧ q ≠ k.rookFrom := by decide
  exact fun k hk _ => hfar k hk _ (by simpa using hto)

/-- 1.b3 g6 2.Bb2 a6 3.Bxh8: the rook is gone and the flag still set. -/
theorem castling_truth_fails :
    ∃ l pos, Run Played Position.init l pos ∧
      l.map (fun x => (x.2.from, x.2.to)) = [(9, 17), (54, 46), (2, 9), (48, 40), (9, 63)] ∧
      pos.rights.bSCastling = true ∧ pos.pieces.board 63 = some (.white, .bishop) ∧ ¬ CastlingTruth pos := by
  have hend : (line [(9, 17), (54, 46), (2, 9), (48, 40), (9, 63)]).any (fun pos =>
      pos.rights.bSCastling && decide (pos.pieces.board 63 = some (.white, .bishop))) = true := by decide +kernel
  obtain ⟨pos, hpos, hp⟩ := (Option.any_eq_true _ _).1 hend
  rw [Bool.and_eq_true, decide_eq_true_eq] at hp
  obtain ⟨l, hr, hl⟩ := line_run hpos
  refine ⟨l, pos, hr, hl, hp.1, hp.2, fun h => ?_⟩
  have hrook := (h.1 .bShort (by simp [Castling.all]) hp.1).2
  rw [show Castling.bShort.rookFrom = 63 from rfl, hp.2] at hrook
  cases hrook

end ChessGame
