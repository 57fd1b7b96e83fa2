import ChessGame.Hashing
import ChessGame.Material
/-!
# Repetitions

The history keeps the hashes since the last pawn move or capture. No position from
before it can come back, and from one reversible move to the next the hash follows the
position as long as no castling flag is taken down a second time.
-/
open Runs Toggle

namespace ChessGame

open MoveGen Rules Position

variable {pos next : Position} {m : Move} {l : List (Position × Move)}

/-! ## The recent states -/

/-- The states of a run that the history speaks of. -/
structure Recent (l : List (Position × Move)) (pos : Position) (early recent : List Position) : Prop where
  split : l.map Prod.fst ++ [pos] = early ++ recent
  history : pos.history = recent.map Position.hash
  last : recent.getLast? = some pos
  before : ∀ x ∈ early, potential pos < potential x
  since : ∀ x ∈ recent, potential pos ≤ potential x
  passed : pos.enPassant ≠ none → recent = [pos]
  inStep : pos.enPassant = none → ∀ x ∈ recent, x.enPassant = none → stray x = stray pos

/-- A reversible move takes down no flag a second time. -/
def Careful (pos : Position) (m : Move) : Prop := isIrreversible m = false → Fresh pos m

instance (pos : Position) (m : Move) : Decidable (Careful pos m) := by unfold Careful; infer_instance

variable {early recent : List Position}

theorem long_irreversible (h : Effect pos m next) (hf : m.flag = .pawnLongMove) : isIrreversible m = true := by
  obtain ⟨hg, -⟩ | ⟨k, hk, rfl⟩ := h.made
  · obtain hd | ⟨-, ht⟩ := hg.1.flags
    · rw [hf] at hd
      cases hd
    · simp [isIrreversible, ht]
  · rcases Castling.cases hk.mem with rfl | rfl | rfl | rfl <;> cases hf

/-- A pawn move or a capture starts the history anew. -/
theorem Recent.irreversible (h : Recent l pos early recent) (hs : Sound pos) (hp : Played pos m next)
    (hi : isIrreversible m = true) : Recent (l ++ [(pos, m)]) next (early ++ recent) [next] := by
  have hless := Effect.potential hs (hp.effect hs)
  rw [if_pos hi] at hless
  constructor
  · rw [← h.split]
    simp
  · rw [(applyMove_counts hp.2).2, if_pos hi]
    rfl
  · rfl
  · intro x hx
    obtain hx | hx := List.mem_append.1 hx
    · exact hless.trans (h.before x hx)
    · exact hless.trans_le (h.since x hx)
  · intro x hx
    rw [List.mem_singleton.1 hx]
  · exact fun _ => rfl
  · intro _ x hx _
    rw [List.mem_singleton.1 hx]

/-- A reversible move adds to the history. -/
theorem Recent.reversible (h : Recent l pos early recent) (hs : Sound pos) (hp : Played pos m next)
    (hi : isIrreversible m = false) (hfresh : Fresh pos m) :
    Recent (l ++ [(pos, m)]) next early (recent ++ [next]) := by
  have he := hp.effect hs
  have hle := Effect.potential hs he
  have hflag : m.flag ≠ .pawnLongMove := by
    intro hf
    rw [long_irreversible he hf] at hi
    cases hi
  have hnone : next.enPassant = none := by rw [he.enPassant, if_neg hflag]
  rw [hi] at hle
  constructor
  · rw [← List.append_assoc, ← h.split]
    simp
  · rw [(applyMove_counts hp.2).2, hi, h.history]
    simp
  · simp
  · exact fun x hx => hle.trans_lt (h.before x hx)
  · intro x hx
    obtain hx | hx := List.mem_append.1 hx
    · exact hle.trans (h.since x hx)
    · rw [List.mem_singleton.1 hx]
  · exact fun hsome => absurd hnone hsome
  · intro _ x hx hxn
    obtain hx | hx := List.mem_append.1 hx
    · cases hep : pos.enPassant with
      | none =>
        have hpassing : passingHash pos m = 0#64 := by simp [passingHash, hflag, hep]
        rw [stray_next hs hp, staleHash_fresh hfresh, hpassing, h.inStep hep x hx hxn, BitVec.xor_zero, BitVec.xor_zero]
      | some e =>
        -- only the position after the double push is there, and its square is set
        rw [h.passed (by simp [hep]), List.mem_singleton] at hx
        rw [hx, hep] at hxn
        cases hxn
    · rw [List.mem_singleton.1 hx]

theorem recent_run (h : Run Played Position.init l pos) (hc : ∀ x ∈ l, Careful x.1 x.2) :
    ∃ early recent, Recent l pos early recent := by
  induction h with
  | nil => exact ⟨[], [Position.init], by simp, rfl, rfl, by simp, by simp, fun _ => rfl, by simp⟩
  | @snoc l pos m next hr hp ih =>
    simp only [List.forall_mem_append, List.forall_mem_singleton] at hc
    obtain ⟨early, recent, h⟩ := ih hc.1
    have hs : Sound pos := Reached.sound ⟨l, hr⟩
    cases hi : isIrreversible m with
    | true => exact ⟨_, _, h.irreversible hs hp hi⟩
    | false => exact ⟨_, _, h.reversible hs hp hi (hc.2 hi)⟩

/-! ## Threefold repetition -/

theorem SamePosition.potential_eq {pos' : Position} (h : SamePosition pos pos') (hs : Sound pos) (hs' : Sound pos') :
    potential pos = potential pos' := by
  rw [potential, potential, h.board_eq hs hs', h.rights]

theorem run_sound (h : Run Played Position.init l pos) : ∀ x ∈ l.map Prod.fst ++ [pos], Sound x := by
  intro x hx
  obtain hx | hx := List.mem_append.1 hx
  · obtain ⟨y, hy, rfl⟩ := List.mem_map.1 hx
    exact Reached.sound (h.visited y hy)
  · rw [List.mem_singleton.1 hx]
    exact Reached.sound ⟨l, h⟩

/-- In games of at most 2^24 moves whose reversible moves take down no castling flag a second time, a third occurrence
of the position is never missed. -/
theorem threefold_of_repetition (h : Run Single.Played Position.init l pos) (hl : l.length ≤ 2 ^ 24)
    (hc : ∀ x ∈ l, Careful x.1 x.2) (h3 : 3 ≤ (l.map Prod.fst ++ [pos]).countP fun x => SamePosition x pos) :
    pos.isThreefoldRepetition = true := by
  rw [Single.run_iff hl] at h
  obtain ⟨early, recent, hrec⟩ := recent_run h hc
  have hsound := run_sound h
  rw [hrec.split] at h3 hsound
  have hpos : Sound pos := Reached.sound ⟨l, h⟩
  have hearly : early.countP (fun x => SamePosition x pos) = 0 := by
    rw [List.countP_eq_zero]
    intro x hx hsame
    have heq := (of_decide_eq_true hsame).potential_eq (hsound x (List.mem_append_left _ hx)) hpos
    exact (hrec.before x hx).ne' heq
  rw [List.countP_append, hearly, Nat.zero_add] at h3
  have hnone : pos.enPassant = none := by
    by_contra hsome
    rw [hrec.passed hsome] at h3
    have := List.countP_le_length (p := fun x => decide (SamePosition x pos)) (l := [pos])
    rw [List.length_singleton] at this
    omega
  have hhash : ∀ x ∈ recent, decide (SamePosition x pos) = true → (x.hash == pos.hash) = true := by
    intro x hx hsame
    have hsame := of_decide_eq_true hsame
    have hstray := hrec.inStep hnone x hx (hsame.enPassant.trans hnone)
    have hscratch := hsame.scratch_eq (hsound x (List.mem_append_right _ hx)) hpos
    rw [stray, stray, hscratch, BitVec.xor_left_inj] at hstray
    exact beq_iff_eq.2 hstray
  have hcount : 3 ≤ pos.history.count pos.hash := by
    rw [hrec.history, List.count, List.countP_map]
    exact h3.trans (List.countP_mono_left hhash)
  have hlast : pos.history.getLast? = some pos.hash := by
    rw [hrec.history, List.getLast?_map, hrec.last]
    rfl
  unfold isThreefoldRepetition
  rw [hlast]
  exact decide_eq_true hcount

/-- 1.Nf3 Nf6 2.Ng1 Ng8 3.Nf3 Nf6 4.Ng1 Ng8 -/
theorem threefold_of_repetition_knights :
    ∃ l pos, Run Single.Played Position.init l pos ∧ l.length = 8 ∧ (∀ x ∈ l, Careful x.1 x.2) ∧
      3 ≤ (l.map Prod.fst ++ [pos]).countP (fun x => SamePosition x pos) ∧ pos.isThreefoldRepetition = true := by
  have hend : (lineOf [(6, 21), (62, 45), (21, 6), (45, 62), (6, 21), (62, 45), (21, 6), (45, 62)]).any (fun g =>
      g.1.all (fun x => Careful x.1 x.2) &&
        3 ≤ (g.1.map Prod.fst ++ [g.2]).countP fun x => SamePosition x g.2) = true := by
    decide +kernel
  obtain ⟨⟨l, pos⟩, hg, hend⟩ := (Option.any_eq_true _ _).1 hend
  obtain ⟨hc, h3⟩ := Bool.and_eq_true_iff.1 hend
  obtain ⟨hr, hsq⟩ := lineOf_run hg
  have hr := Single.run_of_squares hr hsq (by decide)
  have hl : l.length = 8 := by simpa using congrArg List.length hsq
  have hc : ∀ x ∈ l, Careful x.1 x.2 := fun x hx => of_decide_eq_true (List.all_eq_true.1 hc x hx)
  have h3 := of_decide_eq_true h3
  exact ⟨l, pos, hr, hl, hc, h3, threefold_of_repetition hr (by omega) hc h3⟩

/-- 1.Nc3 Nc6 2.Rb1 Rb8 3.Ra1 Ra8 4.Rb1 Rb8 5.Ra1 Ra8 6.Rb1 Rb8: the rooks leave their corners again and again -/
theorem threefold_of_repetition_fails :
    ∃ l pos, Run Single.Played Position.init l pos ∧
      l.map (fun x => (x.2.from, x.2.to)) = [(1, 18), (57, 42), (0, 1), (56, 57), (1, 0), (57, 56), (0, 1), (56, 57),
        (1, 0), (57, 56), (0, 1), (56, 57)] ∧
      3 ≤ (l.map Prod.fst ++ [pos]).countP (fun x => SamePosition x pos) ∧ pos.isThreefoldRepetition = false := by
  have hend : (lineOf [(1, 18), (57, 42), (0, 1), (56, 57), (1, 0), (57, 56), (0, 1), (56, 57), (1, 0),
      (57, 56), (0, 1), (56, 57)]).any (fun g => 3 ≤ (g.1.map Prod.fst ++ [g.2]).countP (fun x => SamePosition x g.2) &&
        !g.2.isThreefoldRepetition) = true := by decide +kernel
  obtain ⟨⟨l, pos⟩, hg, hend⟩ := (Option.any_eq_true _ _).1 hend
  obtain ⟨h3, hno⟩ := Bool.and_eq_true_iff.1 hend
  obtain ⟨hr, hl⟩ := lineOf_run hg
  exact ⟨l, pos, Single.run_of_squares hr hl (by decide), hl, of_decide_eq_true h3, by simpa using hno⟩

end ChessGame
