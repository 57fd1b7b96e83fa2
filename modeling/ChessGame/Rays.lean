import ChessGame.Attacks
import ChessGame.Lib.Walk
/-!
# The ray masks of the sliding pieces

A ray out of a square is a `Walk.Line`, in increasing or decreasing order of
the squares, so its first occupied square is the lowest or the highest set bit
of the blockers. `calcRay_bit`: a ray mask holds the squares a walk over empty
squares reaches, less a piece of the side itself at its end.
-/
open Scan Walk

namespace ChessGame

open BitboardOps MoveGen Rules SlidersMasks

def Direction.all : List Direction :=
  [.north, .south, .west, .east, .northWest, .northEast, .southWest, .southEast]

theorem Direction.mem_all (d : Direction) : d ∈ Direction.all := by cases d <;> decide

/-- The square one step away, if it is on the board. -/
def next (d : Direction) (p : ℕ) : Option ℕ :=
  let x := file p + d.step.1
  let y := rank p + d.step.2
  if 0 ≤ x ∧ x ≤ 7 ∧ 0 ≤ y ∧ y ≤ 7 then some (square x y) else none

/-- The squares of the ray, by walking. -/
def cells (d : Direction) : ℕ → ℕ → List ℕ
  | 0, _ => []
  | fuel + 1, p =>
    match next d p with
    | none => []
    | some r => r :: cells d fuel r

/-- Squares grow along the ray; the other rays are scanned with `bsr`. -/
def upward : Direction → Bool
  | .north | .east | .northWest | .northEast => true
  | _ => false

theorem cells_check : ∀ d ∈ Direction.all, ∀ p < 64,
    isLine (next d) p (cells d 8 p) = true ∧ SlidersMasks.calcRay p d = collect 0#64 (cells d 8 p) := by
  decide +kernel

variable {p : ℕ} {d : Direction}

theorem cells_line (hp : p < 64) : Line (next d) p (cells d 8 p) :=
  line_of_isLine (cells_check d (Direction.mem_all d) p hp).1

theorem next_some {r : ℕ} (h : next d p = some r) :
    file r = file p + d.step.1 ∧ rank r = rank p + d.step.2 ∧ r < 64 := by
  simp only [next] at h
  split at h
  · cases h
    simp only [file, rank, square] at *
    omega
  · cases h

theorem next_eq {r : ℕ} (hr : r < 64) (hx : file r = file p + d.step.1) (hy : rank r = rank p + d.step.2) :
    next d p = some r := by
  have hsq : square (file p + d.step.1) (rank p + d.step.2) = r := by
    rw [← hx, ← hy]; simp only [file, rank, square]; omega
  simp only [next, hsq]
  rw [if_pos]
  rw [← hx, ← hy]
  simp only [file, rank]
  omega

theorem cells_lt (hp : p < 64) {r : ℕ} (h : r ∈ cells d 8 p) : r < 64 := by
  have hl := (cells_line (d := d) hp).pairwise (R := fun _ r => r < 64) (fun _ h => h) (fun h => (next_some h).2.2)
  exact (List.pairwise_cons.1 hl).1 r h

theorem mask_bit (hp : p < 64) {r : ℕ} : ((Masks d).getD p 0).getLsbD r = true ↔ r ∈ cells d 8 p := by
  have hm : (Masks d).getD p 0 = collect 0#64 (cells d 8 p) := by
    rw [← (cells_check d (Direction.mem_all d) p hp).2]
    simp [Masks, List.getD_eq_getElem?_getD, List.getElem?_map, List.getElem?_range hp]
  rw [hm, getLsbD_collect]
  simp only [BitVec.getLsbD_zero, Bool.false_or, decide_eq_true_eq, and_iff_left_iff_imp]
  exact cells_lt hp

/-- A ray runs up or down. -/
theorem next_order {r : ℕ} (h : next d p = some r) : if upward d then p < r else r < p := by
  obtain ⟨hx, hy, -⟩ := next_some h
  simp only [file, rank] at hx hy
  cases d <;> simp only [Direction.step] at hx hy <;> simp only [upward, if_true, Bool.false_eq_true, if_false] <;>
    omega

theorem cells_sorted (hp : p < 64) : (p :: cells d 8 p).Pairwise (fun a b => if upward d then a < b else b < a) :=
  (cells_line hp).pairwise
    (fun h h' => by cases hu : upward d <;> simp only [hu, if_true, if_false, Bool.false_eq_true] at h h' ⊢ <;> omega)
    next_order

/-- The blocking square the scans find is the first occupied square of the ray. -/
theorem blocking_eq (all : Bitboard) {l₁ l₂ : List ℕ} {s : ℕ} (hp : p < 64) (hl : cells d 8 p = l₁ ++ s :: l₂)
    (hf : ∀ x ∈ l₁, ¬ all.getLsbD x = true) (hs : all.getLsbD s = true) :
    (if !upward d then bsr ((Masks d).getD p 0 &&& all) else bsf ((Masks d).getD p 0 &&& all)) = s := by
  have hbit : ∀ r, ((Masks d).getD p 0 &&& all).getLsbD r = true ↔ r ∈ cells d 8 p ∧ all.getLsbD r = true := by
    intro r
    rw [BitVec.getLsbD_and, Bool.and_eq_true, mask_bit hp]
  have hsb : ((Masks d).getD p 0 &&& all).getLsbD s = true := (hbit s).2 ⟨by simp [hl], hs⟩
  have hne : (Masks d).getD p 0 &&& all ≠ 0 := by
    intro h0
    rw [h0] at hsb
    simp at hsb
  have hsort := (List.pairwise_cons.1 (cells_sorted (d := d) hp)).2
  rw [hl, List.pairwise_append, List.pairwise_cons] at hsort
  -- Set bits other than `s` lie behind it.
  have hbehind : ∀ r, ((Masks d).getD p 0 &&& all).getLsbD r = true → r = s ∨ if upward d then s < r else r < s := by
    intro r hr
    obtain ⟨hm, ha⟩ := (hbit r).1 hr
    rw [hl, List.mem_append, List.mem_cons] at hm
    rcases hm with hm | rfl | hm
    · exact absurd ha (hf r hm)
    · exact .inl rfl
    · exact .inr (hsort.2.1.1 r hm)
  cases hu : upward d with
  | true =>
    simp only [hu, if_true] at hbehind
    refine (bsf_spec hne).unique ⟨hsb, fun j hj => ?_⟩
    by_contra hb
    rcases hbehind j (by simpa using hb) with h | h <;> omega
  | false =>
    simp only [hu, Bool.false_eq_true, if_false] at hbehind
    refine (bsr_spec hne).unique ⟨hsb, fun j hj => ?_⟩
    by_contra hb
    rcases hbehind j (by simpa using hb) with h | h <;> omega

/-- On a ray, the squares behind `s` are the ray out of `s`. -/
theorem mask_xor {l₁ l₂ : List ℕ} {s r : ℕ} (hp : p < 64) (hl : cells d 8 p = l₁ ++ s :: l₂) :
    ((Masks d).getD p 0 ^^^ (Masks d).getD s 0).getLsbD r = true ↔ r ∈ l₁ ∨ r = s := by
  have hs : s < 64 := cells_lt hp (by rw [hl]; simp)
  have htail : cells d 8 s = l₂ := (cells_line hs).unique ((hl ▸ cells_line hp).tail)
  have hnd : (cells d 8 p).Nodup :=
    (List.pairwise_cons.1 (cells_sorted (d := d) hp)).2.imp (fun h => by split at h <;> omega)
  rw [hl, List.nodup_append] at hnd
  have h1 := mask_bit (d := d) (r := r) hp
  have h2 := mask_bit (d := d) (r := r) hs
  rw [htail] at h2
  rw [hl, List.mem_append, List.mem_cons] at h1
  have hnc := List.nodup_cons.1 hnd.2.1
  rw [BitVec.getLsbD_xor]
  -- Behind `s` both masks have the square, and it drops out.
  by_cases hr2 : r ∈ l₂
  · have hn : ¬ (r ∈ l₁ ∨ r = s) := by
      rintro (h | rfl)
      · exact hnd.2.2 r h r (by simp [hr2]) rfl
      · exact hnc.1 hr2
    rw [h1.2 (.inr (.inr hr2)), h2.2 hr2]
    simp [hn]
  · have : ((Masks d).getD s 0).getLsbD r = false := by rw [← Bool.not_eq_true, h2]; exact hr2
    rw [this, Bool.xor_false, h1]
    tauto

variable {pieces : Pieces} {c : PieceColor}

/-- A ray mask: what a walk from `p` reaches, the first occupied square only if an enemy stands there. With captures
only, nothing but that square is left. -/
theorem calcRay_walk (hp : p < 64) {onlyCaptures : Bool} {r : ℕ} :
    (MoveGen.calcRay pieces p c onlyCaptures d (!upward d)).getLsbD r = true ↔
      Sees (next d) (fun q => pieces.all.getLsbD q = true) p r ∧
        (onlyCaptures = true → pieces.all.getLsbD r = true) ∧
        (pieces.all.getLsbD r = true → (pieces.sideBitboards.get c.inverse).getLsbD r = true) := by
  simp only [MoveGen.calcRay]
  by_cases h0 : (Masks d).getD p 0 &&& pieces.all = 0#64
  · -- nothing stands on the ray
    have hfree : ∀ x ∈ cells d 8 p, ¬ pieces.all.getLsbD x = true := by
      intro x hx hocc
      have hbit : ((Masks d).getD p 0 &&& pieces.all).getLsbD x = true := by
        rw [BitVec.getLsbD_and, Bool.and_eq_true]
        exact ⟨(mask_bit hp).2 hx, hocc⟩
      rw [h0] at hbit
      simp at hbit
    rw [if_pos h0, sees_all (cells_line hp) hfree]
    constructor
    · intro hr
      split at hr
      · simp at hr
      · rename_i hall
        rw [mask_bit hp] at hr
        exact ⟨hr, fun ho => absurd ho hall, fun ho => absurd ho (hfree r hr)⟩
    · rintro ⟨hr, hcapture, -⟩
      rw [if_neg fun ho => hfree r hr (hcapture ho), mask_bit hp]
      exact hr
  · -- the ray ends at `s`
    rw [if_neg h0]
    obtain ⟨x, hx⟩ := exists_bit h0
    rw [BitVec.getLsbD_and, Bool.and_eq_true, mask_bit hp] at hx
    obtain ⟨l₁, s, l₂, hl, hf, hs⟩ := first_occupied (fun q => pieces.all.getLsbD q = true) ⟨x, hx⟩
    have hs64 : s < 64 := cells_lt hp (by rw [hl]; simp)
    rw [blocking_eq (d := d) pieces.all hp hl hf hs, getBit_eq, sees_upto (hl ▸ cells_line hp) hf hs]
    have hmoves : (if onlyCaptures = true then 0#64 else (Masks d).getD p 0 ^^^ (Masks d).getD s 0).getLsbD r = true ↔
        ¬ onlyCaptures = true ∧ (r ∈ l₁ ∨ r = s) := by
      split
      · rename_i ho
        simp [ho]
      · rename_i ho
        rw [mask_xor hp hl, and_iff_right ho]
    by_cases he : (pieces.sideBitboards.get c.inverse).getLsbD s = true
    · rw [if_pos he, getLsbD_set1, Bool.or_eq_true, hmoves, decide_eq_true_eq]
      constructor
      · rintro (⟨ho, hr | rfl⟩ | ⟨rfl, -⟩)
        · exact ⟨.inl hr, fun h => absurd h ho, fun h => absurd h (hf r hr)⟩
        · exact ⟨.inr rfl, fun _ => hs, fun _ => he⟩
        · exact ⟨.inr rfl, fun _ => hs, fun _ => he⟩
      · rintro ⟨hr | rfl, hcapture, -⟩
        · exact .inl ⟨fun ho => hf r hr (hcapture ho), .inl hr⟩
        · exact .inr ⟨rfl, hs64⟩
    · rw [if_neg he, getLsbD_set0, Bool.and_eq_true, hmoves, decide_eq_true_eq]
      constructor
      · rintro ⟨⟨ho, hr | rfl⟩, hne⟩
        · exact ⟨.inl hr, fun h => absurd h ho, fun h => absurd h (hf r hr)⟩
        · exact absurd rfl hne
      · rintro ⟨hr | rfl, hcapture, henemy⟩
        · exact ⟨⟨fun ho => hf r hr (hcapture ho), .inl hr⟩, fun h => hf r hr (h ▸ hs)⟩
        · exact absurd (henemy hs) he

/-- On valid bitboards the side's own piece ends the ray before its square. -/
theorem calcRay_bit (hv : pieces.Valid) (hp : p < 64) {r : ℕ} :
    (MoveGen.calcRay pieces p c false d (!upward d)).getLsbD r = true ↔
      Sees (next d) (fun q => pieces.board q ≠ none) p r ∧ ∀ t, pieces.board r ≠ some (c, t) := by
  have hocc : (fun q => pieces.all.getLsbD q = true) = fun q => pieces.board q ≠ none :=
    funext fun q => propext hv.all_bit
  rw [calcRay_walk hp, hocc, hv.all_bit, hv.side_bit, and_iff_right fun h => absurd h Bool.false_ne_true]
  refine and_congr_right fun _ => ?_
  constructor
  · intro henemy t ht
    obtain ⟨t', ht'⟩ := henemy (by simp [ht])
    rw [ht, Option.some.injEq, Prod.mk.injEq] at ht'
    exact PieceColor.ne_inverse c ht'.1
  · intro hown hr
    obtain ⟨⟨c', t⟩, ht⟩ := Option.ne_none_iff_exists'.1 hr
    have hc : c' ≠ c := fun hc => hown t (hc ▸ ht)
    exact ⟨t, PieceColor.eq_inverse_of_ne hc ▸ ht⟩

/-! ## The masks of the pieces -/

/-- A piece of the side stands on the square. -/
def Pieces.Stands (pieces : Pieces) (side : PieceColor) (q : ℕ) : Prop := ∃ t, (pieces.bb side t).getLsbD q = true

/-- A walk from `p` gets to `r`: over empty squares, up to the first occupied one, and on to that if it holds an enemy
of the side. -/
def Walks (pieces : Pieces) (side : PieceColor) (d : Direction) (p r : ℕ) : Prop :=
  Sees (next d) (fun q => ∃ c, pieces.Stands c q) p r ∧ ((∃ c, pieces.Stands c r) → pieces.Stands side.inverse r)

theorem side_stands (hd : pieces.updateBitboards = pieces) {q : ℕ} :
    (pieces.sideBitboards.get c).getLsbD q = true ↔ pieces.Stands c q := by
  rw [← hd]
  cases c <;> exact Pieces.getLsbD_sideUnion pieces _ q

theorem all_stands (hd : pieces.updateBitboards = pieces) {q : ℕ} :
    pieces.all.getLsbD q = true ↔ ∃ c, pieces.Stands c q := by
  have hall : pieces.all = pieces.sideUnion .white ||| pieces.sideUnion .black := by
    rw [← hd]
    rfl
  rw [hall, BitVec.getLsbD_or, Bool.or_eq_true, Pieces.getLsbD_sideUnion, Pieces.getLsbD_sideUnion]
  constructor
  · rintro (h | h)
    · exact ⟨.white, h⟩
    · exact ⟨.black, h⟩
  · rintro ⟨c, h⟩
    cases c with
    | white => exact .inl h
    | black => exact .inr h

/-- The ray as a walk, and with captures only what the walk takes. -/
theorem calcRay_walks (hd : pieces.updateBitboards = pieces) (hp : p < 64) (d : Direction) {onlyCaptures : Bool}
    {r : ℕ} :
    (MoveGen.calcRay pieces p c onlyCaptures d (!upward d)).getLsbD r = true ↔
      Walks pieces c d p r ∧ (onlyCaptures = true → pieces.Stands c.inverse r) := by
  have hocc : (fun q => pieces.all.getLsbD q = true) = fun q => ∃ c, pieces.Stands c q :=
    funext fun q => propext (all_stands hd)
  rw [calcRay_walk hp, hocc, all_stands hd, side_stands hd]
  constructor
  · rintro ⟨hs, hcapture, henemy⟩
    exact ⟨⟨hs, henemy⟩, fun ho => henemy (hcapture ho)⟩
  · rintro ⟨⟨hs, henemy⟩, hcapture⟩
    exact ⟨hs, fun ho => ⟨_, hcapture ho⟩, henemy⟩

/-- The union of four rays, each with the scan for its direction. -/
theorem rays_walk (hd : pieces.updateBitboards = pieces) (hp : p < 64) (c : PieceColor) (onlyCaptures : Bool) (r : ℕ)
    (d₁ d₂ d₃ d₄ : Direction) :
    (MoveGen.calcRay pieces p c onlyCaptures d₁ (!upward d₁) ||| MoveGen.calcRay pieces p c onlyCaptures d₂
      (!upward d₂) |||
        MoveGen.calcRay pieces p c onlyCaptures d₃ (!upward d₃) |||
        MoveGen.calcRay pieces p c onlyCaptures d₄ (!upward d₄)).getLsbD r = true ↔
      (∃ d ∈ [d₁, d₂, d₃, d₄], Walks pieces c d p r) ∧ (onlyCaptures = true → pieces.Stands c.inverse r) := by
  simp only [BitVec.getLsbD_or, Bool.or_eq_true, calcRay_walks hd hp, ← or_and_right, List.exists_mem_cons_iff,
    List.not_mem_nil, false_and, exists_false, or_false, or_assoc]

/-- The masks are what walks find, in the directions of the piece; with captures only, the enemies among it. -/
theorem masks_walk (hd : pieces.updateBitboards = pieces) (hp : p < 64) (side : PieceColor) (onlyCaptures : Bool)
    (r : ℕ) :
    ((MoveGen.generateBishopMask pieces p side onlyCaptures).getLsbD r = true ↔
        (∃ d ∈ [.northWest, .northEast, .southWest, .southEast], Walks pieces side d p r) ∧
          (onlyCaptures = true → pieces.Stands side.inverse r)) ∧
      ((MoveGen.generateRookMask pieces p side onlyCaptures).getLsbD r = true ↔
        (∃ d ∈ [.north, .south, .west, .east], Walks pieces side d p r) ∧
          (onlyCaptures = true → pieces.Stands side.inverse r)) ∧
      ((MoveGen.generateQueenMask pieces p side onlyCaptures).getLsbD r = true ↔
        (∃ d, Walks pieces side d p r) ∧ (onlyCaptures = true → pieces.Stands side.inverse r)) := by
  have hbishop := rays_walk hd hp side onlyCaptures r .northWest .northEast .southWest .southEast
  have hrook := rays_walk hd hp side onlyCaptures r .north .south .west .east
  refine ⟨hbishop, hrook, ?_⟩
  rw [MoveGen.generateQueenMask, BitVec.getLsbD_or, Bool.or_eq_true]
  refine (or_congr hbishop hrook).trans ?_
  rw [← or_and_right]
  refine and_congr_left fun _ => ?_
  constructor
  · rintro (⟨d, -, h⟩ | ⟨d, -, h⟩) <;> exact ⟨d, h⟩
  · rintro ⟨d, h⟩
    cases d with
    | northWest | northEast | southWest | southEast => exact .inl ⟨_, by decide, h⟩
    | north | south | west | east => exact .inr ⟨_, by decide, h⟩

/-- A white queen on d1 and a black rook on d8. -/
theorem masks_walk_queen : ∃ d, Walks (Pieces.ofFen "3r4/8/8/8/8/8/8/3Q4") .white d 3 59 := by
  have hd : (Pieces.ofFen "3r4/8/8/8/8/8/8/3Q4").updateBitboards =
      Pieces.ofFen "3r4/8/8/8/8/8/8/3Q4" := by decide +kernel
  obtain ⟨-, -, hqueen⟩ := masks_walk hd (show 3 < 64 by decide) .white true 59
  exact (hqueen.1 (by decide +kernel)).1

/-! ## Walks and open lines -/

theorem square_next {r : ℕ} (h : next d p = some r) : r = square (file p + d.step.1) (rank p + d.step.2) := by
  simp only [next] at h
  split at h <;> cases h
  rfl

/-- Stepping along a line from a square `r` of the board: the first step. -/
theorem openLine_step {b : Board} {q : ℕ} (hp : p < 64) (hq : q < 64) :
    OpenLine b d.step p q ↔
      ∃ r, next d p = some r ∧ (q = r ∨ (b r = none ∧ OpenLine b d.step r q)) := by
  constructor
  · rintro ⟨n, hn8, hn, hx, hy, hfree⟩
    obtain ⟨r, hr⟩ : ∃ r, next d p = some r := by
      refine ⟨square (file p + d.step.1) (rank p + d.step.2), next_eq ?_ ?_ ?_⟩
      all_goals
        simp only [file, rank, square] at *
        cases d <;> simp only [Direction.step] at * <;> omega
    obtain ⟨hrx, hry, hr64⟩ := next_some hr
    refine ⟨r, hr, ?_⟩
    by_cases h1 : n = 1
    · left
      subst h1
      simp only [file, rank] at *
      omega
    · right
      refine ⟨?_, n - 1, by omega, by omega, ?_, ?_, ?_⟩
      · have := hfree 1 (by omega) (by omega)
        rw [square_next hr]
        simpa using this
      · rw [hrx, hx, Nat.cast_sub (by omega)]; ring
      · rw [hry, hy, Nat.cast_sub (by omega)]; ring
      · intro k hk hk0
        have := hfree (k + 1) (by omega) (by omega)
        rw [hrx, hry, ← this]
        congr 2 <;> push_cast <;> ring
  · rintro ⟨r, hr, rfl | ⟨hb, n, hn8, hn, hx, hy, hfree⟩⟩
    · obtain ⟨hrx, hry, -⟩ := next_some hr
      exact ⟨1, by omega, by omega, by simpa using hrx, by simpa using hry, fun k h h' => by omega⟩
    · obtain ⟨hrx, hry, hr64⟩ := next_some hr
      refine ⟨n + 1, ?_, by omega, ?_, ?_, ?_⟩
      · simp only [file, rank] at *
        cases d <;> simp only [Direction.step] at * <;> omega
      · rw [hx, hrx]; push_cast; ring
      · rw [hy, hry]; push_cast; ring
      · intro k hk hk0
        by_cases h1 : k = 1
        · rw [h1, ← hb, square_next hr]; simp
        · have := hfree (k - 1) (by omega) (by omega)
          rw [← this, hrx, hry, Nat.cast_sub (by omega)]
          congr 2 <;> push_cast <;> ring

/-- An open line is a walk over empty squares. -/
theorem openLine_iff {b : Board} {q : ℕ} (hp : p < 64) (hq : q < 64) :
    OpenLine b d.step p q ↔ Sees (next d) (fun s => b s ≠ none) p q := by
  constructor
  · have hl := cells_line (d := d) hp
    generalize cells d 8 p = l at hl
    intro h
    induction hl with
    | stop hn =>
      obtain ⟨r, hr, -⟩ := (openLine_step hp hq).1 h
      rw [hn] at hr; cases hr
    | go hr _ ih =>
      obtain ⟨r, hr', h⟩ := (openLine_step hp hq).1 h
      rw [hr] at hr'
      cases hr'
      rcases h with rfl | ⟨hb, h⟩
      · exact .step hr
      · exact .walk hr (by simpa using hb) (ih (next_some hr).2.2 h)
  · intro h
    induction h with
    | step hr => exact (openLine_step hp hq).2 ⟨_, hr, .inl rfl⟩
    | walk hr hb _ ih =>
      exact (openLine_step hp hq).2 ⟨_, hr, .inr ⟨by simpa using hb, ih (next_some hr).2.2 hq⟩⟩

end ChessGame
