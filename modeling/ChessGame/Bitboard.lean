import ChessGame.Lib.Scan
/-!
# Bitboards

`bitboard.hpp`: 64-bit words, one bit a square, square `8 * rank + file`. The
two table-driven bit scans are proved to find the lowest and the highest set
bit of every non-zero word, so `forEachBit` (the `while (mask)` loop every
generator is built from) runs its body once on each set bit.
-/
open Scan

namespace ChessGame

abbrev Bitboard := BitVec 64

namespace BitboardOps

def set1 (bb : Bitboard) (square : ℕ) : Bitboard := bb ||| (1#64 <<< square)

def set0 (bb : Bitboard) (square : ℕ) : Bitboard := bb &&& ~~~(1#64 <<< square)

def getBit (bb : Bitboard) (square : ℕ) : Bool := ((bb >>> square) &&& 1#64) != 0#64

def BitScanTable : List ℕ := [
  0, 47,  1, 56, 48, 27,  2, 60,
  57, 49, 41, 37, 28, 16,  3, 61,
  54, 58, 35, 52, 50, 42, 21, 44,
  38, 32, 29, 23, 17, 11,  4, 62,
  46, 55, 26, 59, 40, 36, 15, 53,
  34, 51, 20, 43, 31, 22, 10, 45,
  25, 39, 14, 33, 19, 30,  9, 24,
  13, 18,  8, 12,  7,  6,  5, 63]

/-- The table lookup both scans end with. -/
def lookup (bb : Bitboard) : ℕ := BitScanTable.getD ((bb * 0x03f79d71b4cb0a89#64) >>> 58).toNat 0

def bsf (bb : Bitboard) : ℕ := lookup (bb ^^^ (bb - 1#64))

/-- The shifts of `bsr` copy every set bit to all the positions below it. -/
def smear (bb : Bitboard) : Bitboard :=
  let bb := bb ||| (bb >>> 1)
  let bb := bb ||| (bb >>> 2)
  let bb := bb ||| (bb >>> 4)
  let bb := bb ||| (bb >>> 8)
  let bb := bb ||| (bb >>> 16)
  bb ||| (bb >>> 32)

def bsr (bb : Bitboard) : ℕ := lookup (smear bb)

/-- `while (mask) { sq = bsf(mask); set_0(mask, sq); body }`. A word has 64
bits, so 64 rounds empty it. -/
def forEachBit {σ : Type} (mask : Bitboard) (s : σ) (body : σ → ℕ → σ) : σ :=
  scan bsf (fun i s => body s i) 64 mask s

/-! ## Single bits -/

@[simp] theorem getBit_eq (bb : Bitboard) (q : ℕ) : getBit bb q = bb.getLsbD q := by
  unfold getBit
  have hbit : ∀ i, ((bb >>> q) &&& 1#64).getLsbD i = (bb.getLsbD q && decide (i = 0)) := by
    intro i
    simp only [BitVec.getLsbD_and, BitVec.getLsbD_ushiftRight, BitVec.getLsbD_one]
    by_cases hi : i = 0 <;> simp [hi]
  cases hb : bb.getLsbD q with
  | true =>
    have : (bb >>> q) &&& 1#64 ≠ 0#64 := by
      intro h0
      have := hbit 0
      simp [h0, hb] at this
    simpa using this
  | false =>
    have : (bb >>> q) &&& 1#64 = 0#64 := by
      apply BitVec.eq_of_getLsbD_eq
      intro i _
      rw [hbit, hb]; simp
    simp [this]

@[simp] theorem getLsbD_set1 (bb : Bitboard) (i j : ℕ) :
    (set1 bb i).getLsbD j = (bb.getLsbD j || decide (j = i ∧ j < 64)) := getLsbD_setBit bb i j

@[simp] theorem getLsbD_set0 (bb : Bitboard) (i j : ℕ) :
    (set0 bb i).getLsbD j = (bb.getLsbD j && decide (j ≠ i)) := getLsbD_clearBit bb i j

/-! ## The bit scans -/

/-- The bits up to and including `i`. -/
def upTo (i : ℕ) : Bitboard := BitVec.ofNat 64 (2 ^ (i + 1) - 1)

theorem getLsbD_upTo (i j : ℕ) : (upTo i).getLsbD j = decide (j ≤ i ∧ j < 64) := by
  simp only [upTo, BitVec.getLsbD_ofNat, Nat.testBit_two_pow_sub_one]
  by_cases h : j < 64 <;> by_cases h' : j ≤ i <;> simp [h, h']

/-- The multiplier and the table send the word `upTo i` to `i`. -/
theorem lookup_upTo : ∀ i < 64, lookup (upTo i) = i := by decide +kernel

/-- Subtracting one flips the lowest set bit and the zeros below it. -/
theorem xor_pred {n i : ℕ} (hi : n.testBit i = true) (hlow : ∀ j < i, n.testBit j = false) :
    n ^^^ (n - 1) = 2 ^ (i + 1) - 1 := by
  have hmod : n % 2 ^ i = 0 := by
    apply Nat.eq_of_testBit_eq
    intro j
    rw [Nat.testBit_mod_two_pow, Nat.zero_testBit]
    by_cases hj : j < i <;> simp [hj, hlow]
  have hodd : (n / 2 ^ i) % 2 = 1 := by
    have := hi
    rw [Nat.testBit_eq_decide_div_mod_eq] at this
    simpa using this
  obtain ⟨k, hk⟩ : ∃ k, n / 2 ^ i = 2 * k + 1 := ⟨n / 2 ^ i / 2, by omega⟩
  have hpos : 0 < 2 ^ i := Nat.two_pow_pos i
  have hn : n = 2 ^ (i + 1) * k + 2 ^ i := by
    have h := Nat.div_add_mod n (2 ^ i)
    rw [hk, hmod] at h
    rw [← h, pow_succ]; ring
  have hp : n - 1 = 2 ^ (i + 1) * k + (2 ^ i - 1) := by omega
  have hlt : 2 ^ i < 2 ^ (i + 1) := by rw [pow_succ]; omega
  apply Nat.eq_of_testBit_eq
  intro j
  rw [Nat.testBit_xor, hp, Nat.testBit_two_pow_mul_add _ (by omega)]
  conv_lhs => rw [hn]
  rw [Nat.testBit_two_pow_mul_add _ hlt, Nat.testBit_two_pow_sub_one, Nat.testBit_two_pow_sub_one,
    Nat.testBit_two_pow]
  by_cases hj : j < i + 1
  · by_cases hji : j = i
    · subst hji; simp
    · have : j < i := by omega
      simp [hj, this, Ne.symm hji]
  · simp [hj]

theorem bsf_spec {bb : Bitboard} (h : bb ≠ 0) : IsLowest bb (bsf bb) := by
  obtain ⟨i, hi⟩ := exists_lowest h
  have hi64 : i < 64 := BitVec.lt_of_getLsbD hi.1
  have hpos : 0 < bb.toNat := Nat.pos_of_ne_zero (fun h0 => h (BitVec.eq_of_toNat_eq (by simpa using h0)))
  have hx : bb ^^^ (bb - 1#64) = upTo i := by
    apply BitVec.eq_of_toNat_eq
    have hsub : (bb - 1#64).toNat = bb.toNat - 1 := by
      rw [BitVec.toNat_sub_of_le]
      · rfl
      · exact hpos
    have hbnd : 2 ^ (i + 1) - 1 < 2 ^ 64 := by
      have : 2 ^ (i + 1) ≤ 2 ^ 64 := Nat.pow_le_pow_right (by omega) (by omega)
      omega
    rw [BitVec.toNat_xor, hsub, xor_pred (i := i) hi.1 (fun j hj => hi.2 j hj), upTo, BitVec.toNat_ofNat,
      Nat.mod_eq_of_lt hbnd]
  rw [bsf, hx, lookup_upTo i hi64]
  exact hi

/-- `m` holds the set bits of `bb`, each copied to the `n - 1` positions below it. -/
def Smeared (bb m : Bitboard) (n : ℕ) : Prop :=
  ∀ j, m.getLsbD j = true ↔ ∃ d < n, bb.getLsbD (j + d) = true

theorem smeared_double {bb m : Bitboard} {n : ℕ} (h : Smeared bb m n) : Smeared bb (m ||| (m >>> n)) (2 * n) := by
  intro j
  rw [BitVec.getLsbD_or, BitVec.getLsbD_ushiftRight, Bool.or_eq_true, h j, h (n + j)]
  constructor
  · rintro (⟨d, hd, hb⟩ | ⟨d, hd, hb⟩)
    · exact ⟨d, by omega, hb⟩
    · exact ⟨n + d, by omega, by rwa [show j + (n + d) = n + j + d by omega]⟩
  · rintro ⟨d, hd, hb⟩
    by_cases hdn : d < n
    · exact .inl ⟨d, hdn, hb⟩
    · exact .inr ⟨d - n, by omega, by rwa [show n + j + (d - n) = j + d by omega]⟩

theorem smear_spec (bb : Bitboard) : Smeared bb (smear bb) 64 := by
  have h0 : Smeared bb bb 1 := fun j => by simp
  exact smeared_double (smeared_double (smeared_double (smeared_double (smeared_double (smeared_double h0)))))

theorem bsr_spec {bb : Bitboard} (h : bb ≠ 0) : IsHighest bb (bsr bb) := by
  obtain ⟨i, hi⟩ := exists_highest h
  have hi64 : i < 64 := BitVec.lt_of_getLsbD hi.1
  have hx : smear bb = upTo i := by
    apply BitVec.eq_of_getLsbD_eq
    intro j hj
    rw [Bool.eq_iff_iff, smear_spec bb j, getLsbD_upTo, decide_eq_true_eq]
    constructor
    · rintro ⟨d, -, hb⟩
      refine ⟨?_, hj⟩
      by_contra hlt
      simp [hi.2 (j + d) (by omega)] at hb
    · rintro ⟨hle, -⟩
      exact ⟨i - j, by omega, by rw [show j + (i - j) = i by omega]; exact hi.1⟩
  rw [bsr, hx, lookup_upTo i hi64]
  exact hi

/-- The loop visits every set bit of the mask once, in increasing order. -/
theorem forEachBit_eq {σ : Type} (mask : Bitboard) (s : σ) (body : σ → ℕ → σ) :
    forEachBit mask s body = (indices mask).foldl body s :=
  scan_eq (fun _ hb => bsf_spec hb) _ 64 mask s (indices_length mask)

/-- Both scans are exact on every word but zero. The loop they drive ends whatever the mask, having taken out each set
bit once in increasing order, and these are the squares on which the generators run their bodies. -/
theorem bitScan_exact :
    (∀ bb : Bitboard, bb ≠ 0 → IsLowest bb (bsf bb) ∧ IsHighest bb (bsr bb)) ∧
      ∀ mask : Bitboard, ∃ squares : List ℕ, (∀ l, Drains bsf mask l ↔ l = squares) ∧ squares.Pairwise (· < ·) ∧
        (∀ i, i ∈ squares ↔ mask.getLsbD i = true) ∧
        ∀ (σ : Type) (s : σ) (body : σ → ℕ → σ), forEachBit mask s body = squares.foldl body s := by
  constructor
  · intro bb h
    exact ⟨bsf_spec h, bsr_spec h⟩
  · intro mask
    refine ⟨indices mask, fun l => drains_iff fun _ hb => bsf_spec hb, indices_sorted mask, fun i => mem_indices, ?_⟩
    intro σ s body
    exact forEachBit_eq mask s body

/-- The mask of b1 and h8. -/
theorem bitScan_exact_corners : IsLowest (0x8000000000000002#64 : Bitboard) (bsf 0x8000000000000002#64) ∧
    IsHighest (0x8000000000000002#64 : Bitboard) (bsr 0x8000000000000002#64) ∧
    ∃ squares, Drains bsf 0x8000000000000002#64 squares ∧ 1 ∈ squares ∧ 63 ∈ squares := by
  obtain ⟨hscan, hloop⟩ := bitScan_exact
  obtain ⟨hlow, hhigh⟩ := hscan 0x8000000000000002#64 (by decide)
  obtain ⟨squares, hdrains, -, hmem, -⟩ := hloop 0x8000000000000002#64
  exact ⟨hlow, hhigh, squares, (hdrains squares).2 rfl, (hmem 1).2 (by decide), (hmem 63).2 (by decide)⟩

end BitboardOps

/-! ## Rows and columns -/

open BitboardOps

def BitboardRows.Rows (y : ℕ) : Bitboard :=
  (List.range 8).foldl (fun row x => set1 row (y * 8 + x)) 0#64

def BitboardColumns.Columns (x : ℕ) : Bitboard :=
  (List.range 8).foldl (fun column y => set1 column (y * 8 + x)) 0#64

def BitboardColumns.InversionColumns (x : ℕ) : Bitboard := ~~~BitboardColumns.Columns x

theorem getLsbD_foldl_set1 (l : List ℕ) (f : ℕ → ℕ) (bb : Bitboard) (q : ℕ) :
    (l.foldl (fun m i => set1 m (f i)) bb).getLsbD q = (bb.getLsbD q || decide (q ∈ l.map f ∧ q < 64)) := by
  have := getLsbD_collect bb (l.map f) q
  rwa [collect, List.foldl_map] at this

theorem getLsbD_Rows (y q : ℕ) : (BitboardRows.Rows y).getLsbD q = decide (q / 8 = y ∧ q < 64) := by
  rw [BitboardRows.Rows, getLsbD_foldl_set1, BitVec.getLsbD_zero, Bool.false_or, decide_eq_decide]
  simp only [List.mem_map, List.mem_range]
  constructor
  · rintro ⟨⟨x, hx, rfl⟩, hq⟩; exact ⟨by omega, hq⟩
  · rintro ⟨hy, hq⟩; exact ⟨⟨q % 8, by omega, by omega⟩, hq⟩

theorem getLsbD_InversionColumns {x : ℕ} (hx : x < 8) (q : ℕ) :
    (BitboardColumns.InversionColumns x).getLsbD q = decide (q % 8 ≠ x ∧ q < 64) := by
  rw [BitboardColumns.InversionColumns, BitVec.getLsbD_not, BitboardColumns.Columns, getLsbD_foldl_set1,
    BitVec.getLsbD_zero, Bool.false_or]
  have hm : q < 64 → (q ∈ (List.range 8).map (fun y => y * 8 + x) ↔ q % 8 = x) := by
    intro hq
    simp only [List.mem_map, List.mem_range]
    constructor
    · rintro ⟨y, _, rfl⟩; omega
    · intro h; exact ⟨q / 8, by omega, by omega⟩
  by_cases hq : q < 64
  · simp [hq, hm hq]
  · simp [hq]

end ChessGame
