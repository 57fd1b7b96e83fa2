import Mathlib
/-!
# Rounding to a nearest integer

Ties may be broken either way, even differently from case to case. What one rounding
adds to an integer and what another takes from an integer then still differ by at most
one, and by nothing unless the amount is a tie.
-/

namespace Nearest

variable {K : Type} [Field K] [LinearOrder K] [IsStrictOrderedRing K] {x d : K} {a b m n : ℤ}

/-- No integer is nearer to `x` than `n`. -/
def Rounds (x : K) (n : ℤ) : Prop := |x - n| ≤ 1 / 2

/-- Halfway between two integers. -/
def Tie (x : K) : Prop := ∃ k : ℤ, x = k + 1 / 2

theorem rounds_floor [FloorRing K] (x : K) : Rounds x ⌊x + 1 / 2⌋ := by
  have hle := Int.floor_le (x + 1 / 2)
  have hlt := Int.lt_floor_add_one (x + 1 / 2)
  rw [Rounds, abs_le]
  constructor <;> linarith

theorem rounds_ceil [FloorRing K] (x : K) : Rounds x ⌈x - 1 / 2⌉ := by
  have hle := Int.le_ceil (x - 1 / 2)
  have hlt := Int.ceil_lt_add_one (x - 1 / 2)
  rw [Rounds, abs_le]
  constructor <;> linarith

/-- Rounding passes no integer. -/
theorem Rounds.ge (h : Rounds x n) (ha : (a : K) ≤ x) : a ≤ n := by
  have hn := (abs_le.1 h).2
  have hlt : (a : K) < ((n + 1 : ℤ) : K) := by
    push_cast
    linarith
  exact Int.lt_add_one_iff.1 (Int.cast_lt.1 hlt)

theorem Rounds.le (h : Rounds x n) (hb : x ≤ b) : n ≤ b := by
  have hn := (abs_le.1 h).1
  have hlt : (n : K) < ((b + 1 : ℤ) : K) := by
    push_cast
    linarith
  exact Int.lt_add_one_iff.1 (Int.cast_lt.1 hlt)

/-- The roundings of `a + d` and `b - d` add up to `a + b`, give or take one. -/
theorem Rounds.sum_near (hm : Rounds (a + d) m) (hn : Rounds (b - d) n) : |m + n - (a + b)| ≤ 1 := by
  obtain ⟨hm1, hm2⟩ := abs_le.1 hm
  obtain ⟨hn1, hn2⟩ := abs_le.1 hn
  have habs : |((m + n - (a + b) : ℤ) : K)| ≤ ((1 : ℤ) : K) := by
    push_cast
    rw [abs_le]
    constructor <;> linarith
  exact_mod_cast habs

/-- Only a tie is rounded by a half. -/
theorem Rounds.lt (h : Rounds (a + d) m) (ht : ¬ Tie d) : |a + d - m| < 1 / 2 := by
  refine lt_of_le_of_ne h fun he => ht ?_
  rcases eq_or_eq_neg_of_abs_eq he with hd | hd
  · refine ⟨m - a, ?_⟩
    push_cast
    linarith
  · refine ⟨m - a - 1, ?_⟩
    push_cast
    linarith

theorem Rounds.sum_eq (hm : Rounds (a + d) m) (hn : Rounds (b - d) n) (ht : ¬ Tie d) : m + n = a + b := by
  obtain ⟨hm1, hm2⟩ := abs_lt.1 (hm.lt ht)
  obtain ⟨hn1, hn2⟩ := abs_le.1 hn
  have hlt : ((m + n - (a + b) : ℤ) : K) < ((1 : ℤ) : K) := by
    push_cast
    linarith
  have hgt : ((-1 : ℤ) : K) < ((m + n - (a + b) : ℤ) : K) := by
    push_cast
    linarith
  have hlt' := Int.cast_lt.1 hlt
  have hgt' := Int.cast_lt.1 hgt
  omega

end Nearest
