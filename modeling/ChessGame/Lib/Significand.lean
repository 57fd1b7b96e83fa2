import Mathlib
/-!
# Rounding to a significand

A binary float with a significand of `p` bits holds the numbers `m * 2 ^ e` with
`m < 2 ^ p`. Any other number is rounded to the nearer of its two neighbours, and
halfway between them to the one with the even significand. Counting by ones is exact
up to `2 ^ p`, and there it stops: `2 ^ p + 1` is rounded back.
-/

namespace Significand

variable {p n : ℕ}

/-- `n / d`, rounded to the nearest and halfway to the even. -/
def nearestEven (n d : ℕ) : ℕ :=
  if 2 * (n % d) < d ∨ (2 * (n % d) = d ∧ n / d % 2 = 0) then n / d else n / d + 1

/-- The distance between the neighbours of `n`. -/
def spacing (p n : ℕ) : ℕ := 2 ^ (n.size - p)

/-- `n` rounded to `p` bits. -/
def roundTo (p n : ℕ) : ℕ := nearestEven n (spacing p n) * spacing p n

/-- One more, rounded. -/
def increment (p n : ℕ) : ℕ := roundTo p (n + 1)

/-! ## Rounding -/

/-- A number that the float holds is not changed. -/
theorem roundTo_of_dvd (h : spacing p n ∣ n) : roundTo p n = n := by
  have hpos : 0 < spacing p n := Nat.two_pow_pos _
  have hmod : n % spacing p n = 0 := Nat.mod_eq_zero_of_dvd h
  unfold roundTo nearestEven
  rw [hmod, if_pos (.inl (by simpa using hpos)), Nat.div_mul_cancel h]

theorem roundTo_of_lt (h : n < 2 ^ p) : roundTo p n = n := by
  have hsize : n.size - p = 0 := Nat.sub_eq_zero_of_le (Nat.size_le.2 h)
  apply roundTo_of_dvd
  rw [spacing, hsize, pow_zero]
  exact one_dvd n

theorem size_two_pow_add_one (hp : 1 ≤ p) : (2 ^ p + 1).size = p + 1 := by
  have hone : 1 < 2 ^ p := Nat.one_lt_two_pow (by omega)
  apply le_antisymm
  · rw [Nat.size_le, pow_succ]
    omega
  · rw [Nat.succ_le_iff, Nat.lt_size]
    exact Nat.le_succ _

theorem roundTo_two_pow (hp : 1 ≤ p) : roundTo p (2 ^ p) = 2 ^ p := by
  apply roundTo_of_dvd
  rw [spacing, Nat.size_pow, Nat.add_sub_cancel_left, pow_one]
  exact dvd_pow_self 2 (by omega)

/-- The first number that does not fit is halfway between two that do. -/
theorem roundTo_two_pow_succ (hp : 2 ≤ p) : roundTo p (2 ^ p + 1) = 2 ^ p := by
  obtain ⟨k, rfl⟩ := Nat.exists_eq_add_of_le' hp
  have hspacing : spacing (k + 2) (2 ^ (k + 2) + 1) = 2 := by
    rw [spacing, size_two_pow_add_one (by omega), Nat.add_sub_cancel_left, pow_one]
  have hquot : (2 ^ (k + 2) + 1) / 2 = 2 * 2 ^ k := by
    rw [pow_succ, pow_succ]
    omega
  have hrem : (2 ^ (k + 2) + 1) % 2 = 1 := by
    rw [pow_succ]
    omega
  -- the tie goes to the even quotient, the lower one
  unfold roundTo nearestEven
  rw [hspacing, hquot, hrem, if_pos (.inr ⟨rfl, Nat.mul_mod_right 2 _⟩)]
  ring

/-! ## Counting -/

/-- Each increment counts until the limit is reached. -/
theorem increment_eq (hp : 2 ≤ p) (h : n ≤ 2 ^ p) : increment p n = min (n + 1) (2 ^ p) := by
  unfold increment
  rcases Nat.lt_or_ge (n + 1) (2 ^ p) with hlt | hge
  · rw [roundTo_of_lt hlt, min_eq_left hlt.le]
  · rw [min_eq_right hge]
    obtain he | he : n + 1 = 2 ^ p ∨ n = 2 ^ p := by omega
    · rw [he, roundTo_two_pow (by omega)]
    · rw [he, roundTo_two_pow_succ hp]

end Significand
