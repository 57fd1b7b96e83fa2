import Mathlib
/-!
# Words as sets of indices

A `w`-bit word stands for the set of its set bits. `indices` lists that set in
increasing order. `scan` is the loop that takes the lowest set bit out of a
word until the word is zero, for any `first` that finds the lowest set bit;
`scan_eq` says that it visits `indices`, so nothing later looks at the loop, and
`drains_iff` that the loop needs no bound to end.
`collect` is the opposite: a word built by setting bits one at a time.
-/

namespace Scan

variable {w : ℕ} {σ : Type}

/-- The set bits of `b`, in increasing order. -/
def indices (b : BitVec w) : List ℕ := (List.range w).filter (b.getLsbD ·)

@[simp] theorem mem_indices {b : BitVec w} {i : ℕ} : i ∈ indices b ↔ b.getLsbD i = true := by
  simp only [indices, List.mem_filter, List.mem_range, and_iff_right_iff_imp]
  exact fun h => BitVec.lt_of_getLsbD h

theorem indices_sorted (b : BitVec w) : (indices b).Pairwise (· < ·) :=
  List.pairwise_lt_range.filter _

theorem indices_nodup (b : BitVec w) : (indices b).Nodup :=
  (indices_sorted b).imp (fun h => Nat.ne_of_lt h)

theorem indices_length (b : BitVec w) : (indices b).length ≤ w := by
  simpa [indices] using List.length_filter_le (b.getLsbD ·) (List.range w)

theorem indices_eq_nil {b : BitVec w} : indices b = [] ↔ b = 0 := by
  constructor
  · intro h
    apply BitVec.eq_of_getLsbD_eq
    intro i _
    have : i ∉ indices b := by simp [h]
    simpa using this
  · rintro rfl
    simp [indices]

/-! ## Setting and clearing one bit -/

theorem getLsbD_setBit (b : BitVec w) (i j : ℕ) :
    (b ||| (1#w <<< i)).getLsbD j = (b.getLsbD j || decide (j = i ∧ j < w)) := by
  simp only [BitVec.getLsbD_or, BitVec.getLsbD_shiftLeft, BitVec.getLsbD_one]
  by_cases hj : j < w
  · by_cases hji : j = i
    · subst hji; simp [hj]; omega
    · have : i ≤ j → j - i ≠ 0 := by omega
      simp [hj, hji]; grind
  · simp [hj]

theorem getLsbD_clearBit (b : BitVec w) (i j : ℕ) :
    (b &&& ~~~(1#w <<< i)).getLsbD j = (b.getLsbD j && decide (j ≠ i)) := by
  simp only [BitVec.getLsbD_and, BitVec.getLsbD_not, BitVec.getLsbD_shiftLeft, BitVec.getLsbD_one]
  by_cases hj : b.getLsbD j = true
  · have := BitVec.lt_of_getLsbD hj
    by_cases hji : j = i
    · subst hji; simp [hj]; omega
    · simp [hj, hji]; omega
  · simp [hj]

/-! ## The lowest and the highest set bit -/

/-- `i` is the lowest set bit of `b`. -/
def IsLowest (b : BitVec w) (i : ℕ) : Prop :=
  b.getLsbD i = true ∧ ∀ j < i, b.getLsbD j = false

/-- `i` is the highest set bit of `b`. -/
def IsHighest (b : BitVec w) (i : ℕ) : Prop :=
  b.getLsbD i = true ∧ ∀ j, i < j → b.getLsbD j = false

theorem exists_bit {b : BitVec w} (h : b ≠ 0) : ∃ i, b.getLsbD i = true := by
  by_contra hn
  apply h
  apply BitVec.eq_of_getLsbD_eq
  intro i _
  simpa using fun hi => hn ⟨i, hi⟩

theorem exists_lowest {b : BitVec w} (h : b ≠ 0) : ∃ i, IsLowest b i := by
  classical
  have hex := exists_bit h
  exact ⟨Nat.find hex, Nat.find_spec hex, fun j hj => by simpa using Nat.find_min hex hj⟩

theorem exists_highest {b : BitVec w} (h : b ≠ 0) : ∃ i, IsHighest b i := by
  obtain ⟨i, hi⟩ := exists_bit h
  have hne : indices b ≠ [] := fun he => h (indices_eq_nil.1 he)
  refine ⟨(indices b).getLast hne, mem_indices.1 (List.getLast_mem hne), fun j hj => ?_⟩
  by_contra hb
  have hm : j ∈ indices b := mem_indices.2 (by simpa using hb)
  have hle := (indices_sorted b).imp Nat.le_of_lt |>.rel_getLast_of_rel_getLast_getLast hm (Nat.le_refl _)
  omega

theorem IsLowest.unique {b : BitVec w} {i j : ℕ} (hi : IsLowest b i) (hj : IsLowest b j) : i = j := by
  rcases Nat.lt_trichotomy i j with h | h | h
  · exact absurd hi.1 (by simp [hj.2 i h])
  · exact h
  · exact absurd hj.1 (by simp [hi.2 j h])

theorem IsHighest.unique {b : BitVec w} {i j : ℕ} (hi : IsHighest b i) (hj : IsHighest b j) : i = j := by
  rcases Nat.lt_trichotomy i j with h | h | h
  · exact absurd hj.1 (by simp [hi.2 j h])
  · exact h
  · exact absurd hi.1 (by simp [hj.2 i h])

/-- The lowest set bit heads the list of the others. -/
theorem indices_cons {b : BitVec w} {i : ℕ} (h : IsLowest b i) :
    indices b = i :: indices (b &&& ~~~(1#w <<< i)) := by
  refine List.Perm.eq_of_pairwise' (r := (· < ·)) (indices_sorted b) ?_ ?_
  · refine List.pairwise_cons.2 ⟨fun j hj => ?_, indices_sorted _⟩
    rw [mem_indices, getLsbD_clearBit] at hj
    simp only [Bool.and_eq_true, decide_eq_true_eq] at hj
    by_contra hle
    have := h.2 j (by omega)
    simp [this] at hj
  · rw [List.perm_ext_iff_of_nodup (indices_nodup b)]
    · intro j
      rw [List.mem_cons, mem_indices, mem_indices, getLsbD_clearBit]
      by_cases hji : j = i
      · simp [hji, h.1]
      · simp [hji]
    · refine List.nodup_cons.2 ⟨?_, indices_nodup _⟩
      rw [mem_indices, getLsbD_clearBit]; simp

/-! ## The scanning loop -/

/-- `while (b) { i = first(b); clear bit i of b; body(i) }`, for at most `fuel` rounds. -/
def scan (first : BitVec w → ℕ) (body : ℕ → σ → σ) : ℕ → BitVec w → σ → σ
  | 0, _, s => s
  | fuel + 1, b, s =>
    if b = 0 then s
    else scan first body fuel (b &&& ~~~(1#w <<< first b)) (body (first b) s)

/-- The loop runs its body once on each set bit, in increasing order; `w`
rounds are enough for every word. -/
theorem scan_eq {first : BitVec w → ℕ} (hf : ∀ b, b ≠ 0 → IsLowest b (first b)) (body : ℕ → σ → σ)
    (fuel : ℕ) (b : BitVec w) (s : σ) (h : (indices b).length ≤ fuel) :
    scan first body fuel b s = (indices b).foldl (fun s i => body i s) s := by
  induction fuel generalizing b s with
  | zero =>
    have : indices b = [] := List.length_eq_zero_iff.1 (Nat.le_zero.1 h)
    rw [this]; rfl
  | succ n ih =>
    by_cases hb : b = 0
    · rw [scan, if_pos hb, indices_eq_nil.2 hb]; rfl
    · have hc := indices_cons (hf b hb)
      rw [scan, if_neg hb, ih _ _ (by rw [hc] at h; simpa using h), hc]; rfl

/-- The loop as it runs, however long: the bits it takes out until the word is zero. -/
inductive Drains (first : BitVec w → ℕ) : BitVec w → List ℕ → Prop
  | stop : Drains first 0 []
  | turn {b : BitVec w} {l : List ℕ} : b ≠ 0 → Drains first (b &&& ~~~(1#w <<< first b)) l →
      Drains first b (first b :: l)

/-- The loop ends, after taking out each set bit once, in increasing order. -/
theorem drains_iff {first : BitVec w → ℕ} (hf : ∀ b, b ≠ 0 → IsLowest b (first b)) {b : BitVec w} {l : List ℕ} :
    Drains first b l ↔ l = indices b := by
  constructor
  · intro h
    induction h with
    | stop => exact (indices_eq_nil.2 rfl).symm
    | turn hb _ ih => rw [indices_cons (hf _ hb), ih]
  · rintro rfl
    generalize hl : indices b = l
    induction l generalizing b with
    | nil =>
      rw [indices_eq_nil.1 hl]
      exact .stop
    | cons i l ih =>
      have hb : b ≠ 0 := fun h0 => by rw [indices_eq_nil.2 h0] at hl; cases hl
      rw [indices_cons (hf b hb)] at hl
      obtain ⟨rfl, hrest⟩ := List.cons.inj hl
      exact .turn hb (ih hrest)

/-! ## Words built bit by bit -/

/-- The word with the bits of `l` set, one after the other. -/
def collect (b : BitVec w) (l : List ℕ) : BitVec w := l.foldl (fun b i => b ||| (1#w <<< i)) b

theorem getLsbD_collect (b : BitVec w) (l : List ℕ) (j : ℕ) :
    (collect b l).getLsbD j = (b.getLsbD j || decide (j ∈ l ∧ j < w)) := by
  induction l generalizing b with
  | nil => simp [collect]
  | cons i l ih =>
    have := ih (b ||| (1#w <<< i))
    simp only [collect, List.foldl_cons] at this ⊢
    rw [this, getLsbD_setBit]
    by_cases hj : j < w <;> by_cases hji : j = i <;> simp [hj, hji]
    all_goals grind

end Scan
