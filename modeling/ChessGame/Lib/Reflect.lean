import ChessGame.Lib.Scan
/-!
# Words read through an involution

An involution of the bit positions of a word gives a reflection of words: the
bit `i` of the reflected word is the bit `σ i` of the word. Bitwise operations,
single bits and the list of set bits all commute with it.
-/
open Scan

namespace Reflect

/-- An involution of the positions that keeps those of a `w`-bit word. -/
structure Involution (w : ℕ) where
  map : ℕ → ℕ
  map_map : ∀ i, map (map i) = i
  map_lt : ∀ {i}, i < w → map i < w

namespace Involution

variable {w : ℕ} (σ : Involution w)

theorem lt_iff {i : ℕ} : σ.map i < w ↔ i < w :=
  ⟨fun h => by simpa [σ.map_map] using σ.map_lt h, σ.map_lt⟩

theorem eq_iff {i j : ℕ} : σ.map i = σ.map j ↔ i = j :=
  ⟨fun h => by rw [← σ.map_map i, h, σ.map_map], congrArg σ.map⟩

theorem map_eq_comm {i j : ℕ} : σ.map i = j ↔ i = σ.map j := by
  rw [← σ.eq_iff, σ.map_map]

end Involution

variable {w : ℕ} (σ : Involution w)

def reflect (b : BitVec w) : BitVec w := collect 0#w ((List.range w).filter fun i => b.getLsbD (σ.map i))

@[simp] theorem getLsbD_reflect (b : BitVec w) (i : ℕ) : (reflect σ b).getLsbD i = b.getLsbD (σ.map i) := by
  rw [reflect, getLsbD_collect, BitVec.getLsbD_zero, Bool.false_or]
  by_cases hi : i < w
  · simp [hi]
  · rw [BitVec.getLsbD_of_ge b (σ.map i) (by rw [← not_lt, σ.lt_iff]; exact hi)]
    simp [hi]

/-- A word is the reflection of another when its bits are. -/
theorem eq_reflect {b b' : BitVec w} (h : ∀ i < w, b'.getLsbD (σ.map i) = b.getLsbD i) : b' = reflect σ b := by
  apply BitVec.eq_of_getLsbD_eq
  intro i hi
  rw [getLsbD_reflect, ← h (σ.map i) (σ.map_lt hi), σ.map_map]

@[simp] theorem reflect_reflect (b : BitVec w) : reflect σ (reflect σ b) = b :=
  (eq_reflect σ fun i _ => by rw [getLsbD_reflect]).symm

theorem reflect_inj {b b' : BitVec w} : reflect σ b = reflect σ b' ↔ b = b' :=
  ⟨fun h => by rw [← reflect_reflect σ b, h, reflect_reflect], congrArg _⟩

@[simp] theorem reflect_zero : reflect σ 0#w = 0#w := (eq_reflect σ fun i _ => by simp).symm

theorem reflect_eq_zero {b : BitVec w} : reflect σ b = 0#w ↔ b = 0#w := by
  rw [← reflect_inj σ, reflect_reflect, reflect_zero]

/-! ## Operations -/

theorem reflect_or (a b : BitVec w) : reflect σ (a ||| b) = reflect σ a ||| reflect σ b := by
  refine (eq_reflect σ fun i _ => ?_).symm
  rw [BitVec.getLsbD_or, BitVec.getLsbD_or, getLsbD_reflect, getLsbD_reflect, σ.map_map]

theorem reflect_and (a b : BitVec w) : reflect σ (a &&& b) = reflect σ a &&& reflect σ b := by
  refine (eq_reflect σ fun i _ => ?_).symm
  rw [BitVec.getLsbD_and, BitVec.getLsbD_and, getLsbD_reflect, getLsbD_reflect, σ.map_map]

theorem reflect_xor (a b : BitVec w) : reflect σ (a ^^^ b) = reflect σ a ^^^ reflect σ b := by
  refine (eq_reflect σ fun i _ => ?_).symm
  rw [BitVec.getLsbD_xor, BitVec.getLsbD_xor, getLsbD_reflect, getLsbD_reflect, σ.map_map]

theorem reflect_not (a : BitVec w) : reflect σ (~~~a) = ~~~reflect σ a := by
  refine (eq_reflect σ fun i hi => ?_).symm
  rw [BitVec.getLsbD_not, BitVec.getLsbD_not, getLsbD_reflect, σ.map_map, decide_eq_true hi,
    decide_eq_true (σ.map_lt hi)]

theorem reflect_setBit (b : BitVec w) (i : ℕ) :
    reflect σ (b ||| (1#w <<< i)) = reflect σ b ||| (1#w <<< σ.map i) := by
  refine (eq_reflect σ fun j _ => ?_).symm
  simp only [getLsbD_setBit, getLsbD_reflect, σ.map_map, σ.eq_iff, σ.lt_iff]

theorem reflect_clearBit (b : BitVec w) (i : ℕ) :
    reflect σ (b &&& ~~~(1#w <<< i)) = reflect σ b &&& ~~~(1#w <<< σ.map i) := by
  refine (eq_reflect σ fun j _ => ?_).symm
  simp only [getLsbD_clearBit, getLsbD_reflect, σ.map_map, ne_eq, σ.eq_iff]

end Reflect
