import Mathlib
/-!
# Hashes kept by toggling

A hash that is the exclusive or of one word for each item of a list. When one item
changes, the hash changes by the two words of that item, so it can be kept up to
date by toggling instead of being computed again.
-/

namespace Toggle

variable {w : ℕ} {ι κ : Type} {f g : ι → BitVec w} {l : List ι} {a : ι}

/-- The exclusive or of the words of the items. -/
def total (f : ι → BitVec w) (l : List ι) : BitVec w := l.foldr (fun i h => f i ^^^ h) 0#w

/-! ## Words -/

theorem xor_left_comm (x y z : BitVec w) : x ^^^ (y ^^^ z) = y ^^^ (x ^^^ z) := by
  rw [← BitVec.xor_assoc, BitVec.xor_comm x y, BitVec.xor_assoc]

theorem xor_self_left (x y : BitVec w) : x ^^^ (x ^^^ y) = y := by
  rw [← BitVec.xor_assoc, BitVec.xor_self, BitVec.zero_xor]

/-- What two hashes differ by is what each of them lacks. -/
theorem xor_eq_iff {x y z : BitVec w} : x ^^^ y = z ↔ x = z ^^^ y := by
  constructor
  · rintro rfl
    rw [BitVec.xor_assoc, BitVec.xor_self, BitVec.xor_zero]
  · rintro rfl
    rw [BitVec.xor_assoc, BitVec.xor_self, BitVec.xor_zero]

/-! ## Totals -/

@[simp] theorem total_nil : total f [] = 0#w := rfl

@[simp] theorem total_cons : total f (a :: l) = f a ^^^ total f l := rfl

theorem total_append (l₁ l₂ : List ι) : total f (l₁ ++ l₂) = total f l₁ ^^^ total f l₂ := by
  induction l₁ with
  | nil => rw [List.nil_append, total_nil, BitVec.zero_xor]
  | cons a l₁ ih => rw [List.cons_append, total_cons, total_cons, ih, BitVec.xor_assoc]

theorem total_congr (h : ∀ i ∈ l, f i = g i) : total f l = total g l := by
  induction l with
  | nil => rfl
  | cons a l ih =>
    rw [total_cons, total_cons, h a List.mem_cons_self, ih fun i hi => h i (List.mem_cons_of_mem a hi)]

theorem total_zero (h : ∀ i ∈ l, f i = 0#w) : total f l = 0#w := by
  induction l with
  | nil => rfl
  | cons a l ih =>
    rw [total_cons, h a List.mem_cons_self, ih fun i hi => h i (List.mem_cons_of_mem a hi), BitVec.xor_zero]

theorem total_xor (f g : ι → BitVec w) (l : List ι) : total (fun i => f i ^^^ g i) l = total f l ^^^ total g l := by
  induction l with
  | nil => rw [total_nil, total_nil, total_nil, BitVec.xor_zero]
  | cons a l ih =>
    rw [total_cons, total_cons, total_cons, ih, BitVec.xor_assoc, BitVec.xor_assoc, xor_left_comm (g a)]

/-- A total over rows is the total of the rows' totals. -/
theorem total_flatMap (f : ι → BitVec w) (rows : κ → List ι) (l : List κ) :
    total f (l.flatMap rows) = total (fun k => total f (rows k)) l := by
  induction l with
  | nil => rfl
  | cons k l ih => rw [List.flatMap_cons, total_append, ih, total_cons]

theorem total_map (f : ι → BitVec w) (φ : κ → ι) (l : List κ) : total f (l.map φ) = total (fun k => f (φ k)) l := by
  induction l with
  | nil => rfl
  | cons k l ih => rw [List.map_cons, total_cons, total_cons, ih]

/-- A loop that toggles the words one after the other. -/
theorem foldl_total (f : ι → BitVec w) (l : List ι) (h : BitVec w) :
    l.foldl (fun h i => h ^^^ f i) h = h ^^^ total f l := by
  induction l generalizing h with
  | nil => rw [List.foldl_nil, total_nil, BitVec.xor_zero]
  | cons a l ih => rw [List.foldl_cons, ih, total_cons, BitVec.xor_assoc]

/-- Changing the word of one item changes the total by its old and its new word. -/
theorem total_change (hl : l.Nodup) (ha : a ∈ l) (h : ∀ i ∈ l, i ≠ a → g i = f i) :
    total g l = total f l ^^^ (f a ^^^ g a) := by
  induction l with
  | nil => cases ha
  | cons b l ih =>
    obtain ⟨hb, hl⟩ := List.nodup_cons.1 hl
    have htail : ∀ i ∈ l, i ≠ a → g i = f i := fun i hi => h i (List.mem_cons_of_mem b hi)
    rw [total_cons, total_cons]
    by_cases hab : b = a
    · subst hab
      have hrest : total g l = total f l :=
        total_congr fun i hi => htail i hi (fun he => hb (he ▸ hi))
      rw [hrest]
      simp only [BitVec.xor_assoc, BitVec.xor_comm, xor_left_comm, xor_self_left]
    · have hmem : a ∈ l := (List.mem_cons.1 ha).resolve_left (Ne.symm hab)
      rw [ih hl hmem htail, h b List.mem_cons_self hab, BitVec.xor_assoc]

/-- Only one item counts. -/
theorem total_single (hl : l.Nodup) (ha : a ∈ l) (h : ∀ i ∈ l, i ≠ a → f i = 0#w) : total f l = f a := by
  have hchange := total_change (f := fun _ => 0#w) hl ha h
  rw [total_zero fun _ _ => rfl, BitVec.zero_xor, BitVec.zero_xor] at hchange
  exact hchange

end Toggle
