import Mathlib
/-!
# Runs of a step relation

A `Run` records what was asked of which state, in order, and the state
reached. Every prefix of a run is a run, so what is proved of the last state of
every run holds in every state of every run.
-/

namespace Runs

variable {σ ι : Type} {step : σ → ι → σ → Prop} {s₀ : σ}

/-- The runs from `s₀`: the states with what was asked of them, and the state
after them. -/
inductive Run (step : σ → ι → σ → Prop) (s₀ : σ) : List (σ × ι) → σ → Prop
  | nil : Run step s₀ [] s₀
  | snoc {l s i t} : Run step s₀ l s → step s i t → Run step s₀ (l ++ [(s, i)]) t

/-- Some run ends in the state. -/
def Reachable (step : σ → ι → σ → Prop) (s₀ s : σ) : Prop := ∃ l, Run step s₀ l s

theorem Reachable.init : Reachable step s₀ s₀ := ⟨[], .nil⟩

theorem Reachable.next {s t : σ} {i : ι} (h : Reachable step s₀ s) (hs : step s i t) : Reachable step s₀ t :=
  let ⟨_, hr⟩ := h
  ⟨_, hr.snoc hs⟩

/-- An invariant kept by every step holds in every state reached. -/
theorem Reachable.inv (I : σ → Prop) (h0 : I s₀) (hs : ∀ {s i t}, I s → step s i t → I t) {s : σ}
    (h : Reachable step s₀ s) : I s := by
  obtain ⟨l, hr⟩ := h
  induction hr with
  | nil => exact h0
  | snoc _ hst ih => exact hs ih hst

/-- An invariant kept by the steps that meet `C` holds after every run of such steps. -/
theorem Run.inv_of (I : σ → Prop) (C : σ → ι → Prop) (h0 : I s₀)
    (hs : ∀ {s i t}, Reachable step s₀ s → I s → C s i → step s i t → I t) {l : List (σ × ι)} {s : σ}
    (h : Run step s₀ l s) (hc : ∀ x ∈ l, C x.1 x.2) : I s := by
  induction h with
  | nil => exact h0
  | @snoc l s i t hr hst ih =>
    have hl : ∀ x ∈ l, C x.1 x.2 := fun x hx => hc x (List.mem_append_left _ hx)
    exact hs ⟨l, hr⟩ (ih hl) (hc (s, i) (by simp)) hst

/-- Where a step keeps `I` exactly when it meets `C`, the runs that stay in `I`
are the runs of steps that meet `C`. `J` is what else holds as long as `I` does. -/
theorem Run.always_iff (I J : σ → Prop) (C : σ → ι → Prop) (h0 : I s₀) (hj : J s₀)
    (hs : ∀ {s i t}, Reachable step s₀ s → I s → J s → step s i t → J t ∧ (I t ↔ C s i)) {l : List (σ × ι)} {s : σ}
    (h : Run step s₀ l s) :
    (((∀ x ∈ l, I x.1) ∧ I s) ↔ ∀ x ∈ l, C x.1 x.2) ∧ ((∀ x ∈ l, I x.1) → I s → J s) := by
  induction h with
  | nil => simpa using ⟨h0, fun _ => hj⟩
  | @snoc l s i t hr hst ih =>
    obtain ⟨ih, ihj⟩ := ih
    simp only [List.forall_mem_append, List.forall_mem_singleton]
    rw [← ih]
    refine ⟨⟨?_, ?_⟩, ?_⟩
    · rintro ⟨⟨hl, hI⟩, ht⟩
      exact ⟨⟨hl, hI⟩, (hs ⟨l, hr⟩ hI (ihj hl hI) hst).2.1 ht⟩
    · rintro ⟨⟨hl, hI⟩, hc⟩
      exact ⟨⟨hl, hI⟩, (hs ⟨l, hr⟩ hI (ihj hl hI) hst).2.2 hc⟩
    · rintro ⟨hl, hI⟩ -
      exact (hs ⟨l, hr⟩ hI (ihj hl hI) hst).1

/-- A run of steps that also meet `C` is a run all of whose steps meet `C`. -/
theorem Run.all {C : σ → ι → Prop} {l : List (σ × ι)} {s : σ} (h : Run (fun s i t => step s i t ∧ C s i) s₀ l s) :
    Run step s₀ l s ∧ ∀ x ∈ l, C x.1 x.2 := by
  induction h with
  | nil => exact ⟨.nil, by simp⟩
  | snoc _ hst ih =>
    refine ⟨ih.1.snoc hst.1, ?_⟩
    simp only [List.forall_mem_append, List.forall_mem_singleton]
    exact ⟨ih.2, hst.2⟩

/-- Every state of a run is reached. -/
theorem Run.visited {l : List (σ × ι)} {s : σ} (h : Run step s₀ l s) : ∀ x ∈ l, Reachable step s₀ x.1 := by
  induction h with
  | nil => simp
  | @snoc l s i t hr _ ih =>
    simp only [List.forall_mem_append, List.forall_mem_singleton]
    exact ⟨ih, ⟨l, hr⟩⟩

/-- Once a marked step was taken: what holds between the state it was taken in and the next, and is kept by every
step, holds from then on. -/
theorem Run.after (mark : σ → ι → Prop) (R : σ → σ → Prop)
    (hmark : ∀ {s i t}, Reachable step s₀ s → mark s i → step s i t → R s t)
    (hkeep : ∀ {s t i u}, R s t → step t i u → R s u) {l : List (σ × ι)} {s : σ} (h : Run step s₀ l s) :
    ∀ x ∈ l, mark x.1 x.2 → R x.1 s := by
  induction h with
  | nil => simp
  | @snoc l s i t hr hst ih =>
    intro x hx hm
    obtain hx | hx := List.mem_append.1 hx
    · exact hkeep (ih x hx hm) hst
    · obtain rfl := List.mem_singleton.1 hx
      exact hmark ⟨l, hr⟩ hm hst

/-! ## Runs that repeat -/

/-- From a state related to the first, the same can be asked once more. -/
theorem Run.again (R : σ → σ → Prop) (hs : ∀ {s t i s'}, Reachable step s₀ s → Reachable step s₀ t → R s t →
    step s i s' → ∃ t', step t i t' ∧ R s' t') {l l' : List (σ × ι)} {s t : σ} (h : Run step s₀ l s)
    (h' : Run step s₀ l' t) (hr : R s₀ t) :
    ∃ l'' t', Run step s₀ (l' ++ l'') t' ∧ l''.map Prod.snd = l.map Prod.snd ∧ R s t' := by
  induction h with
  | nil => exact ⟨[], t, by rwa [List.append_nil], rfl, hr⟩
  | @snoc l s i s' hl hst ih =>
    obtain ⟨l'', u, hu, hmap, hrel⟩ := ih
    obtain ⟨u', hstep, hrel'⟩ := hs ⟨l, hl⟩ ⟨_, hu⟩ hrel hst
    refine ⟨l'' ++ [(u, i)], u', ?_, ?_, hrel'⟩
    · rw [← List.append_assoc]
      exact hu.snoc hstep
    · rw [List.map_append, List.map_append, hmap]
      rfl

/-- What leads back to a state related to the first can be asked any number of times. -/
theorem Run.cycle (R : σ → σ → Prop) (hs : ∀ {s t i s'}, Reachable step s₀ s → Reachable step s₀ t → R s t →
    step s i s' → ∃ t', step t i t' ∧ R s' t') (hrefl : R s₀ s₀) (htrans : ∀ {s t}, R s₀ s → R s t → R s₀ t)
    {l : List (σ × ι)} {s : σ} (h : Run step s₀ l s) (hr : R s₀ s) (n : ℕ) :
    ∃ l' t, Run step s₀ l' t ∧ l'.map Prod.snd = (List.replicate n (l.map Prod.snd)).flatten ∧ R s₀ t := by
  induction n with
  | zero => exact ⟨[], s₀, .nil, rfl, hrefl⟩
  | succ n ih =>
    obtain ⟨l', t, ht, hmap, hrel⟩ := ih
    obtain ⟨l'', u, hu, hmap', hrel'⟩ := Run.again R hs h ht hrel
    refine ⟨l' ++ l'', u, hu, ?_, htrans hr hrel'⟩
    rw [List.map_append, hmap, hmap', List.replicate_succ', List.flatten_append, List.flatten_singleton]

/-! ## What stands since the last mark -/

section Since
variable {α : Type} {mark kill kill' : α → Prop} {l : List α}

/-- Something in the list is marked, and nothing after the last mark kills. -/
def Since (mark kill : α → Prop) (l : List α) : Prop :=
  ∃ l₁ x l₂, l = l₁ ++ x :: l₂ ∧ mark x ∧ ∀ y ∈ l₂, ¬ mark y ∧ ¬ kill y

@[simp] theorem not_since_nil : ¬ Since mark kill [] := by
  rintro ⟨l₁, x, l₂, h, -⟩
  simp at h

@[simp] theorem since_concat (l : List α) (y : α) :
    Since mark kill (l ++ [y]) ↔ mark y ∨ (Since mark kill l ∧ ¬ kill y) := by
  constructor
  · rintro ⟨l₁, x, l₂, h, hx, hl₂⟩
    obtain rfl | ⟨l₂, z, rfl⟩ := List.eq_nil_or_concat l₂
    · obtain ⟨-, hyx⟩ := List.append_inj' h rfl
      obtain rfl := List.singleton_inj.1 hyx
      exact .inl hx
    · rw [List.concat_eq_append] at h hl₂
      rw [← List.cons_append, ← List.append_assoc] at h
      obtain ⟨rfl, hyz⟩ := List.append_inj' h rfl
      obtain rfl := List.singleton_inj.1 hyz
      rw [List.forall_mem_append] at hl₂
      exact .inr ⟨⟨l₁, x, l₂, rfl, hx, hl₂.1⟩, (hl₂.2 y (List.mem_singleton_self y)).2⟩
  · intro h
    by_cases hy : mark y
    · exact ⟨l, y, [], rfl, hy, by simp⟩
    · obtain hm | ⟨⟨l₁, x, l₂, rfl, hx, hl₂⟩, hk⟩ := h
      · exact absurd hm hy
      · refine ⟨l₁, x, l₂ ++ [y], by simp, hx, ?_⟩
        rw [List.forall_mem_append, List.forall_mem_singleton]
        exact ⟨hl₂, hy, hk⟩

/-- What either of two things would kill stands as long as neither has killed it. -/
theorem since_or : Since mark (fun x => kill x ∨ kill' x) l ↔ Since mark kill l ∧ Since mark kill' l := by
  induction l using List.reverseRecOn with
  | nil => simp
  | append_singleton l y ih =>
    simp only [since_concat, ih]
    tauto

theorem since_eq_foldl [DecidablePred mark] [DecidablePred kill] :
    l.foldl (fun b y => decide (mark y) || (b && !decide (kill y))) false = true ↔ Since mark kill l := by
  induction l using List.reverseRecOn with
  | nil => simp
  | append_singleton l y ih => simp [ih]

instance [DecidablePred mark] [DecidablePred kill] : Decidable (Since mark kill l) :=
  decidable_of_iff _ since_eq_foldl

end Since

/-! ## Runs that are computed -/

variable {κ : Type}

/-- The state after the steps that `f` takes for the keys, if it takes them all. -/
def follow (f : σ → κ → Option (ι × σ)) : σ → List κ → Option σ
  | s, [] => some s
  | s, x :: xs =>
    match f s x with
    | some (_, t) => follow f t xs
    | none => none

/-- The same with the steps taken. -/
def traced (f : σ → κ → Option (ι × σ)) : σ → List κ → Option (List (σ × ι) × σ)
  | s, [] => some ([], s)
  | s, x :: xs =>
    match f s x with
    | some (i, t) => (traced f t xs).map fun r => ((s, i) :: r.1, r.2)
    | none => none

theorem follow_eq (f : σ → κ → Option (ι × σ)) (s : σ) (xs : List κ) :
    follow f s xs = (traced f s xs).map Prod.snd := by
  induction xs generalizing s with
  | nil => rfl
  | cons x xs ih =>
    unfold follow traced
    cases f s x with
    | none => rfl
    | some r => simp [ih, Function.comp_def]

/-- What is computed is a run. -/
theorem traced_run (step : σ → ι → σ → Prop) {f : σ → κ → Option (ι × σ)} (key : ι → κ)
    (hf : ∀ {s x i t}, f s x = some (i, t) → step s i t ∧ key i = x) {l l' : List (σ × ι)} {s t : σ}
    (hr : Run step s₀ l s) {xs : List κ} (h : traced f s xs = some (l', t)) :
    Run step s₀ (l ++ l') t ∧ l'.map (fun y => key y.2) = xs := by
  induction xs generalizing s l l' with
  | nil =>
    simp only [traced, Option.some.injEq, Prod.mk.injEq] at h
    obtain ⟨rfl, rfl⟩ := h
    exact ⟨by rwa [List.append_nil], rfl⟩
  | cons x xs ih =>
    unfold traced at h
    split at h
    · rename_i i u hx
      obtain ⟨⟨l', t'⟩, ht, h⟩ := Option.map_eq_some_iff.1 h
      obtain ⟨rfl, rfl⟩ := Prod.mk.inj h
      obtain ⟨hstep, hkey⟩ := hf hx
      obtain ⟨hr', hl'⟩ := ih (hr.snoc hstep) ht
      exact ⟨by simpa using hr', by rw [List.map_cons, hl', hkey]⟩
    · cases h

theorem follow_run (step : σ → ι → σ → Prop) {f : σ → κ → Option (ι × σ)} (key : ι → κ)
    (hf : ∀ {s x i t}, f s x = some (i, t) → step s i t ∧ key i = x) {l : List (σ × ι)} {s t : σ}
    (hr : Run step s₀ l s) {xs : List κ} (h : follow f s xs = some t) :
    ∃ l', Run step s₀ (l ++ l') t ∧ l'.map (fun y => key y.2) = xs := by
  rw [follow_eq, Option.map_eq_some_iff] at h
  obtain ⟨⟨l', t'⟩, ht, rfl⟩ := h
  exact ⟨l', traced_run step key hf hr ht⟩

end Runs
