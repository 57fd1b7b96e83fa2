import Mathlib
/-!
# Programs that throw or go wrong

A program works on a state. When it throws, what it did to the state before stays done.
When it does something that has no meaning it goes wrong, and has no result at all. A
program is `Defined` on a state if it does not go wrong from there, and the rules below
reduce that to the changes that may go wrong.
-/

namespace Programs

variable {σ ε α β : Type}

abbrev Prog (σ ε α : Type) := ExceptT ε (StateT σ Option) α

/-- A change of the state that may go wrong. -/
def change (f : σ → Option σ) : Prog σ ε Unit := ExceptT.mk fun s => (f s).map fun t => (.ok (), t)

/-- What the program returns or throws, and the state after it. -/
def runs (p : Prog σ ε α) (s : σ) : Option (Except ε α × σ) := (ExceptT.run p).run s

def Defined (p : Prog σ ε α) (s : σ) : Prop := (runs p s).isSome = true

variable {p : Prog σ ε α} {f : α → Prog σ ε β} {s : σ}

theorem runs_bind (p : Prog σ ε α) (f : α → Prog σ ε β) (s : σ) : runs (p >>= f) s =
    (runs p s).bind fun r => match r with
      | (.ok a, t) => runs (f a) t
      | (.error e, t) => some (.error e, t) := by
  simp only [runs, ExceptT.run_bind, StateT.run_bind, Option.bind_eq_bind]
  congr 1
  funext ⟨r, t⟩
  cases r <;> rfl

theorem runs_tryCatch (p : Prog σ ε α) (h : ε → Prog σ ε α) (s : σ) : runs (tryCatch p h) s =
    (runs p s).bind fun r => match r with
      | (.ok a, t) => some (.ok a, t)
      | (.error e, t) => runs (h e) t := by
  show Option.bind _ _ = Option.bind _ _
  congr 1
  funext ⟨r, t⟩
  cases r <;> rfl

/-! ## What a program comes to -/

@[simp] theorem runs_modify (g : σ → σ) (s : σ) : runs (modify g : Prog σ ε Unit) s = some (.ok (), g s) := rfl

@[simp] theorem runs_modify_bind (g : σ → σ) (f : Unit → Prog σ ε β) (s : σ) :
    runs (modify g >>= f) s = runs (f ()) (g s) := rfl

@[simp] theorem runs_change (g : σ → Option σ) (s : σ) :
    runs (change g : Prog σ ε Unit) s = (g s).map fun t => (.ok (), t) := rfl

@[simp] theorem runs_change_bind (g : σ → Option σ) (f : Unit → Prog σ ε β) (s : σ) :
    runs (change g >>= f) s = (g s).bind (runs (f ())) := by
  rw [runs_bind, runs_change]
  cases g s <;> rfl

@[simp] theorem runs_ok_bind (a : α) (f : α → Prog σ ε β) (s : σ) :
    runs (MonadExcept.ofExcept (.ok a) >>= f) s = runs (f a) s := rfl

/-- A loop whose turns only change the state. -/
theorem runs_forM {l : List α} {f : α → Prog σ ε PUnit} {g : σ → α → σ}
    (hf : ∀ a ∈ l, ∀ t, runs (f a) t = some (.ok (), g t a))
    (s : σ) : runs (forM l f) s = some (.ok (), l.foldl g s) := by
  induction l generalizing s with
  | nil => rfl
  | cons a l ih =>
    rw [List.forall_mem_cons] at hf
    rw [List.forM_cons, runs_bind, hf.1 s]
    exact ih hf.2 (g s a)

/-! ## Rules -/

@[simp] theorem defined_pure (a : α) (s : σ) : Defined (pure a : Prog σ ε α) s := rfl

@[simp] theorem defined_modify (g : σ → σ) (s : σ) : Defined (modify g : Prog σ ε Unit) s := rfl

@[simp] theorem defined_ite {c : Prop} [Decidable c] {q : Prog σ ε α} :
    Defined (if c then p else q) s ↔ if c then Defined p s else Defined q s := by
  split <;> rfl

@[simp] theorem defined_change {g : σ → Option σ} : Defined (change g : Prog σ ε Unit) s ↔ (g s).isSome = true := by
  show ((g s).map _).isSome = true ↔ _
  rw [Option.isSome_map]

@[simp] theorem defined_modify_bind {g : σ → σ} {f : Unit → Prog σ ε β} :
    Defined (modify g >>= f) s ↔ Defined (f ()) (g s) := Iff.rfl

@[simp] theorem defined_change_bind {g : σ → Option σ} {f : Unit → Prog σ ε β} :
    Defined (change g >>= f) s ↔ ∃ t, g s = some t ∧ Defined (f ()) t := by
  have hruns : runs (change g : Prog σ ε Unit) s = (g s).map fun t => (.ok (), t) := rfl
  rw [Defined, runs_bind, hruns]
  cases g s <;> simp [Defined]

/-- A program goes on only with a value that could be read. -/
@[simp] theorem defined_ofExcept_bind {x : Except ε α} :
    Defined (MonadExcept.ofExcept x >>= f) s ↔ ∀ a, x = .ok a → Defined (f a) s := by
  cases x with
  | ok a =>
    simp only [Except.ok.injEq, forall_eq']
    exact Iff.rfl
  | error e => exact ⟨nofun, fun _ => rfl⟩

theorem Defined.bind (hp : Defined p s) (hf : ∀ a t, Defined (f a) t) : Defined (p >>= f) s := by
  obtain ⟨⟨r, t⟩, hr⟩ := Option.isSome_iff_exists.1 hp
  rw [Defined, runs_bind, hr]
  cases r with
  | ok a => exact hf a t
  | error e => rfl

/-- A handler that never goes wrong does not matter. -/
theorem defined_tryCatch {h : ε → Prog σ ε α} (hh : ∀ e t, Defined (h e) t) :
    Defined (tryCatch p h) s ↔ Defined p s := by
  rw [Defined, runs_tryCatch, Defined]
  rcases runs p s with _ | ⟨r, t⟩
  · rfl
  · cases r with
    | ok a => rfl
    | error e => exact iff_of_true (hh e t) rfl

/-- A loop goes wrong only if a turn of it does. -/
theorem defined_forM {l : List α} {f : α → Prog σ ε PUnit} (hf : ∀ a ∈ l, ∀ t, Defined (f a) t) :
    Defined (forM l f) s := by
  induction l generalizing s with
  | nil => exact defined_pure _ _
  | cons a l ih =>
    rw [List.forall_mem_cons] at hf
    rw [List.forM_cons]
    exact (hf.1 s).bind fun _ t => ih hf.2

end Programs
