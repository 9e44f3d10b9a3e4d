import Mathlib.Data.List.Forall2

/-!
# Computations that can fail

What a chain of computations gives when all of it succeeds, and the invariants of folds whose steps
can fail. Two computations are alike (`Alike`) when both succeed or both fail, with outcomes that
are related; chains of steps that are alike are so too (`Alike.bind`, `Alike.foldlM`,
`Alike.mapM`).
-/

namespace EarleyForest

variable {ε α β : Type}

theorem bind_eq_ok_iff {x : Except ε α} {f : α → Except ε β} {b : β} :
    x >>= f = .ok b ↔ ∃ a, x = .ok a ∧ f a = .ok b := by
  cases x <;> simp [bind, Except.bind]

theorem bind_eq_error_iff {x : Except ε α} {f : α → Except ε β} {e : ε} :
    x >>= f = .error e ↔ x = .error e ∨ ∃ a, x = .ok a ∧ f a = .error e := by
  cases x <;> simp [bind, Except.bind]

theorem map_eq_ok_iff {x : Except ε α} {f : α → β} {b : β} :
    x.map f = .ok b ↔ ∃ a, x = .ok a ∧ f a = b := by
  cases x <;> simp [Except.map]

theorem map_eq_error_iff {x : Except ε α} {f : α → β} {e : ε} :
    x.map f = .error e ↔ x = .error e := by
  cases x <;> simp [Except.map]

theorem mapError_eq_ok_iff {ε' : Type} {x : Except ε α} {k : ε → ε'} {a : α} :
    x.mapError k = .ok a ↔ x = .ok a := by
  cases x <;> simp [Except.mapError]

theorem mapError_eq_error_iff {ε' : Type} {x : Except ε α} {k : ε → ε'} {e : ε'} :
    x.mapError k = .error e ↔ ∃ e', x = .error e' ∧ k e' = e := by
  cases x <;> simp [Except.mapError]

theorem mapM_eq_ok_iff {f : α → Except ε β} {l : List α} {l' : List β} :
    l.mapM f = .ok l' ↔ List.Forall₂ (fun a b => f a = .ok b) l l' := by
  induction l generalizing l' with
  | nil =>
    rw [List.mapM_nil, List.forall₂_nil_left_iff]
    exact ⟨fun h => (Except.ok.inj h).symm, fun h => h ▸ rfl⟩
  | cons a l ih =>
    rw [List.mapM_cons, bind_eq_ok_iff, List.forall₂_cons_left_iff]
    constructor
    · intro hx
      obtain ⟨b, hb, h⟩ := hx
      obtain ⟨bs, hbs, h⟩ := bind_eq_ok_iff.1 h
      exact ⟨b, bs, hb, ih.1 hbs, (Except.ok.inj h).symm⟩
    · intro hx
      obtain ⟨b, bs, hb, hbs, rfl⟩ := hx
      exact ⟨b, hb, bind_eq_ok_iff.2 ⟨bs, ih.2 hbs, rfl⟩⟩

theorem exists_mapM {f : α → Except ε β} {l : List α} (h : ∀ a ∈ l, ∃ b, f a = .ok b) :
    ∃ l', l.mapM f = .ok l' := by
  induction l with
  | nil => exact ⟨[], rfl⟩
  | cons a l ih =>
    obtain ⟨b, hb⟩ := h a List.mem_cons_self
    obtain ⟨bs, hbs⟩ := ih fun a ha => h a (List.mem_cons_of_mem _ ha)
    exact ⟨b :: bs, by rw [List.mapM_cons, hb, hbs]; rfl⟩

/-- A fold that succeeds gives the same with steps that do what its steps do when they succeed. -/
theorem foldlM_mono {f f' : β → α → Except ε β} {l : List α} {b b' : β}
    (hf : ∀ b a b', f b a = .ok b' → f' b a = .ok b') (h : l.foldlM f b = .ok b') :
    l.foldlM f' b = .ok b' := by
  induction l generalizing b with
  | nil => exact h
  | cons a l ih =>
    rw [List.foldlM_cons, bind_eq_ok_iff] at h ⊢
    obtain ⟨c, hc, h⟩ := h
    exact ⟨c, hf b a c hc, ih h⟩

/-- What each step of a fold that succeeds keeps holds at its end. `I as b` is about the elements
`as` gone through so far. -/
theorem foldlM_invariant {f : β → α → Except ε β} {I : List α → β → Prop} {l : List α} {b b' : β}
    (h : l.foldlM f b = .ok b') (h₀ : I [] b)
    (step : ∀ as a c c', a ∈ l → I as c → f c a = .ok c' → I (as ++ [a]) c') : I l b' := by
  induction l generalizing b I with
  | nil =>
    obtain rfl : b = b' := Except.ok.inj h
    exact h₀
  | cons a l ih =>
    rw [List.foldlM_cons, bind_eq_ok_iff] at h
    obtain ⟨c, hc, h⟩ := h
    exact ih (I := fun as => I (a :: as)) h (step [] a b c List.mem_cons_self h₀ hc)
      fun as a' c c' ha => step (a :: as) a' c c' (List.mem_cons_of_mem a ha)

/-- A fold that fails does so at one of its steps, where what the steps before keep still holds. -/
theorem foldlM_fails {f : β → α → Except ε β} {I : List α → β → Prop} {l : List α} {b : β} {e : ε}
    (h : l.foldlM f b = .error e) (h₀ : I [] b)
    (step : ∀ as a c c', a ∈ l → I as c → f c a = .ok c' → I (as ++ [a]) c') :
    ∃ as, ∃ a ∈ l, ∃ c, I as c ∧ f c a = .error e := by
  induction l generalizing b I with
  | nil => cases h
  | cons a l ih =>
    rw [List.foldlM_cons, bind_eq_error_iff] at h
    rcases h with h | ⟨c, hc, h⟩
    · exact ⟨[], a, List.mem_cons_self, b, h₀, h⟩
    · obtain ⟨as, a', ha, hx⟩ := ih (I := fun as => I (a :: as)) h
        (step [] a b c List.mem_cons_self h₀ hc)
        fun as a' c c' ha => step (a :: as) a' c c' (List.mem_cons_of_mem a ha)
      exact ⟨a :: as, a', List.mem_cons_of_mem a ha, hx⟩

theorem exists_of_foldlM_eq_error {f : β → α → Except ε β} {l : List α} {b : β} {e : ε}
    (h : l.foldlM f b = .error e) : ∃ a ∈ l, ∃ c, f c a = .error e := by
  obtain ⟨-, a, ha, c, -, hc⟩ := foldlM_fails (I := fun _ _ => True) h trivial
    fun _ _ _ _ _ _ _ => trivial
  exact ⟨a, ha, c, hc⟩

/-- Folds whose steps do the same give the same. -/
theorem foldlM_congr {f f' : β → α → Except ε β} {l : List α} {b : β}
    (hf : ∀ a ∈ l, ∀ b, f b a = f' b a) : l.foldlM f b = l.foldlM f' b := by
  induction l generalizing b with
  | nil => rfl
  | cons a l ih =>
    simp only [List.foldlM_cons, hf a List.mem_cons_self,
      ih fun a' ha => hf a' (List.mem_cons_of_mem a ha)]

/-- A fold succeeds if each step does where the invariant holds, and keeps it. -/
theorem foldlM_succeeds {f : β → α → Except ε β} {I : List α → β → Prop} {l : List α} {b : β}
    (h₀ : I [] b)
    (step : ∀ as a c, a ∈ l → I as c → ∃ c', f c a = .ok c' ∧ I (as ++ [a]) c') :
    ∃ b', l.foldlM f b = .ok b' ∧ I l b' := by
  induction l generalizing b I with
  | nil => exact ⟨b, rfl, h₀⟩
  | cons a l ih =>
    obtain ⟨c, hc, hI⟩ := step [] a b List.mem_cons_self h₀
    obtain ⟨b', hb, hI⟩ := ih (I := fun as => I (a :: as)) hI
      fun as a' c ha => step (a :: as) a' c (List.mem_cons_of_mem a ha)
    exact ⟨b', by rw [List.foldlM_cons, bind_eq_ok_iff]; exact ⟨c, hc, hb⟩, hI⟩

/-! ## Computations that are alike -/

/-- Both computations succeed and `R` relates what they give, or both fail and `E` relates the
errors. -/
inductive Alike {ε ε' α α' : Type} (E : ε → ε' → Prop) (R : α → α' → Prop) :
    Except ε α → Except ε' α' → Prop where
  | ok {a : α} {a' : α'} (h : R a a') : Alike E R (.ok a) (.ok a')
  | error {e : ε} {e' : ε'} (h : E e e') : Alike E R (.error e) (.error e')

namespace Alike

variable {ε ε' α α' β β' γ : Type} {E : ε → ε' → Prop} {R : α → α' → Prop} {S : β → β' → Prop}

theorem bind {x : Except ε α} {x' : Except ε' α'} {f : α → Except ε β} {f' : α' → Except ε' β'}
    (h : Alike E R x x') (hf : ∀ a a', R a a' → Alike E S (f a) (f' a')) :
    Alike E S (x >>= f) (x' >>= f') := by
  cases h with
  | ok h => exact hf _ _ h
  | error h => exact .error h

theorem map {x : Except ε α} {x' : Except ε' α'} {f : α → β} {f' : α' → β'}
    (h : Alike E R x x') (hf : ∀ a a', R a a' → S (f a) (f' a')) :
    Alike E S (x.map f) (x'.map f') := by
  cases h with
  | ok h => exact .ok (hf _ _ h)
  | error h => exact .error h

theorem mapError {ε₁ ε₁' : Type} {E₁ : ε₁ → ε₁' → Prop} {x : Except ε α} {x' : Except ε' α'}
    {k : ε → ε₁} {k' : ε' → ε₁'} (h : Alike E R x x') (hk : ∀ e e', E e e' → E₁ (k e) (k' e')) :
    Alike E₁ R (x.mapError k) (x'.mapError k') := by
  cases h with
  | ok h => exact .ok h
  | error h => exact .error (hk _ _ h)

/-- Folds over one list are alike if their steps are. -/
theorem foldlM {f : β → γ → Except ε β} {f' : β' → γ → Except ε' β'} {l : List γ} {b : β} {b' : β'}
    (hb : S b b') (hf : ∀ c ∈ l, ∀ b b', S b b' → Alike E S (f b c) (f' b' c)) :
    Alike E S (l.foldlM f b) (l.foldlM f' b') := by
  induction l generalizing b b' with
  | nil => exact .ok hb
  | cons c l ih =>
    rw [List.foldlM_cons, List.foldlM_cons]
    refine (hf c List.mem_cons_self b b' hb).bind fun d d' hd => ?_
    exact ih hd fun c' hc => hf c' (List.mem_cons_of_mem c hc)

theorem mapM {f : γ → Except ε α} {f' : γ → Except ε' α} {l : List γ}
    (hf : ∀ c ∈ l, Alike E Eq (f c) (f' c)) : Alike E Eq (l.mapM f) (l.mapM f') := by
  induction l with
  | nil => exact .ok rfl
  | cons c l ih =>
    rw [List.mapM_cons, List.mapM_cons]
    refine (hf c List.mem_cons_self).bind fun a _ ha => ?_
    refine (ih fun c' hc => hf c' (List.mem_cons_of_mem c hc)).bind fun as _ has => ?_
    exact .ok (congrArg₂ List.cons ha has)

theorem exists_eq_ok_iff {x : Except ε α} {x' : Except ε' α'} (h : Alike E R x x') :
    (∃ a, x = .ok a) ↔ ∃ a', x' = .ok a' := by
  cases h <;> simp

/-- With equal results, one succeeds just if the other one does. -/
theorem eq_ok_iff {x : Except ε α} {x' : Except ε' α} (h : Alike E Eq x x') {a : α} :
    x = .ok a ↔ x' = .ok a := by
  cases h with
  | ok h => rw [h]; simp
  | error => simp

end Alike

end EarleyForest
