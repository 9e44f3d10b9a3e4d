/-!
# Loops

A loop is given by one round of it: what is to be gone on with, or the result. `Ends step s b` says
that the loop comes to its end from `s`, with the result `b`. A loop need not end, but where it does
the result is the only one (`Ends.unique`). `Passes step s s'` says that the loop comes by `s'` on its
way from `s`. A loop that may fail can go on with what a computation gives (`EndsAfter`).
-/

namespace EarleyForest

variable {σ β : Type} {step : σ → σ ⊕ β}

/-- Going on by `step` from `s` comes to an end, with the result `b`. -/
inductive Ends (step : σ → σ ⊕ β) : σ → β → Prop where
  | done {s : σ} {b : β} (h : step s = .inr b) : Ends step s b
  | next {s s' : σ} {b : β} (h : step s = .inl s') (h' : Ends step s' b) : Ends step s b

namespace Ends

variable {s : σ} {b b' : β}

theorem unique (h : Ends step s b) (h' : Ends step s b') : b = b' := by
  induction h with
  | done h =>
    cases h' with
    | done h' => exact Sum.inr.inj (h.symm.trans h')
    | next h' => cases h.symm.trans h'
  | next h _ ih =>
    cases h' with
    | done h' => cases h.symm.trans h'
    | next h' h'' =>
      cases h.symm.trans h'
      exact ih h''

/-- A loop that ends has one result. -/
theorem iff_eq (h : Ends step s b) : Ends step s b' ↔ b' = b :=
  ⟨fun h' => h'.unique h, fun heq => heq ▸ h⟩

/-- What the rounds of a loop keep holds in its last one. -/
theorem exists_last {I : σ → Prop} (h : Ends step s b) (hs : I s)
    (hkeeps : ∀ s s', I s → step s = .inl s' → I s') : ∃ s', I s' ∧ step s' = .inr b := by
  induction h with
  | done h => exact ⟨_, hs, h⟩
  | next h _ ih => exact ih (hkeeps _ _ hs h)

section Image

variable {σ' β' : Type} {step' : σ' → σ' ⊕ β'} {I : σ → Prop} {φ : σ → σ'} {k : β → β'}
  (hkeeps : ∀ s s', I s → step s = .inl s' → I s')
  (hsame : ∀ s, I s → step' (φ s) = Sum.map φ k (step s))
include hkeeps hsame

/-- A loop whose rounds do to the states `φ s` what those of another one do to `s`, where these keep
`I`, ends with it. -/
theorem image (h : Ends step s b) (hs : I s) : Ends step' (φ s) (k b) := by
  induction h with
  | done h => exact .done (by rw [hsame _ hs, h, Sum.map_inr])
  | next h _ ih => exact .next (by rw [hsame _ hs, h, Sum.map_inl]) (ih (hkeeps _ _ hs h))

end Image

/-- A loop whose rounds do what those of another one do, where these keep `I`, ends with it. -/
theorem map {β' : Type} {step' : σ → σ ⊕ β'} {I : σ → Prop} {k : β → β'} (h : Ends step s b)
    (hs : I s) (hkeeps : ∀ s s', I s → step s = .inl s' → I s')
    (hsame : ∀ s, I s → step' s = Sum.map (fun s => s) k (step s)) : Ends step' s (k b) :=
  h.image hkeeps hsame hs

end Ends

/-! ## What a loop comes by -/

/-- Going on by `step` from `s` leads to `s'`, be it the end or not. -/
inductive Passes (step : σ → σ ⊕ β) (s : σ) : σ → Prop where
  | refl : Passes step s s
  | tail {s' s'' : σ} (h : Passes step s s') (h' : step s' = .inl s'') : Passes step s s''

namespace Passes

variable {s s' s'' : σ} {b : β}

theorem trans (h : Passes step s s') (h' : Passes step s' s'') : Passes step s s'' := by
  induction h' with
  | refl => exact h
  | tail _ hstep ih => exact .tail ih hstep

/-- What the rounds of a loop keep holds of all that it comes by. -/
theorem keeps {I : σ → Prop} (h : Passes step s s') (hs : I s)
    (hkeeps : ∀ s s', I s → step s = .inl s' → I s') : I s' := by
  induction h with
  | refl => exact hs
  | tail _ hstep ih => exact hkeeps _ _ ih hstep

/-- The loop ends from everywhere that it comes by, with the same result. -/
theorem ends (h : Passes step s s') (hends : Ends step s b) : Ends step s' b := by
  refine h.keeps (I := (Ends step · b)) hends ?_
  intro s s' hends hstep
  cases hends with
  | done hdone => cases hstep.symm.trans hdone
  | next hnext hends =>
    cases hstep.symm.trans hnext
    exact hends

/-- A loop ends from where it began as from where it leads. -/
theorem prepend (h : Passes step s s') (hends : Ends step s' b) : Ends step s b := by
  induction h with
  | refl => exact hends
  | tail _ hstep ih => exact ih (.next hstep hends)

section Image

variable {σ' β' : Type} {step' : σ' → σ' ⊕ β'} {I : σ → Prop} {φ : σ → σ'} {k : β → β'} {c : σ'}
  (hkeeps : ∀ s s', I s → step s = .inl s' → I s')
  (hsame : ∀ s, I s → step' (φ s) = Sum.map φ k (step s))
include hkeeps hsame

/-- A loop whose rounds do to the states `φ s` what those of another one do to `s` comes by all of
them. -/
theorem image (h : Passes step s s') (hs : I s) : Passes step' (φ s) (φ s') := by
  induction h with
  | refl => exact .refl
  | tail h hstep ih =>
    refine .tail ih ?_
    rw [hsame _ (h.keeps hs hkeeps), hstep, Sum.map_inl]

/-- It comes by no other states. -/
theorem exists_of_image (hs : I s) (h : Passes step' (φ s) c) :
    ∃ s', Passes step s s' ∧ c = φ s' := by
  induction h with
  | refl => exact ⟨s, .refl, rfl⟩
  | tail _ hstep ih =>
    obtain ⟨s', hpasses, rfl⟩ := ih
    rw [hsame s' (hpasses.keeps hs hkeeps)] at hstep
    cases hnext : step s' with
    | inl s'' =>
      rw [hnext, Sum.map_inl] at hstep
      exact ⟨s'', .tail hpasses hnext, (Sum.inl.inj hstep).symm⟩
    | inr b =>
      rw [hnext, Sum.map_inr] at hstep
      cases hstep

end Image

end Passes

variable {ε α α' : Type} {step : σ → σ ⊕ Except ε β} {k : α → σ} {b : Except ε β}

/-- Going on by `step` from what `x` gives comes to an end with the result `b`. Where `x` fails, the
loop fails with it. -/
def EndsAfter (step : σ → σ ⊕ Except ε β) (x : Except ε α) (k : α → σ) (b : Except ε β) : Prop :=
  match x with
  | .error e => b = .error e
  | .ok a => Ends step (k a) b

/-- One computation behind the other. -/
theorem endsAfter_bind {x : Except ε α'} {y : α' → Except ε α} : EndsAfter step (x >>= y) k b ↔
    match x with
    | .error e => b = .error e
    | .ok a => EndsAfter step (y a) k b := by
  cases x <;> rfl

end EarleyForest
