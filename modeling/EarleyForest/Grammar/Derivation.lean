import EarleyForest.Grammar.Rule

/-!
# Derivations of strings of symbols

`Expands rules u v`: replacing one nonterminal of `u` by the right-hand side of one of its rules
gives `v`. `Derives rules u v`: any number of such steps lead from `u` to `v`. Derivations can be
put side by side (`Derives.append`) and taken apart (`Derives.exists_append`), and a string of
terminals derives only itself (`derives_word_iff`).
-/

namespace EarleyForest

variable {T N : Type} {rules : List (Rule T N)} {u v w : List (Symbol T N)}

/-- The string of the terminals `kinds`. -/
def word (kinds : List T) : List (Symbol T N) := kinds.map .terminal

/-- Expanding one nonterminal of `u` gives `v`. -/
inductive Expands (rules : List (Rule T N)) : List (Symbol T N) → List (Symbol T N) → Prop where
  | rule {r : Rule T N} (h : r ∈ rules) (u v : List (Symbol T N)) :
    Expands rules (u ++ .nonterminal r.lhs :: v) (u ++ (r.rhs ++ v))

/-- Expanding nonterminals of `u` one after the other gives `v`. -/
inductive Derives (rules : List (Rule T N)) : List (Symbol T N) → List (Symbol T N) → Prop where
  | refl (u : List (Symbol T N)) : Derives rules u u
  | step {u v w : List (Symbol T N)} :
    Expands rules u v → Derives rules v w → Derives rules u w

/-- Expanding one or more nonterminals of `u` one after the other gives `v`. -/
def DerivesProperly (rules : List (Rule T N)) (u v : List (Symbol T N)) : Prop :=
  ∃ w, Expands rules u w ∧ Derives rules w v

/-! ## Steps -/

theorem Expands.append_left (h : Expands rules u v) (w : List (Symbol T N)) :
    Expands rules (w ++ u) (w ++ v) := by
  obtain ⟨hr, u, v⟩ := h
  simpa using Expands.rule hr (w ++ u) v

theorem Expands.append_right (h : Expands rules u v) (w : List (Symbol T N)) :
    Expands rules (u ++ w) (v ++ w) := by
  obtain ⟨hr, u, v⟩ := h
  simpa using Expands.rule hr u (v ++ w)

/-- A step in one of two strings side by side is a step in the left one or in the right one. -/
theorem Expands.of_append (h : Expands rules (u ++ v) w) :
    (∃ u', Expands rules u u' ∧ w = u' ++ v) ∨ ∃ v', Expands rules v v' ∧ w = u ++ v' := by
  generalize hs : u ++ v = s at h
  obtain ⟨hr, a, b⟩ := h
  rcases List.append_eq_append_iff.1 hs with ⟨c, rfl, rfl⟩ | ⟨c, rfl, hc⟩
  · exact .inr ⟨_, .rule hr c b, by simp⟩
  · cases c with
    | nil =>
      obtain rfl : _ = v := hc
      exact .inr ⟨_, .rule hr [] b, by simp⟩
    | cons X c =>
      obtain ⟨rfl, rfl⟩ := List.cons_eq_cons.1 hc
      exact .inl ⟨_, .rule hr a c, by simp⟩

theorem not_expands_word (kinds : List T) : ¬ Expands rules (word kinds) v := by
  intro h
  generalize hs : word kinds = s at h
  obtain ⟨hr, a, b⟩ := h
  have : Symbol.nonterminal _ ∈ word kinds := hs ▸ List.mem_append_right a (.head b)
  simp [word] at this

/-! ## Derivations -/

theorem Expands.derives (h : Expands rules u v) : Derives rules u v := .step h (.refl v)

theorem Derives.trans (h : Derives rules u v) (h' : Derives rules v w) : Derives rules u w := by
  induction h with
  | refl => exact h'
  | step hs _ ih => exact .step hs (ih h')

theorem Derives.of_rule {r : Rule T N} (h : r ∈ rules) :
    Derives rules [.nonterminal r.lhs] r.rhs := by
  simpa using (Expands.rule h [] []).derives

theorem Derives.append_left (h : Derives rules u v) (w : List (Symbol T N)) :
    Derives rules (w ++ u) (w ++ v) := by
  induction h with
  | refl => exact .refl _
  | step hs _ ih => exact .step (hs.append_left w) ih

theorem Derives.append_right (h : Derives rules u v) (w : List (Symbol T N)) :
    Derives rules (u ++ w) (v ++ w) := by
  induction h with
  | refl => exact .refl _
  | step hs _ ih => exact .step (hs.append_right w) ih

theorem Derives.append {u' v' : List (Symbol T N)} (h : Derives rules u v)
    (h' : Derives rules u' v') : Derives rules (u ++ u') (v ++ v') :=
  (h.append_right u').trans (h'.append_left v)

/-- What two strings side by side derive consists of what each of them derives. -/
theorem Derives.exists_append (h : Derives rules (u ++ v) w) :
    ∃ u' v', Derives rules u u' ∧ Derives rules v v' ∧ w = u' ++ v' := by
  generalize hs : u ++ v = s at h
  induction h generalizing u v with
  | refl => exact ⟨u, v, .refl u, .refl v, hs.symm⟩
  | step he _ ih =>
    subst hs
    rcases he.of_append with ⟨u₁, hu, rfl⟩ | ⟨v₁, hv, rfl⟩
    · obtain ⟨u', v', hu', hv', rfl⟩ := ih rfl
      exact ⟨u', v', .step hu hu', hv', rfl⟩
    · obtain ⟨u', v', hu', hv', rfl⟩ := ih rfl
      exact ⟨u', v', hu', .step hv hv', rfl⟩

theorem derives_append_iff : Derives rules (u ++ v) w ↔
    ∃ u' v', Derives rules u u' ∧ Derives rules v v' ∧ w = u' ++ v' := by
  refine ⟨Derives.exists_append, ?_⟩
  rintro ⟨u', v', hu, hv, rfl⟩
  exact hu.append hv

theorem derives_word_iff {kinds : List T} : Derives rules (word kinds) v ↔ v = word kinds := by
  refine ⟨fun h => ?_, fun h => h ▸ .refl _⟩
  cases h with
  | refl => rfl
  | step hs _ => exact absurd hs (not_expands_word kinds)

/-- Expanding a nonterminal that stands alone gives one of its right-hand sides. -/
theorem expands_nonterminal_iff {A : N} :
    Expands rules [.nonterminal A] v ↔ ∃ r ∈ rules, r.lhs = A ∧ r.rhs = v := by
  constructor
  · intro h
    generalize hs : [Symbol.nonterminal A] = s at h
    obtain ⟨hr, a, b⟩ := h
    cases a with
    | nil =>
      obtain ⟨hA, rfl⟩ := List.cons_eq_cons.1 hs
      exact ⟨_, hr, (Symbol.nonterminal.inj hA).symm, by simp⟩
    | cons => simp at hs
  · rintro ⟨r, hr, rfl, rfl⟩
    simpa using Expands.rule hr [] []

/-- A nonterminal derives what one of its right-hand sides derives, and itself. -/
theorem derives_nonterminal_iff {A : N} : Derives rules [.nonterminal A] v ↔
    v = [.nonterminal A] ∨ ∃ r ∈ rules, r.lhs = A ∧ Derives rules r.rhs v := by
  constructor
  · intro h
    cases h with
    | refl => exact .inl rfl
    | step he hd =>
      obtain ⟨r, hr, hA, rfl⟩ := expands_nonterminal_iff.1 he
      exact .inr ⟨r, hr, hA, hd⟩
  · rintro (rfl | ⟨r, hr, rfl, hd⟩)
    · exact .refl _
    · exact (Derives.of_rule hr).trans hd

end EarleyForest
