import EarleyForest.Grammar.Derivation

/-!
# Derivations of words and of prefixes

`Yields rules Xs w`: the symbols `Xs` derive the word `w`, one symbol after the other, each
nonterminal by one of its rules at once. `LeftContext rules Xs w X`: the symbols `Xs` derive a
string that begins with the word `w` and goes on with the symbol `X`, where no rule is used behind
`w` but those that lead down to `X`. Both say the same as derivations step by step
(`derives_word_iff_yields`, `Derives.leftContext`, `LeftContext.derives`), and their inductions
follow the recognition of a rule from left to right.
-/

namespace EarleyForest

variable {T N : Type} {rules : List (Rule T N)}

/-- The symbols derive the word. -/
inductive Yields (rules : List (Rule T N)) : List (Symbol T N) → List T → Prop where
  | nil : Yields rules [] []
  | terminal {kind : T} {Xs : List (Symbol T N)} {w : List T} (h : Yields rules Xs w) :
    Yields rules (.terminal kind :: Xs) (kind :: w)
  | nonterminal {r : Rule T N} {Xs : List (Symbol T N)} {v w : List T} (hr : r ∈ rules)
    (h : Yields rules r.rhs v) (hs : Yields rules Xs w) :
    Yields rules (.nonterminal r.lhs :: Xs) (v ++ w)

/-- The symbols derive a string that begins with the word and then the symbol `X`. -/
inductive LeftContext (rules : List (Rule T N)) (X : Symbol T N) :
    List (Symbol T N) → List T → Prop where
  | here {Xs Ys : List (Symbol T N)} {w : List T} (h : Yields rules Xs w) :
    LeftContext rules X (Xs ++ X :: Ys) w
  | under {r : Rule T N} {Xs Ys : List (Symbol T N)} {v w : List T} (h : Yields rules Xs v)
    (hr : r ∈ rules) (hX : LeftContext rules X r.rhs w) :
    LeftContext rules X (Xs ++ .nonterminal r.lhs :: Ys) (v ++ w)

theorem word_append (v w : List T) : (word (v ++ w) : List (Symbol T N)) = word v ++ word w :=
  List.map_append

/-! ## Words -/

namespace Yields

variable {Xs Ys : List (Symbol T N)} {v w : List T}

theorem eq_nil (h : Yields rules [] w) : w = [] := by
  cases h
  rfl

theorem append (h : Yields rules Xs v) (h' : Yields rules Ys w) :
    Yields rules (Xs ++ Ys) (v ++ w) := by
  induction h with
  | nil => exact h'
  | terminal _ ih => exact .terminal ih
  | nonterminal hr h _ _ ih =>
    rw [List.append_assoc]
    exact .nonterminal hr h ih

theorem exists_append (h : Yields rules (Xs ++ Ys) w) :
    ∃ u v, w = u ++ v ∧ Yields rules Xs u ∧ Yields rules Ys v := by
  induction Xs generalizing w with
  | nil => exact ⟨[], w, rfl, .nil, h⟩
  | cons X Xs ih =>
    cases h with
    | terminal h =>
      obtain ⟨u, v, rfl, hu, hv⟩ := ih h
      exact ⟨_ :: u, v, rfl, .terminal hu, hv⟩
    | @nonterminal _ _ v₀ _ hr h hs =>
      obtain ⟨u, v, rfl, hu, hv⟩ := ih hs
      exact ⟨v₀ ++ u, v, (List.append_assoc ..).symm, .nonterminal hr h hu, hv⟩

theorem of_word (w : List T) : Yields rules (word w) w := by
  induction w with
  | nil => exact .nil
  | cons _ _ ih => exact .terminal ih

theorem of_rule {r : Rule T N} (hr : r ∈ rules) (h : Yields rules r.rhs w) :
    Yields rules [.nonterminal r.lhs] w := by
  simpa using Yields.nonterminal hr h .nil

theorem exists_rule {A : N} (h : Yields rules [.nonterminal A] w) :
    ∃ r ∈ rules, r.lhs = A ∧ Yields rules r.rhs w := by
  generalize hs : [Symbol.nonterminal A] = s at h
  cases h with
  | nil => cases hs
  | terminal => cases hs
  | nonterminal hr h hn =>
    cases hs
    obtain rfl := hn.eq_nil
    exact ⟨_, hr, rfl, by rwa [List.append_nil]⟩

theorem eq_singleton {kind : T} (h : Yields rules [.terminal kind] w) : w = [kind] := by
  cases h with
  | terminal h => rw [h.eq_nil]

/-- More rules derive no less. -/
theorem mono {rules' : List (Rule T N)} (h : Yields rules Xs w) (hsub : ∀ r ∈ rules, r ∈ rules') :
    Yields rules' Xs w := by
  induction h with
  | nil => exact .nil
  | terminal _ ih => exact .terminal ih
  | nonterminal hr _ _ ih ihs => exact .nonterminal (hsub _ hr) ih ihs

/-- A step backwards: an expanded nonterminal derives what its right-hand side does. -/
theorem of_expands (he : Expands rules Xs Ys) (h : Yields rules Ys w) : Yields rules Xs w := by
  obtain ⟨hr, a, b⟩ := he
  obtain ⟨u, v, rfl, hu, hv⟩ := h.exists_append
  obtain ⟨v₁, v₂, rfl, h₁, h₂⟩ := hv.exists_append
  exact hu.append (.nonterminal hr h₁ h₂)

theorem derives (h : Yields rules Xs w) : Derives rules Xs (word w) := by
  induction h with
  | nil => exact .refl _
  | terminal _ ih => exact ih.append_left [_]
  | nonterminal hr _ _ ih ihs =>
    rw [word_append]
    exact ((Derives.of_rule hr).trans ih).append ihs

end Yields

theorem Derives.yields {Xs : List (Symbol T N)} {w : List T} (h : Derives rules Xs (word w)) :
    Yields rules Xs w := by
  generalize hs : (word w : List (Symbol T N)) = s at h
  induction h with
  | refl => exact hs ▸ .of_word w
  | step he _ ih => exact (ih hs).of_expands he

theorem derives_word_iff_yields {Xs : List (Symbol T N)} {w : List T} :
    Derives rules Xs (word w) ↔ Yields rules Xs w :=
  ⟨Derives.yields, Yields.derives⟩

/-! ## Prefixes -/

namespace LeftContext

variable {Xs Ys : List (Symbol T N)} {X : Symbol T N} {v w : List T}

theorem refl (X : Symbol T N) : LeftContext rules X [X] [] := .here .nil

theorem of_head {r : Rule T N} (hr : r ∈ rules) (h : LeftContext rules X r.rhs w) :
    LeftContext rules X (.nonterminal r.lhs :: Ys) w := .under .nil hr h

theorem prepend (hv : Yields rules Xs v) (h : LeftContext rules X Ys w) :
    LeftContext rules X (Xs ++ Ys) (v ++ w) := by
  cases h with
  | here h =>
    rw [← List.append_assoc]
    exact .here (hv.append h)
  | under h hr hX =>
    rw [← List.append_assoc, ← List.append_assoc]
    exact .under (hv.append h) hr hX

theorem extend (h : LeftContext rules X Xs w) (Ys : List (Symbol T N)) :
    LeftContext rules X (Xs ++ Ys) w := by
  cases h with
  | here h => simpa using LeftContext.here h
  | under h hr hX => simpa using LeftContext.under h hr hX

/-- Of two strings side by side, either the left one has the prefix, or it derives a part of the
word and the right one has the rest. -/
theorem of_append (h : LeftContext rules X (Xs ++ Ys) w) : LeftContext rules X Xs w ∨
    ∃ u v, w = u ++ v ∧ Yields rules Xs u ∧ LeftContext rules X Ys v := by
  generalize hs : Xs ++ Ys = s at h
  cases h with
  | here h =>
    rcases List.append_eq_append_iff.1 hs with ⟨c, rfl, rfl⟩ | ⟨c, rfl, hc⟩
    · obtain ⟨u, v, rfl, hu, hv⟩ := h.exists_append
      exact .inr ⟨u, v, rfl, hu, .here hv⟩
    · cases c with
      | nil =>
        obtain rfl : _ = Ys := hc
        exact .inr ⟨w, [], (List.append_nil w).symm, by simpa using h, .here .nil⟩
      | cons Y c =>
        obtain ⟨rfl, rfl⟩ := List.cons_eq_cons.1 hc
        exact .inl (.here h)
  | under h hr hX =>
    rcases List.append_eq_append_iff.1 hs with ⟨c, rfl, rfl⟩ | ⟨c, rfl, hc⟩
    · obtain ⟨u, v, rfl, hu, hv⟩ := h.exists_append
      exact .inr ⟨u, v ++ _, by simp, hu, .under hv hr hX⟩
    · cases c with
      | nil =>
        obtain rfl : _ = Ys := hc
        exact .inr ⟨_, _, rfl, by simpa using h, .of_head hr hX⟩
      | cons Y c =>
        obtain ⟨rfl, rfl⟩ := List.cons_eq_cons.1 hc
        exact .inl (.under h hr hX)

/-- A step backwards. -/
theorem of_expands (he : Expands rules Xs Ys) (h : LeftContext rules X Ys w) :
    LeftContext rules X Xs w := by
  obtain ⟨hr, a, b⟩ := he
  rcases h.of_append with ha | ⟨u, v, rfl, hu, hv⟩
  · exact ha.extend _
  · refine prepend hu ?_
    rcases hv.of_append with hX | ⟨v₁, v₂, rfl, h₁, h₂⟩
    · exact .of_head hr hX
    · exact prepend (.of_rule hr h₁) h₂

theorem derives (h : LeftContext rules X Xs w) :
    ∃ Ys, Derives rules Xs (word w ++ X :: Ys) := by
  induction h with
  | @here _ Ys _ h => exact ⟨Ys, h.derives.append_right _⟩
  | @under r _ Ys v w h hr _ ih =>
    obtain ⟨Zs, hZ⟩ := ih
    refine ⟨Zs ++ Ys, ?_⟩
    have hB : Derives rules (.nonterminal r.lhs :: Ys) (word w ++ X :: Zs ++ Ys) :=
      ((Derives.of_rule hr).trans hZ).append_right Ys
    simpa [word_append] using h.derives.append hB

end LeftContext

/-- What can stand first behind a part of the input is `start` itself at the very beginning, or
follows that part in a right-hand side of `start`. -/
theorem leftContext_start {start : N} {X : Symbol T N} {u : List T}
    (h : LeftContext rules X [.nonterminal start] u) :
    X = .nonterminal start ∧ u = [] ∨ ∃ r ∈ rules, r.lhs = start ∧ LeftContext rules X r.rhs u := by
  generalize hs : [Symbol.nonterminal start] = s at h
  cases h with
  | @here Xs Ys _ h =>
    cases Xs with
    | nil =>
      cases h
      exact .inl ⟨(List.cons_eq_cons.1 hs).1.symm, rfl⟩
    | cons => simp at hs
  | @under r Xs Ys _ _ h hr hX =>
    cases Xs with
    | nil =>
      cases h
      have hlhs := Symbol.nonterminal.inj (List.cons_eq_cons.1 hs).1
      exact .inr ⟨r, hr, hlhs.symm, by simpa using hX⟩
    | cons => simp at hs

theorem Derives.leftContext {Xs Ys : List (Symbol T N)} {X : Symbol T N} {w : List T}
    (h : Derives rules Xs (word w ++ X :: Ys)) : LeftContext rules X Xs w := by
  generalize hs : word w ++ X :: Ys = s at h
  induction h with
  | refl => exact hs ▸ .here (.of_word w)
  | step he _ ih => exact (ih hs).of_expands he

end EarleyForest
