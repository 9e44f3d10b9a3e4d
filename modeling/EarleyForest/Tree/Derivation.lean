import EarleyForest.Grammar.Derivation
import EarleyForest.Tree.Basic

/-!
# Trees that derive a range of tokens

`IsDerivation rules tokens t X start stop`: the tree `t` derives the tokens from `start` up to
`stop` from the symbol `X`. Every branch applies a rule of its nonterminal, the children stand for
the symbols of the right-hand side one for one, and their ranges follow each other without a gap.
Such a tree proves that `X` derives the kinds of the tokens (`IsDerivation.derives`).
-/

namespace EarleyForest

variable {T N : Type}

/-- The kinds of the tokens from `start` up to `stop`. -/
def kindsBetween (tokens : Array (Token T)) (start stop : Nat) : List T :=
  (tokens.extract start stop).toList.map Token.kind

theorem kindsBetween_append (tokens : Array (Token T)) {i j k : Nat} (hij : i ≤ j) (hjk : j ≤ k) :
    kindsBetween tokens i j ++ kindsBetween tokens j k = kindsBetween tokens i k := by
  simp only [kindsBetween, ← List.map_append, ← Array.toList_append,
    Array.extract_append_extract, Nat.min_eq_left hij, Nat.max_eq_right hjk]

theorem kindsBetween_self (tokens : Array (Token T)) (i : Nat) : kindsBetween tokens i i = [] := by
  simp [kindsBetween]

theorem kindsBetween_succ {tokens : Array (Token T)} {i : Nat} {t : Token T}
    (h : tokens[i]? = some t) : kindsBetween tokens i (i + 1) = [t.kind] := by
  obtain ⟨hi, rfl⟩ := Array.getElem?_eq_some_iff.1 h
  rw [kindsBetween, Array.toList_extract, List.extract_eq_take_drop,
    List.drop_eq_getElem_cons (by simpa using hi), Nat.add_sub_cancel_left]
  simp

namespace ParseTree

mutual

/-- The tree derives the tokens from `start` up to `stop` from a symbol. -/
inductive IsDerivation (rules : Array (Rule T N)) (tokens : Array (Token T)) :
    ParseTree T N → Symbol T N → Nat → Nat → Prop where
  | leaf {t : Token T} {i : Nat} (h : tokens[i]? = some t) :
    IsDerivation rules tokens (.leaf t) (.terminal t.kind) i (i + 1)
  | branch {r : Rule T N} {rule : RuleId} {start stop : Nat} {children : List (ParseTree T N)}
    (h : rules[rule.toNat]? = some r) (hc : AreDerivations rules tokens children r.rhs start stop) :
    IsDerivation rules tokens (.branch r.lhs rule start stop children) (.nonterminal r.lhs)
      start stop

/-- The trees together derive the tokens from `start` up to `stop` from symbols, one for one. -/
inductive AreDerivations (rules : Array (Rule T N)) (tokens : Array (Token T)) :
    List (ParseTree T N) → List (Symbol T N) → Nat → Nat → Prop where
  | nil (i : Nat) : AreDerivations rules tokens [] [] i i
  | cons {t : ParseTree T N} {ts : List (ParseTree T N)} {X : Symbol T N}
    {Xs : List (Symbol T N)} {i j k : Nat} (h : IsDerivation rules tokens t X i j)
    (hs : AreDerivations rules tokens ts Xs j k) :
    AreDerivations rules tokens (t :: ts) (X :: Xs) i k

end

variable {rules : Array (Rule T N)} {tokens : Array (Token T)}

mutual

theorem IsDerivation.start_le {t : ParseTree T N} {X : Symbol T N} {i j : Nat} :
    IsDerivation rules tokens t X i j → i ≤ j
  | .leaf _ => Nat.le_succ _
  | .branch _ hc => hc.start_le

theorem AreDerivations.start_le {ts : List (ParseTree T N)} {Xs : List (Symbol T N)}
    {i j : Nat} :
    AreDerivations rules tokens ts Xs i j → i ≤ j
  | .nil _ => Nat.le_refl _
  | .cons h hs => Nat.le_trans h.start_le hs.start_le

end

theorem AreDerivations.length_eq {ts : List (ParseTree T N)} {Xs : List (Symbol T N)}
    {i j : Nat} :
    AreDerivations rules tokens ts Xs i j → ts.length = Xs.length
  | .nil _ => rfl
  | .cons _ hs => congrArg (· + 1) hs.length_eq

mutual

/-- A symbol with a derivation tree derives the kinds of the tokens below it. -/
theorem IsDerivation.derives {t : ParseTree T N} {X : Symbol T N} {i j : Nat} :
    IsDerivation rules tokens t X i j →
      Derives rules.toList [X] (word (kindsBetween tokens i j))
  | .leaf h => by rw [kindsBetween_succ h]; exact .refl _
  | .branch h hc =>
    (Derives.of_rule (Array.mem_toList_iff.2 (Array.mem_of_getElem? h))).trans hc.derives

theorem AreDerivations.derives {ts : List (ParseTree T N)} {Xs : List (Symbol T N)}
    {i j : Nat} :
    AreDerivations rules tokens ts Xs i j →
      Derives rules.toList Xs (word (kindsBetween tokens i j))
  | .nil _ => by rw [kindsBetween_self]; exact .refl _
  | .cons h hs => by
    rw [← kindsBetween_append tokens h.start_le hs.start_le, word, List.map_append]
    exact h.derives.append hs.derives

end

end ParseTree

end EarleyForest
