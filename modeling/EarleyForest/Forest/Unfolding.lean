import EarleyForest.Forest.Basic
import EarleyForest.Tree.Basic

/-!
# The unfoldings of a forest

`f.Unfolds id t choices`: `t` is a derivation of the node `id` that follows one alternative at each
occurrence of a node, and `choices` are those taken at ambiguous nodes, in preorder. Occurrences of
one node choose independently. The choices determine the derivation, and none is described by the
beginning of another's choices (`Unfolds.unique`).
-/

namespace EarleyForest

variable {T N : Type} [DecidableEq N] [SearchKey N] {g : Grammar T N}

/-- What is recorded when alternative `k` out of `count` is taken at the node `id`. -/
def recordChoice (id : NodeId) (k count : Nat) : List Choice :=
  if 1 < count then [⟨id, k⟩] else []

theorem recordChoice_append_inj {id : NodeId} {k k' count : Nat} {r r' : List Choice}
    (hk : k < count) (hk' : k' < count)
    (h : recordChoice id k count ++ r = recordChoice id k' count ++ r') : k = k' ∧ r = r' := by
  unfold recordChoice at h
  split at h
  · simpa using h
  · exact ⟨by omega, by simpa using h⟩

namespace Forest

mutual

/-- The derivation `t` of a node, and the choices taken at ambiguous nodes in preorder. -/
inductive Unfolds (f : Forest g) : NodeId → ParseTree T N → List Choice → Prop where
  | leaf {id : NodeId} {token : Nat} {t : Token T} (h : f.node? id = some (.terminal token))
    (ht : f.tokens[token]? = some t) : Unfolds f id (.leaf t) []
  | branch {id : NodeId} {A : N} {start stop k : Nat} {alternatives : List Alternative}
    {a : Alternative} {ts : List (ParseTree T N)} {choices : List Choice}
    (h : f.node? id = some (.nonterminal A start stop alternatives))
    (ha : alternatives[k]? = some a) (hs : UnfoldsAll f a.children ts choices) :
    Unfolds f id (.branch A a.rule start stop ts)
      (recordChoice id k alternatives.length ++ choices)

/-- Derivations of several nodes, one for one, and all their choices. -/
inductive UnfoldsAll (f : Forest g) : List NodeId → List (ParseTree T N) → List Choice → Prop where
  | nil : UnfoldsAll f [] [] []
  | cons {id : NodeId} {ids : List NodeId} {t : ParseTree T N} {ts : List (ParseTree T N)}
    {r rs : List Choice} (h : Unfolds f id t r) (hs : UnfoldsAll f ids ts rs) :
    UnfoldsAll f (id :: ids) (t :: ts) (r ++ rs)

end

variable {f : Forest g}

theorem UnfoldsAll.length_eq {ids : List NodeId} {ts : List (ParseTree T N)} {r : List Choice} :
    f.UnfoldsAll ids ts r → ts.length = ids.length
  | .nil => rfl
  | .cons _ hs => congrArg (· + 1) hs.length_eq

mutual

/-- Two derivations of a node whose choices begin a common list are the same, with the same
choices. -/
theorem Unfolds.unique {id : NodeId} {t t' : ParseTree T N} {r r' s s' : List Choice} :
    f.Unfolds id t r → f.Unfolds id t' r' → r ++ s = r' ++ s' → t = t' ∧ r = r'
  | .leaf h ht, .leaf h' ht', _ => by
    cases h.symm.trans h'
    cases ht.symm.trans ht'
    exact ⟨rfl, rfl⟩
  | .leaf h _, .branch h' _ _, _ => by cases h.symm.trans h'
  | .branch h _ _, .leaf h' _, _ => by cases h.symm.trans h'
  | .branch h ha hs, .branch h' ha' hs', hr => by
    cases h.symm.trans h'
    simp only [List.append_assoc] at hr
    obtain ⟨rfl, hc⟩ := recordChoice_append_inj (List.getElem?_eq_some_iff.1 ha).1
      (List.getElem?_eq_some_iff.1 ha').1 hr
    cases ha.symm.trans ha'
    obtain ⟨rfl, rfl⟩ := hs.unique hs' hc
    exact ⟨rfl, rfl⟩

theorem UnfoldsAll.unique {ids : List NodeId} {ts ts' : List (ParseTree T N)}
    {r r' s s' : List Choice} :
    f.UnfoldsAll ids ts r → f.UnfoldsAll ids ts' r' → r ++ s = r' ++ s' → ts = ts' ∧ r = r'
  | .nil, .nil, _ => ⟨rfl, rfl⟩
  | .cons h hs, .cons h' hs', hr => by
    simp only [List.append_assoc] at hr
    obtain ⟨rfl, rfl⟩ := h.unique h' hr
    obtain ⟨rfl, rfl⟩ := hs.unique hs' (List.append_cancel_left hr)
    exact ⟨rfl, rfl⟩

end

theorem Unfolds.tree_unique {id : NodeId} {t t' : ParseTree T N} {r : List Choice}
    (h : f.Unfolds id t r) (h' : f.Unfolds id t' r) : t = t' :=
  (h.unique h' (Eq.refl (r ++ []))).1

end Forest

end EarleyForest
