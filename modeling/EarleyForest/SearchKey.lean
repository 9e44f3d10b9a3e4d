/-!
# Search keys

Tables are searched by comparing keys. A `SearchKey` is a type with a consistent comparison in which
only equal keys compare equal.
-/

namespace EarleyForest

/-- A type whose values can be the keys of a search tree. -/
class SearchKey (α : Type) extends Ord α where
  trans : Std.TransOrd α
  lawfulEq : Std.LawfulEqOrd α

attribute [instance] SearchKey.trans SearchKey.lawfulEq

instance {α : Type} [Ord α] [trans : Std.TransOrd α] [lawfulEq : Std.LawfulEqOrd α] :
    SearchKey α := ⟨trans, lawfulEq⟩

end EarleyForest
