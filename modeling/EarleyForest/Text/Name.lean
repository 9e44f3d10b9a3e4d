/-!
# Names

Symbols are compared as values and printed by their names.
-/

namespace EarleyForest

/-- A type whose values have a name for messages. Two values may share a name. -/
class Named (α : Type) where
  name : α → String

export Named (name)

instance : Named String := ⟨id⟩

end EarleyForest
