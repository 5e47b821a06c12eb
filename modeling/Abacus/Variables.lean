import Std.Data.HashMap
import Std.Data.TreeMap

/-!
# Variables

Values for names. Any collection that can be asked for a name will do: of several pairs with one
name the first counts, while a map holds the last value it was given.
-/
namespace Abacus

class Variables (β : Type) where
  lookup : β → String → Option Float

namespace Variables

/-- The value of the first pair with a name. -/
def first? (pairs : List (String × Float)) (name : String) : Option Float :=
  (pairs.find? (·.1 == name)).map Prod.snd

instance : Variables (List (String × Float)) := ⟨first?⟩

instance : Variables (Array (String × Float)) := ⟨fun pairs => first? pairs.toList⟩

instance {n : Nat} : Variables (Vector (String × Float) n) := ⟨fun pairs => first? pairs.toList⟩

instance : Variables (Std.HashMap String Float) := ⟨fun map name => map[name]?⟩

instance : Variables (Std.TreeMap String Float) := ⟨fun map name => map[name]?⟩

/-- A name that is given no value is unbound. -/
instance : Variables (Std.HashMap String (Option Float)) := ⟨fun map name => map[name]?.join⟩

end Variables

end Abacus
