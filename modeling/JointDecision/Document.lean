/-! # Documents

Trees of data as a structured text holds them: the form in which scopes, assignments, rules and
solutions are stored. Whole numbers and reals are kept apart, since a real is never read as a key.
-/

namespace JointDecision

inductive Document (α : Type)
  | null
  | bool (value : Bool)
  | whole (value : Int)
  | real (value : α)
  | text (value : String)
  | list (items : List (Document α))
  | object (fields : List (String × Document α))

/-- The value of a field; of several fields of one name the last counts. -/
def Document.field? {α : Type} (fields : List (String × Document α)) (name : String) :
    Option (Document α) :=
  fields.reverse.lookup name

end JointDecision
