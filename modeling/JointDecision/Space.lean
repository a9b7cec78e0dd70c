import JointDecision.Failure
import JointDecision.MixedRadix

/-! # Spaces

A space lists the domain size of every variable; the variables are the positions of the list.
Reading a domain by key is partial, since a key need not be a position. -/

namespace JointDecision

abbrev Space := List Nat

namespace Space

/-- The domain size of `key`; a variable the space does not have has an empty domain. -/
def domain (space : Space) (key : Nat) : Nat :=
  space.getD key 0

def radix? (space : Space) (keys : List Nat) : Option (List Nat) :=
  keys.mapM fun key => space[key]?

/-- The number of joint values of `keys`, if a word holds it. -/
def jointSize? (space : Space) (keys : List Nat) : Option Nat :=
  (space.radix? keys).bind fun radix => word? (MixedRadix.volume radix)

/-- A space is usable when every variable has a value; the first that has none is reported. -/
def validate (space : Space) : Except Failure Unit :=
  match space.findIdx? (· == 0) with
  | some key => .error (.emptyDomain key)
  | none => .ok ()

def origin (space : Space) : List Nat :=
  List.replicate space.length 0

end Space

end JointDecision
