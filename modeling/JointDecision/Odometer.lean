import JointDecision.Space

/-! # Odometers

An odometer visits every joint value of a list of keys, the first key fastest. The order is that of
`MixedRadix.index`, so the position of a joint value in the visit is its index. A list of no keys
has exactly one joint value, and a key with an empty domain leaves none. -/

namespace JointDecision

structure Odometer where
  keys : List Nat
  radix : List Nat
  values : List Nat
  valid : Bool
deriving DecidableEq

namespace Odometer

/-- Moves the digits on by one; the flag is lost when every digit has turned over. -/
def tick : List Nat → List Nat → List Nat × Bool
  | r :: radix, v :: values =>
    if v + 1 < r then ((v + 1) :: values, true)
    else
      let rest := tick radix values
      (0 :: rest.1, rest.2)
  | _, values => (values, false)

def start (keys radix : List Nat) : Odometer where
  keys := keys
  radix := radix
  values := List.replicate radix.length 0
  valid := radix.all (0 < ·)

def new? (space : Space) (keys : List Nat) : Option Odometer :=
  (space.radix? keys).map (start keys)

def skipping? (space : Space) (keys : List Nat) (skip : Nat) : Option Odometer :=
  new? space (keys.filter (· != skip))

/-- The number of joint values of a whole visit, also where no word holds it. -/
def size (o : Odometer) : Nat :=
  MixedRadix.volume o.radix

def advance (o : Odometer) : Odometer :=
  let next := tick o.radix o.values
  { o with values := next.1, valid := o.valid && next.2 }

def reset (o : Odometer) : Odometer :=
  { o with values := o.values.map fun _ => 0, valid := o.radix.all (0 < ·) }

/-- The joint values from here on, at most `limit` of them, and the odometer after them. -/
def visit : Nat → Odometer → List (List Nat) × Odometer
  | 0, o => ([], o)
  | limit + 1, o =>
    if o.valid then
      let rest := visit limit o.advance
      (o.values :: rest.1, rest.2)
    else ([], o)

/-- All joint values from here on. A whole visit has `size` of them, so that many steps exhaust any
odometer. -/
def drain (o : Odometer) : List (List Nat) × Odometer :=
  o.visit o.size

end Odometer

def Space.jointValues? (space : Space) (keys : List Nat) : Option (List (List Nat)) :=
  (Odometer.new? space keys).map fun o => o.drain.1

/-- The index of `values` among the joint values of `keys`, if words hold it and what comes on the
way to it. Only the keys that have a value are read. -/
def Space.index? (space : Space) (keys values : List Nat) : Option Nat :=
  (space.radix? (keys.take values.length)).bind fun radix => MixedRadix.index? radix values

/-- The joint value of `keys` at an index; an index past the last starts over. -/
def Space.valuesAt? (space : Space) (keys : List Nat) (index : Nat) : Option (List Nat) :=
  (space.radix? keys).bind fun radix => MixedRadix.digits? radix index

end JointDecision
