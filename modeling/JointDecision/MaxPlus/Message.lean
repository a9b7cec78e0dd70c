import JointDecision.FactorGraph
import JointDecision.Odometer
import JointDecision.Payoff

/-! # Messages

What factors tell variables: for every value of the variable, the best that the rest of the factor
can reach with it. A variable keeps a row of messages for each adjacent factor and the sum of these
rows, so that what all factors but one have said is a single subtraction. -/

namespace JointDecision.MaxPlus

variable {α : Type} [Payoff α]

/-- The messages one variable has received, a row per adjacent factor with an entry per value, and
the sum of the rows. -/
structure Inbox (α : Type) where
  rows : Array (Array α)
  sum : Array α

structure Letter (α : Type) where
  key : Nat
  row : Nat
  message : Array α

namespace Inbox

def blank (degree width : Nat) : Inbox α where
  rows := Array.replicate degree (Array.replicate width Payoff.zero)
  sum := Array.replicate width Payoff.zero

/-- What all factors but the one at `row` have said about a value. -/
def excluding (inbox : Inbox α) (row value : Nat) : α :=
  inbox.sum.getD value Payoff.zero - (inbox.rows.getD row #[]).getD value Payoff.zero

def refresh (inbox : Inbox α) : Inbox α :=
  { inbox with
    sum := (Array.range inbox.sum.size).map fun value =>
      Payoff.total (inbox.rows.toList.map fun row => row.getD value Payoff.zero) }

/-- The value with the greatest sum, the lowest of several. -/
def choice (inbox : Inbox α) : Nat :=
  Payoff.leader inbox.sum.toList

end Inbox

def Letter.deliver (inboxes : Array (Inbox α)) (letter : Letter α) : Array (Inbox α) :=
  inboxes.modify letter.key fun inbox =>
    { inbox with rows := inbox.rows.setIfInBounds letter.row letter.message }

/-- A message less its mean, which keeps messages bounded on cyclic graphs. -/
def centered (message : Array α) : Array α :=
  let mean := Payoff.share (Payoff.total message.toList) message.size
  message.map (· - mean)

end JointDecision.MaxPlus
