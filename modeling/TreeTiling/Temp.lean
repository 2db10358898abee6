/-! Labels and the symbolic registers that trees and instructions name. -/

namespace TreeTiling

/-- The name of a code or data address. -/
structure Label where
  name : String
deriving DecidableEq

/-- A register: one of an unbounded supply of virtual ones, or a machine register by name. -/
inductive Temp where
  | virtual (number : Nat)
  | fixed (name : String)
deriving DecidableEq

namespace Temp

def text : Temp → String
  | virtual number => "t" ++ number.repr
  | fixed name => name

def isFixed : Temp → Bool
  | virtual _ => false
  | fixed _ => true

/-- Virtual registers come first, by number; machine registers follow, by name. -/
def le : Temp → Temp → Bool
  | virtual left, virtual right => decide (left ≤ right)
  | virtual _, fixed _ => true
  | fixed _, virtual _ => false
  | fixed left, fixed right => decide (left ≤ right)

/-- The temporaries of a set in the order in which sets are shown. -/
def sorted (temps : List Temp) : List Temp :=
  temps.mergeSort le

/-- A set of temporaries as it is shown: sorted, between brackets. -/
def setText (temps : List Temp) : String :=
  "[" ++ ", ".intercalate ((sorted temps).map text) ++ "]"

end Temp

end TreeTiling
