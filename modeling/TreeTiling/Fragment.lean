import TreeTiling.Tree

/-! The fragments of a program: procedures, and data with one initial value per word. -/

namespace TreeTiling

/-- A separately named part of a program. -/
inductive Fragment where
  | procedure (name : Label) (body : Stm)
  | data (name : Label) (words : List Exp)

namespace Fragment

def name : Fragment → Label
  | procedure name _ => name
  | data name _ => name

def isProcedure : Fragment → Bool
  | procedure _ _ => true
  | data _ _ => false

end Fragment

end TreeTiling
