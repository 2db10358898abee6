import TreeTiling.Proofs.Tree.Occurrence

/-!
Trees under a change of the numbers of their virtual registers. Machine registers keep their names,
and nothing else about a tree changes.
-/

namespace TreeTiling

variable {numbering : Nat → Nat}

namespace Temp

/-- The register with its number changed; machine registers have none. -/
def renumber (numbering : Nat → Nat) : Temp → Temp
  | virtual number => virtual (numbering number)
  | fixed name => fixed name

theorem renumber_of_isFixed {register : Temp} (isFixed : register.isFixed = true)
    : register.renumber numbering = register := by
  cases register with
  | virtual number => cases isFixed
  | fixed name => rfl

/-- Numbers that stay as they are for all registers of a list. -/
def Kept (numbering : Nat → Nat) (registers : List Temp) : Prop :=
  ∀ register ∈ registers, register.renumber numbering = register

theorem Kept.of_subset {registers others : List Temp} (kept : Kept numbering registers)
    (subset : others ⊆ registers)
    : Kept numbering others :=
  fun register member => kept register (subset member)

theorem Kept.append {left right : List Temp} (kept : Kept numbering (left ++ right))
    : Kept numbering left ∧ Kept numbering right :=
  List.forall_mem_append.mp kept

end Temp

----------------------------------------------------------------------------------------------
-- Expressions
----------------------------------------------------------------------------------------------

namespace Exp

mutual

/-- The expression with the numbers of its registers changed. -/
@[simp]
def renumber (numbering : Nat → Nat) : Exp → Exp
  | const value => const value
  | name label => name label
  | temp register => temp (register.renumber numbering)
  | mem address => mem (address.renumber numbering)
  | binop op left right => binop op (left.renumber numbering) (right.renumber numbering)
  | call function args => call (function.renumber numbering) (argsRenumber numbering args)

/-- Arguments with the numbers of their registers changed. -/
@[simp]
def argsRenumber (numbering : Nat → Nat) : List Exp → List Exp
  | [] => []
  | arg :: rest => arg.renumber numbering :: argsRenumber numbering rest

end

theorem argsRenumber_eq (args : List Exp)
    : argsRenumber numbering args = args.map (renumber numbering) := by
  induction args with
  | nil => simp
  | cons arg rest ih => simp [ih]

mutual

/-- A tree whose registers keep their numbers stays as it is. -/
theorem renumber_of_kept
    : ∀ {tree : Exp}, Temp.Kept numbering tree.temps → tree.renumber numbering = tree
  | const _, _ | name _, _ => by simp
  | temp register, kept => by
      rw [renumber, kept register (by simp)]
  | mem address, kept => by
      rw [temps_mem] at kept
      rw [renumber, renumber_of_kept kept]
  | binop op left right, kept => by
      rw [temps_binop] at kept
      rw [renumber, renumber_of_kept kept.append.1, renumber_of_kept kept.append.2]
  | call function args, kept => by
      rw [temps_call] at kept
      rw [renumber, renumber_of_kept kept.append.1, argsRenumber_of_kept kept.append.2]

theorem argsRenumber_of_kept
    : ∀ {args : List Exp},
        Temp.Kept numbering (args.flatMap temps) → argsRenumber numbering args = args
  | [], _ => by simp
  | arg :: rest, kept => by
      rw [List.flatMap_cons] at kept
      rw [argsRenumber, renumber_of_kept kept.append.1, argsRenumber_of_kept kept.append.2]

end

end Exp

----------------------------------------------------------------------------------------------
-- Statements
----------------------------------------------------------------------------------------------

namespace Stm

mutual

/-- The statement with the numbers of its registers changed. -/
@[simp]
def renumber (numbering : Nat → Nat) : Stm → Stm
  | label name => label name
  | jump target => jump (target.renumber numbering)
  | cjump op left right ifTrue ifFalse =>
      cjump op (left.renumber numbering) (right.renumber numbering) ifTrue ifFalse
  | cmove op left right dst value =>
      cmove op (left.renumber numbering) (right.renumber numbering) (dst.renumber numbering)
        (value.renumber numbering)
  | move dst src => move (dst.renumber numbering) (src.renumber numbering)
  | exp value => exp (value.renumber numbering)
  | seq statements => seq (renumberAll numbering statements)

/-- Statements with the numbers of their registers changed. -/
@[simp]
def renumberAll (numbering : Nat → Nat) : List Stm → List Stm
  | [] => []
  | statement :: rest => statement.renumber numbering :: renumberAll numbering rest

end

mutual

/-- The parts of a renumbered statement are its parts, renumbered. -/
theorem flatten_renumber
    : ∀ tree : Stm, (tree.renumber numbering).flatten = tree.flatten.map (renumber numbering)
  | seq statements => by
      rw [renumber, flatten, flatten, flattenAll_renumber statements]
  | label _ | jump _ | cjump _ _ _ _ _ | cmove _ _ _ _ _ | move _ _ | exp _ => by
      simp [flatten]

theorem flattenAll_renumber
    : ∀ statements : List Stm,
        flattenAll (renumberAll numbering statements)
        = (flattenAll statements).map (renumber numbering)
  | [] => by simp [flattenAll]
  | statement :: rest => by
      rw [renumberAll, flattenAll, flattenAll, List.map_append, flatten_renumber statement,
        flattenAll_renumber rest]

end

mutual

/-- A statement whose registers keep their numbers stays as it is. -/
theorem renumber_of_kept
    : ∀ {tree : Stm}, Temp.Kept numbering tree.temps → tree.renumber numbering = tree
  | label _, _ => by simp
  | jump target, kept => by
      rw [temps_jump] at kept
      rw [renumber, Exp.renumber_of_kept kept]
  | cjump op left right ifTrue ifFalse, kept => by
      rw [temps_cjump] at kept
      rw [renumber, Exp.renumber_of_kept kept.append.1, Exp.renumber_of_kept kept.append.2]
  | cmove op left right dst value, kept => by
      rw [temps_cmove] at kept
      obtain ⟨valueKept, kept⟩ := kept.append
      obtain ⟨leftKept, kept⟩ := kept.append
      obtain ⟨rightKept, dstKept⟩ := kept.append
      rw [renumber, Exp.renumber_of_kept leftKept, Exp.renumber_of_kept rightKept,
        Exp.renumber_of_kept valueKept, dstKept dst List.mem_cons_self]
  | move dst src, kept => by
      rw [temps_move] at kept
      rw [renumber, Exp.renumber_of_kept kept.append.1, Exp.renumber_of_kept kept.append.2]
  | exp value, kept => by
      rw [temps_exp] at kept
      rw [renumber, Exp.renumber_of_kept kept]
  | seq statements, kept => by
      rw [temps_seq] at kept
      rw [renumber, renumberAll_of_kept kept]

theorem renumberAll_of_kept
    : ∀ {statements : List Stm},
        Temp.Kept numbering (statements.flatMap temps)
        → renumberAll numbering statements = statements
  | [], _ => by simp
  | statement :: rest, kept => by
      rw [List.flatMap_cons] at kept
      rw [renumberAll, renumber_of_kept kept.append.1, renumberAll_of_kept kept.append.2]

end

end Stm

----------------------------------------------------------------------------------------------
-- Nodes and fragments
----------------------------------------------------------------------------------------------

def Node.renumber (numbering : Nat → Nat) : Node → Node
  | exp tree => exp (tree.renumber numbering)
  | stm tree => stm (tree.renumber numbering)

/-- The fragment with the numbers of its registers changed. -/
def Fragment.renumber (numbering : Nat → Nat) : Fragment → Fragment
  | procedure name body => procedure name (body.renumber numbering)
  | data name words => data name (Exp.argsRenumber numbering words)

end TreeTiling
