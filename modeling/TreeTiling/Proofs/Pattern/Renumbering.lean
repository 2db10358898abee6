import TreeTiling.Pattern.Match
import TreeTiling.Proofs.Tree.Renumbering

/-!
Matching under a change of the numbers of virtual registers: a pattern that does not look at numbers
matches the same trees afterwards, and captures the same things with their numbers changed.
-/

namespace TreeTiling

variable {numbering : Nat → Nat}

----------------------------------------------------------------------------------------------
-- Captures
----------------------------------------------------------------------------------------------

/-- A leaf with its number changed, where it has one. -/
def Scalar.renumber (numbering : Nat → Nat) : (scalar : Scalar) → scalar.Value → scalar.Value
  | temp, register => Temp.renumber numbering register
  | int, value => value
  | label, value => value
  | relop, value => value
  | binop, value => value

/-- A captured value with its numbers changed. -/
def Kind.renumber (numbering : Nat → Nat) : (kind : Kind) → kind.Value → kind.Value
  | exp, tree => Exp.renumber numbering tree
  | exps, trees => Exp.argsRenumber numbering trees
  | scalar leaf, value => leaf.renumber numbering value

namespace Captured

def renumber (numbering : Nat → Nat) : Captured → Captured
  | exp tree => exp (tree.renumber numbering)
  | exps trees => exps (Exp.argsRenumber numbering trees)
  | scalar leaf value => scalar leaf (leaf.renumber numbering value)

/-- The kind of what was captured does not change. -/
theorem as?_renumber (kind : Kind) (captured : Captured)
    : (captured.renumber numbering).as? kind
      = (captured.as? kind).map (kind.renumber numbering) := by
  cases kind with
  | exp | exps => cases captured <;> rfl
  | scalar leaf =>
      cases captured with
      | exp _ | exps _ => cases leaf <;> rfl
      | scalar other value => cases leaf <;> cases other <;> rfl

end Captured

namespace Captures

/-- The bindings with the numbers in what they hold changed. -/
def renumber (numbering : Nat → Nat) (captures : Captures) : Captures :=
  captures.map fun entry => (entry.1, entry.2.renumber numbering)

/-- A variable is looked up in the same binding; by induction on the bindings. -/
theorem lookup_renumber (captures : Captures) (id : Nat)
    : (captures.renumber numbering).lookup id
      = (captures.lookup id).map (Captured.renumber numbering) := by
  induction captures with
  | nil => rfl
  | cons entry rest ih =>
      obtain ⟨other, captured⟩ := entry
      change List.lookup id ((other, _) :: renumber numbering rest) = _
      rw [List.lookup_cons, List.lookup_cons, ih]
      split <;> rfl

/-- A variable that is bound is bound to the same thing with its numbers changed. -/
theorem get_renumber {kind : Kind} (captures : Captures) (var : Var kind)
    : (captures.renumber numbering).get var
      = (captures.get var).map (kind.renumber numbering) := by
  have asKind (captured : Option Captured)
      : (captured.map (Captured.renumber numbering)).bind (Captured.as? kind)
        = (captured.bind (Captured.as? kind)).map (kind.renumber numbering) := by
    cases captured with
    | none => rfl
    | some captured => exact captured.as?_renumber kind
  rw [get, get, lookup_renumber, asKind]
  cases (captures.lookup var.id).bind (Captured.as? kind) with
  | none => rfl
  | some value => rfl

end Captures

----------------------------------------------------------------------------------------------
-- Patterns
----------------------------------------------------------------------------------------------

/-- A leaf pattern that accepts a register, if it does, whatever its number is. -/
def Leaf.ignoresNumbers : {scalar : Scalar} → Leaf scalar → Bool
  | .temp, is _ => false
  | .temp, guard _ _ => false
  | _, _ => true

/-- Whether no leaf of a pattern looks at the number of a register. -/
def ExpPattern.ignoresNumbers : ExpPattern → Bool
  | any | bind _ | const _ | name _ => true
  | temp register => register.ignoresNumbers
  | mem address => address.ignoresNumbers
  | binop _ left right => left.ignoresNumbers && right.ignoresNumbers
  | call function _ => function.ignoresNumbers

def StmPattern.ignoresNumbers : StmPattern → Bool
  | label _ => true
  | jump target => target.ignoresNumbers
  | cjump _ left right _ _ => left.ignoresNumbers && right.ignoresNumbers
  | cmove _ left right dst value =>
      left.ignoresNumbers && right.ignoresNumbers && dst.ignoresNumbers && value.ignoresNumbers
  | move dst src => dst.ignoresNumbers && src.ignoresNumbers
  | exp value => value.ignoresNumbers

theorem Leaf.matches?_renumber {scalar : Scalar} {leaf : Leaf scalar}
    (ignores : leaf.ignoresNumbers = true) (value : scalar.Value)
    : leaf.matches? (scalar.renumber numbering value)
      = (leaf.matches? value).map (Captures.renumber numbering) := by
  cases leaf with
  | any => rfl
  | bind var => rfl
  | is literal =>
      cases scalar with
      | temp => cases ignores
      | int | label | relop | binop =>
          by_cases same : literal = value
          · simp [matches?, Scalar.renumber, same, Captures.renumber]
          · simp [matches?, Scalar.renumber, same]
  | guard var condition =>
      cases scalar with
      | temp => cases ignores
      | int | label | relop | binop =>
          by_cases accepted : condition.accepts value = true
          · simp [matches?, Scalar.renumber, accepted, Captures.renumber, Captured.renumber]
          · simp [matches?, Scalar.renumber, accepted]

theorem ArgsPattern.captures_renumber (pattern : ArgsPattern) (args : List Exp)
    : pattern.captures (Exp.argsRenumber numbering args)
      = (pattern.captures args).renumber numbering := by
  cases pattern <;> rfl

namespace Captures

theorem renumber_append (first second : Captures)
    : Captures.renumber numbering (first ++ second)
      = first.renumber numbering ++ second.renumber numbering :=
  List.map_append

/-- Parts of a tree match alike one after the other. -/
theorem bind_renumber {part other : Option Captures} {next otherNext : Captures → Option Captures}
    (alike : other = part.map (renumber numbering))
    (alikeNext
      : ∀ captures,
          otherNext (captures.renumber numbering) = (next captures).map (renumber numbering))
    : (other >>= otherNext) = (part >>= next).map (renumber numbering) := by
  subst alike
  cases part with
  | none => rfl
  | some captures => exact alikeNext captures

end Captures

/-- A pattern that ignores numbers matches alike, by induction on the pattern. -/
theorem ExpPattern.matches?_renumber {pattern : ExpPattern}
    (ignores : pattern.ignoresNumbers = true) (tree : Exp)
    : pattern.matches? (tree.renumber numbering)
      = (pattern.matches? tree).map (Captures.renumber numbering) := by
  induction pattern generalizing tree with
  | any => rfl
  | bind var => rfl
  | const leaf =>
      cases tree with
      | const value => exact leaf.matches?_renumber rfl value
      | name _ | temp _ | mem _ | binop _ _ _ | call _ _ => simp [matches?]
  | name leaf =>
      cases tree with
      | name label => exact leaf.matches?_renumber rfl label
      | const _ | temp _ | mem _ | binop _ _ _ | call _ _ => simp [matches?]
  | temp leaf =>
      cases tree with
      | temp register => exact leaf.matches?_renumber ignores register
      | const _ | name _ | mem _ | binop _ _ _ | call _ _ => simp [matches?]
  | mem pattern ih =>
      cases tree with
      | mem address => exact ih ignores address
      | const _ | name _ | temp _ | binop _ _ _ | call _ _ => simp [matches?]
  | binop leaf leftPattern rightPattern left right =>
      obtain ⟨leftIgnores, rightIgnores⟩ := Bool.and_eq_true_iff.mp ignores
      cases tree with
      | binop op leftTree rightTree =>
          refine Captures.bind_renumber (leaf.matches?_renumber rfl op) fun ops => ?_
          refine Captures.bind_renumber (left leftIgnores leftTree) fun lefts => ?_
          refine Captures.bind_renumber (right rightIgnores rightTree) fun rights => ?_
          simp [Captures.renumber_append]
      | const _ | name _ | temp _ | mem _ | call _ _ => simp [matches?]
  | call functionPattern argsPattern ih =>
      cases tree with
      | call function args =>
          refine Captures.bind_renumber (ih ignores function) fun functions => ?_
          simp [Captures.renumber_append, argsPattern.captures_renumber]
      | const _ | name _ | temp _ | mem _ | binop _ _ _ => simp [matches?]

/-- A statement pattern that ignores numbers matches alike. -/
theorem StmPattern.matches?_renumber {pattern : StmPattern}
    (ignores : pattern.ignoresNumbers = true) (tree : Stm)
    : pattern.matches? (tree.renumber numbering)
      = (pattern.matches? tree).map (Captures.renumber numbering) := by
  cases pattern with
  | label leaf =>
      cases tree with
      | label name => exact leaf.matches?_renumber rfl name
      | jump _ | cjump _ _ _ _ _ | cmove _ _ _ _ _ | move _ _ | exp _ | seq _ => simp [matches?]
  | jump pattern =>
      cases tree with
      | jump target => exact pattern.matches?_renumber ignores target
      | label _ | cjump _ _ _ _ _ | cmove _ _ _ _ _ | move _ _ | exp _ | seq _ => simp [matches?]
  | exp pattern =>
      cases tree with
      | exp value => exact pattern.matches?_renumber ignores value
      | label _ | jump _ | cjump _ _ _ _ _ | cmove _ _ _ _ _ | move _ _ | seq _ => simp [matches?]
  | move dstPattern srcPattern =>
      obtain ⟨dstIgnores, srcIgnores⟩ := Bool.and_eq_true_iff.mp ignores
      cases tree with
      | move dst src =>
          refine Captures.bind_renumber (dstPattern.matches?_renumber dstIgnores dst) fun dsts => ?_
          refine Captures.bind_renumber (srcPattern.matches?_renumber srcIgnores src) fun srcs => ?_
          simp [Captures.renumber_append]
      | label _ | jump _ | cjump _ _ _ _ _ | cmove _ _ _ _ _ | exp _ | seq _ => simp [matches?]
  | cjump opLeaf leftPattern rightPattern trueLeaf falseLeaf =>
      obtain ⟨leftIgnores, rightIgnores⟩ := Bool.and_eq_true_iff.mp ignores
      cases tree with
      | cjump op left right ifTrue ifFalse =>
          refine Captures.bind_renumber (opLeaf.matches?_renumber rfl op) fun ops => ?_
          refine Captures.bind_renumber (leftPattern.matches?_renumber leftIgnores left)
            fun lefts => ?_
          refine Captures.bind_renumber (rightPattern.matches?_renumber rightIgnores right)
            fun rights => ?_
          refine Captures.bind_renumber (trueLeaf.matches?_renumber rfl ifTrue) fun trues => ?_
          refine Captures.bind_renumber (falseLeaf.matches?_renumber rfl ifFalse) fun falses => ?_
          simp [Captures.renumber_append]
      | label _ | jump _ | cmove _ _ _ _ _ | move _ _ | exp _ | seq _ => simp [matches?]
  | cmove opLeaf leftPattern rightPattern dstLeaf valuePattern =>
      obtain ⟨ignores, valueIgnores⟩ := Bool.and_eq_true_iff.mp ignores
      obtain ⟨ignores, dstIgnores⟩ := Bool.and_eq_true_iff.mp ignores
      obtain ⟨leftIgnores, rightIgnores⟩ := Bool.and_eq_true_iff.mp ignores
      cases tree with
      | cmove op left right dst value =>
          refine Captures.bind_renumber (opLeaf.matches?_renumber rfl op) fun ops => ?_
          refine Captures.bind_renumber (leftPattern.matches?_renumber leftIgnores left)
            fun lefts => ?_
          refine Captures.bind_renumber (rightPattern.matches?_renumber rightIgnores right)
            fun rights => ?_
          refine Captures.bind_renumber (dstLeaf.matches?_renumber dstIgnores dst) fun dsts => ?_
          refine Captures.bind_renumber (valuePattern.matches?_renumber valueIgnores value)
            fun values => ?_
          simp [Captures.renumber_append]
      | label _ | jump _ | cjump _ _ _ _ _ | move _ _ | exp _ | seq _ => simp [matches?]

end TreeTiling
