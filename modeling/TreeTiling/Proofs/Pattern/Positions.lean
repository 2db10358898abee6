import Mathlib.Data.List.Forall2
import TreeTiling.Pattern.Match

/-!
Positions in trees and the capture leaves of patterns.

A node has fields, numbered from left to right, and a path chooses one field after the other. The
capture leaves of a pattern are listed with their paths, so that what a variable captures can be
said by its position in the tree, without matching.
-/

namespace TreeTiling

----------------------------------------------------------------------------------------------
-- Kinds of captured data
----------------------------------------------------------------------------------------------

/-- A value of a kind, as captures hold it. -/
def Kind.captured : (kind : Kind) → kind.Value → Captured
  | exp, tree => .exp tree
  | exps, trees => .exps trees
  | scalar leaf, value => .scalar leaf value

/-- The kind of a captured value. -/
def Captured.kind : Captured → Kind
  | exp _ => .exp
  | exps _ => .exps
  | scalar leaf _ => .scalar leaf

theorem Captured.kind_captured (kind : Kind) (value : kind.Value)
    : (kind.captured value).kind = kind := by
  cases kind <;> rfl

theorem Captured.exists_eq_captured {captured : Captured} {kind : Kind}
    (isKind : captured.kind = kind)
    : ∃ value, captured = kind.captured value := by
  subst isKind
  cases captured <;> exact ⟨_, rfl⟩

/-- A captured value is seen as one of a kind only if it is one. -/
theorem Captured.as?_eq_some_iff {kind : Kind} {captured : Captured} {value : kind.Value}
    : captured.as? kind = some value ↔ captured = kind.captured value := by
  cases kind with
  | exp | exps => cases captured <;> simp [as?, Kind.captured]
  | scalar leaf =>
      cases captured with
      | exp _ | exps _ => cases leaf <;> simp [as?, Kind.captured]
      | scalar other held => cases leaf <;> cases other <;> simp [as?, Kind.captured]

theorem Captured.as?_captured (kind : Kind) (value : kind.Value)
    : (kind.captured value).as? kind = some value :=
  as?_eq_some_iff.mpr rfl

----------------------------------------------------------------------------------------------
-- Positions in trees
----------------------------------------------------------------------------------------------

/-- The fields of an expression, from left to right. -/
def Exp.fields : Exp → List Captured
  | const value => [.scalar .int value]
  | name label => [.scalar .label label]
  | temp register => [.scalar .temp register]
  | mem address => [.exp address]
  | binop op left right => [.scalar .binop op, .exp left, .exp right]
  | call function args => [.exp function, .exps args]

/-- The fields of a statement, from left to right; a sequence is no field of a pattern. -/
def Stm.fields : Stm → List Captured
  | label name => [.scalar .label name]
  | jump target => [.exp target]
  | cjump op left right ifTrue ifFalse =>
      [.scalar .relop op, .exp left, .exp right, .scalar .label ifTrue, .scalar .label ifFalse]
  | cmove op left right dst value =>
      [.scalar .relop op, .exp left, .exp right, .scalar .temp dst, .exp value]
  | move dst src => [.exp dst, .exp src]
  | exp value => [.exp value]
  | seq _ => []

/-- What stands at the end of a path from a part of a tree. -/
def Captured.at? : Captured → List Nat → Option Captured
  | part, [] => some part
  | exp tree, index :: path => (tree.fields[index]?).bind (·.at? path)
  | _, _ :: _ => none

/-- What stands at the end of a path from a node; a statement is no part of another tree. -/
def Node.at? : Node → List Nat → Option Captured
  | exp tree, path => (Captured.exp tree).at? path
  | stm _, [] => none
  | stm tree, index :: path => (tree.fields[index]?).bind (·.at? path)

----------------------------------------------------------------------------------------------
-- Capture leaves
----------------------------------------------------------------------------------------------

/-- A capture leaf of a pattern: the path to it, and the variable that captures what stands there.
-/
structure CaptureLeaf where
  path : List Nat
  kind : Kind
  var : Var kind

namespace CaptureLeaf

/-- The leaf seen from a node that has the leaf's pattern in a field. -/
def under (index : Nat) (leaf : CaptureLeaf) : CaptureLeaf :=
  ⟨index :: leaf.path, leaf.kind, leaf.var⟩

/-- The leaves of fields that are numbered from `first` on. -/
def inFields (first : Nat) : List (List CaptureLeaf) → List CaptureLeaf
  | [] => []
  | leaves :: rest => leaves.map (under first) ++ inFields (first + 1) rest

end CaptureLeaf

open CaptureLeaf (inFields)

def Leaf.leaves {scalar : Scalar} : Leaf scalar → List CaptureLeaf
  | any | is _ => []
  | bind var | guard var _ => [⟨[], .scalar scalar, var⟩]

def ArgsPattern.leaves : ArgsPattern → List CaptureLeaf
  | any => []
  | bind var => [⟨[], .exps, var⟩]

/-- The capture leaves of a pattern, from left to right. -/
def ExpPattern.leaves : ExpPattern → List CaptureLeaf
  | any => []
  | bind var => [⟨[], .exp, var⟩]
  | const value => inFields 0 [value.leaves]
  | name label => inFields 0 [label.leaves]
  | temp register => inFields 0 [register.leaves]
  | mem address => inFields 0 [address.leaves]
  | binop op left right => inFields 0 [op.leaves, left.leaves, right.leaves]
  | call function args => inFields 0 [function.leaves, args.leaves]

def StmPattern.leaves : StmPattern → List CaptureLeaf
  | label name => inFields 0 [name.leaves]
  | jump target => inFields 0 [target.leaves]
  | cjump op left right ifTrue ifFalse =>
      inFields 0 [op.leaves, left.leaves, right.leaves, ifTrue.leaves, ifFalse.leaves]
  | cmove op left right dst value =>
      inFields 0 [op.leaves, left.leaves, right.leaves, dst.leaves, value.leaves]
  | move dst src => inFields 0 [dst.leaves, src.leaves]
  | exp value => inFields 0 [value.leaves]

def Pattern.leaves : Pattern → List CaptureLeaf
  | exp pattern => pattern.leaves
  | stm pattern => pattern.leaves

/-- No variable is captured in twice. -/
def Pattern.Linear (pattern : Pattern) : Prop :=
  (pattern.leaves.map fun leaf => leaf.var.id).Nodup

----------------------------------------------------------------------------------------------
-- Order of leaves
----------------------------------------------------------------------------------------------

/-- Leaves that are listed by the order of their paths: a leaf comes before those to its right. -/
def LeftToRight (leaves : List CaptureLeaf) : Prop :=
  leaves.Pairwise fun leaf later => leaf.path < later.path

theorem le_of_mem_inFields {first : Nat} {fields : List (List CaptureLeaf)} {leaf : CaptureLeaf}
    (member : leaf ∈ inFields first fields)
    : ∃ index path, leaf.path = index :: path ∧ first ≤ index := by
  induction fields generalizing first with
  | nil => cases member
  | cons leaves rest ih =>
      rcases List.mem_append.mp member with here | later
      · obtain ⟨inner, _, rfl⟩ := List.mem_map.mp here
        exact ⟨first, inner.path, rfl, Nat.le_refl first⟩
      · obtain ⟨index, path, isPath, le⟩ := ih later
        exact ⟨index, path, isPath, Nat.le_of_succ_le le⟩

theorem leftToRight_inFields (first : Nat) {fields : List (List CaptureLeaf)}
    (ordered : ∀ leaves ∈ fields, LeftToRight leaves)
    : LeftToRight (inFields first fields) := by
  induction fields generalizing first with
  | nil => exact .nil
  | cons leaves rest ih =>
      obtain ⟨here, later⟩ := List.forall_mem_cons.mp ordered
      refine List.pairwise_append.mpr ⟨?_, ih (first + 1) later, ?_⟩
      · exact List.pairwise_map.mpr (here.imp fun lt => List.cons_lt_cons_iff.mpr (.inr ⟨rfl, lt⟩))
      · intro leaf isHere other isLater
        obtain ⟨inner, _, rfl⟩ := List.mem_map.mp isHere
        obtain ⟨index, path, isPath, le⟩ := le_of_mem_inFields isLater
        rw [isPath]
        exact List.cons_lt_cons_iff.mpr (.inl le)

theorem Leaf.leftToRight {scalar : Scalar} (leaf : Leaf scalar) : LeftToRight leaf.leaves := by
  cases leaf <;> simp [leaves, LeftToRight]

theorem ArgsPattern.leftToRight (args : ArgsPattern) : LeftToRight args.leaves := by
  cases args <;> simp [leaves, LeftToRight]

theorem ExpPattern.leftToRight (pattern : ExpPattern) : LeftToRight pattern.leaves := by
  induction pattern with
  | any | bind _ => simp [leaves, LeftToRight]
  | const leaf | name leaf | temp leaf => exact leftToRight_inFields 0 (by simp [leaf.leftToRight])
  | mem _ ih => exact leftToRight_inFields 0 (by simp [ih])
  | binop op _ _ left right => exact leftToRight_inFields 0 (by simp [op.leftToRight, left, right])
  | call _ args ih => exact leftToRight_inFields 0 (by simp [ih, args.leftToRight])

theorem StmPattern.leftToRight (pattern : StmPattern) : LeftToRight pattern.leaves := by
  cases pattern <;>
    exact leftToRight_inFields 0 (by simp [Leaf.leftToRight, ExpPattern.leftToRight])

theorem Pattern.leftToRight (pattern : Pattern) : LeftToRight pattern.leaves := by
  cases pattern with
  | exp pattern => exact pattern.leftToRight
  | stm pattern => exact pattern.leftToRight

end TreeTiling
