import TreeTiling.Proofs.Pattern.Inversion
import TreeTiling.Proofs.Pattern.Positions

/-!
Matching is exact: it succeeds on the instances of a pattern, and its bindings say what stands at
the capture leaves.

If no variable is captured in twice, every capture can be read back, nothing else can, and filling
the captures into a pattern without wildcards yields the tree that was matched.
-/

namespace TreeTiling

open CaptureLeaf (inFields)

----------------------------------------------------------------------------------------------
-- Instances
----------------------------------------------------------------------------------------------

/-- The values of a leaf pattern: equal to a literal, or accepted by a guard. -/
inductive Leaf.Admits {scalar : Scalar} : Leaf scalar → scalar.Value → Prop where
  | any (value : scalar.Value) : Admits .any value
  | is (literal : scalar.Value) : Admits (.is literal) literal
  | bind (var : Var (.scalar scalar)) (value : scalar.Value) : Admits (.bind var) value
  | guard {condition : Guard scalar} {value : scalar.Value} (var : Var (.scalar scalar))
    (accepted : condition.accepts value = true)
    : Admits (.guard var condition) value

/-- The instances of an expression pattern: the same constructors down to its leaves. -/
inductive ExpPattern.Admits : ExpPattern → Exp → Prop where
  | any (tree : Exp) : Admits .any tree
  | bind (var : Var .exp) (tree : Exp) : Admits (.bind var) tree
  | const {leaf : Leaf .int} {value : Word} (admits : leaf.Admits value)
    : Admits (.const leaf) (.const value)
  | name {leaf : Leaf .label} {label : Label} (admits : leaf.Admits label)
    : Admits (.name leaf) (.name label)
  | temp {leaf : Leaf .temp} {register : Temp} (admits : leaf.Admits register)
    : Admits (.temp leaf) (.temp register)
  | mem {pattern : ExpPattern} {address : Exp} (admits : Admits pattern address)
    : Admits (.mem pattern) (.mem address)
  | binop {leaf : Leaf .binop} {leftPattern rightPattern : ExpPattern} {op : BinOp}
    {left right : Exp} (admitsOp : leaf.Admits op) (admitsLeft : Admits leftPattern left)
    (admitsRight : Admits rightPattern right)
    : Admits (.binop leaf leftPattern rightPattern) (.binop op left right)
  | call {pattern : ExpPattern} {function : Exp} (argsPattern : ArgsPattern) (args : List Exp)
    (admits : Admits pattern function)
    : Admits (.call pattern argsPattern) (.call function args)

/-- The instances of a statement pattern. -/
inductive StmPattern.Admits : StmPattern → Stm → Prop where
  | label {leaf : Leaf .label} {name : Label} (admits : leaf.Admits name)
    : Admits (.label leaf) (.label name)
  | jump {pattern : ExpPattern} {target : Exp} (admits : pattern.Admits target)
    : Admits (.jump pattern) (.jump target)
  | cjump {opLeaf : Leaf .relop} {leftPattern rightPattern : ExpPattern}
    {trueLeaf falseLeaf : Leaf .label} {op : RelOp} {left right : Exp} {ifTrue ifFalse : Label}
    (admitsOp : opLeaf.Admits op) (admitsLeft : leftPattern.Admits left)
    (admitsRight : rightPattern.Admits right) (admitsTrue : trueLeaf.Admits ifTrue)
    (admitsFalse : falseLeaf.Admits ifFalse)
    : Admits (.cjump opLeaf leftPattern rightPattern trueLeaf falseLeaf)
        (.cjump op left right ifTrue ifFalse)
  | cmove {opLeaf : Leaf .relop} {leftPattern rightPattern valuePattern : ExpPattern}
    {dstLeaf : Leaf .temp} {op : RelOp} {left right value : Exp} {dst : Temp}
    (admitsOp : opLeaf.Admits op) (admitsLeft : leftPattern.Admits left)
    (admitsRight : rightPattern.Admits right) (admitsDst : dstLeaf.Admits dst)
    (admitsValue : valuePattern.Admits value)
    : Admits (.cmove opLeaf leftPattern rightPattern dstLeaf valuePattern)
        (.cmove op left right dst value)
  | move {dstPattern srcPattern : ExpPattern} {dst src : Exp} (admitsDst : dstPattern.Admits dst)
    (admitsSrc : srcPattern.Admits src)
    : Admits (.move dstPattern srcPattern) (.move dst src)
  | exp {pattern : ExpPattern} {value : Exp} (admits : pattern.Admits value)
    : Admits (.exp pattern) (.exp value)

section

variable {captures : Captures}

theorem Leaf.admits_iff {scalar : Scalar} {leaf : Leaf scalar} {value : scalar.Value}
    : leaf.Admits value ↔ ∃ captures, leaf.matches? value = some captures := by
  constructor
  · intro admits
    cases admits with
    | any | is | bind | guard => simp [*]
  · intro found
    cases leaf with
    | any => exact .any value
    | bind var => exact .bind var value
    | is literal =>
        obtain ⟨_, found⟩ := found
        obtain ⟨rfl, _⟩ := matches?_is.mp found
        exact .is literal
    | guard var condition =>
        obtain ⟨_, found⟩ := found
        exact .guard var (matches?_guard.mp found).1

theorem ExpPattern.admits_of_matches? {pattern : ExpPattern} {tree : Exp}
    (found : pattern.matches? tree = some captures)
    : pattern.Admits tree := by
  induction pattern generalizing tree captures with
  | any => exact .any tree
  | bind var => exact .bind var tree
  | const leaf =>
      obtain ⟨value, rfl, found⟩ := matches?_const.mp found
      exact .const (Leaf.admits_iff.mpr ⟨_, found⟩)
  | name leaf =>
      obtain ⟨label, rfl, found⟩ := matches?_name.mp found
      exact .name (Leaf.admits_iff.mpr ⟨_, found⟩)
  | temp leaf =>
      obtain ⟨register, rfl, found⟩ := matches?_temp.mp found
      exact .temp (Leaf.admits_iff.mpr ⟨_, found⟩)
  | mem pattern ih =>
      obtain ⟨address, rfl, found⟩ := matches?_mem.mp found
      exact .mem (ih found)
  | binop leaf leftPattern rightPattern left right =>
      obtain ⟨_, _, _, _, _, _, rfl, opFound, leftFound, rightFound, _⟩ := matches?_binop.mp found
      exact .binop (Leaf.admits_iff.mpr ⟨_, opFound⟩) (left leftFound) (right rightFound)
  | call pattern argsPattern ih =>
      obtain ⟨_, args, _, rfl, found, _⟩ := matches?_call.mp found
      exact .call argsPattern args (ih found)

/-- Every instance of an expression pattern is matched; by induction on the instance. -/
theorem ExpPattern.Admits.matches? {pattern : ExpPattern} {tree : Exp}
    (admits : pattern.Admits tree)
    : ∃ captures, pattern.matches? tree = some captures := by
  induction admits with
  | any tree => exact ⟨_, rfl⟩
  | bind var tree => exact ⟨_, rfl⟩
  | const admits | name admits | temp admits =>
      obtain ⟨captures, found⟩ := Leaf.admits_iff.mp admits
      exact ⟨captures, found⟩
  | mem _ ih =>
      obtain ⟨captures, found⟩ := ih
      exact ⟨captures, found⟩
  | binop admitsOp _ _ left right =>
      obtain ⟨_, opFound⟩ := Leaf.admits_iff.mp admitsOp
      obtain ⟨_, leftFound⟩ := left
      obtain ⟨_, rightFound⟩ := right
      exact ⟨_, matches?_binop.mpr
        ⟨_, _, _, _, _, _, rfl, opFound, leftFound, rightFound, rfl⟩⟩
  | call argsPattern args _ ih =>
      obtain ⟨_, found⟩ := ih
      exact ⟨_, matches?_call.mpr ⟨_, _, _, rfl, found, rfl⟩⟩

theorem ExpPattern.admits_iff {pattern : ExpPattern} {tree : Exp}
    : pattern.Admits tree ↔ ∃ captures, pattern.matches? tree = some captures := by
  constructor
  · exact Admits.matches?
  · intro found
    obtain ⟨_, found⟩ := found
    exact admits_of_matches? found

theorem StmPattern.admits_iff {pattern : StmPattern} {tree : Stm}
    : pattern.Admits tree ↔ ∃ captures, pattern.matches? tree = some captures := by
  constructor
  · intro admits
    cases admits <;> simp_all [Leaf.admits_iff, ExpPattern.admits_iff]
  · intro found
    obtain ⟨captures, found⟩ := found
    cases pattern with
    | label leaf =>
        obtain ⟨_, rfl, found⟩ := matches?_label.mp found
        exact .label (Leaf.admits_iff.mpr ⟨_, found⟩)
    | jump pattern =>
        obtain ⟨_, rfl, found⟩ := matches?_jump.mp found
        exact .jump (ExpPattern.admits_of_matches? found)
    | cjump opLeaf leftPattern rightPattern trueLeaf falseLeaf =>
        obtain ⟨_, _, _, _, _, _, _, _, _, _, rfl, opFound, leftFound, rightFound, trueFound,
          falseFound, _⟩ := matches?_cjump.mp found
        exact .cjump (Leaf.admits_iff.mpr ⟨_, opFound⟩) (ExpPattern.admits_of_matches? leftFound)
          (ExpPattern.admits_of_matches? rightFound) (Leaf.admits_iff.mpr ⟨_, trueFound⟩)
          (Leaf.admits_iff.mpr ⟨_, falseFound⟩)
    | cmove opLeaf leftPattern rightPattern dstLeaf valuePattern =>
        obtain ⟨_, _, _, _, _, _, _, _, _, _, rfl, opFound, leftFound, rightFound, dstFound,
          valueFound, _⟩ := matches?_cmove.mp found
        exact .cmove (Leaf.admits_iff.mpr ⟨_, opFound⟩) (ExpPattern.admits_of_matches? leftFound)
          (ExpPattern.admits_of_matches? rightFound) (Leaf.admits_iff.mpr ⟨_, dstFound⟩)
          (ExpPattern.admits_of_matches? valueFound)
    | move dstPattern srcPattern =>
        obtain ⟨_, _, _, _, rfl, dstFound, srcFound, _⟩ := matches?_move.mp found
        exact .move (ExpPattern.admits_of_matches? dstFound)
          (ExpPattern.admits_of_matches? srcFound)
    | exp pattern =>
        obtain ⟨_, rfl, found⟩ := matches?_exp.mp found
        exact .exp (ExpPattern.admits_of_matches? found)

end

----------------------------------------------------------------------------------------------
-- Bindings
----------------------------------------------------------------------------------------------

/-- A binding holds what stands at a capture leaf, and it is of the kind of the leaf's variable. -/
structure Holds (root : List Nat → Option Captured) (leaf : CaptureLeaf)
    (binding : Nat × Captured) : Prop where
  id : binding.1 = leaf.var.id
  here : root leaf.path = some binding.2
  kind : binding.2.kind = leaf.kind

/-- The captures have one binding for each leaf, in the order of the leaves. -/
def ReadsFrom (root : List Nat → Option Captured) (leaves : List CaptureLeaf)
    (captures : Captures) : Prop :=
  List.Forall₂ (Holds root) leaves captures

namespace ReadsFrom

variable {root : List Nat → Option Captured} {part : Captured} {leaves : List CaptureLeaf}
  {fields : List (List CaptureLeaf)} {captures others : Captures} {first : Nat}

/-- The captures of one field come before those of the fields to its right. -/
theorem field (here : ReadsFrom part.at? leaves captures)
    (isField : ∀ path, root (first :: path) = part.at? path)
    (rest : ReadsFrom root (inFields (first + 1) fields) others)
    : ReadsFrom root (inFields first (leaves :: fields)) (captures ++ others) := by
  refine List.rel_append ?_ rest
  refine List.forall₂_map_left_iff.mpr (here.imp ?_)
  intro leaf binding holds
  exact ⟨holds.id, (isField leaf.path).trans holds.here, holds.kind⟩

theorem lastField (here : ReadsFrom part.at? leaves captures)
    (isField : ∀ path, root (first :: path) = part.at? path)
    : ReadsFrom root (inFields first [leaves]) captures := by
  have none : ReadsFrom root (inFields (first + 1) []) [] := .nil
  simpa using here.field isField none

end ReadsFrom

theorem Leaf.readsFrom {scalar : Scalar} {leaf : Leaf scalar} {value : scalar.Value}
    {captures : Captures} (found : leaf.matches? value = some captures)
    : ReadsFrom (Captured.scalar scalar value).at? leaf.leaves captures := by
  cases leaf with
  | any =>
      obtain rfl := matches?_any.mp found
      exact .nil
  | is literal =>
      obtain ⟨_, rfl⟩ := matches?_is.mp found
      exact .nil
  | bind var =>
      obtain rfl := matches?_bind.mp found
      exact List.Forall₂.cons ⟨rfl, rfl, rfl⟩ .nil
  | guard var condition =>
      obtain ⟨_, rfl⟩ := matches?_guard.mp found
      exact List.Forall₂.cons ⟨rfl, rfl, rfl⟩ .nil

theorem ArgsPattern.readsFrom (pattern : ArgsPattern) (args : List Exp)
    : ReadsFrom (Captured.exps args).at? pattern.leaves (pattern.captures args) := by
  cases pattern with
  | any => exact .nil
  | bind var => exact List.Forall₂.cons ⟨rfl, rfl, rfl⟩ .nil

/-- A match of an expression reads its bindings from the tree; by induction on the pattern. -/
theorem ExpPattern.readsFrom {pattern : ExpPattern} {tree : Exp} {captures : Captures}
    (found : pattern.matches? tree = some captures)
    : ReadsFrom (Captured.exp tree).at? pattern.leaves captures := by
  induction pattern generalizing tree captures with
  | any =>
      obtain rfl := Option.some.inj found
      exact .nil
  | bind var =>
      obtain rfl := matches?_bind.mp found
      exact List.Forall₂.cons ⟨rfl, rfl, rfl⟩ .nil
  | const leaf =>
      obtain ⟨_, rfl, found⟩ := matches?_const.mp found
      exact (Leaf.readsFrom found).lastField fun _ => rfl
  | name leaf =>
      obtain ⟨_, rfl, found⟩ := matches?_name.mp found
      exact (Leaf.readsFrom found).lastField fun _ => rfl
  | temp leaf =>
      obtain ⟨_, rfl, found⟩ := matches?_temp.mp found
      exact (Leaf.readsFrom found).lastField fun _ => rfl
  | mem pattern ih =>
      obtain ⟨_, rfl, found⟩ := matches?_mem.mp found
      exact (ih found).lastField fun _ => rfl
  | binop leaf leftPattern rightPattern left right =>
      obtain ⟨_, _, _, _, _, _, rfl, opFound, leftFound, rightFound, rfl⟩ :=
        matches?_binop.mp found
      refine (Leaf.readsFrom opFound).field (fun _ => rfl) ?_
      exact (left leftFound).field (fun _ => rfl) ((right rightFound).lastField fun _ => rfl)
  | call pattern argsPattern ih =>
      obtain ⟨_, args, _, rfl, functionFound, rfl⟩ := matches?_call.mp found
      refine (ih functionFound).field (fun _ => rfl) ?_
      exact (argsPattern.readsFrom args).lastField fun _ => rfl

theorem StmPattern.readsFrom {pattern : StmPattern} {tree : Stm} {captures : Captures}
    (found : pattern.matches? tree = some captures)
    : ReadsFrom (Node.stm tree).at? pattern.leaves captures := by
  cases pattern with
  | label leaf =>
      obtain ⟨_, rfl, found⟩ := matches?_label.mp found
      exact (Leaf.readsFrom found).lastField fun _ => rfl
  | jump pattern =>
      obtain ⟨_, rfl, found⟩ := matches?_jump.mp found
      exact (ExpPattern.readsFrom found).lastField fun _ => rfl
  | cjump opLeaf leftPattern rightPattern trueLeaf falseLeaf =>
      obtain ⟨_, _, _, _, _, _, _, _, _, _, rfl, opFound, leftFound, rightFound, trueFound,
        falseFound, rfl⟩ := matches?_cjump.mp found
      refine (Leaf.readsFrom opFound).field (fun _ => rfl) ?_
      refine (ExpPattern.readsFrom leftFound).field (fun _ => rfl) ?_
      refine (ExpPattern.readsFrom rightFound).field (fun _ => rfl) ?_
      refine (Leaf.readsFrom trueFound).field (fun _ => rfl) ?_
      exact (Leaf.readsFrom falseFound).lastField fun _ => rfl
  | cmove opLeaf leftPattern rightPattern dstLeaf valuePattern =>
      obtain ⟨_, _, _, _, _, _, _, _, _, _, rfl, opFound, leftFound, rightFound, dstFound,
        valueFound, rfl⟩ := matches?_cmove.mp found
      refine (Leaf.readsFrom opFound).field (fun _ => rfl) ?_
      refine (ExpPattern.readsFrom leftFound).field (fun _ => rfl) ?_
      refine (ExpPattern.readsFrom rightFound).field (fun _ => rfl) ?_
      refine (Leaf.readsFrom dstFound).field (fun _ => rfl) ?_
      exact (ExpPattern.readsFrom valueFound).lastField fun _ => rfl
  | move dstPattern srcPattern =>
      obtain ⟨_, _, _, _, rfl, dstFound, srcFound, rfl⟩ := matches?_move.mp found
      refine (ExpPattern.readsFrom dstFound).field (fun _ => rfl) ?_
      exact (ExpPattern.readsFrom srcFound).lastField fun _ => rfl
  | exp pattern =>
      obtain ⟨_, rfl, found⟩ := matches?_exp.mp found
      exact (ExpPattern.readsFrom found).lastField fun _ => rfl

----------------------------------------------------------------------------------------------
-- Reading captures back
----------------------------------------------------------------------------------------------

namespace ReadsFrom

variable {root : List Nat → Option Captured} {leaves : List CaptureLeaf} {captures : Captures}

theorem ids_eq (reads : ReadsFrom root leaves captures)
    : captures.map Prod.fst = leaves.map fun leaf => leaf.var.id := by
  induction reads with
  | nil => rfl
  | cons holds _ ih => simp [holds.id, ih]

/-- What is found under a number was captured by a leaf whose variable has that number. -/
theorem of_lookup (reads : ReadsFrom root leaves captures) {id : Nat} {captured : Captured}
    (found : captures.lookup id = some captured)
    : ∃ leaf ∈ leaves, Holds root leaf (id, captured) := by
  induction reads with
  | nil => cases found
  | @cons leaf binding _ _ holds _ ih =>
      obtain ⟨other, value⟩ := binding
      by_cases same : id = other
      · subst same
        obtain rfl : value = captured := by simpa using found
        exact ⟨leaf, List.mem_cons_self, holds⟩
      · rw [List.lookup_cons, beq_false_of_ne same] at found
        obtain ⟨later, member, held⟩ := ih found
        exact ⟨later, List.mem_cons_of_mem _ member, held⟩

/-- Where no variable is captured in twice, a leaf finds its own binding. -/
theorem lookup (reads : ReadsFrom root leaves captures)
    (linear : (leaves.map fun leaf => leaf.var.id).Nodup) {leaf : CaptureLeaf}
    (member : leaf ∈ leaves)
    : ∃ captured, captures.lookup leaf.var.id = some captured
        ∧ Holds root leaf (leaf.var.id, captured) := by
  induction reads with
  | nil => cases member
  | @cons first binding _ _ holds _ ih =>
      obtain ⟨id, value⟩ := binding
      obtain rfl : id = first.var.id := holds.id
      obtain ⟨fresh, linear⟩ := List.nodup_cons.mp linear
      rcases List.mem_cons.mp member with rfl | later
      · exact ⟨value, by simp, holds⟩
      · obtain ⟨captured, found, held⟩ := ih linear later
        have differs : leaf.var.id ≠ first.var.id := by
          intro same
          exact fresh (List.mem_map.mpr ⟨leaf, later, same⟩)
        refine ⟨captured, ?_, held⟩
        rw [List.lookup_cons, beq_false_of_ne differs]
        exact found

/-- The variable of a leaf gives what stands at the leaf's position. -/
theorem get_leaf (reads : ReadsFrom root leaves captures)
    (linear : (leaves.map fun leaf => leaf.var.id).Nodup) {leaf : CaptureLeaf}
    (member : leaf ∈ leaves)
    : ∃ value, root leaf.path = some (leaf.kind.captured value)
        ∧ captures.get leaf.var = .ok value := by
  obtain ⟨captured, found, holds⟩ := reads.lookup linear member
  obtain ⟨value, rfl⟩ := Captured.exists_eq_captured holds.kind
  exact ⟨value, holds.here, by simp [Captures.get, found, Captured.as?_captured]⟩

/-- A variable that no leaf captures in, or not with this kind, is not bound. -/
theorem get_unbound (reads : ReadsFrom root leaves captures) {kind : Kind} {var : Var kind}
    (other : ∀ leaf ∈ leaves, leaf.var.id ≠ var.id ∨ leaf.kind ≠ kind)
    : captures.get var = .error (.unboundCapture var.name) := by
  have none : (captures.lookup var.id).bind (Captured.as? kind) = none := by
    by_contra some
    obtain ⟨value, isValue⟩ := Option.ne_none_iff_exists'.mp some
    obtain ⟨captured, found, isKind⟩ := Option.bind_eq_some_iff.mp isValue
    obtain ⟨leaf, member, holds⟩ := reads.of_lookup found
    obtain rfl := Captured.as?_eq_some_iff.mp isKind
    rcases other leaf member with otherId | otherKind
    · exact otherId holds.id.symm
    · exact otherKind (holds.kind.symm.trans (Captured.kind_captured kind value))
  simp only [Captures.get, none]

end ReadsFrom

----------------------------------------------------------------------------------------------
-- Filling captures in
----------------------------------------------------------------------------------------------

def Leaf.hasWildcard {scalar : Scalar} : Leaf scalar → Bool
  | any => true
  | _ => false

def ArgsPattern.hasWildcard : ArgsPattern → Bool
  | any => true
  | bind _ => false

/-- Whether a pattern leaves something open that it does not capture. -/
def ExpPattern.hasWildcard : ExpPattern → Bool
  | any => true
  | bind _ => false
  | const leaf => leaf.hasWildcard
  | name leaf => leaf.hasWildcard
  | temp leaf => leaf.hasWildcard
  | mem address => address.hasWildcard
  | binop op left right => op.hasWildcard || left.hasWildcard || right.hasWildcard
  | call function args => function.hasWildcard || args.hasWildcard

def StmPattern.hasWildcard : StmPattern → Bool
  | label name => name.hasWildcard
  | jump target => target.hasWildcard
  | cjump op left right ifTrue ifFalse =>
      op.hasWildcard || left.hasWildcard || right.hasWildcard || ifTrue.hasWildcard
        || ifFalse.hasWildcard
  | cmove op left right dst value =>
      op.hasWildcard || left.hasWildcard || right.hasWildcard || dst.hasWildcard
        || value.hasWildcard
  | move dst src => dst.hasWildcard || src.hasWildcard
  | exp value => value.hasWildcard

section

variable (captures : Captures)

/-- What a leaf stands for once its variable is replaced; a wildcard stands for nothing. -/
def Leaf.fill? {scalar : Scalar} : Leaf scalar → Option scalar.Value
  | any => none
  | is literal => some literal
  | bind var | guard var _ => (captures.get var).toOption

def ArgsPattern.fill? : ArgsPattern → Option (List Exp)
  | any => none
  | bind var => (captures.get var).toOption

/-- The tree that a pattern becomes when its variables are replaced by what they captured. -/
def ExpPattern.fill? : ExpPattern → Option Exp
  | any => none
  | bind var => (captures.get var).toOption
  | const leaf => return .const (← leaf.fill? captures)
  | name leaf => return .name (← leaf.fill? captures)
  | temp leaf => return .temp (← leaf.fill? captures)
  | mem address => return .mem (← address.fill?)
  | binop op left right => return .binop (← op.fill? captures) (← left.fill?) (← right.fill?)
  | call function args => return .call (← function.fill?) (← args.fill? captures)

def StmPattern.fill? : StmPattern → Option Stm
  | label name => return .label (← name.fill? captures)
  | jump target => return .jump (← target.fill? captures)
  | cjump op left right ifTrue ifFalse =>
      return .cjump (← op.fill? captures) (← left.fill? captures) (← right.fill? captures)
        (← ifTrue.fill? captures) (← ifFalse.fill? captures)
  | cmove op left right dst value =>
      return .cmove (← op.fill? captures) (← left.fill? captures) (← right.fill? captures)
        (← dst.fill? captures) (← value.fill? captures)
  | move dst src => return .move (← dst.fill? captures) (← src.fill? captures)
  | exp value => return .exp (← value.fill? captures)

end

/-- The variables of leaves give what stands at the leaves' positions. -/
def Serves (captures : Captures) (root : List Nat → Option Captured) (leaves : List CaptureLeaf)
    : Prop :=
  ∀ leaf ∈ leaves, ∀ value,
    root leaf.path = some (leaf.kind.captured value) → captures.get leaf.var = .ok value

section

variable {captures : Captures} {root : List Nat → Option Captured}

theorem ReadsFrom.serves {leaves : List CaptureLeaf} (reads : ReadsFrom root leaves captures)
    (linear : (leaves.map fun leaf => leaf.var.id).Nodup)
    : Serves captures root leaves := by
  intro leaf member value isValue
  obtain ⟨read, here, got⟩ := reads.get_leaf linear member
  have same := Captured.as?_eq_some_iff.mpr (Option.some.inj (here.symm.trans isValue))
  rw [Captured.as?_captured] at same
  rw [got, Option.some.inj same]

namespace Serves

variable {leaves : List CaptureLeaf} {fields : List (List CaptureLeaf)} {part : Captured}
  {first : Nat}

theorem field (serves : Serves captures root (inFields first (leaves :: fields)))
    (isField : ∀ path, root (first :: path) = part.at? path)
    : Serves captures part.at? leaves := by
  intro leaf member value here
  refine serves (leaf.under first) ?_ value ((isField leaf.path).trans here)
  exact List.mem_append_left _ (List.mem_map_of_mem member)

theorem rest (serves : Serves captures root (inFields first (leaves :: fields)))
    : Serves captures root (inFields (first + 1) fields) :=
  fun leaf member => serves leaf (List.mem_append_right _ member)

end Serves

theorem Leaf.Admits.fill? {scalar : Scalar} {leaf : Leaf scalar} {value : scalar.Value}
    (admits : leaf.Admits value) (closed : leaf.hasWildcard = false)
    (serves : Serves captures (Captured.scalar scalar value).at? leaf.leaves)
    : leaf.fill? captures = some value := by
  cases admits with
  | any => cases closed
  | is => rfl
  | bind var | guard var =>
      have got : captures.get var = .ok value := serves _ List.mem_cons_self value rfl
      simp [Leaf.fill?, got, Except.toOption]

theorem ArgsPattern.fill?_of_serves {pattern : ArgsPattern} {args : List Exp}
    (closed : pattern.hasWildcard = false)
    (serves : Serves captures (Captured.exps args).at? pattern.leaves)
    : pattern.fill? captures = some args := by
  cases pattern with
  | any => cases closed
  | bind var =>
      have got : captures.get var = .ok args := serves _ List.mem_cons_self args rfl
      simp [fill?, got, Except.toOption]

/-- An instance of a pattern without wildcards is rebuilt; by induction on the instance. -/
theorem ExpPattern.Admits.fill? {pattern : ExpPattern} {tree : Exp} (admits : pattern.Admits tree)
    (closed : pattern.hasWildcard = false)
    (serves : Serves captures (Captured.exp tree).at? pattern.leaves)
    : pattern.fill? captures = some tree := by
  induction admits with
  | any => cases closed
  | bind var tree =>
      have got : captures.get var = .ok tree := serves _ List.mem_cons_self tree rfl
      simp [ExpPattern.fill?, got, Except.toOption]
  | const admits | name admits | temp admits =>
      simp [ExpPattern.fill?, admits.fill? closed (serves.field fun _ => rfl)]
  | mem _ ih =>
      simp [ExpPattern.fill?, ih closed (serves.field fun _ => rfl)]
  | binop admitsOp _ _ left right =>
      simp only [hasWildcard, Bool.or_eq_false_iff] at closed
      obtain ⟨⟨closedOp, closedLeft⟩, closedRight⟩ := closed
      have opFilled := admitsOp.fill? closedOp (serves.field fun _ => rfl)
      have leftFilled := left closedLeft (serves.rest.field fun _ => rfl)
      have rightFilled := right closedRight (serves.rest.rest.field fun _ => rfl)
      simp [ExpPattern.fill?, opFilled, leftFilled, rightFilled]
  | call argsPattern args _ ih =>
      simp only [hasWildcard, Bool.or_eq_false_iff] at closed
      have functionFilled := ih closed.1 (serves.field fun _ => rfl)
      have argsFilled : argsPattern.fill? captures = some args :=
        argsPattern.fill?_of_serves closed.2 (serves.rest.field fun _ => rfl)
      simp [ExpPattern.fill?, functionFilled, argsFilled]

theorem StmPattern.Admits.fill? {pattern : StmPattern} {tree : Stm} (admits : pattern.Admits tree)
    (closed : pattern.hasWildcard = false)
    (serves : Serves captures (Node.stm tree).at? pattern.leaves)
    : pattern.fill? captures = some tree := by
  cases admits with
  | label admits =>
      simp [StmPattern.fill?, admits.fill? closed (serves.field fun _ => rfl)]
  | jump admits | exp admits =>
      simp [StmPattern.fill?, admits.fill? closed (serves.field fun _ => rfl)]
  | cjump admitsOp admitsLeft admitsRight admitsTrue admitsFalse =>
      simp only [hasWildcard, Bool.or_eq_false_iff] at closed
      obtain ⟨⟨⟨⟨closedOp, closedLeft⟩, closedRight⟩, closedTrue⟩, closedFalse⟩ := closed
      have later := serves.rest.rest
      have opFilled := admitsOp.fill? closedOp (serves.field fun _ => rfl)
      have leftFilled := admitsLeft.fill? closedLeft (serves.rest.field fun _ => rfl)
      have rightFilled := admitsRight.fill? closedRight (later.field fun _ => rfl)
      have trueFilled := admitsTrue.fill? closedTrue (later.rest.field fun _ => rfl)
      have falseFilled := admitsFalse.fill? closedFalse (later.rest.rest.field fun _ => rfl)
      simp [StmPattern.fill?, opFilled, leftFilled, rightFilled, trueFilled, falseFilled]
  | cmove admitsOp admitsLeft admitsRight admitsDst admitsValue =>
      simp only [hasWildcard, Bool.or_eq_false_iff] at closed
      obtain ⟨⟨⟨⟨closedOp, closedLeft⟩, closedRight⟩, closedDst⟩, closedValue⟩ := closed
      have later := serves.rest.rest
      have opFilled := admitsOp.fill? closedOp (serves.field fun _ => rfl)
      have leftFilled := admitsLeft.fill? closedLeft (serves.rest.field fun _ => rfl)
      have rightFilled := admitsRight.fill? closedRight (later.field fun _ => rfl)
      have dstFilled := admitsDst.fill? closedDst (later.rest.field fun _ => rfl)
      have valueFilled := admitsValue.fill? closedValue (later.rest.rest.field fun _ => rfl)
      simp [StmPattern.fill?, opFilled, leftFilled, rightFilled, dstFilled, valueFilled]
  | move admitsDst admitsSrc =>
      simp only [hasWildcard, Bool.or_eq_false_iff] at closed
      have dstFilled := admitsDst.fill? closed.1 (serves.field fun _ => rfl)
      have srcFilled := admitsSrc.fill? closed.2 (serves.rest.field fun _ => rfl)
      simp [StmPattern.fill?, dstFilled, srcFilled]

end

----------------------------------------------------------------------------------------------
-- Patterns of both sorts
----------------------------------------------------------------------------------------------

namespace Pattern

/-- The bindings of a pattern, if the node is an instance of it. -/
def matches? : Pattern → Node → Option Captures
  | exp pattern, .exp tree => pattern.matches? tree
  | stm pattern, .stm tree => pattern.matches? tree
  | _, _ => none

/-- The instances of a pattern are nodes of its sort. -/
inductive Admits : Pattern → Node → Prop where
  | exp {pattern : ExpPattern} {tree : Exp} (admits : pattern.Admits tree)
    : Admits (.exp pattern) (.exp tree)
  | stm {pattern : StmPattern} {tree : Stm} (admits : pattern.Admits tree)
    : Admits (.stm pattern) (.stm tree)

def hasWildcard : Pattern → Bool
  | exp pattern => pattern.hasWildcard
  | stm pattern => pattern.hasWildcard

/-- The node that a pattern becomes when its variables are replaced by what they captured. -/
def fill? (captures : Captures) : Pattern → Option Node
  | exp pattern => return .exp (← pattern.fill? captures)
  | stm pattern => return .stm (← pattern.fill? captures)

theorem admits_iff {pattern : Pattern} {node : Node}
    : pattern.Admits node ↔ ∃ captures, pattern.matches? node = some captures := by
  constructor
  · intro admits
    cases admits with
    | exp admits => exact ExpPattern.admits_iff.mp admits
    | stm admits => exact StmPattern.admits_iff.mp admits
  · intro found
    cases pattern with
    | exp pattern =>
        cases node with
        | exp tree => exact .exp (ExpPattern.admits_iff.mpr found)
        | stm tree => simp [matches?] at found
    | stm pattern =>
        cases node with
        | exp tree => simp [matches?] at found
        | stm tree => exact .stm (StmPattern.admits_iff.mpr found)

theorem readsFrom {pattern : Pattern} {node : Node} {captures : Captures}
    (found : pattern.matches? node = some captures)
    : ReadsFrom node.at? pattern.leaves captures := by
  cases pattern with
  | exp pattern =>
      cases node with
      | exp tree => exact ExpPattern.readsFrom found
      | stm tree => cases found
  | stm pattern =>
      cases node with
      | exp tree => cases found
      | stm tree => exact StmPattern.readsFrom found

theorem Admits.fill? {pattern : Pattern} {node : Node} {captures : Captures}
    (admits : pattern.Admits node) (closed : pattern.hasWildcard = false)
    (serves : Serves captures node.at? pattern.leaves)
    : pattern.fill? captures = some node := by
  cases admits with
  | exp admits => simp [Pattern.fill?, admits.fill? closed serves]
  | stm admits => simp [Pattern.fill?, admits.fill? closed serves]

/-- A pattern in which no variable is captured in twice matches its instances and nothing else.
A match has one binding for each capture leaf, from left to right. The variable of a leaf gives
what stands at the leaf's position, and any other variable, or one of another kind, is not bound.
If the pattern has no wildcard, filling the captures in yields the node again.
-/
theorem matches_exactly_instances (pattern : Pattern) (linear : pattern.Linear) (node : Node)
    : ((∃ captures, pattern.matches? node = some captures) ↔ pattern.Admits node)
      ∧ ∀ captures,
          pattern.matches? node = some captures
          → (captures.map Prod.fst = pattern.leaves.map fun leaf => leaf.var.id)
            ∧ LeftToRight pattern.leaves
            ∧ (∀ leaf ∈ pattern.leaves,
                ∃ value,
                  node.at? leaf.path = some (leaf.kind.captured value)
                  ∧ captures.get leaf.var = .ok value)
            ∧ (∀ (kind : Kind) (var : Var kind),
                (∀ leaf ∈ pattern.leaves, leaf.var.id ≠ var.id ∨ leaf.kind ≠ kind)
                → captures.get var = .error (.unboundCapture var.name))
            ∧ (pattern.hasWildcard = false → pattern.fill? captures = some node) := by
  refine ⟨admits_iff.symm, fun captures found => ?_⟩
  have reads := readsFrom found
  refine ⟨reads.ids_eq, pattern.leftToRight, ?_, ?_, ?_⟩
  · exact fun leaf member => reads.get_leaf linear member
  · exact fun kind var other => reads.get_unbound other
  · exact fun closed => (admits_iff.mpr ⟨captures, found⟩).fill? closed (reads.serves linear)

instance (pattern : Pattern) : Decidable pattern.Linear :=
  inferInstanceAs (Decidable (List.Nodup _))

/-- The arguments of a call, as one capture of many. -/
def passed : Var .exps := ⟨5, "args"⟩

/-- A conditional move of a call's result, with a capture of every kind but one. -/
def conditionalCall : Pattern :=
  .stm (.cmove (.bind ⟨0, "op"⟩) (.bind ⟨1, "a"⟩) (.const (.guard ⟨2, "i"⟩ ⟨"odd", (· % 2 == 1)⟩))
    (.bind ⟨3, "d"⟩) (.call (.name (.bind ⟨4, "f"⟩)) (.bind passed)))

def conditionalCallNode : Node :=
  .stm (.cmove .ult (.mem (.temp (.fixed "%rbp"))) (.const 7) (.virtual 1)
    (.call (.name ⟨"next"⟩) [.const 2, .temp (.virtual 0)]))

/-- The arguments are read back, the same number names no expression, and the move is rebuilt. -/
theorem conditionalCall_matched
    : conditionalCall.Linear
      ∧ conditionalCall.hasWildcard = false
      ∧ ∃ captures,
          conditionalCall.matches? conditionalCallNode = some captures
          ∧ captures.get passed = .ok [.const 2, .temp (.virtual 0)]
          ∧ captures.get (⟨5, "e"⟩ : Var .exp) = .error (.unboundCapture "e")
          ∧ conditionalCall.fill? captures = some conditionalCallNode := by
  have linear : conditionalCall.Linear := by decide
  obtain ⟨matched, faithful⟩ :=
    matches_exactly_instances conditionalCall linear conditionalCallNode
  have admits : conditionalCall.Admits conditionalCallNode :=
    .stm (.cmove (.bind _ _) (.bind _ _) (.const (.guard _ rfl)) (.bind _ _)
      (.call _ _ (.name (.bind _ _))))
  obtain ⟨captures, found⟩ := matched.mpr admits
  obtain ⟨_, _, gets, unbound, rebuilt⟩ := faithful captures found
  refine ⟨linear, rfl, captures, found, ?_, ?_, rebuilt rfl⟩
  · obtain ⟨value, here, got⟩ := gets ⟨[4, 1], .exps, passed⟩ (.tail _ (.tail _ (.tail _
      (.tail _ (.tail _ (.head _))))))
    cases here
    exact got
  · refine unbound .exp ⟨5, "e"⟩ ?_
    decide

end Pattern

end TreeTiling
