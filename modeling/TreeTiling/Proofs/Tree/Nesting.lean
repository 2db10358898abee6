import TreeTiling.Proofs.Tree.Occurrence

/-!
How deeply rules nest on a tree, and which calls in it do not go to labels.
-/

namespace TreeTiling

----------------------------------------------------------------------------------------------
-- Calls
----------------------------------------------------------------------------------------------

namespace Exp

/-- Every call inside goes to a label. -/
def CallsLabels (tree : Exp) : Prop :=
  ∀ callee args, call callee args ∈ tree.subtrees → ∃ function, callee = name function

theorem subtrees_arg_subset {callee arg : Exp} {args : List Exp} (member : arg ∈ args)
    : arg.subtrees ⊆ (call callee args).subtrees := by
  intro part occurs
  rw [subtrees, argsSubtrees_eq]
  exact List.mem_cons_of_mem _ (List.mem_append_right _ (List.mem_flatMap_of_mem member occurs))

mutual

/-- What is inside a part is inside the whole. -/
theorem subtrees_subset_of_mem
    : ∀ {whole part : Exp}, part ∈ whole.subtrees → part.subtrees ⊆ whole.subtrees
  | const _, _, inside | name _, _, inside | temp _, _, inside => by
      rw [subtrees] at inside
      rw [List.mem_singleton.mp inside]
      exact List.Subset.refl _
  | mem address, part, inside => by
      rw [subtrees] at inside
      rcases List.mem_cons.mp inside with rfl | deeper
      · exact List.Subset.refl _
      · exact List.subset_cons_of_subset _ (subtrees_subset_of_mem deeper)
  | binop op left right, part, inside => by
      rw [subtrees] at inside
      rcases List.mem_cons.mp inside with rfl | deeper
      · exact List.Subset.refl _
      · rcases List.mem_append.mp deeper with inLeft | inRight
        · exact List.subset_cons_of_subset _
            (List.subset_append_of_subset_left _ (subtrees_subset_of_mem inLeft))
        · exact List.subset_cons_of_subset _
            (List.subset_append_of_subset_right _ (subtrees_subset_of_mem inRight))
  | call function args, part, inside => by
      rw [subtrees] at inside
      rcases List.mem_cons.mp inside with rfl | deeper
      · exact List.Subset.refl _
      · rcases List.mem_append.mp deeper with inFunction | inArgs
        · exact List.subset_cons_of_subset _
            (List.subset_append_of_subset_left _ (subtrees_subset_of_mem inFunction))
        · exact List.subset_cons_of_subset _
            (List.subset_append_of_subset_right _ (subtrees_subset_of_mem_args inArgs))

theorem subtrees_subset_of_mem_args
    : ∀ {args : List Exp} {part : Exp}, part ∈ argsSubtrees args → part.subtrees ⊆ argsSubtrees args
  | [], part, inside => by
      rw [argsSubtrees] at inside
      exact absurd inside List.not_mem_nil
  | arg :: rest, part, inside => by
      rw [argsSubtrees] at inside ⊢
      rcases List.mem_append.mp inside with inArg | inRest
      · exact List.subset_append_of_subset_left _ (subtrees_subset_of_mem inArg)
      · exact List.subset_append_of_subset_right _ (subtrees_subset_of_mem_args inRest)

end

def isIndirectCall : Exp → Bool
  | call (name _) _ => false
  | call _ _ => true
  | _ => false

/-- The calls inside that do not go to labels. -/
def indirectCalls (tree : Exp) : List Exp :=
  tree.subtrees.filter isIndirectCall

theorem eq_call_of_isIndirectCall {tree : Exp} (indirect : tree.isIndirectCall = true)
    : ∃ callee args, tree = call callee args ∧ ∀ function, callee ≠ name function := by
  unfold isIndirectCall at indirect
  split at indirect
  · cases indirect
  · next callee args notName => exact ⟨callee, args, rfl, notName⟩
  · cases indirect

theorem isIndirectCall_call {callee : Exp} (args : List Exp)
    (indirect : ∀ function, callee ≠ name function)
    : (call callee args).isIndirectCall = true := by
  cases callee with
  | name function => exact absurd rfl (indirect function)
  | const _ | temp _ | mem _ | binop _ _ _ | call _ _ => rfl

theorem callsLabels_iff {tree : Exp} : tree.CallsLabels ↔ tree.indirectCalls = [] := by
  rw [indirectCalls, List.filter_eq_nil_iff]
  constructor
  · intro direct part occurs indirect
    obtain ⟨callee, args, rfl, notName⟩ := eq_call_of_isIndirectCall indirect
    obtain ⟨function, isName⟩ := direct callee args occurs
    exact notName function isName
  · intro none callee args occurs
    cases callee with
    | name function => exact ⟨function, rfl⟩
    | const _ | temp _ | mem _ | binop _ _ _ | call _ _ => exact absurd rfl (none _ occurs)

@[simp]
theorem indirectCalls_const (value : Word) : (const value).indirectCalls = [] := by
  simp [indirectCalls, isIndirectCall]

@[simp]
theorem indirectCalls_name (label : Label) : (name label).indirectCalls = [] := by
  simp [indirectCalls, isIndirectCall]

@[simp]
theorem indirectCalls_temp (register : Temp) : (temp register).indirectCalls = [] := by
  simp [indirectCalls, isIndirectCall]

@[simp]
theorem indirectCalls_mem (address : Exp)
    : (mem address).indirectCalls = address.indirectCalls := by
  simp [indirectCalls, isIndirectCall]

@[simp]
theorem indirectCalls_binop (op : BinOp) (left right : Exp)
    : (binop op left right).indirectCalls = left.indirectCalls ++ right.indirectCalls := by
  simp [indirectCalls, isIndirectCall]

@[simp]
theorem indirectCalls_call_name (function : Label) (args : List Exp)
    : (call (name function) args).indirectCalls = args.flatMap indirectCalls := by
  simp only [indirectCalls, subtrees, isIndirectCall, argsSubtrees_eq, List.filter_flatMap,
    List.filter_cons_of_neg, Bool.false_eq_true, not_false_eq_true, List.filter_append,
    List.filter_nil, List.nil_append]
  rfl

theorem indirectCalls_arg_subset {callee arg : Exp} {args : List Exp} (member : arg ∈ args)
    : arg.indirectCalls ⊆ (call callee args).indirectCalls := by
  intro part occurs
  obtain ⟨inside, indirect⟩ := List.mem_filter.mp occurs
  exact List.mem_filter.mpr ⟨subtrees_arg_subset member inside, indirect⟩

theorem callsLabels_of_isCallFree {tree : Exp} (callFree : tree.isCallFree = true)
    : tree.CallsLabels := by
  intro callee args occurs
  have noCall := List.all_eq_true.mp callFree _ occurs
  simp [isCall] at noCall

end Exp

----------------------------------------------------------------------------------------------
-- Heights
----------------------------------------------------------------------------------------------

namespace Exp

theorem height_pos (tree : Exp) : 0 < tree.height := by
  cases tree <;> simp [height]

/-- The trees without parts. -/
theorem leaf_cases {tree : Exp} (leaf : tree.height = 1)
    : (∃ value, tree = const value)
      ∨ (∃ label, tree = name label)
      ∨ ∃ register, tree = temp register := by
  cases tree with
  | const value => exact .inl ⟨value, rfl⟩
  | name label => exact .inr (.inl ⟨label, rfl⟩)
  | temp register => exact .inr (.inr ⟨register, rfl⟩)
  | mem part | binop _ part _ | call part _ =>
      have positive := part.height_pos
      rw [height] at leaf
      omega

theorem height_le_argsHeight {arg : Exp} {args : List Exp} (member : arg ∈ args)
    : arg.height ≤ argsHeight args := by
  induction args with
  | nil => exact absurd member List.not_mem_nil
  | cons first rest ih =>
      rw [argsHeight]
      rcases List.mem_cons.mp member with rfl | later
      · exact Nat.le_max_left _ _
      · exact Nat.le_trans (ih later) (Nat.le_max_right _ _)

end Exp

namespace Stm

/-- An operand of a statement is lower than the statement. -/
theorem height_lt_of_mem_operands {tree : Stm} {operand : Exp} (member : operand ∈ tree.operands)
    : operand.height < tree.height := by
  cases tree with
  | label _ | seq _ => exact absurd member List.not_mem_nil
  | jump _ | cjump _ _ _ _ _ | cmove _ _ _ _ _ | move _ _ | exp _ =>
      simp only [operands, List.mem_cons, List.not_mem_nil, or_false] at member
      rw [height]
      grind

mutual

/-- The parts of a statement are no higher than the statement. -/
theorem height_le_of_mem_flatten {part : Stm}
    : ∀ {tree : Stm}, part ∈ tree.flatten → part.height ≤ tree.height
  | seq statements, member => by
      rw [flatten] at member
      rw [height]
      exact Nat.le_succ_of_le (height_le_of_mem_flattenAll member)
  | label _, member | jump _, member | cjump _ _ _ _ _, member | cmove _ _ _ _ _, member
  | move _ _, member | exp _, member => by
      simp only [flatten, List.mem_singleton] at member
      exact Nat.le_of_eq (congrArg height member)

theorem height_le_of_mem_flattenAll {part : Stm}
    : ∀ {statements : List Stm}, part ∈ flattenAll statements → part.height ≤ allHeight statements
  | first :: rest, member => by
      rw [flattenAll] at member
      rw [allHeight]
      rcases List.mem_append.mp member with here | later
      · exact Nat.le_trans (height_le_of_mem_flatten here) (Nat.le_max_left _ _)
      · exact Nat.le_trans (height_le_of_mem_flattenAll later) (Nat.le_max_right _ _)

end

mutual

/-- The parts of a statement are no sequences. -/
theorem ne_seq_of_mem_flatten {part : Stm} {statements : List Stm}
    : ∀ {tree : Stm}, part ∈ tree.flatten → part ≠ seq statements
  | seq inner, member => by
      rw [flatten] at member
      exact ne_seq_of_mem_flattenAll member
  | label _, member | jump _, member | cjump _ _ _ _ _, member | cmove _ _ _ _ _, member
  | move _ _, member | exp _, member => by
      simp only [flatten, List.mem_singleton] at member
      simp [member]

theorem ne_seq_of_mem_flattenAll {part : Stm} {statements : List Stm}
    : ∀ {inner : List Stm}, part ∈ flattenAll inner → part ≠ seq statements
  | first :: rest, member => by
      rw [flattenAll] at member
      rcases List.mem_append.mp member with here | later
      · exact ne_seq_of_mem_flatten here
      · exact ne_seq_of_mem_flattenAll later

end

theorem flatten_of_ne_seq {tree : Stm} (flat : ∀ statements, tree ≠ seq statements)
    : tree.flatten = [tree] := by
  cases tree with
  | label _ | jump _ | cjump _ _ _ _ _ | cmove _ _ _ _ _ | move _ _ | exp _ => simp only [flatten]
  | seq statements => exact absurd rfl (flat statements)

/-- Statements that are no sequences are their own parts; by induction on them. -/
theorem flattenAll_of_flat {parts : List Stm}
    (flat : ∀ part ∈ parts, ∀ statements, part ≠ seq statements)
    : flattenAll parts = parts := by
  induction parts with
  | nil => rw [flattenAll]
  | cons part rest ih =>
      have single := flatten_of_ne_seq (flat part List.mem_cons_self)
      rw [flattenAll, single, ih fun other member => flat other (List.mem_cons_of_mem part member)]
      rfl

end Stm

----------------------------------------------------------------------------------------------
-- Depths
----------------------------------------------------------------------------------------------

namespace Exp

/-- How deeply rules nest on the value of a tree, at most: a call takes three levels more, for the
stores of its arguments.
-/
def depth (tree : Exp) : Nat :=
  if tree.isCallFree then tree.height else tree.height + 3

theorem depth_le (tree : Exp) : tree.depth ≤ tree.height + 3 := by
  unfold depth
  split <;> omega

theorem depth_pos (tree : Exp) : 0 < tree.depth := by
  have positive := tree.height_pos
  unfold depth
  split <;> omega

theorem depth_mem (tree : Exp) : (mem tree).depth = tree.depth + 1 := by
  simp only [depth, isCallFree_mem, height]
  split <;> omega

theorem depth_left (op : BinOp) (left right : Exp) : left.depth < (binop op left right).depth := by
  simp only [depth, isCallFree_binop, height]
  split <;> split <;> grind

theorem depth_right (op : BinOp) (left right : Exp) : right.depth < (binop op left right).depth := by
  simp only [depth, isCallFree_binop, height]
  split <;> split <;> grind

theorem depth_call (callee : Exp) (args : List Exp)
    : (call callee args).depth = max callee.height (argsHeight args) + 4 := by
  simp [depth, height]

/-- A tree for whose value a bound is enough, and whose indirect calls are of a kind. -/
structure Fits (kind : Exp → Prop) (bound : Nat) (tree : Exp) : Prop where
  indirect : ∀ part ∈ tree.indirectCalls, kind part
  depth_le : tree.depth ≤ bound

namespace Fits

variable {kind : Exp → Prop} {bound : Nat}

theorem mono {tree : Exp} {larger : Nat} (fits : Fits kind bound tree) (le : bound ≤ larger)
    : Fits kind larger tree :=
  ⟨fits.indirect, Nat.le_trans fits.depth_le le⟩

theorem address {tree : Exp} (fits : Fits kind (bound + 1) (mem tree)) : Fits kind bound tree := by
  have memDepth := fits.depth_le
  have indirect := fits.indirect
  rw [depth_mem] at memDepth
  rw [indirectCalls_mem] at indirect
  exact ⟨indirect, Nat.le_of_succ_le_succ memDepth⟩

theorem left {op : BinOp} {left right : Exp} (fits : Fits kind (bound + 1) (binop op left right))
    : Fits kind bound left := by
  have indirect := fits.indirect
  have depthLt := Nat.lt_of_lt_of_le (depth_left op left right) fits.depth_le
  rw [indirectCalls_binop] at indirect
  exact ⟨(List.forall_mem_append.mp indirect).1, Nat.le_of_lt_succ depthLt⟩

theorem right {op : BinOp} {left right : Exp} (fits : Fits kind (bound + 1) (binop op left right))
    : Fits kind bound right := by
  have indirect := fits.indirect
  have depthLt := Nat.lt_of_lt_of_le (depth_right op left right) fits.depth_le
  rw [indirectCalls_binop] at indirect
  exact ⟨(List.forall_mem_append.mp indirect).2, Nat.le_of_lt_succ depthLt⟩

theorem arg {callee arg : Exp} {args : List Exp} (fits : Fits kind (bound + 1) (call callee args))
    (member : arg ∈ args)
    : Fits kind bound arg := by
  refine ⟨fun part occurs => fits.indirect part (indirectCalls_arg_subset member occurs), ?_⟩
  have callDepth := fits.depth_le
  have argDepth := arg.depth_le
  have argHeight := height_le_argsHeight member
  rw [depth_call] at callDepth
  omega

theorem callee {callee : Exp} {args : List Exp} (fits : Fits kind bound (call callee args))
    (indirect : ∀ function, callee ≠ name function)
    : kind (call callee args) := by
  refine fits.indirect _ (List.mem_filter.mpr ⟨?_, isIndirectCall_call args indirect⟩)
  rw [subtrees]
  exact List.mem_cons_self

end Fits

end Exp

end TreeTiling
