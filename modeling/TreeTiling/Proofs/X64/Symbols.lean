import TreeTiling.Proofs.X64.CallSites
import TreeTiling.Proofs.X64.Operands

/-!
The labels that code names, and the calls it makes, are those of the tree it was selected for.
-/

namespace TreeTiling

----------------------------------------------------------------------------------------------
-- Labels of trees
----------------------------------------------------------------------------------------------

theorem Exp.argsLabels_eq (args : List Exp) : Exp.argsLabels args = args.flatMap Exp.labels := by
  induction args with
  | nil => simp
  | cons arg rest ih => simp [ih]

namespace Stm

mutual

/-- The labels of a flattened part are labels of the statement. -/
theorem labels_of_mem_flatten {part : Stm}
    : ∀ {tree : Stm}, part ∈ tree.flatten → part.labels ⊆ tree.labels
  | .seq statements, member => by
      rw [flatten] at member
      rw [labels]
      exact labels_of_mem_flattenAll member
  | .label _, member | .jump _, member | .cjump _ _ _ _ _, member | .cmove _ _ _ _ _, member
  | .move _ _, member | .exp _, member => by
      simp only [flatten, List.mem_singleton] at member
      rw [member]
      exact List.Subset.refl _

theorem labels_of_mem_flattenAll {part : Stm}
    : ∀ {statements : List Stm}, part ∈ flattenAll statements → part.labels ⊆ labelsAll statements
  | [], member => by
      rw [flattenAll] at member
      cases member
  | statement :: rest, member => by
      rw [flattenAll, List.mem_append] at member
      rw [labelsAll]
      rcases member with here | later
      · exact List.subset_append_of_subset_left _ (labels_of_mem_flatten here)
      · exact List.subset_append_of_subset_right _ (labels_of_mem_flattenAll later)

end

end Stm

namespace X64

----------------------------------------------------------------------------------------------
-- Labels of tasks
----------------------------------------------------------------------------------------------

/-- The labels in what a task is about. -/
def Task.labels : Task → List Label
  | statement tree => tree.labels
  | task => task.trees.flatMap Exp.labels

/-- Code names only labels of a list. -/
def NamesOnly (allowed : List Label) (code : List Op) : Prop :=
  ∀ op ∈ code, op.labels ⊆ allowed

namespace NamesOnly

variable {allowed more : List Label} {first second : List Op}

theorem append (firstNames : NamesOnly allowed first) (secondNames : NamesOnly more second)
    : NamesOnly (allowed ++ more) (first ++ second) :=
  List.forall_mem_append.mpr
    ⟨fun op member => List.subset_append_of_subset_left _ (firstNames op member),
      fun op member => List.subset_append_of_subset_right _ (secondNames op member)⟩

/-- Operations that name no label can follow. -/
theorem append_plain (firstNames : NamesOnly allowed first) (none : ∀ op ∈ second, op.labels = [])
    : NamesOnly allowed (first ++ second) :=
  List.forall_mem_append.mpr
    ⟨firstNames, fun op member => none op member ▸ List.nil_subset _⟩

theorem mono (names : NamesOnly allowed first) (subset : allowed ⊆ more)
    : NamesOnly more first :=
  fun op member => List.Subset.trans (names op member) subset

end NamesOnly

theorem AddressForm.Of.labels {form : AddressForm} {tree : Exp} (of : form.Of tree)
    : form.trees.flatMap Exp.labels = tree.labels := by
  cases of <;> simp [AddressForm.trees]

theorem MadeBy.labels {tree : Exp} {make : Temp → Op} (made : MadeBy tree make) (dst : Temp)
    : (make dst).labels = tree.labels := by
  cases made <;> simp [Op.labels]

theorem SameAs.labels {tree operand : Exp} (same : SameAs tree operand)
    : operand.labels = tree.labels := by
  cases same <;> simp

theorem UpdatedBy.labels {tree operand : Exp} {update : Temp → Op}
    (updated : UpdatedBy tree operand update) (dst : Temp)
    : operand.labels = tree.labels ∧ (update dst).labels = [] := by
  cases updated <;> simp [Op.labels]

theorem MultipleOf.labels {tree factor : Exp} {value : Word}
    (multiple : MultipleOf tree factor value)
    : factor.labels = tree.labels := by
  cases multiple <;> simp

theorem labels_outArg (index : Nat) : (outArg index).labels = [] := by
  rcases outArg_cases index with ⟨register, -, isTemp⟩ | ⟨-, slot, isMem⟩
  · simp [isTemp]
  · simp [isMem]

/-- A staged argument has labels of the argument at most. -/
theorem Tiling.labels_argument {arg value : Exp} {first next : Nat} {code : List Op}
    (tiling : Tiling (.argument arg value) first code next)
    : value.labels ⊆ arg.labels := by
  cases tiling <;> simp

/-- Staged arguments have labels of the arguments at most; by induction on them. -/
theorem Tiling.labels_staged {args : List (Exp × Nat)} {staged : List (Nat × Exp)}
    {first next : Nat} {code : List Op}
    (tiling : Tiling (.arguments args staged) first code next)
    : (Task.stores staged).labels ⊆ (Task.arguments args staged).labels := by
  induction args generalizing staged first code with
  | nil =>
      cases tiling
      exact List.Subset.refl _
  | cons arg rest ih =>
      cases tiling with
      | moreArguments argument others =>
          have here := argument.labels_argument
          have later := ih others
          simp only [Task.labels, Task.trees] at later
          simp only [Task.labels, Task.trees, List.flatMap_cons, List.map_cons,
            List.flatMap_append, List.flatMap_nil, List.append_nil, labels_outArg, List.nil_append]
          exact List.append_subset.mpr ⟨List.subset_append_of_subset_left _ here,
            List.subset_append_of_subset_right _ later⟩

attribute [local simp] Task.labels Task.trees

/-- Code names the labels of its task; by induction on the tiling. -/
theorem Tiling.namesOnly {task : Task} {first next : Nat} {code : List Op}
    (tiling : Tiling task first code next)
    : NamesOnly task.labels code := by
  induction tiling with
  | make made | assignMade _ made => simp [NamesOnly, made.labels]
  | temp | keepConst | keepName | noArguments | noStores | idle => simp [NamesOnly]
  | label | jump => simp [NamesOnly, Op.labels]
  | same same _ ih => exact ih.mono (by simp [same.labels])
  | callValue _ ih | callEffects _ ih | valueEffects _ ih | keepRegister _ _ ih | effects _ ih
  | direct _ ih | displaced _ ih => exact ih.mono (by simp [AddressForm.trees])
  | @update _ _ _ _ _ next _ updated _ ih =>
      obtain ⟨same, none⟩ := updated.labels (.virtual next)
      exact (ih.mono (by simp [same])).append_plain
        (List.forall_mem_cons.mpr ⟨rfl, List.forall_mem_singleton.mpr none⟩)
  | multiple multiple _ ih =>
      exact (ih.mono (by simp [multiple.labels])).append_plain (by simp [Op.labels])
  | load of _ ih | assignAddress of _ ih | assignLoad of _ ih | storeImm of _ _ ih =>
      exact (ih.mono (by simp [of.labels])).append_plain (by simp [Op.labels])
  | immRight _ _ ih | immLeft _ _ ih | copyFixed _ _ ih | assignCopy _ ih =>
      exact (ih.mono (by simp)).append_plain (by simp [Op.labels])
  | @cjump _ tested _ _ ifTrue ifFalse _ _ _ _ ih =>
      have branches : NamesOnly [ifTrue, ifFalse] [.branch tested ifTrue ifFalse] := by
        simp [NamesOnly, Op.labels]
      exact (ih.append branches).mono (by simp)
  | indexed _ _ left right | scaled _ _ left right | moreArguments _ _ left right
  | moreStores _ _ left right => exact (left.append right).mono (by simp [AddressForm.trees])
  | combine _ _ left right | quotient _ _ left right | memBoth _ _ left right
  | memRight _ _ left right | memLeft _ _ left right | registers _ _ left right
  | cmove _ _ left right =>
      exact ((left.append right).mono (by simp)).append_plain (by simp [Op.labels])
  | store of _ _ left right =>
      exact ((left.append right).mono (by simp [of.labels])).append_plain (by simp [Op.labels])
  | @call function args staged _ _ _ _ _ _ stagedArgs _ computed stored =>
      have fromArgs : (Task.arguments args.zipIdx.reverse staged).labels
          ⊆ args.flatMap Exp.labels := by
        intro label occurs
        obtain ⟨arg, isArg, occurs⟩ := List.mem_flatMap.mp occurs
        exact List.mem_flatMap_of_mem (by simpa using isArg) occurs
      have transfers : NamesOnly [function] [.call function args.length] := by
        simp [NamesOnly, Op.labels]
      have prepares := (computed.append (stored.mono stagedArgs.labels_staged)).mono
        (List.append_subset.mpr ⟨fromArgs, fromArgs⟩)
      exact (prepares.append transfers).mono (by simp [Exp.argsLabels_eq])

/-- The code of statements names labels of theirs. -/
theorem BodyTiling.namesOnly {tree : Stm} {first next : Nat} {pieces : List (List Op)}
    (tiling : BodyTiling tree.flatten first pieces next)
    : NamesOnly tree.labels pieces.flatten := by
  intro op member
  obtain ⟨part, isPart, _, _, _, piece, inPiece⟩ := tiling.of_mem member
  exact List.Subset.trans (piece.namesOnly op inPiece) (Stm.labels_of_mem_flatten isPart)

----------------------------------------------------------------------------------------------
-- Calls
----------------------------------------------------------------------------------------------

/-- The position of a call in code is one of the calls' positions. -/
theorem mem_callPositions {position : Nat} {code : List Op} {op : Op}
    (found : code[position]? = some op) (isCall : op.isCall = true)
    : position ∈ callPositions 0 code := by
  have member : (op, position) ∈ code.zipIdx := List.mem_zipIdx_iff_getElem?.mpr found
  exact List.mem_map.mpr ⟨(op, position), List.mem_filter.mpr ⟨member, isCall⟩, rfl⟩

/-- A call in the code of statements is one of theirs, with as many arguments. -/
theorem BodyTiling.call_of_mem {tree : Stm} {first next : Nat} {pieces : List (List Op)}
    (tiling : BodyTiling tree.flatten first pieces next) {function : Label} {count : Nat}
    (member : .call function count ∈ pieces.flatten)
    : ∃ args, (function, args) ∈ tree.calls ∧ args.length = count := by
  have whole : CodeAt pieces.flatten.toArray 0 pieces.flatten := ⟨[], [], by simp, rfl⟩
  have calls := tiling.callsAre whole
  obtain ⟨position, found⟩ := List.mem_iff_getElem?.mp member
  obtain ⟨index, inside, here⟩ := List.mem_iff_getElem.mp (mem_callPositions found rfl)
  have isCall := calls.length_eq.symm ▸ inside
  obtain ⟨stored, staged, evaluation, stores, evaluated, -, site, rfl, called⟩ :=
    calls.get isCall inside
  have made := site.right.head
  rw [List.get_eq_getElem, here] at called
  rw [List.length_append, ← Nat.add_assoc, ← called, List.getElem?_toArray, found] at made
  cases made
  exact ⟨_, List.get_mem _ _, rfl⟩

end X64

end TreeTiling
