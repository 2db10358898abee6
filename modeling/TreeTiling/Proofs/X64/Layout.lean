import TreeTiling.Proofs.Flow.Edges
import TreeTiling.Proofs.Tree.Evaluation
import TreeTiling.Proofs.Tree.Nesting
import TreeTiling.Proofs.X64.Machine
import TreeTiling.Proofs.X64.Tiling

/-!
Where the code of each statement stands in the code of a body, and which labels it defines.

Statements are selected in order, so the code of a body is one piece after another. Only the code
of a label statement defines a label, and it defines that one; only the code of a jump ends where
control does not go on.
-/

namespace TreeTiling

----------------------------------------------------------------------------------------------
-- Labels that are defined once
----------------------------------------------------------------------------------------------

/-- Where the items of a partial function are distinct, they determine their position. -/
theorem position_unique {α β : Type} {find : α → Option β} {list : List α}
    (distinct : (list.filterMap find).Nodup) {first second : Nat} {left right : α} {item : β}
    (leftAt : list[first]? = some left) (rightAt : list[second]? = some right)
    (leftFound : find left = some item) (rightFound : find right = some item)
    : first = second := by
  have pairwise := List.pairwise_filterMap.mp distinct
  rw [List.pairwise_iff_getElem] at pairwise
  obtain ⟨firstLt, rfl⟩ := List.getElem?_eq_some_iff.mp leftAt
  obtain ⟨secondLt, rfl⟩ := List.getElem?_eq_some_iff.mp rightAt
  rcases Nat.lt_trichotomy first second with before | same | after
  · exact absurd rfl (pairwise first second firstLt secondLt before item leftFound item rightFound)
  · exact same
  · exact absurd rfl (pairwise second first secondLt firstLt after item rightFound item leftFound)

/-- The statement that a label's position names defines the label. -/
theorem Stm.label_of_labelPosition? {parts : List Stm} {name : Label} {position : Nat}
    (found : labelPosition? parts name = some position)
    : parts[position]? = some (label name) := by
  obtain ⟨bound, defines, _⟩ := List.findIdx?_eq_some_iff_getElem.mp found
  rw [List.getElem?_eq_getElem bound]
  cases part : parts[position] with
  | label other =>
      rw [part, labelName?, beq_iff_eq, Option.some.injEq] at defines
      rw [defines]
  | jump _ | cjump _ _ _ _ _ | cmove _ _ _ _ _ | move _ _ | exp _ | seq _ =>
      rw [part] at defines
      cases defines

/-- A label that is defined once has the node of its definition. -/
theorem FlowGraph.labelNode?_of_unique {instrs : Array Instr} {label : Label} {node : Nat}
    (defined : instrs[node]?.bind Instr.labelName? = some label)
    (unique : ∀ other, instrs[other]?.bind Instr.labelName? = some label → other = node)
    : labelNode? instrs label = some node :=
  labelNode?_eq_some_iff.mpr ⟨defined, fun other defines => Nat.le_of_eq (unique other defines)⟩

namespace X64

----------------------------------------------------------------------------------------------
-- Labels and jumps of code
----------------------------------------------------------------------------------------------

/-- The operations that define a label, or after which control does not go on. -/
def Op.isLabelOrJump : Op → Bool
  | label _ | jump _ => true
  | _ => false

/-- The label or jump that a task is. -/
def Task.labelOrJump : Task → List Op
  | statement (.label name) => [.label name]
  | statement (.jump (.name target)) => [.jump target]
  | _ => []

theorem MadeBy.isLabelOrJump {tree : Exp} {make : Temp → Op} (made : MadeBy tree make) (dst : Temp)
    : (make dst).isLabelOrJump = false := by
  cases made <;> rfl

theorem UpdatedBy.isLabelOrJump {tree operand : Exp} {update : Temp → Op}
    (updated : UpdatedBy tree operand update) (dst : Temp)
    : (update dst).isLabelOrJump = false := by
  cases updated <;> rfl

/-- Code has the label or jump that its task is, and no others; by induction on the tiling. -/
theorem Tiling.labelOrJump {task : Task} {first next : Nat} {code : List Op}
    (tiling : Tiling task first code next)
    : code.filter Op.isLabelOrJump = task.labelOrJump := by
  induction tiling with
  | make made | assignMade _ made => simp [made.isLabelOrJump, Task.labelOrJump]
  | @update _ _ _ _ _ next _ updated _ ih =>
      have plain := updated.isLabelOrJump (.virtual next)
      simp only [Task.labelOrJump] at ih
      rw [List.filter_append, ih, List.filter_cons_of_neg Bool.false_ne_true,
        List.filter_cons_of_neg (by simp [plain])]
      rfl
  | temp | keepConst | keepName | noArguments | noStores | idle => rfl
  | label | jump => rfl
  | same _ _ ih | callValue _ ih | direct _ ih | displaced _ ih | keepRegister _ _ ih
  | callEffects _ ih | valueEffects _ ih | effects _ ih => exact ih
  | load _ _ ih | multiple _ _ ih | immRight _ _ ih | immLeft _ _ ih | copyFixed _ _ ih
  | cjump _ ih | assignAddress _ _ ih | assignLoad _ _ ih | assignCopy _ ih
  | storeImm _ _ _ ih =>
      simp only [Task.labelOrJump] at ih
      simp [ih, Op.isLabelOrJump, Task.labelOrJump]
  | combine _ _ left right | quotient _ _ left right | indexed _ _ left right
  | scaled _ _ left right | memBoth _ _ left right | memRight _ _ left right
  | memLeft _ _ left right | registers _ _ left right | moreArguments _ _ left right
  | moreStores _ _ left right | call _ _ _ left right | cmove _ _ left right
  | store _ _ _ left right =>
      simp only [Task.labelOrJump] at left right
      simp [left, right, Op.isLabelOrJump, Task.labelOrJump]

/-- Control goes on after all code but that of a jump. -/
theorem Tiling.fallsThrough {task : Task} {first next : Nat} {code : List Op}
    (tiling : Tiling task first code next) (plain : task.labelOrJump = []) {op : Op}
    (member : op ∈ code)
    : op.instr.fallsThrough = true := by
  have isPlain : op.isLabelOrJump ≠ true := by
    rw [← tiling.labelOrJump, List.filter_eq_nil_iff] at plain
    exact plain op member
  cases op with
  | jump target => exact absurd rfl isPlain
  | _ => rfl

/-- The label that an operation defines. -/
def Op.labelName? : Op → Option Label
  | label name => some name
  | _ => none

theorem Op.labelName?_instr (op : Op) : op.instr.labelName? = op.labelName? := by
  cases op <;> rfl

/-- The code of a label statement defines its label, and other code none. -/
theorem Tiling.labels {part : Stm} {first next : Nat} {code : List Op}
    (tiling : Tiling (.statement part) first code next)
    : code.filterMap Op.labelName? = part.labelName?.toList := by
  have only : code.filterMap Op.labelName?
      = (code.filter Op.isLabelOrJump).filterMap Op.labelName? := by
    rw [List.filterMap_filter]
    congr 1
    funext op
    cases op <;> rfl
  rw [only, tiling.labelOrJump]
  cases part with
  | label name => rfl
  | jump target => cases target <;> rfl
  | cjump _ _ _ _ _ | cmove _ _ _ _ _ | move _ _ | exp _ | seq _ => rfl

/-- The code of statements defines their labels, in order; by induction on the statements. -/
theorem BodyTiling.labels {parts : List Stm} {first next : Nat} {pieces : List (List Op)}
    (tiling : BodyTiling parts first pieces next)
    : pieces.flatten.filterMap Op.labelName? = parts.filterMap Stm.labelName? := by
  induction tiling with
  | nil => rfl
  | cons piece _ ih =>
      rw [List.flatten_cons, List.filterMap_append, piece.labels, ih, List.filterMap_cons]
      split <;> simp_all

----------------------------------------------------------------------------------------------
-- Pieces of code
----------------------------------------------------------------------------------------------

/-- A piece of code stands at a position. -/
def CodeAt (code : Array Op) (position : Nat) (piece : List Op) : Prop :=
  ∃ before after, code.toList = before ++ piece ++ after ∧ before.length = position

namespace CodeAt

variable {code : Array Op} {position : Nat}

theorem left {first second : List Op} (standsAt : CodeAt code position (first ++ second))
    : CodeAt code position first := by
  obtain ⟨before, after, same, length⟩ := standsAt
  exact ⟨before, second ++ after, by simp [same], length⟩

theorem right {first second : List Op} (standsAt : CodeAt code position (first ++ second))
    : CodeAt code (position + first.length) second := by
  obtain ⟨before, after, same, rfl⟩ := standsAt
  exact ⟨before ++ first, after, by simp [same], by simp⟩

theorem head {op : Op} {rest : List Op} (standsAt : CodeAt code position (op :: rest))
    : code[position]? = some op := by
  obtain ⟨before, after, same, rfl⟩ := standsAt
  rw [← Array.getElem?_toList, same]
  simp

theorem tail {op : Op} {rest : List Op} (standsAt : CodeAt code position (op :: rest))
    : CodeAt code (position + 1) rest := by
  have split : CodeAt code position ([op] ++ rest) := standsAt
  exact split.right

/-- The operations of a piece stand one after the other from its position on. -/
theorem getElem? {piece : List Op} (standsAt : CodeAt code position piece) {offset : Nat}
    (inside : offset < piece.length)
    : code[position + offset]? = piece[offset]? := by
  obtain ⟨before, after, same, rfl⟩ := standsAt
  rw [← Array.getElem?_toList, same, List.append_assoc, List.getElem?_append_right (by omega),
    List.getElem?_append_left (by omega)]
  congr 1
  omega

end CodeAt

/-- How the code of statements is laid out: `start` gives the position where the code of each
begins. Temporaries below the number are not taken by the code.
-/
structure Layout (parts : List Stm) (first : Nat) (code : Array Op) (start : Nat → Nat) : Prop where
  start_zero : start 0 = 0
  start_length : start parts.length = code.size
  piece
    : ∀ {position : Nat} {part : Stm},
        parts[position]? = some part
        → ∃ piece middle next,
            CodeAt code (start position) piece
            ∧ Tiling (.statement part) middle piece next
            ∧ first ≤ middle
            ∧ start (position + 1) = start position + piece.length
  labels : code.toList.filterMap Op.labelName? = parts.filterMap Stm.labelName?

/-- Where the code of a body's statement begins: the number of instructions that are selected for
the statements in front of it.
-/
def codeStart (body : Stm) (session : Session) (position : Nat) : Nat :=
  match rules.statementWithin body.nesting (.seq (body.flatten.take position)) { session } with
  | .ok _ selection | .error _ selection => selection.code.size

/-- Temporaries are only taken along statements; by induction on them. -/
theorem BodyTiling.le {parts : List Stm} {first next : Nat} {pieces : List (List Op)}
    (tiling : BodyTiling parts first pieces next)
    : first ≤ next := by
  induction tiling with
  | nil => exact Nat.le_refl _
  | cons piece _ ih => exact Nat.le_trans piece.le ih

theorem flatten_seq_take (body : Stm) (position : Nat)
    : (Stm.seq (body.flatten.take position)).flatten = body.flatten.take position := by
  rw [Stm.flatten]
  exact Stm.flattenAll_of_flat fun part member statements =>
    Stm.ne_seq_of_mem_flatten (List.mem_of_mem_take member)

section

variable {body : Stm} {session : Session} {last : Selection Op} {bound : Nat}

/-- The selection of a body goes through a state after each statement. -/
theorem selected_prefix {parts : List Stm} {before : Selection Op}
    (selected : parts.forM (rules.partWithin bound) before = .ok () last) (position : Nat)
    : ∃ middle,
        (parts.take position).forM (rules.partWithin bound) before = .ok () middle
        ∧ (parts.drop position).forM (rules.partWithin bound) middle = .ok () last := by
  rw [← parts.take_append_drop position, List.forM_eq_forM, List.forM_append,
    SelectM.bind_eq_ok] at selected
  obtain ⟨_, middle, before, after⟩ := selected
  exact ⟨middle, before, after⟩

theorem codeStart_eq {position : Nat} {middle : Selection Op}
    (selected
      : (body.flatten.take position).forM (rules.partWithin (2 * body.height + 3)) { session }
        = .ok () middle)
    : codeStart body session position = middle.code.size := by
  have nesting : body.nesting = 2 * body.height + 3 + 1 := rfl
  rw [codeStart, nesting, Rules.statementWithin_succ, flatten_seq_take, selected]

/-- A body that was selected is laid out as its statements were selected, one after the other. -/
theorem layout_of_selected (selected : rules.selectStatement body { session } = .ok () last)
    : Layout body.flatten session.temps last.code (codeStart body session) := by
  rw [Rules.selectStatement_eq] at selected
  constructor
  · obtain ⟨start, prefixSelected, _⟩ := selected_prefix selected 0
    obtain ⟨_, rfl⟩ := SelectM.pure_eq_ok.mp prefixSelected
    exact codeStart_eq prefixSelected
  · refine codeStart_eq ?_
    rw [List.take_length]
    exact selected
  · intro position part found
    obtain ⟨middle, prefixSelected, restSelected⟩ := selected_prefix selected position
    obtain ⟨inside, rfl⟩ := List.getElem?_eq_some_iff.mp found
    rw [List.drop_eq_getElem_cons inside, List.forM_eq_forM, List.forM_cons,
      SelectM.bind_eq_ok] at restSelected
    obtain ⟨_, following, partSelected, restSelected⟩ := restSelected
    obtain ⟨pieces, prefixGains, prefixTiling⟩ := bodyTiling_of_parts prefixSelected
    obtain ⟨piece, gains, tiling⟩ := (coversWithin _).part partSelected
    obtain ⟨rest, restGains, _⟩ := bodyTiling_of_parts restSelected
    have startHere := codeStart_eq prefixSelected
    have startNext : codeStart body session (position + 1) = following.code.size := by
      refine codeStart_eq ?_
      rw [List.take_succ_eq_append_getElem inside, List.forM_eq_forM, List.forM_append,
        SelectM.bind_eq_ok]
      refine ⟨(), middle, prefixSelected, ?_⟩
      rw [List.forM_cons, SelectM.bind_eq_ok]
      exact ⟨(), following, partSelected, rfl⟩
    refine ⟨piece, _, _, ⟨middle.code.toList, rest.flatten, ?_, ?_⟩, tiling, prefixTiling.le, ?_⟩
    · rw [gains.trans restGains, List.append_assoc]
    · rw [startHere, Array.length_toList]
    · rw [startHere, startNext, ← Array.length_toList, gains, List.length_append,
        Array.length_toList]
  · obtain ⟨pieces, gains, tiling⟩ := bodyTiling_of_parts selected
    rw [gains, List.nil_append]
    exact tiling.labels

end

end X64

end TreeTiling
