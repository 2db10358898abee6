import TreeTiling.Proofs.X64.Reads

/-!
What is live where the code of a statement begins: the registers that the body names, and the stack
and frame pointers.

Control enters the code of a statement only where it begins, since a label is the whole code of its
statement. Along the code of a statement more registers may be live, but only those that it has
written before. These sets have all that the liveness equations ask for.
-/

namespace TreeTiling

namespace X64

----------------------------------------------------------------------------------------------
-- The pieces of a layout
----------------------------------------------------------------------------------------------

namespace Layout

variable {parts : List Stm} {first : Nat} {code : Array Op} {start : Nat → Nat}

/-- Pieces stand in the order of their statements; by induction on the later one. -/
theorem start_mono (layout : Layout parts first code start) {earlier later : Nat}
    (le : earlier ≤ later) (inside : later ≤ parts.length)
    : start earlier ≤ start later := by
  induction later, le using Nat.le_induction with
  | base => exact Nat.le_refl _
  | succ later _ ih =>
      obtain ⟨piece, _, _, _, _, _, next⟩ :=
        layout.piece (List.getElem?_eq_getElem (show later < parts.length by omega))
      have before := ih (by omega)
      omega

/-- Every node stands in the code of a statement. By induction on the number of statements that are
looked at.
-/
theorem locate (layout : Layout parts first code start) {node count : Nat}
    (inside : count ≤ parts.length) (before : node < start count)
    : ∃ position < count, start position ≤ node ∧ node < start (position + 1) := by
  induction count with
  | zero =>
      rw [layout.start_zero] at before
      exact absurd before (Nat.not_lt_zero _)
  | succ count ih =>
      by_cases earlier : node < start count
      · obtain ⟨position, lt, stands⟩ := ih (by omega) earlier
        exact ⟨position, by omega, stands⟩
      · exact ⟨count, by omega, by omega, before⟩

/-- The code of a statement, with an operation of it. -/
theorem operation (layout : Layout parts first code start) {position node : Nat}
    (inside : position < parts.length) (le : start position ≤ node)
    (lt : node < start (position + 1))
    : ∃ piece middle next offset op,
        CodeAt code (start position) piece
        ∧ Tiling (.statement parts[position]) middle piece next
        ∧ node = start position + offset
        ∧ piece[offset]? = some op
        ∧ code[node]? = some op := by
  obtain ⟨piece, middle, next, standsAt, tiling, -, following⟩ :=
    layout.piece (List.getElem?_eq_getElem inside)
  obtain ⟨offset, rfl⟩ := Nat.exists_eq_add_of_le le
  have inPiece : offset < piece.length := by omega
  have found := List.getElem?_eq_getElem inPiece
  exact ⟨piece, middle, next, offset, _, standsAt, tiling, rfl, found,
    (standsAt.getElem? inPiece).trans found⟩

end Layout

/-- A label is all the code of its statement. -/
theorem Tiling.eq_label {part : Stm} {first next : Nat} {code : List Op} {op : Op} {name : Label}
    (tiling : Tiling (.statement part) first code next) (member : op ∈ code)
    (isLabel : op.labelName? = some name)
    : code = [op] := by
  have labels := tiling.labels
  have defined : name ∈ code.filterMap Op.labelName? := List.mem_filterMap.mpr ⟨op, member, isLabel⟩
  cases tiling with
  | label =>
      rw [List.mem_singleton.mp member]
  | jump | cjump | cmove | assignMade | assignAddress | assignLoad | assignCopy | storeImm | store
  | effects =>
      rw [labels] at defined
      cases defined

----------------------------------------------------------------------------------------------
-- Sets that have what is live
----------------------------------------------------------------------------------------------

/-- A register was written in the code of a statement, in front of a node of that code. -/
def WrittenSince (graph : FlowGraph) (start : Nat → Nat) (count node : Nat) (register : Temp)
    : Prop :=
  ∃ position < count, ∃ earlier,
    start position ≤ earlier
    ∧ earlier < node
    ∧ node < start (position + 1)
    ∧ register ∈ graph.defs earlier

/-- The registers that are given, or were written since a statement began. -/
def heldBefore (given : Temp → Prop) (graph : FlowGraph) (start : Nat → Nat) (count node : Nat)
    : Set Temp :=
  {register | given register ∨ WrittenSince graph start count node register}

namespace Layout

variable {parts : List Stm} {first : Nat} {code : Array Op} {start : Nat → Nat}
  {given : Temp → Prop} {register : Temp}

/-- A node reads what is given or was written since its statement began. -/
theorem reads_held (layout : Layout parts first code start)
    (named : ∀ part ∈ parts, ∀ register ∈ (Task.statement part).reads, given register)
    (special : ∀ register ∈ specials, given register) {node : Nat} (inside : node < code.size)
    (reads : register ∈ (FlowGraph.build (code.map Op.instr)).uses node)
    : register
      ∈ heldBefore given (FlowGraph.build (code.map Op.instr)) start parts.length node := by
  rw [← layout.start_length] at inside
  obtain ⟨position, lt, le, before⟩ := layout.locate (Nat.le_refl _) inside
  obtain ⟨piece, _, _, offset, op, standsAt, tiling, rfl, found, opAt⟩ :=
    layout.operation lt le before
  have supplied := (tiling.needs given (named _ (List.getElem_mem lt)) special).supplied
  rw [uses_build opAt] at reads
  rcases supplied.held_at found reads with isGiven | ⟨writer, member, written⟩
  · exact .inl isGiven
  · obtain ⟨place, placeLt, isWriter⟩ := List.mem_take_iff_getElem.mp member
    have writerAt : code[start position + place]? = some writer := by
      rw [standsAt.getElem? (by omega), List.getElem?_eq_getElem (by omega), isWriter]
    refine .inr ⟨position, lt, start position + place, by omega, by omega, before, ?_⟩
    rw [defs_build writerAt]
    exact written

/-- A label stands where the code of its statement begins. -/
theorem notWrittenSince_label (layout : Layout parts first code start) {node : Nat} {name : Label}
    (found : FlowGraph.labelNode? (code.map Op.instr) name = some node) {graph : FlowGraph}
    : ¬ WrittenSince graph start parts.length node register := by
  intro written
  obtain ⟨position, inside, earlier, le, lt, before, -⟩ := written
  obtain ⟨piece, _, _, offset, op, -, tiling, rfl, opInPiece, opAt⟩ :=
    layout.operation inside (by omega) before
  have defines := List.find?_some (show List.find? _ _ = some _ from found)
  rw [Array.getElem?_map, opAt, beq_iff_eq] at defines
  have isLabel : op.labelName? = some name := (op.labelName?_instr).symm.trans defines
  rw [tiling.eq_label (List.mem_of_getElem? opInPiece) isLabel] at opInPiece
  have short := (List.getElem?_eq_some_iff.mp opInPiece).1
  rw [List.length_singleton] at short
  omega

theorem notWrittenSince_start (layout : Layout parts first code start) {position : Nat}
    (inside : position ≤ parts.length) {graph : FlowGraph}
    : ¬ WrittenSince graph start parts.length (start position) register := by
  intro written
  obtain ⟨other, otherInside, earlier, le, lt, before, -⟩ := written
  rcases Nat.lt_or_ge other position with isBefore | isAfter
  · have ordered := layout.start_mono (show other + 1 ≤ position from isBefore) inside
    omega
  · have ordered := layout.start_mono isAfter (by omega)
    omega

/-- What is given or was written since a statement began has what is live. Control goes to the next
node, where one more may be written, or to a label, where nothing is.
-/
theorem encloses (layout : Layout parts first code start)
    (named : ∀ part ∈ parts, ∀ register ∈ (Task.statement part).reads, given register)
    (special : ∀ register ∈ specials, given register)
    : let graph := FlowGraph.build (code.map Op.instr)
      let before := heldBefore given graph start parts.length
      Liveness.Encloses graph before fun node =>
        before node ∪ {register | register ∈ graph.defs node} where
  uses := by
    intro node inside register reads
    have isNode : node < (code.map Op.instr).size := inside
    rw [Array.size_map] at isNode
    exact layout.reads_held named special isNode reads
  passes := by
    intro node _ register member unwritten
    exact member.resolve_right unwritten
  follows := by
    intro node _ next isNext register member
    rcases member with isGiven | written
    · exact .inl (.inl isGiven)
    · rcases FlowGraph.successor_cases isNext with ⟨rfl, -⟩ | ⟨label, found⟩
      · obtain ⟨position, inside, earlier, le, lt, before, isWritten⟩ := written
        rcases Nat.lt_succ_iff_lt_or_eq.mp lt with isEarlier | rfl
        · exact .inl (.inr ⟨position, inside, earlier, le, isEarlier, by omega, isWritten⟩)
        · exact .inr isWritten
      · exact absurd written (layout.notWrittenSince_label found)

end Layout

----------------------------------------------------------------------------------------------
-- Live where statements begin
----------------------------------------------------------------------------------------------

theorem Task.reads_statement_subset (part : Stm) : (Task.statement part).reads ⊆ part.ownTemps := by
  intro register member
  cases part with
  | move dst src =>
      cases dst with
      | temp dst => simp [Stm.ownTemps, Stm.operands, show register ∈ src.temps from member]
      | const _ | name _ | mem _ | binop _ _ _ | call _ _ => exact member
  | label _ | jump _ | cjump _ _ _ _ _ | cmove _ _ _ _ _ | exp _ | seq _ => exact member

/-- Where the code of a statement begins, or that of the body ends, no register is live but those
that the body names and the stack and frame pointers.
-/
theorem live_at_codeStart {body : Stm} {session after : Session} {code : Array Op}
    (selected : rules.selectBody body session = (.ok code, after)) {position : Nat}
    (inside : position ≤ body.flatten.length) {register : Temp}
    (live
      : register
        ∈ (Liveness.compute (FlowGraph.build (code.map Op.instr))).liveIn
            (codeStart body session position))
    : register ∈ body.temps ∨ register ∈ specials := by
  obtain ⟨last, statement, rfl, -⟩ := Rules.selectBody_ok.mp selected
  have layout := layout_of_selected statement
  have closed := FlowGraph.build_closed (last.code.map Op.instr)
  have named : ∀ part ∈ body.flatten, ∀ register ∈ (Task.statement part).reads,
      register ∈ body.temps ∨ register ∈ specials := by
    intro part member register reads
    exact .inl (List.mem_flatMap_of_mem member (Task.reads_statement_subset part reads))
  have isNode := Liveness.lt_of_mem_liveIn closed live
  have held := ((layout.encloses named fun _ => .inr).live_le closed isNode).1 live
  exact held.resolve_right (layout.notWrittenSince_start inside)

/-- In the code of a body no register is live at the entry but those that the body names and the
stack and frame pointers, and where the code of a statement begins no temporary is live that the
selection took.
-/
theorem no_selection_temporary_live_at_starts {body : Stm} {session after : Session}
    {code : Array Op}
    (earlier : ∀ number, Temp.virtual number ∈ body.temps → number < session.temps)
    (selected : rules.selectBody body session = (.ok code, after))
    : let live := Liveness.compute (FlowGraph.build (code.map Op.instr))
      (∀ register ∈ live.liveIn 0, register ∈ body.temps ∨ register ∈ [rsp, rbp])
      ∧ ∀ position < body.flatten.length, ∀ number ≥ session.temps,
          Temp.virtual number ∉ live.liveIn (codeStart body session position) := by
  have entry : codeStart body session 0 = 0 := by
    obtain ⟨last, statement, -, -⟩ := Rules.selectBody_ok.mp selected
    exact (layout_of_selected statement).start_zero
  constructor
  · intro register live
    rw [← entry] at live
    exact live_at_codeStart selected (Nat.zero_le _) live
  · intro position inside number taken live
    rcases live_at_codeStart selected (Nat.le_of_lt inside) live with occurs | isSpecial
    · exact absurd (earlier number occurs) (Nat.not_lt.mpr taken)
    · simp [specials, rsp, rbp] at isSpecial

/-- A loop whose body divides what one call makes of the result of another. -/
def dividingLoop : Stm :=
  .seq [.label ⟨"loop"⟩,
    .move (.temp (.virtual 0))
      (.binop .div (.call (.name ⟨"f"⟩) [.temp (.virtual 0), .call (.name ⟨"g"⟩) [.const 1]])
        (.temp (.virtual 1))),
    .cjump .lt (.temp (.virtual 0)) (.mem (.binop .plus (.temp rbp) (.const 8))) ⟨"loop"⟩ ⟨"done"⟩,
    .label ⟨"done"⟩]

def dividingLoopCode : Array Op :=
  #[.label ⟨"loop"⟩, .loadImm 1 rdi, .call ⟨"g"⟩ 1, .copy (.virtual 2) rax, .copy rsi (.virtual 2),
    .copy rdi (.virtual 0), .call ⟨"f"⟩ 2, .copy rax rax, .signExtend, .divide (.virtual 1),
    .copy (.virtual 3) rax, .copy (.virtual 0) (.virtual 3), .copy (.virtual 4) rbp,
    .arithImm .add 8 (.virtual 4), .compareMem (.virtual 0) (.direct (.virtual 4)),
    .branch .lt ⟨"loop"⟩ ⟨"done"⟩, .label ⟨"done"⟩]

/-- The temporaries that the selection of the loop takes are not live where the code of its
conditional jump begins, and at the entry only those of the loop are.
-/
theorem dividingLoop_starts_clean
    : (∀ number, Temp.virtual number ∈ dividingLoop.temps → number < 2)
      ∧ ∃ after,
          rules.selectBody dividingLoop { temps := 2 } = (.ok dividingLoopCode, after)
          ∧ let live := Liveness.compute (FlowGraph.build (dividingLoopCode.map Op.instr))
            (∀ register ∈ live.liveIn 0, register ∈ dividingLoop.temps ∨ register ∈ [rsp, rbp])
            ∧ codeStart dividingLoop { temps := 2 } 2 = 12
            ∧ ∀ number ∈ [2, 3, 4], Temp.virtual number ∉ live.liveIn 12 := by
  have earlier : ∀ number, Temp.virtual number ∈ dividingLoop.temps → number < 2 := by
    intro number member
    have named : dividingLoop.temps
        = [.virtual 0, .virtual 0, .virtual 1, .virtual 0, rbp] :=
      rfl
    rw [named] at member
    simp [rbp] at member
    omega
  obtain ⟨after, selected⟩ : ∃ after,
      rules.selectBody dividingLoop { temps := 2 } = (.ok dividingLoopCode, after) := by
    have answer : (rules.selectBody dividingLoop { temps := 2 }).1.toOption
        = some dividingLoopCode := by
      decide +kernel
    rcases outcome : rules.selectBody dividingLoop { temps := 2 } with ⟨_ | code, after⟩
    · rw [outcome] at answer
      cases answer
    · rw [outcome] at answer
      cases answer
      exact ⟨after, rfl⟩
  have start : codeStart dividingLoop { temps := 2 } 2 = 12 := rfl
  obtain ⟨entry, starts⟩ := no_selection_temporary_live_at_starts earlier selected
  refine ⟨earlier, after, selected, entry, start, ?_⟩
  intro number member
  have taken : 2 ≤ number := (show ∀ number ∈ [2, 3, 4], 2 ≤ number by decide) number member
  rw [← start]
  exact starts 2 (by decide) number taken

end X64

end TreeTiling
