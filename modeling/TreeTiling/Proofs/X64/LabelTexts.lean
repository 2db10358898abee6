import TreeTiling.Proofs.Instr.WordIndices
import TreeTiling.Proofs.Source.Layout
import TreeTiling.Proofs.X64.Delivery
import TreeTiling.Proofs.X64.Faithfulness

/-!
How labels stand in the text of an operation.

The definition of a label has no operands, and a jump draws its label as one, so both show any label
as it is. A call and the address of a label have the name in their templates, where a backtick in it
may ask for an operand. Main statement: they show the label as it is exactly if it asks for none of
those that they have. This is about labels whose numbers fit in machine words, so that a renderer
that counts in words renders the same.
-/

namespace TreeTiling

/-- The name of a label has a place for the operand with an index, which is a number of any size. -/
def Label.Asks (label : Label) (slot : Template.Slot) (index : Nat) : Prop :=
  ∃ digits,
    .place slot digits ∈ Template.pieces label.name.toList ∧ Nat.ofDigitChars 10 digits 0 = index

/-- The name of a label asks for none of the first registers written and read. -/
structure Label.AsksBeyond (label : Label) (written read : Nat) : Prop where
  written : ∀ index, label.Asks .written index → written ≤ index
  read : ∀ index, label.Asks .read index → read ≤ index

namespace Instr

variable {instr : Instr}

/-- An instruction without jumps keeps the labels that ask for none of its registers. -/
theorem keeps_iff_asksBeyond (noJumps : instr.jumps = []) {label : Label}
    : instr.Keeps label.name ↔ label.AsksBeyond instr.defs.length instr.uses.length := by
  constructor
  · intro keeps
    constructor
    · rintro index ⟨digits, member, rfl⟩
      exact Nat.le_of_not_lt (keeps _ member)
    · rintro index ⟨digits, member, rfl⟩
      exact Nat.le_of_not_lt (keeps _ member)
  · intro beyond piece member draws
    cases piece with
    | text c => exact draws
    | place slot digits =>
        cases slot with
        | written => exact absurd draws (Nat.not_lt.mpr (beyond.written _ ⟨digits, member, rfl⟩))
        | read => exact absurd draws (Nat.not_lt.mpr (beyond.read _ ⟨digits, member, rfl⟩))
        | target =>
            rw [Draws, operandCount, noJumps] at draws
            exact absurd draws (Nat.not_lt_zero _)

theorem plainOperands_of_registers (noJumps : instr.jumps = []) {naming : Temp → String}
    (plain : ∀ register ∈ instr.registers, '\x60' ∉ (naming register).toList)
    : instr.PlainOperands naming := by
  intro slot index operand found
  cases slot with
  | written =>
      obtain ⟨register, isRegister, rfl⟩ := Option.map_eq_some_iff.mp found
      exact plain register (List.mem_append_left _ (List.mem_of_getElem? isRegister))
  | read =>
      obtain ⟨register, isRegister, rfl⟩ := Option.map_eq_some_iff.mp found
      exact plain register (List.mem_append_right _ (List.mem_of_getElem? isRegister))
  | target =>
      rw [operandText?, noJumps] at found
      cases found

end Instr

namespace X64

open Instr (Shows)

----------------------------------------------------------------------------------------------
-- Texts with a label
----------------------------------------------------------------------------------------------

/-- An instruction has the text that `verbatim` says under every naming of its registers if a
condition holds, and only then unless the naming has backticks. Counting indices in words makes no
difference to its text.
-/
structure ShownIf (condition : Prop) (instr : Instr) (verbatim : (Temp → String) → String)
    : Prop where
  shown : condition → ∀ naming, instr.textWith naming = verbatim naming
  only
    : ∀ naming,
        (∀ register ∈ instr.registers, '\x60' ∉ (naming register).toList)
        → instr.textWith naming = verbatim naming
        → condition
  text : instr.text = verbatim Temp.text ↔ condition
  inWords : ∀ naming, instr.textInWords? naming = some (instr.textWith naming)

theorem inWords_of_spliced {instr : Instr} {label : Label} {front back : String}
    (isTemplate : instr.template = front ++ label.name ++ back) (plain : '\x60' ∉ front.toList)
    (separates : Template.Separates back.toList) (fits : Template.Fits label.name.toList)
    (backFits : Template.Fits back.toList) (naming : Temp → String)
    : instr.textInWords? naming = some (instr.textWith naming) := by
  rw [instr.textInWords?_eq, if_pos]
  rw [isTemplate, String.toList_append, String.toList_append]
  exact .spliced plain separates fits backFits

/-- A label between plain text and a part of its own is shown if it asks for none of the
instruction's registers.
-/
theorem ShownIf.of_spliced {instr : Instr} {label : Label} {front back : String}
    {backText : (Temp → String) → String} {written read : Nat}
    (isTemplate : instr.template = front ++ label.name ++ back) (noJumps : instr.jumps = [])
    (writes : instr.defs.length = written) (reads : instr.uses.length = read)
    (machine : ∀ name, Temp.fixed name ∈ instr.registers → Temp.fixed name ∈ registers)
    (plain : '\x60' ∉ front.toList) (separates : Template.Separates back.toList)
    (fits : Template.Fits label.name.toList) (backFits : Template.Fits back.toList)
    (backShown : ∀ naming, Shows instr naming back (backText naming))
    : ShownIf (label.AsksBeyond written read) instr
        fun naming => front ++ label.name ++ backText naming := by
  rw [← writes, ← reads, ← Instr.keeps_iff_asksBeyond noJumps]
  have spliced := fun naming =>
    Instr.textWith_spliced isTemplate plain separates (backShown naming)
  have only : ∀ naming : Temp → String,
      (∀ register ∈ instr.registers, '\x60' ∉ (naming register).toList)
      → instr.textWith naming = front ++ label.name ++ backText naming
      → instr.Keeps label.name := by
    intro naming names same
    exact (Instr.plainOperands_of_registers noJumps names).keeps_of_fill ((spliced naming).mp same)
  refine ⟨fun keeps naming => (spliced naming).mpr keeps.fill, only, ⟨?_, fun keeps => ?_⟩,
    inWords_of_spliced isTemplate plain separates fits backFits⟩
  · refine only Temp.text fun register named => noPlace_register ?_
    rintro name rfl
    exact machine name named
  · exact (spliced Temp.text).mpr keeps.fill

/-- A call shows its label if this asks for none of the nine registers that the call writes, and of
those it reads: the stack and frame pointers, and one for each of the first six arguments.
-/
theorem shownIf_call {function : Label} (fits : Template.Fits function.name.toList)
    (arguments : Nat)
    : ShownIf (function.AsksBeyond 9 (2 + min arguments 6)) (Op.call function arguments).instr
        fun _ => "call    " ++ function.name := by
  have inRegisters : ∀ register ∈ callerSaves ++ (specials ++ argRegs), register ∈ registers := by
    decide
  have machine : ∀ name,
      Temp.fixed name ∈ (Op.call function arguments).instr.registers
      → Temp.fixed name ∈ registers := by
    intro name named
    refine inRegisters _ ?_
    rcases List.mem_append.mp named with isWritten | isRead
    · exact List.mem_append_left _ isWritten
    · rcases List.mem_append.mp isRead with isSpecial | isPassed
      · exact List.mem_append_right _ (List.mem_append_left _ isSpecial)
      · exact List.mem_append_right _ (List.mem_append_right _ (List.mem_of_mem_take isPassed))
  have reads : (Op.call function arguments).instr.uses.length = 2 + min arguments 6 := by
    rw [Nat.add_comm]
    simp [Op.instr, Instr.straight, Instr.uses, specials, Op.passed, argRegs]
  have ends : Template.Separates [] := fun c isHead => by cases isHead
  have shown : ShownIf (function.AsksBeyond 9 (2 + min arguments 6))
      (Op.call function arguments).instr fun _ => "call    " ++ function.name ++ "" :=
    .of_spliced String.append_empty.symm rfl rfl reads machine (by decide) ends fits (by decide)
      fun _ => .plain (by decide)
  simpa only [String.append_empty] using shown

/-- The address of a label, in a temporary, shows the label if this does not ask for the temporary.
-/
theorem shownIf_leaLabel {symbol : Label} (fits : Template.Fits symbol.name.toList) (number : Nat)
    : ShownIf (symbol.AsksBeyond 1 0) (Op.leaLabel symbol (.virtual number)).instr
        fun naming => "leaq    " ++ symbol.name ++ ("(%rip), " ++ naming (.virtual number)) := by
  have machine : ∀ name,
      Temp.fixed name ∈ (Op.leaLabel symbol (.virtual number)).instr.registers
      → Temp.fixed name ∈ registers := by
    intro name named
    cases List.mem_singleton.mp named
  have separates : Template.Separates "(%rip), `d0".toList := by
    intro c isHead
    cases isHead
    decide
  have spelled : "(%rip), `d0" = "(%rip), " ++ "`d0" := by decide
  have backShown (naming : Temp → String)
      : Shows (Op.leaLabel symbol (.virtual number)).instr naming "(%rip), `d0"
          ("(%rip), " ++ naming (.virtual number)) := by
    rw [spelled]
    exact (shows_written rfl).prepend (by decide)
  exact .of_spliced rfl rfl rfl rfl machine (by decide) separates fits (by decide) backShown

theorem separates_colon : Template.Separates ":".toList := by
  intro c isHead
  cases isHead
  decide

theorem template_label (name : Label)
    : (Op.label name).instr.template = "" ++ name.name ++ ":" := by
  rw [String.empty_append]
  rfl

/-- The definition of a label shows any label, since it has no operands. -/
theorem textWith_label (name : Label) (naming : Temp → String)
    : (Op.label name).instr.textWith naming = name.name ++ ":" := by
  have keeps : (Op.label name).instr.Keeps name.name := by
    rw [Instr.keeps_iff_asksBeyond rfl]
    exact ⟨fun index _ => Nat.zero_le index, fun index _ => Nat.zero_le index⟩
  have colon : Shows (Op.label name).instr naming ":" ":" := .plain (by decide)
  have spliced :=
    Instr.textWith_spliced (template_label name) (by decide) separates_colon colon
  rw [spliced.mpr keeps.fill, String.empty_append]

theorem textInWords?_label {name : Label} (fits : Template.Fits name.name.toList)
    (naming : Temp → String)
    : (Op.label name).instr.textInWords? naming = some (name.name ++ ":") := by
  rw [inWords_of_spliced (template_label name) (by decide) separates_colon fits (by decide),
    textWith_label]

----------------------------------------------------------------------------------------------
-- Labels in selected code
----------------------------------------------------------------------------------------------

/-- Let every number behind a backtick in a label be less than `2 ^ 64`. Definitions of the label
show it always. Its address, and calls of it with arguments that can be selected, show it exactly if
it asks for none of the registers of the instruction.
-/
theorem labels_shown_unless_they_ask (label : Label) (fits : Template.Fits label.name.toList)
    (before : Selection Op)
    : (∃ after,
        rules.selectStatement (.label label) before = .ok () after
        ∧ before.Gains [.label label] after
        ∧ ∀ naming,
            (Op.label label).instr.textWith naming = label.name ++ ":"
            ∧ (Op.label label).instr.textInWords? naming = some (label.name ++ ":"))
      ∧ (∃ register after,
          rules.selectValue (.name label) before = .ok register after
          ∧ before.Gains [.leaLabel label register] after
          ∧ ShownIf (label.AsksBeyond 1 0) (Op.leaLabel label register).instr
              fun naming => "leaq    " ++ label.name ++ ("(%rip), " ++ naming register))
      ∧ ∀ args : List Exp,
          (∀ arg ∈ args, arg.CallsLabels)
          → (∃ after code,
              rules.selectValue (.call (.name label) args) before = .ok returnReg after
              ∧ before.Gains (code ++ [.call label args.length]) after)
            ∧ (∃ after code,
                rules.selectDiscard (.call (.name label) args) before = .ok () after
                ∧ before.Gains (code ++ [.call label args.length]) after)
            ∧ ShownIf (label.AsksBeyond 9 (2 + min args.length 6))
                (Op.call label args.length).instr fun _ => "call    " ++ label.name := by
  refine ⟨⟨_, rfl, Selection.gains_emit _ _,
      fun naming => ⟨textWith_label label naming, textInWords?_label fits naming⟩⟩,
    ⟨_, _, rfl, Selection.gains_emit_taken _ _, shownIf_leaLabel fits _⟩, ?_⟩
  intro args callLabels
  have direct : (Exp.call (.name label) args).CallsLabels := by
    rw [Exp.callsLabels_iff, Exp.indirectCalls_call_name, List.flatMap_eq_nil_iff]
    exact fun arg member => Exp.callsLabels_iff.mp (callLabels arg member)
  refine ⟨?_, ?_, shownIf_call fits args.length⟩
  · obtain ⟨register, after, selected⟩ := selectValue_accepts direct before
    obtain ⟨code, gains, tiling⟩ := (coversWithin _).value selected
    obtain ⟨rfl, called⟩ := tiling.of_callValue
    cases called with
    | call => exact ⟨after, _, selected, gains⟩
  · obtain ⟨_, after, selected⟩ := selectDiscard_accepts direct before
    obtain ⟨code, gains, tiling⟩ := (coversWithin _).effects selected
    cases tiling.of_callEffects with
    | call => exact ⟨after, _, selected, gains⟩

/-- A call writes nine registers, so a label that asks for a tenth is shown. -/
theorem tenthRegister_label_shown
    : Template.Fits "`d9".toList
      ∧ (⟨"`d9"⟩ : Label).AsksBeyond 9 3
      ∧ (∃ after code,
          rules.selectDiscard (.call (.name ⟨"`d9"⟩) [.const 1]) { session := {} } = .ok () after
          ∧ Selection.Gains { session := {} } (code ++ [.call ⟨"`d9"⟩ 1]) after)
      ∧ ∀ naming,
          (Op.call ⟨"`d9"⟩ 1).instr.textWith naming = "call    `d9"
          ∧ (Op.call ⟨"`d9"⟩ 1).instr.textInWords? naming = some "call    `d9" := by
  have found : Template.place? ('\x60' :: ['d', '9']) = some (.written, ['9'], []) := by decide
  have isPlace : Template.pieces "`d9".toList = [.place .written ['9']] := by
    rw [show "`d9".toList = '\x60' :: ['d', '9'] by decide, Template.pieces_of_some found,
      Template.pieces]
  have beyond : (⟨"`d9"⟩ : Label).AsksBeyond 9 3 := by
    constructor
    · rintro index ⟨digits, member, rfl⟩
      rw [isPlace, List.mem_singleton] at member
      cases member
      decide
    · rintro index ⟨digits, member, _⟩
      rw [isPlace, List.mem_singleton] at member
      cases member
  have direct : ∀ arg ∈ [Exp.const 1], arg.CallsLabels := by
    intro arg member
    rw [List.mem_singleton.mp member]
    exact Exp.callsLabels_of_isCallFree rfl
  have fits : Template.Fits "`d9".toList := by decide
  obtain ⟨-, -, called⟩ := labels_shown_unless_they_ask ⟨"`d9"⟩ fits { session := {} }
  obtain ⟨-, selected, shown⟩ := called [.const 1] direct
  have verbatim := shown.shown beyond
  refine ⟨fits, beyond, selected, fun naming => ⟨verbatim naming, ?_⟩⟩
  exact (shown.inWords naming).trans (congrArg some (verbatim naming))

/-- A program may name a label that asks for the first register that a call writes. Its calls go
elsewhere then, though its definition stands under its name.
-/
theorem asking_label_is_replaced
    : Source.IsAtom "`d0"
      ∧ (∃ after,
          rules.selectDiscard (.call (.name ⟨"`d0"⟩) []) { session := {} } = .ok () after
          ∧ Selection.Gains { session := {} } [.call ⟨"`d0"⟩ 0] after)
      ∧ (Op.call ⟨"`d0"⟩ 0).instr.text = "call    %rax"
      ∧ (Op.label ⟨"`d0"⟩).instr.text = "`d0:" := by
  have spelled : (Op.call ⟨"`d0"⟩ 0).instr.template = "call    " ++ "`d0" := by decide
  have shows : Shows (Op.call ⟨"`d0"⟩ 0).instr Temp.text (Op.call ⟨"`d0"⟩ 0).instr.template
      ("call    " ++ rax.text) := by
    rw [spelled]
    exact (shows_written rfl).prepend (by decide)
  exact ⟨by decide, ⟨_, rfl, rfl⟩, shows.textWith.2, textWith_label ⟨"`d0"⟩ Temp.text⟩

end X64

end TreeTiling
