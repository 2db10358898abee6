import TreeTiling.Proofs.X64.Symbols

/-!
Every selected instruction can be encoded.

An instruction has room for an immediate and for a displacement of 32 bits, whose sign is extended.
Only a move of an immediate to a register takes a whole word. The rules test the constants they use
in these fields, and leave all others to a register.
-/

namespace TreeTiling.X64

----------------------------------------------------------------------------------------------
-- Operands that fit
----------------------------------------------------------------------------------------------

/-- The displacement and the scale of a memory operand fit their fields. -/
def Address.Encodable : Address → Prop
  | direct _ => True
  | displaced offset _ => offset.fitsImm32 = true
  | indexed _ _ => True
  | scaled _ _ scale => scale.isScale = true

/-- The words in an operand fit their fields. -/
def Operand.Encodable : Operand → Prop
  | immediate value => value.fitsImm32 = true
  | memory address => address.Encodable
  | register _ | relative _ | code _ => True

/-- Every operand of an operation fits, apart from the word that is moved to a register. -/
def Op.Encodable (op : Op) : Prop :=
  (∃ value dst, op = .loadImm value dst) ∨ ∀ operand ∈ op.operands, operand.Encodable

theorem fitsImm32_iff {value : Word}
    : value.fitsImm32 = true ↔ -2 ^ 31 ≤ value.toInt ∧ value.toInt ≤ 2 ^ 31 - 1 := by
  simp [Word.fitsImm32]

theorem toInt_of_isScale {scale : Word} (allowed : scale.isScale = true)
    : scale.toInt ∈ [1, 2, 4, 8] := by
  simp only [Word.isScale, Bool.or_eq_true, beq_iff_eq] at allowed
  rcases allowed with ((rfl | rfl) | rfl) | rfl <;> decide

attribute [local simp] Op.Encodable Op.operands Operand.Encodable Address.Encodable

theorem MadeBy.encodable {tree : Exp} {make : Temp → Op} (made : MadeBy tree make) (dst : Temp)
    : (make dst).Encodable := by
  cases made <;> simp

theorem UpdatedBy.encodable {tree operand : Exp} {update : Temp → Op}
    (updated : UpdatedBy tree operand update) (dst : Temp)
    : (update dst).Encodable := by
  cases updated <;> simp [*]

/-- A memory operand is encodable if its form is one for a tree. -/
theorem AddressForm.Of.encodable {form : AddressForm} {tree : Exp} (of : form.Of tree)
    {address : Address} {first next : Nat} {code : List Op}
    (operand : Tiling (.address form address) first code next)
    : address.Encodable := by
  cases of with
  | direct => cases operand; trivial
  | displaced _ fits => cases operand; exact fits
  | indexed => cases operand; trivial
  | scaled _ _ allowed => cases operand; exact allowed

theorem MultipleOf.encodable {tree factor : Exp} {value : Word}
    (multiple : MultipleOf tree factor value)
    : value.fitsImm32 = true := by
  cases multiple <;> assumption

----------------------------------------------------------------------------------------------
-- Selected code
----------------------------------------------------------------------------------------------

/-- All operations of a task's code are encodable; by induction on the tiling. -/
theorem Tiling.encodable {task : Task} {first next : Nat} {code : List Op}
    (tiling : Tiling task first code next)
    : ∀ op ∈ code, op.Encodable := by
  induction tiling with
  | make made | assignMade _ made => exact List.forall_mem_singleton.mpr (made.encodable _)
  | temp | keepConst | keepName | noArguments | noStores | idle => exact List.forall_mem_nil _
  | label | jump => simp
  | same _ _ ih | callValue _ ih | callEffects _ ih | valueEffects _ ih | keepRegister _ _ ih
  | effects _ ih | direct _ ih | displaced _ ih => exact ih
  | update updated _ ih =>
      refine List.forall_mem_append.mpr ⟨ih, List.forall_mem_cons.mpr ⟨by simp, ?_⟩⟩
      exact List.forall_mem_singleton.mpr (updated.encodable _)
  | multiple multiple _ ih =>
      exact List.forall_mem_append.mpr ⟨ih, by simp [multiple.encodable]⟩
  | load of operand ih | assignAddress of operand ih | assignLoad of operand ih =>
      exact List.forall_mem_append.mpr ⟨ih, by simpa using of.encodable operand⟩
  | storeImm of fits operand ih =>
      exact List.forall_mem_append.mpr ⟨ih, by simpa [fits] using of.encodable operand⟩
  | immRight fits _ ih | immLeft fits _ ih =>
      exact List.forall_mem_append.mpr ⟨ih, by simp [fits]⟩
  | copyFixed _ _ ih | assignCopy _ ih | cjump _ ih =>
      exact List.forall_mem_append.mpr ⟨ih, by simp⟩
  | indexed _ _ left right | scaled _ _ left right | moreArguments _ _ left right
  | moreStores _ _ left right => exact List.forall_mem_append.mpr ⟨left, right⟩
  | combine _ _ left right | quotient _ _ left right | memBoth _ _ left right
  | memRight _ _ left right | memLeft _ _ left right | registers _ _ left right
  | cmove _ _ left right | call _ _ _ left right =>
      exact List.forall_mem_append.mpr ⟨List.forall_mem_append.mpr ⟨left, right⟩, by simp⟩
  | store of operand _ left right =>
      refine List.forall_mem_append.mpr ⟨List.forall_mem_append.mpr ⟨left, right⟩, ?_⟩
      simpa using of.encodable operand

/-- No operation has two operands in memory. -/
theorem Op.countP_isMemory_le (op : Op) : op.operands.countP Operand.isMemory ≤ 1 := by
  cases op <;> simp [Operand.isMemory, List.countP_cons]

/-- An immediate comes first among the operands. -/
theorem Op.second_ne_immediate (op : Op) (value : Word)
    : op.operands[1]? ≠ some (.immediate value) := by
  cases op <;> simp

/-- An immediate of an encodable operation fits 32 bits unless it is moved to a register. -/
theorem Op.Encodable.immediate {op : Op} (encodable : op.Encodable) {value : Word}
    (member : .immediate value ∈ op.operands)
    : (op.word = "movq" ∧ ∃ dst, op.operands = [.immediate value, .register dst])
      ∨ value.fitsImm32 = true := by
  rcases encodable with ⟨moved, dst, rfl⟩ | fits
  · obtain rfl : value = moved := by simpa using member
    exact .inl ⟨rfl, dst, rfl⟩
  · exact .inr (fits _ member)

theorem Op.Encodable.memory {op : Op} (encodable : op.Encodable) {address : Address}
    (member : .memory address ∈ op.operands)
    : address.Encodable := by
  rcases encodable with ⟨moved, dst, rfl⟩ | fits
  · simp at member
  · exact fits _ member

/-- Every instruction selected for a statement can be encoded. Immediates, but for a word that is
moved to a register, and displacements have 32 bits; scales are one, two, four or eight; at most one
operand stands in memory; and a comparison has no immediate as its second operand. The operands are
those that the text of the instruction shows.
-/
theorem selected_operands_encodable {tree : Stm} {before after : Selection Op}
    (selected : rules.selectStatement tree before = .ok () after)
    : ∃ code,
        before.Gains code after
        ∧ ∀ op ∈ code,
            (∀ value,
              .immediate value ∈ op.operands
              → (op.word = "movq" ∧ ∃ dst, op.operands = [.immediate value, .register dst])
                ∨ (-2 ^ 31 ≤ value.toInt ∧ value.toInt ≤ 2 ^ 31 - 1))
            ∧ (∀ offset base,
                .memory (.displaced offset base) ∈ op.operands
                → -2 ^ 31 ≤ offset.toInt ∧ offset.toInt ≤ 2 ^ 31 - 1)
            ∧ (∀ base index scale,
                .memory (.scaled base index scale) ∈ op.operands → scale.toInt ∈ [1, 2, 4, 8])
            ∧ op.operands.countP Operand.isMemory ≤ 1
            ∧ (op.word = "cmpq" → ∀ value, op.operands[1]? ≠ some (.immediate value))
            ∧ ((∀ label ∈ tree.labels, '\x60' ∉ label.name.toList)
              → ∀ naming, op.instr.textWith naming = op.written naming) := by
  obtain ⟨pieces, gains, tiling⟩ := selectStatement_tiles selected
  refine ⟨pieces.flatten, gains, fun op member => ?_⟩
  obtain ⟨_, _, _, _, _, piece, inPiece⟩ := tiling.of_mem member
  have encodable := piece.encodable op inPiece
  refine ⟨?_, ?_, ?_, op.countP_isMemory_le, fun _ value => op.second_ne_immediate value, ?_⟩
  · exact fun value occurs => (encodable.immediate occurs).imp_right fitsImm32_iff.mp
  · exact fun offset base occurs => fitsImm32_iff.mp (encodable.memory occurs)
  · exact fun base index scale occurs => toInt_of_isScale (encodable.memory occurs)
  · intro plainLabels naming
    refine (op.textWith_instr naming ?_).2
    exact fun label occurs => plainLabels label (tiling.namesOnly op member occurs)

/-- A displacement one above the largest that fits, and the least immediate that does. -/
def boundaryConstants : Stm :=
  .cjump .lt (.const (-0x80000000))
    (.mem (.binop .plus (.temp (.virtual 0)) (.const 0x80000000))) ⟨"more"⟩ ⟨"done"⟩

def boundaryConstantsCode : List Op :=
  [.loadImm 0x80000000 (.virtual 1), .copy (.virtual 2) (.virtual 0),
    .arith .add (.virtual 1) (.virtual 2), .load (.direct (.virtual 2)) (.virtual 3),
    .compareImm (.virtual 3) (-0x80000000), .branch .gt ⟨"more"⟩ ⟨"done"⟩]

/-- The displacement goes through a register, and the immediate is compared with. -/
theorem boundaryConstants_encodable
    : ∃ after,
        rules.selectStatement boundaryConstants { session := { temps := 1 } } = .ok () after
        ∧ Selection.Gains { session := { temps := 1 } } boundaryConstantsCode after
        ∧ (∀ value,
            .immediate value ∈ (Op.compareImm (.virtual 3) (-0x80000000)).operands
            → -2 ^ 31 ≤ value.toInt ∧ value.toInt ≤ 2 ^ 31 - 1)
        ∧ (Op.compareImm (.virtual 3) (-0x80000000)).instr.text = "cmpq    $-2147483648, t3" := by
  obtain ⟨after, selected, emitted⟩ : ∃ after,
      rules.selectStatement boundaryConstants { session := { temps := 1 } } = .ok () after
      ∧ after.code.toList = boundaryConstantsCode := ⟨_, rfl, rfl⟩
  obtain ⟨code, gains, holds⟩ := selected_operands_encodable selected
  obtain rfl : code = boundaryConstantsCode := by rw [← emitted, gains, List.nil_append]
  obtain ⟨immediates, -, -, -, -, text⟩ :=
    holds (.compareImm (.virtual 3) (-0x80000000)) (by decide)
  refine ⟨after, selected, gains, ?_, ?_⟩
  · intro value occurs
    exact (immediates value occurs).resolve_left fun moved => absurd moved.1 (by decide)
  · rw [Instr.text, text (by decide)]
    decide

end TreeTiling.X64
