import TreeTiling.Proofs.X64.Acceptance
import TreeTiling.Proofs.X64.Timing

/-!
Expressions that read machine registers.

The code of such an expression leaves its value if the expression reads `rax` and `rdx` in time. It
need not otherwise: a division writes these registers, and does not look whether an operand of the
expression is still to be read from them.
-/

namespace TreeTiling.X64

/-- Selection succeeds on an expression without calls, whatever machine registers it reads. If it
reads `rax` and `rdx` in time, its code leaves its value in the register of the answer, wherever it
has one. It then leaves memory as it was.
-/
theorem selectValue_computes_in_time (tree : Exp) (before : Selection Op)
    (callFree : tree.isCallFree = true)
    (earlier : ∀ number, Temp.virtual number ∈ tree.temps → number < before.session.temps)
    (inTime : ReadsInTime tree)
    : ∃ register after code,
        rules.selectValue tree before = .ok register after
        ∧ before.Gains code after
        ∧ ∀ (symbols : Label → Word) (machine : Machine) (value : Word),
            tree.eval? symbols machine.toStore = some value
            → ∃ last,
                execAll? symbols code machine = some last
                ∧ last.register register = value
                ∧ last.memory = machine.memory := by
  obtain ⟨register, after, selected⟩ :=
    selectValue_accepts (Exp.callsLabels_of_isCallFree callFree) before
  obtain ⟨code, gains, tiling⟩ := (coversWithin _).value selected
  refine ⟨register, after, code, selected, gains, fun symbols machine value defined => ?_⟩
  obtain ⟨last, ran, agrees, held⟩ :=
    tiling.timely symbols machine value ⟨callFree, earlier, inTime⟩ defined
  exact ⟨last, ran, held, agrees.memory⟩

/-- A machine whose first temporary holds six, and whose registers hold three. -/
def sixAndThrees : Machine where
  register register := if register = .virtual 0 then 6 else 3
  memory _ := 0
  flags := none

/-- The sum of the two registers that a division writes, divided. -/
def quotientAfterSum : Exp :=
  .binop .div (.binop .plus (.temp rdx) (.temp rax)) (.temp rcx)

/-- The sum is computed before the division writes either register. -/
theorem quotientAfterSum_computes
    : ReadsInTime quotientAfterSum
      ∧ ∃ register after code last,
          rules.selectValue quotientAfterSum { session := {} } = .ok register after
          ∧ Selection.Gains { session := {} } code after
          ∧ execAll? (fun _ => 0) code sixAndThrees = some last
          ∧ last.register register = 2 := by
  have inTime : ReadsInTime quotientAfterSum := by decide
  have earlier : ∀ number, Temp.virtual number ∈ quotientAfterSum.temps → number < 0 := by
    intro number occurs
    simp [quotientAfterSum, rax, rcx, rdx] at occurs
  obtain ⟨register, after, code, selected, gains, computes⟩ :=
    selectValue_computes_in_time quotientAfterSum { session := {} } (by decide) earlier inTime
  have defined : quotientAfterSum.eval? (fun _ => 0) sixAndThrees.toStore = some 2 := by decide
  obtain ⟨last, ran, held, -⟩ := computes _ sixAndThrees 2 defined
  exact ⟨inTime, register, after, code, last, selected, gains, ran, held⟩

/-- A divisor in `rax` is overwritten by the dividend before the division reads it: six divided by
three gives one.
-/
theorem divisor_in_rax_is_lost
    : let quotient := Exp.binop .div (.temp (.virtual 0)) (.temp rax)
      let code : List Op :=
        [.copy rax (.virtual 0), .signExtend, .divide rax, .copy (.virtual 1) rax]
      quotient.isCallFree = true
      ∧ quotient.eval? (fun _ => 0) sixAndThrees.toStore = some 2
      ∧ ∃ after last,
          rules.selectValue quotient { session := { temps := 1 } } = .ok (.virtual 1) after
          ∧ Selection.Gains { session := { temps := 1 } } code after
          ∧ execAll? (fun _ => 0) code sixAndThrees = some last
          ∧ last.register (.virtual 1) = 1 := by
  intro quotient code
  refine ⟨by decide, by decide, _, _, rfl, rfl, rfl, ?_⟩
  decide

end TreeTiling.X64
