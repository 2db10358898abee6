import TreeTiling.Proofs.X64.Acceptance
import TreeTiling.Proofs.X64.Soundness

/-!
The code selected for the value of an expression without calls, taken alone: it is always there, it
runs to its end where the expression has a value, and it leaves that value in the register that
selection answers with.
-/

namespace TreeTiling.X64

/-- Selection succeeds on an expression without calls, and wherever the expression has a value its
code runs straight through and leaves the value in the register of the answer. Memory, the
temporaries that were there before and the machine registers are as they were, except for `rax` and
`rdx` if there are divisions. Labels have any addresses, and registers, memory and flags hold
anything at first.
-/
theorem selectValue_computes (tree : Exp) (before : Selection Op)
    (callFree : tree.isCallFree = true)
    (earlier : ∀ number, Temp.virtual number ∈ tree.temps → number < before.session.temps)
    (divisions : tree.hasDivision = false ∨ (rax ∉ tree.temps ∧ rdx ∉ tree.temps))
    : ∃ register after code,
        rules.selectValue tree before = .ok register after
        ∧ before.Gains code after
        ∧ ∀ (symbols : Label → Word) (machine : Machine) (value : Word),
            tree.eval? symbols machine.toStore = some value
            → ∃ last,
                execAll? symbols code machine = some last
                ∧ last.register register = value
                ∧ last.memory = machine.memory
                ∧ (∀ number < before.session.temps,
                    last.register (.virtual number) = machine.register (.virtual number))
                ∧ ∀ name,
                    tree.hasDivision = false ∨ (Temp.fixed name ≠ rax ∧ Temp.fixed name ≠ rdx)
                    → last.register (.fixed name) = machine.register (.fixed name) := by
  obtain ⟨register, after, selected⟩ :=
    selectValue_accepts (Exp.callsLabels_of_isCallFree callFree) before
  obtain ⟨code, gains, tiling⟩ := (coversWithin _).value selected
  refine ⟨register, after, code, selected, gains, ?_⟩
  intro symbols machine value defined
  have readable : Readable before.session.temps tree.hasDivision tree :=
    ⟨fun _ occurs => stable_of_earlier earlier divisions occurs, id⟩
  obtain ⟨-, last, ran, agrees, held⟩ :=
    tiling.sound symbols tree.hasDivision machine value readable defined
  refine ⟨last, ran, held, agrees.memory, ?_, ?_⟩
  · intro number lt
    have stable : Stable before.session.temps tree.hasDivision (.virtual number) := lt
    exact agrees.register stable
  · intro name spared
    have stable : Stable before.session.temps tree.hasDivision (.fixed name) := by
      intro divides
      rcases spared with none | others
      · rw [none] at divides
        cases divides
      · exact others
    exact agrees.register stable

/-- A word of a table at a quotient, less a constant that no immediate holds. -/
def quotientLookup : Exp :=
  .binop .minus
    (.mem (.binop .plus (.temp (.virtual 0))
      (.binop .mul (.binop .div (.temp rcx) (.temp (.virtual 1))) (.const 8))))
    (.const 0x123456789abcdef)

/-- A machine with a table whose words hold their own addresses. -/
def tableMachine : Machine where
  register register := if register = .virtual 0 then 1000 else if register = rcx then 17 else -5
  memory place := place
  flags := none

/-- The lookup is computed where 17 is divided by -5, and `rcx` is as it was. -/
theorem quotientLookup_computes
    : quotientLookup.hasDivision = true
      ∧ ∃ register after code last,
          rules.selectValue quotientLookup { session := { temps := 2 } } = .ok register after
          ∧ Selection.Gains { session := { temps := 2 } } code after
          ∧ execAll? (fun _ => 0) code tableMachine = some last
          ∧ last.register register = 976 - 0x123456789abcdef
          ∧ last.register rcx = 17 := by
  refine ⟨by decide, ?_⟩
  have temps : quotientLookup.temps = [.virtual 0, rcx, .virtual 1] := by decide
  have earlier : ∀ number, Temp.virtual number ∈ quotientLookup.temps → number < 2 := by
    intro number occurs
    simp [temps, rcx] at occurs
    omega
  obtain ⟨register, after, code, selected, gains, computes⟩ :=
    selectValue_computes quotientLookup { session := { temps := 2 } } (by decide) earlier
      (.inr ⟨by decide, by decide⟩)
  have defined
      : quotientLookup.eval? (fun _ => 0) tableMachine.toStore
        = some (976 - 0x123456789abcdef) := by
    decide
  obtain ⟨last, ran, held, -, -, kept⟩ := computes _ tableMachine _ defined
  exact ⟨register, after, code, last, selected, gains, ran, held,
    kept "%rcx" (.inr ⟨by decide, by decide⟩)⟩

end TreeTiling.X64
