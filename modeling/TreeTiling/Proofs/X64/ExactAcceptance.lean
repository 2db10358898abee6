import TreeTiling.Proofs.X64.Acceptance
import TreeTiling.Proofs.X64.Layout
import TreeTiling.Proofs.X64.Writes

/-!
Selection accepts exactly the bodies in which jumps and calls go to labels and assignments to
temporaries and memory words, and it refuses all others by naming what is at fault.

No rule passes over a part of what it matched, so code that was emitted shows that there is no
indirect call in any of the trees it was emitted for.
-/

namespace TreeTiling.X64

theorem MadeBy.indirectCalls {tree : Exp} {make : Temp → Op} (made : MadeBy tree make)
    : tree.indirectCalls = [] := by
  cases made <;> simp

theorem SameAs.indirectCalls {tree operand : Exp} (same : SameAs tree operand)
    : tree.indirectCalls = operand.indirectCalls := by
  cases same <;> simp

theorem UpdatedBy.indirectCalls {tree operand : Exp} {update : Temp → Op}
    (updated : UpdatedBy tree operand update)
    : tree.indirectCalls = operand.indirectCalls := by
  cases updated <;> simp

theorem MultipleOf.indirectCalls {tree factor : Exp} {value : Word}
    (multiple : MultipleOf tree factor value)
    : tree.indirectCalls = factor.indirectCalls := by
  cases multiple <;> simp

theorem AddressForm.Of.indirectCalls {form : AddressForm} {tree : Exp} (of : form.Of tree)
    : tree.indirectCalls = form.trees.flatMap Exp.indirectCalls := by
  cases of <;> simp [AddressForm.trees]

/-- A tree without parts has no indirect call. -/
theorem indirectCalls_of_leaf {tree : Exp} (leaf : tree.height = 1) : tree.indirectCalls = [] := by
  obtain ⟨_, rfl⟩ | ⟨_, rfl⟩ | ⟨_, rfl⟩ := Exp.leaf_cases leaf <;> simp

attribute [local simp] Task.trees AddressForm.trees Stm.operands

/-- There is no indirect call in the trees of a task that has code; by induction on the tiling. -/
theorem Tiling.noIndirectCalls {task : Task} {first next : Nat} {code : List Op}
    (tiling : Tiling task first code next)
    : task.trees.flatMap Exp.indirectCalls = [] := by
  induction tiling with
  | make made | assignMade _ made => simp [made.indirectCalls]
  | temp | keepConst | keepName | noArguments | noStores | label | jump => simp
  | idle _ leaf => simp [indirectCalls_of_leaf leaf]
  | load of _ ih | assignAddress of _ ih | assignLoad of _ ih | storeImm of _ _ ih =>
      simpa [of.indirectCalls] using ih
  | same same _ ih => simpa [same.indirectCalls] using ih
  | update updated _ ih => simpa [updated.indirectCalls] using ih
  | multiple multiple _ ih => simpa [multiple.indirectCalls] using ih
  | callValue _ ih | callEffects _ ih | valueEffects _ ih | effects _ ih | direct _ ih
  | displaced _ ih | immRight _ _ ih | immLeft _ _ ih | keepRegister _ _ ih | copyFixed _ _ ih
  | cjump _ ih | assignCopy _ ih => simpa using ih
  | combine _ _ left right | quotient _ _ left right | indexed _ _ left right
  | scaled _ _ left right | memBoth _ _ left right | memRight _ _ left right
  | memLeft _ _ left right | registers _ _ left right | moreArguments _ _ left right
  | moreStores _ _ left right | cmove _ _ left right =>
      simpa [and_assoc] using And.intro left right
  | store of _ _ left right =>
      simpa [of.indirectCalls] using And.intro left right
  | call _ _ _ evaluation _ => simpa using evaluation

/-- A statement that has code assigns only to temporaries and memory words, and its jumps and calls
go to labels.
-/
theorem Tiling.selectable {part : Stm} {first next : Nat} {code : List Op}
    (tiling : Tiling (.statement part) first code next)
    : Selectable part := by
  have direct : ∀ operand ∈ part.operands, operand.CallsLabels := by
    intro operand member
    exact Exp.callsLabels_iff.mpr (List.flatMap_eq_nil_iff.mp tiling.noIndirectCalls operand member)
  refine ⟨⟨?_, ?_⟩, ?_, direct⟩
  · intro statements same
    subst same
    cases tiling
  · intro dst src same
    subst same
    cases tiling with
    | assignMade | assignAddress | assignLoad | assignCopy => exact .inl ⟨_, rfl⟩
    | storeImm | store => exact .inr ⟨_, rfl⟩
  · intro target same
    subst same
    cases tiling with
    | jump name => exact ⟨name, rfl⟩

/-- Every statement of a body that was selected is selectable, since it has code. -/
theorem selectable_of_selected {body part : Stm} {session : Session} {last : Selection Op}
    (selected : rules.selectStatement body { session } = .ok () last)
    (member : part ∈ body.flatten)
    : Selectable part := by
  obtain ⟨position, found⟩ := List.getElem?_of_mem member
  obtain ⟨_, _, _, _, tiling, -, -⟩ := (layout_of_selected selected).piece found
  exact tiling.selectable

/-- A body is accepted if and only if its jumps go to labels, its assignments to temporaries and
memory words, and all its calls to labels. If not, the error names a jump, a call or an assignment
of the body that does not.
-/
theorem selectBody_accepts_exactly (body : Stm) (session : Session)
    : ((∃ code, (rules.selectBody body session).1 = .ok code)
        ↔ (∀ target, .jump target ∈ body.flatten → ∃ name, target = .name name)
          ∧ (∀ dst src,
              .move dst src ∈ body.flatten
              → (∃ register, dst = .temp register) ∨ ∃ address, dst = .mem address)
          ∧ ∀ part ∈ body.flatten, ∀ operand ∈ part.operands, operand.CallsLabels)
      ∧ ∀ error,
          (rules.selectBody body session).1 = .error error
          → ∃ part ∈ body.flatten, Refusal part error := by
  constructor
  · constructor
    · intro accepted
      obtain ⟨code, isOk⟩ := accepted
      obtain ⟨last, selected, -, -⟩ := Rules.selectBody_ok.mp (Prod.ext isOk rfl)
      refine ⟨?_, ?_, fun part member => (selectable_of_selected selected member).callsLabels⟩
      · intro target member
        exact (selectable_of_selected selected member).jumps target rfl
      · intro dst src member
        exact (selectable_of_selected selected member).destination dst src rfl
    · intro supported
      obtain ⟨jumps, destinations, calls⟩ := supported
      have selectable : ∀ part ∈ body.flatten, Selectable part := by
        intro part member
        refine ⟨⟨fun _ => Stm.ne_seq_of_mem_flatten member, ?_⟩, ?_, calls part member⟩
        · intro dst src same
          exact destinations dst src (same ▸ member)
        · intro target same
          exact jumps target (same ▸ member)
      obtain ⟨_, last, selected⟩ := selectStatement_accepts selectable { session }
      exact ⟨last.code, congrArg Prod.fst (Rules.selectBody_ok.mpr ⟨last, selected, rfl, rfl⟩)⟩
  · intro error failed
    obtain ⟨last, refused⟩ := Rules.selectBody_error failed
    exact selectStatement_failsOnly body _ _ _ refused

end TreeTiling.X64
