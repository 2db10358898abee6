import TreeTiling.Proofs.Selection.Steps
import TreeTiling.Proofs.Session.Records

/-!
What selection leaves behind in a session, whatever the rules are and whether it succeeds or not:
records of the instructions that it emitted and of the rules that fired, and nothing else but
temporaries and events.
-/

namespace TreeTiling

variable {ι α : Type}

----------------------------------------------------------------------------------------------
-- Steps
----------------------------------------------------------------------------------------------

namespace Selection

/-- Items were emitted between two selections and records were made: one for each item, and the
others for rules.
-/
structure Advances (before : Selection ι) (items : List ι) (records : List Record)
    (after : Selection ι)
    : Prop where
  gains : before.Gains items after
  stats : after.session.stats = before.session.stats.recordAll records
  procedure : after.session.procedure = before.session.procedure
  ofSelection : ∀ record ∈ records, record.ofSelection = true
  counted : records.countP Record.isInstruction = items.length

namespace Advances

theorem refl (selection : Selection ι) : selection.Advances [] [] selection :=
  ⟨.refl selection, rfl, rfl, List.forall_mem_nil _, rfl⟩

theorem trans {before middle after : Selection ι} {items others : List ι}
    {records more : List Record} (first : before.Advances items records middle)
    (second : middle.Advances others more after)
    : before.Advances (items ++ others) (records ++ more) after := by
  refine ⟨first.gains.trans second.gains, ?_, second.procedure.trans first.procedure, ?_, ?_⟩
  · rw [second.stats, first.stats, Stats.recordAll_append]
  · exact List.forall_mem_append.mpr ⟨first.ofSelection, second.ofSelection⟩
  · rw [List.countP_append, List.length_append, first.counted, second.counted]

/-- Emitting an item makes its record. -/
theorem emit [Emittable ι] (selection : Selection ι) (item : ι)
    : selection.Advances [item] [.instruction (Emittable.instr item).mnemonic]
        (selection.emit item) :=
  ⟨selection.gains_emit item, rfl, rfl, List.forall_mem_singleton.mpr rfl, rfl⟩

/-- Taking note of a rule makes its record. -/
theorem note (selection : Selection ι) (category : Category) (index : Nat) (pattern : Pattern)
    (tree : Node)
    : selection.Advances [] [.rule category] (selection.note category index pattern tree) :=
  ⟨.refl selection, rfl, rfl, List.forall_mem_singleton.mpr rfl, rfl⟩

/-- Taking a temporary makes no record. -/
theorem taken (selection : Selection ι) : selection.Advances [] [] selection.taken :=
  ⟨.refl selection, rfl, rfl, List.forall_mem_nil _, rfl⟩

end Advances

end Selection

----------------------------------------------------------------------------------------------
-- Runs
----------------------------------------------------------------------------------------------

section

variable [Emittable ι] {rules : Rules ι} {before after : Selection ι}

theorem Rules.Step.advances (step : rules.Step before after)
    : ∃ items records, before.Advances items records after := by
  cases step with
  | emit item => exact ⟨_, _, .emit before item⟩
  | fresh => exact ⟨_, _, .taken before⟩
  | fire _ => exact ⟨_, _, .note before _ _ _ _⟩

/-- Steps in a row emit and record in a row; by induction on the steps. -/
theorem advances_of_steps (steps : Relation.ReflTransGen rules.Step before after)
    : ∃ items records, before.Advances items records after := by
  induction steps with
  | refl => exact ⟨_, _, .refl before⟩
  | tail _ step ih =>
      obtain ⟨_, _, earlier⟩ := ih
      obtain ⟨_, _, last⟩ := step.advances
      exact ⟨_, _, earlier.trans last⟩

/-- Selecting a body makes records of what it emits, also where it fails; the code that it answers
with is what was emitted.
-/
theorem Rules.selectBody_recorded (rules : Rules ι) {body : Stm} {session after : Session}
    {answer : Except SelectionError (Array ι)}
    (selected : rules.selectBody body session = (answer, after))
    : ∃ (items : List ι) (records : List Record),
        after.stats = session.stats.recordAll records
        ∧ after.procedure = session.procedure
        ∧ (∀ record ∈ records, record.ofSelection = true)
        ∧ records.countP Record.isInstruction = items.length
        ∧ ∀ code, answer = .ok code → code.toList = items := by
  obtain ⟨items, records, advances⟩ :=
    advances_of_steps ((stepwiseWithin rules body.nesting).statement body { session })
  change Selection.Advances _ _ _ (Selection.final (rules.selectStatement body { session }))
    at advances
  refine ⟨items, records, ?_⟩
  rw [Rules.selectBody, EStateM.run] at selected
  cases outcome : rules.selectStatement body { session } with
  | ok result last =>
      rw [outcome] at advances selected
      cases selected
      refine ⟨advances.stats, advances.procedure, advances.ofSelection, advances.counted, ?_⟩
      intro code same
      cases same
      exact advances.gains
  | error error last =>
      rw [outcome] at advances selected
      cases selected
      refine ⟨advances.stats, advances.procedure, advances.ofSelection, advances.counted, ?_⟩
      intro code same
      cases same

end

end TreeTiling
