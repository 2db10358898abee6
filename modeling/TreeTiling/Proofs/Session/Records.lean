import TreeTiling.Session.Stats

/-!
What a session is told to count, as a list of records, and what the counts are after any such list.

Each count grows by the number of its own records. The largest procedure is the first one of the
largest size, or the one from before if none is larger.
-/

namespace TreeTiling

----------------------------------------------------------------------------------------------
-- Tallies
----------------------------------------------------------------------------------------------

namespace Tally

/-- How often a name was counted, over all of its entries. -/
def countOf (name : String) : Tally → Nat
  | [] => 0
  | (other, count) :: rest => (if other = name then count else 0) + countOf name rest

/-- Counting a name once more counts no other name; by induction on the tally. -/
theorem countOf_add (name added : String) (tally : Tally)
    : (tally.add added).countOf name = tally.countOf name + if added = name then 1 else 0 := by
  induction tally with
  | nil => simp [add, countOf]
  | cons entry rest ih =>
      obtain ⟨other, count⟩ := entry
      rw [add]
      split
      · next same =>
          subst same
          rw [countOf, countOf]
          split <;> omega
      · split
        · rw [countOf]
          omega
        · rw [countOf, countOf, ih]
          omega

/-- Counting a name once more adds one to the sum; by induction on the tally. -/
theorem total_add (added : String) (tally : Tally) : (tally.add added).total = tally.total + 1 := by
  induction tally with
  | nil => rfl
  | cons entry rest ih =>
      obtain ⟨other, count⟩ := entry
      rw [add]
      unfold total at ih ⊢
      split
      · simp only [List.foldr_cons]
        omega
      · split
        · simp only [List.foldr_cons]
          omega
        · simp only [List.foldr_cons, ih]
          omega

end Tally

----------------------------------------------------------------------------------------------
-- Records
----------------------------------------------------------------------------------------------

/-- One thing that a session is told to count. -/
inductive Record where
  | instruction (mnemonic : String)
  | rule (category : Category)
  | procedure (name : String) (size : Nat)
  | data
  | propagations (count : Nat)
deriving DecidableEq

namespace Record

def isInstruction : Record → Bool
  | instruction _ => true
  | _ => false

def isData : Record → Bool
  | data => true
  | _ => false

/-- The name and the size of the procedure that a record is about. -/
def procedure? : Record → Option (String × Nat)
  | procedure name size => some (name, size)
  | _ => none

/-- Whether a record is made while a procedure is selected. -/
def ofSelection : Record → Bool
  | instruction _ | rule _ => true
  | _ => false

end Record

namespace Stats

/-- Makes a record. -/
def record (stats : Stats) : Record → Stats
  | .instruction mnemonic => stats.recordInstruction mnemonic
  | .rule category => stats.recordRule category
  | .procedure name size => stats.recordProcedure name size
  | .data => stats.recordData
  | .propagations count => stats.recordPropagations count

/-- Makes records in order. -/
def recordAll (stats : Stats) (records : List Record) : Stats :=
  records.foldl record stats

@[simp]
theorem recordAll_nil (stats : Stats) : stats.recordAll [] = stats :=
  rfl

@[simp]
theorem recordAll_cons (stats : Stats) (first : Record) (rest : List Record)
    : stats.recordAll (first :: rest) = (stats.record first).recordAll rest :=
  rfl

theorem recordAll_append (stats : Stats) (first second : List Record)
    : stats.recordAll (first ++ second) = (stats.recordAll first).recordAll second :=
  List.foldl_append

/-- How many rules of a category have fired. -/
def rulesFired (stats : Stats) : Category → Nat
  | .statement => stats.statementRules
  | .value => stats.valueRules
  | .discard => stats.discardRules

/-- A record of a rule changes only the three counts of rules. -/
theorem recordRule_eq (stats : Stats) (category : Category)
    : stats.recordRule category
      = { stats with
          statementRules := stats.statementRules + if category = .statement then 1 else 0
          valueRules := stats.valueRules + if category = .value then 1 else 0
          discardRules := stats.discardRules + if category = .discard then 1 else 0 } := by
  cases category <;> rfl

/-- A record of a procedure counts it and compares it with the largest so far. -/
theorem recordProcedure_eq (stats : Stats) (name : String) (size : Nat)
    : stats.recordProcedure name size
      = { stats with
          procedures := stats.procedures + 1
          largestSize := if stats.largestSize < size then size else stats.largestSize
          largestName := if stats.largestSize < size then name else stats.largestName } := by
  unfold recordProcedure
  split <;> rfl

section

attribute [local simp] record recordInstruction recordRule_eq recordProcedure_eq recordData
  recordPropagations Record.isInstruction Record.isData Record.procedure?

/-- A count that each record of a kind adds one to grows by the number of such records; by induction
on the records.
-/
theorem recordAll_amount (amount : Stats → Nat) (counted : Record → Bool)
    (step
      : ∀ stats record,
          amount (stats.record record) = amount stats + if counted record then 1 else 0)
    (stats : Stats) (records : List Record)
    : amount (stats.recordAll records) = amount stats + records.countP counted := by
  induction records generalizing stats with
  | nil => simp
  | cons first rest ih =>
      rw [recordAll_cons, ih, step, List.countP_cons]
      omega

theorem instructions_recordAll (stats : Stats) (records : List Record)
    : (stats.recordAll records).instructions
      = stats.instructions + records.countP Record.isInstruction := by
  apply recordAll_amount Stats.instructions
  intro stats record
  cases record <;> simp

theorem total_recordAll (stats : Stats) (records : List Record)
    : (stats.recordAll records).mnemonics.total
      = stats.mnemonics.total + records.countP Record.isInstruction := by
  apply recordAll_amount fun stats => stats.mnemonics.total
  intro stats record
  cases record <;> simp [Tally.total_add]

theorem countOf_recordAll (stats : Stats) (records : List Record) (name : String)
    : (stats.recordAll records).mnemonics.countOf name
      = stats.mnemonics.countOf name + records.count (.instruction name) := by
  apply recordAll_amount fun stats => stats.mnemonics.countOf name
  intro stats record
  cases record <;> simp [Tally.countOf_add]

theorem rulesFired_recordAll (stats : Stats) (records : List Record) (category : Category)
    : (stats.recordAll records).rulesFired category
      = stats.rulesFired category + records.count (.rule category) := by
  apply recordAll_amount fun stats => stats.rulesFired category
  intro stats record
  cases category <;> cases record <;> simp [rulesFired]

theorem procedures_recordAll (stats : Stats) (records : List Record)
    : (stats.recordAll records).procedures
      = stats.procedures + (records.filterMap Record.procedure?).length := by
  rw [List.length_filterMap_eq_countP]
  apply recordAll_amount Stats.procedures
  intro stats record
  cases record <;> simp

theorem dataFragments_recordAll (stats : Stats) (records : List Record)
    : (stats.recordAll records).dataFragments
      = stats.dataFragments + records.countP Record.isData := by
  apply recordAll_amount Stats.dataFragments
  intro stats record
  cases record <;> simp

----------------------------------------------------------------------------------------------
-- The largest procedure
----------------------------------------------------------------------------------------------

/-- After procedures with names and sizes, the largest is the first of the largest size, if that is
larger than the record from before; otherwise that record stands.
-/
def LargestAfter (before : Stats) (entries : List (String × Nat)) (after : Stats) : Prop :=
  ((∀ entry ∈ entries, entry.2 ≤ before.largestSize)
    ∧ after.largestSize = before.largestSize
    ∧ after.largestName = before.largestName)
  ∨ ∃ earlier name size later,
      entries = earlier ++ (name, size) :: later
      ∧ before.largestSize < size
      ∧ (∀ entry ∈ earlier, entry.2 < size)
      ∧ (∀ entry ∈ later, entry.2 ≤ size)
      ∧ after.largestSize = size
      ∧ after.largestName = name

/-- A procedure in front of others is passed by a larger one, or stands if none is larger. -/
theorem LargestAfter.cons {before middle after : Stats} {entries : List (String × Nat)}
    {name : String} {size : Nat}
    (first : middle = before.recordProcedure name size)
    (rest : middle.LargestAfter entries after)
    : before.LargestAfter ((name, size) :: entries) after := by
  subst first
  rw [recordProcedure_eq] at rest
  by_cases larger : before.largestSize < size
  · simp only [LargestAfter, larger, if_true] at rest
    rcases rest with ⟨smaller, kept⟩ | passed
    · exact .inr ⟨[], name, size, entries, rfl, larger, List.forall_mem_nil _, smaller, kept⟩
    · obtain ⟨earlier, other, otherSize, later, rfl, lt, before, after, isLargest⟩ := passed
      refine .inr ⟨(name, size) :: earlier, other, otherSize, later, rfl, ?_, ?_, after, isLargest⟩
      · exact Nat.lt_trans larger lt
      · exact List.forall_mem_cons.mpr ⟨lt, before⟩
  · simp only [LargestAfter, larger, if_false] at rest
    have notLarger := Nat.not_lt.mp larger
    rcases rest with ⟨smaller, kept⟩ | passed
    · exact .inl ⟨List.forall_mem_cons.mpr ⟨notLarger, smaller⟩, kept⟩
    · obtain ⟨earlier, other, otherSize, later, rfl, lt, before, after, isLargest⟩ := passed
      refine .inr ⟨(name, size) :: earlier, other, otherSize, later, rfl, lt, ?_, after, isLargest⟩
      exact List.forall_mem_cons.mpr ⟨Nat.lt_of_le_of_lt notLarger lt, before⟩

/-- The largest procedure after any records; by induction on them. -/
theorem largestAfter_recordAll (stats : Stats) (records : List Record)
    : stats.LargestAfter (records.filterMap Record.procedure?) (stats.recordAll records) := by
  induction records generalizing stats with
  | nil => exact .inl ⟨List.forall_mem_nil _, rfl, rfl⟩
  | cons first rest ih =>
      have later := ih (stats.record first)
      cases first with
      | procedure name size => exact .cons rfl later
      | instruction _ | data | propagations _ => exact later
      | rule category => cases category with
        | statement | value | discard => exact later

end

----------------------------------------------------------------------------------------------
-- Growth
----------------------------------------------------------------------------------------------

/-- Amounts that are added to the counts of instructions, of each mnemonic and of fired rules. -/
structure Growth where
  instructions : Nat
  mnemonics : String → Nat
  rules : Category → Nat

/-- The counts have grown by the amounts. -/
structure GrowsBy (growth : Growth) (before after : Stats) : Prop where
  instructions : after.instructions = before.instructions + growth.instructions
  mnemonics
    : ∀ name,
        after.mnemonics.countOf name = before.mnemonics.countOf name + growth.mnemonics name
  rules : ∀ category, after.rulesFired category = before.rulesFired category + growth.rules category

/-- The amounts that records add, whatever was counted before. -/
def Growth.ofRecords (records : List Record) : Growth where
  instructions := records.countP Record.isInstruction
  mnemonics name := records.count (.instruction name)
  rules category := records.count (.rule category)

theorem growsBy_recordAll (stats : Stats) (records : List Record)
    : GrowsBy (.ofRecords records) stats (stats.recordAll records) :=
  ⟨instructions_recordAll stats records, countOf_recordAll stats records,
    rulesFired_recordAll stats records⟩

end Stats

end TreeTiling
