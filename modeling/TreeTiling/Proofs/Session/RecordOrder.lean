import Mathlib.Data.List.Dedup
import TreeTiling.Proofs.Session.Records
import TreeTiling.Proofs.Text.ByteOrder

/-!
The order in which a session is told to count.

Records can change places unless both are of procedures, so statistics depend on which records were
made and on the order of the procedures among them. The mnemonics are listed in an order that
tells any two of them apart; so neither the order of the records nor that of the table shows in
the text.
-/

namespace TreeTiling

----------------------------------------------------------------------------------------------
-- Tallies
----------------------------------------------------------------------------------------------

namespace Tally

section

variable {name other : String} (count : Nat) (rest : Tally)

theorem add_same : add name ((name, count) :: rest) = (name, count + 1) :: rest := by
  rw [add, if_pos rfl]

theorem add_before (before : name < other)
    : add name ((other, count) :: rest) = (name, 1) :: (other, count) :: rest := by
  rw [add, if_neg (ne_of_lt before), if_pos before]

theorem add_after (after : other < name)
    : add name ((other, count) :: rest) = (other, count) :: add name rest := by
  rw [add, if_neg (ne_of_gt after), if_neg (lt_asymm after)]

end

/-- By induction on the tally, along the places where the two names belong. -/
theorem add_add_of_lt {first second : String} (less : first < second) (tally : Tally)
    : (tally.add first).add second = (tally.add second).add first := by
  induction tally with
  | nil =>
      change add second [(first, 1)] = add first [(second, 1)]
      rw [add_after _ _ less, add_before _ _ less, add]
  | cons entry rest ih =>
      obtain ⟨other, count⟩ := entry
      rcases lt_trichotomy first other with before | rfl | after
      · rw [add_before _ _ before, add_after _ _ less]
        rcases lt_trichotomy second other with secondBefore | rfl | secondAfter
        · rw [add_before _ _ secondBefore, add_before _ _ less]
        · rw [add_same, add_before _ _ less]
        · rw [add_after _ _ secondAfter, add_before _ _ before]
      · rw [add_same, add_after _ _ less, add_after _ _ less, add_same]
      · have secondAfter : other < second := lt_trans after less
        rw [add_after _ _ after, add_after _ _ secondAfter, add_after _ _ secondAfter,
          add_after _ _ after, ih]

/-- Names can be counted in either order. -/
theorem add_comm (first second : String) (tally : Tally)
    : (tally.add first).add second = (tally.add second).add first := by
  rcases lt_trichotomy first second with less | rfl | greater
  · exact add_add_of_lt less tally
  · rfl
  · exact (add_add_of_lt greater tally).symm

/-- The names of a tally ascend, and each has been counted. -/
structure Proper (tally : Tally) : Prop where
  ascending : tally.Pairwise fun earlier later => earlier.1 < later.1
  counted : ∀ entry ∈ tally, 0 < entry.2

theorem mem_add {name : String} {tally : Tally} {entry : String × Nat}
    (member : entry ∈ tally.add name)
    : entry.1 = name ∨ entry ∈ tally := by
  induction tally with
  | nil => exact .inl (by simp_all [add])
  | cons head rest ih =>
      obtain ⟨other, count⟩ := head
      rcases lt_trichotomy name other with before | rfl | after
      · rw [add_before _ _ before] at member
        rcases List.mem_cons.mp member with rfl | later
        · exact .inl rfl
        · exact .inr later
      · rw [add_same] at member
        rcases List.mem_cons.mp member with rfl | later
        · exact .inl rfl
        · exact .inr (List.mem_cons_of_mem _ later)
      · rw [add_after _ _ after] at member
        rcases List.mem_cons.mp member with rfl | later
        · exact .inr List.mem_cons_self
        · exact (ih later).imp_right (List.mem_cons_of_mem _)

/-- Counting keeps a tally in order; by induction on the tally. -/
theorem Proper.add {tally : Tally} (proper : tally.Proper) (name : String)
    : (tally.add name).Proper := by
  induction tally with
  | nil => exact ⟨List.pairwise_singleton _ _, List.forall_mem_singleton.mpr Nat.one_pos⟩
  | cons entry rest ih =>
      obtain ⟨other, count⟩ := entry
      obtain ⟨ascending, counted⟩ := proper
      obtain ⟨above, restAscending⟩ := List.pairwise_cons.mp ascending
      obtain ⟨countedHere, restCounted⟩ := List.forall_mem_cons.mp counted
      rcases lt_trichotomy name other with before | rfl | after
      · rw [add_before _ _ before]
        refine ⟨List.pairwise_cons.mpr ⟨?_, ascending⟩,
          List.forall_mem_cons.mpr ⟨Nat.one_pos, counted⟩⟩
        refine List.forall_mem_cons.mpr ⟨before, ?_⟩
        exact fun later member => lt_trans before (above later member)
      · rw [add_same]
        exact ⟨List.pairwise_cons.mpr ⟨above, restAscending⟩,
          List.forall_mem_cons.mpr ⟨Nat.succ_pos _, restCounted⟩⟩
      · rw [add_after _ _ after]
        obtain ⟨addedAscending, addedCounted⟩ := ih ⟨restAscending, restCounted⟩
        refine ⟨List.pairwise_cons.mpr ⟨?_, addedAscending⟩,
          List.forall_mem_cons.mpr ⟨countedHere, addedCounted⟩⟩
        intro later member
        rcases mem_add member with isName | old
        · exact isName ▸ after
        · exact above later old

theorem countOf_eq_zero {name : String} {tally : Tally} (absent : ∀ entry ∈ tally, entry.1 ≠ name)
    : tally.countOf name = 0 := by
  induction tally with
  | nil => rfl
  | cons entry rest ih =>
      obtain ⟨here, later⟩ := List.forall_mem_cons.mp absent
      rw [countOf, if_neg here, ih later]

/-- The entries of a tally are the names that have been counted, each with how often; by induction
on the tally.
-/
theorem Proper.mem_iff {tally : Tally} (proper : tally.Proper) {name : String} {count : Nat}
    : (name, count) ∈ tally ↔ tally.countOf name = count ∧ 0 < count := by
  induction tally with
  | nil =>
      constructor
      · exact fun member => absurd member List.not_mem_nil
      · rintro ⟨rfl, positive⟩
        exact absurd positive (Nat.lt_irrefl 0)
  | cons entry rest ih =>
      obtain ⟨other, amount⟩ := entry
      obtain ⟨ascending, counted⟩ := proper
      obtain ⟨above, restAscending⟩ := List.pairwise_cons.mp ascending
      obtain ⟨countedHere, restCounted⟩ := List.forall_mem_cons.mp counted
      rw [List.mem_cons, countOf, ih ⟨restAscending, restCounted⟩]
      by_cases same : other = name
      · subst same
        have absent : countOf other rest = 0 :=
          countOf_eq_zero fun later member => ne_of_gt (above later member)
        have positive : 0 < amount := countedHere
        simp only [if_true, absent, Prod.mk.injEq, true_and]
        omega
      · have ne : ¬ (name, count) = (other, amount) := fun eq => same (congrArg Prod.fst eq).symm
        rw [if_neg same, Nat.zero_add, or_iff_right ne]

end Tally

----------------------------------------------------------------------------------------------
-- Records that change places
----------------------------------------------------------------------------------------------

namespace Record

def isProcedure : Record → Bool
  | procedure _ _ => true
  | _ => false

/-- The mnemonic that a record counts. -/
def mnemonic? : Record → Option String
  | instruction mnemonic => some mnemonic
  | _ => none

end Record

namespace Stats

section

attribute [local simp] record recordInstruction recordRule_eq recordProcedure_eq recordData
  recordPropagations Record.isProcedure

/-- Records can change places unless both are of procedures. -/
theorem record_comm (stats : Stats) {first second : Record}
    (apart : first.isProcedure = false ∨ second.isProcedure = false)
    : (stats.record first).record second = (stats.record second).record first := by
  cases first <;> cases second <;>
    simp_all [Tally.add_comm, Nat.add_right_comm]

theorem proper_record {stats : Stats} (proper : stats.mnemonics.Proper) (record : Record)
    : (stats.record record).mnemonics.Proper := by
  cases record <;> simp [proper, proper.add]

end

/-- A record that is not of a procedure can be made after others; by induction on them. -/
theorem recordAll_record (stats : Stats) {first : Record} (apart : first.isProcedure = false)
    (records : List Record)
    : (stats.record first).recordAll records = (stats.recordAll records).record first := by
  induction records generalizing stats with
  | nil => rfl
  | cons second rest ih =>
      rw [recordAll_cons, recordAll_cons, record_comm stats (.inl apart), ih]

/-- Procedures can be recorded first, in their order; by induction on the records. -/
theorem recordAll_procedures_first (stats : Stats) (records : List Record)
    : stats.recordAll records
      = (stats.recordAll (records.filter Record.isProcedure)).recordAll
          (records.filter fun record => !record.isProcedure) := by
  induction records generalizing stats with
  | nil => rfl
  | cons first rest ih =>
      cases kind : first.isProcedure with
      | true => simp [kind, ih (stats.record first)]
      | false => simp [kind, ih (stats.record first), recordAll_record stats kind]

/-- Records in another order, with the procedures in the same one, make the same statistics. -/
theorem recordAll_of_perm (stats : Stats) {records others : List Record}
    (perm : records.Perm others)
    (sameProcedures : records.filter Record.isProcedure = others.filter Record.isProcedure)
    : stats.recordAll records = stats.recordAll others := by
  rw [recordAll_procedures_first, recordAll_procedures_first stats others, sameProcedures]
  refine (perm.filter _).foldl_eq' ?_ _
  intro first _ second member before
  have apart : second.isProcedure = false := by
    simpa using (List.mem_filter.mp member).2
  exact record_comm before (.inr apart)

theorem proper_recordAll {stats : Stats} (proper : stats.mnemonics.Proper) (records : List Record)
    : (stats.recordAll records).mnemonics.Proper := by
  induction records generalizing stats with
  | nil => exact proper
  | cons first rest ih => exact ih (proper_record proper first)

/-- A session starts with an empty tally. -/
theorem proper_mnemonics (records : List Record) : (recordAll {} records).mnemonics.Proper :=
  proper_recordAll ⟨.nil, List.forall_mem_nil _⟩ records

end Stats

----------------------------------------------------------------------------------------------
-- The order of the listing
----------------------------------------------------------------------------------------------

namespace Tally

/-- An entry is listed before another: it has the greater count, or the same count and a name with
lesser bytes.
-/
def Precedes (left right : String × Nat) : Prop :=
  right.2 < left.2 ∨ left.2 = right.2 ∧ Text.bytes left.1 < Text.bytes right.1

theorem ranksBefore_iff {left right : String × Nat}
    : ranksBefore left right = true ↔ right.2 < left.2 ∨ left.2 = right.2 ∧ left.1 ≤ right.1 := by
  simp [ranksBefore]

theorem ranksBefore_trans (first second third : String × Nat)
    (firstRanks : ranksBefore first second = true) (secondRanks : ranksBefore second third = true)
    : ranksBefore first third = true := by
  rw [ranksBefore_iff] at *
  rcases firstRanks with less | ⟨same, le⟩
  · left
    omega
  · rcases secondRanks with less | ⟨again, leAgain⟩
    · left
      omega
    · exact .inr ⟨same.trans again, le_trans le leAgain⟩

theorem ranksBefore_total (left right : String × Nat)
    : (ranksBefore left right || ranksBefore right left) = true := by
  rw [Bool.or_eq_true, ranksBefore_iff, ranksBefore_iff]
  rcases Nat.lt_trichotomy left.2 right.2 with less | same | greater
  · exact .inr (.inl less)
  · rcases le_total left.1 right.1 with le | ge
    · exact .inl (.inr ⟨same, le⟩)
    · exact .inr (.inr ⟨same.symm, ge⟩)
  · exact .inl (.inl greater)

theorem ranksBefore_antisymm {left right : String × Nat} (ranks : ranksBefore left right = true)
    (ranksBack : ranksBefore right left = true)
    : left = right := by
  rw [ranksBefore_iff] at *
  rcases ranks with less | ⟨same, le⟩
  · omega
  · rcases ranksBack with less | ⟨_, ge⟩
    · omega
    · exact Prod.ext (le_antisymm le ge) same

theorem precedes_of_ranksBefore {left right : String × Nat}
    (ranks : ranksBefore left right = true) (distinct : left.1 ≠ right.1)
    : Precedes left right := by
  rcases ranksBefore_iff.mp ranks with greater | ⟨same, le⟩
  · exact .inl greater
  · exact .inr ⟨same, Text.bytes_lt_iff.mpr (lt_of_le_of_ne le distinct)⟩

theorem ranked_sorted (tally : Tally)
    : tally.ranked.Pairwise fun left right => ranksBefore left right = true :=
  List.pairwise_mergeSort ranksBefore_trans ranksBefore_total tally

/-- The entries of a table are listed in the same order wherever they stand in it. -/
theorem ranked_of_perm {tally other : Tally} (perm : tally.Perm other)
    : tally.ranked = other.ranked := by
  have ranksPerm : tally.ranked.Perm other.ranked :=
    (List.mergeSort_perm _ _).trans (perm.trans (List.mergeSort_perm _ _).symm)
  exact ranksPerm.eq_of_pairwise (fun _ _ _ _ => ranksBefore_antisymm) tally.ranked_sorted
    other.ranked_sorted

/-- No two entries of a tally are listed alike. -/
theorem Proper.ranked_pairwise {tally : Tally} (proper : tally.Proper)
    : tally.ranked.Pairwise Precedes := by
  have distinct : tally.ranked.Pairwise fun left right => left.1 ≠ right.1 := by
    have ascending := proper.ascending.imp fun less => ne_of_lt less
    exact (List.mergeSort_perm tally ranksBefore).symm.pairwise ascending Ne.symm
  exact tally.ranked_sorted.imp₂ (fun _ _ => precedes_of_ranksBefore) distinct

end Tally

----------------------------------------------------------------------------------------------
-- The listing
----------------------------------------------------------------------------------------------

namespace Stats

/-- The lines of a breakdown under their heading; no heading without lines. -/
def breakdownOf (entries : List (String × Nat)) : String :=
  if entries = [] then ""
  else "  Instruction breakdown:\n" ++ String.join
    (entries.map fun entry => "    " ++ entry.1 ++ ": " ++ entry.2.repr ++ "\n")

/-- The breakdown is of the ten entries that are ranked first. -/
theorem breakdownText_eq (stats : Stats)
    : stats.breakdownText = breakdownOf (stats.mnemonics.ranked.take 10) := by
  by_cases empty : stats.mnemonics = []
  · rw [breakdownText, if_pos empty, empty, Tally.ranked, List.mergeSort_nil]
    rfl
  · have someListed : stats.mnemonics.ranked.take 10 ≠ [] := by
      rw [← List.length_pos_iff, List.length_take, Tally.ranked, List.length_mergeSort]
      have someCounted := List.length_pos_iff.mpr empty
      omega
    rw [breakdownText, if_neg empty, breakdownOf, if_neg someListed, listed]

/-- The breakdown stands at the end of the text. -/
theorem text_eq (stats : Stats)
    : stats.text = ({ stats with mnemonics := [] } : Stats).text ++ stats.breakdownText := by
  have noBreakdown : ({ stats with mnemonics := [] } : Stats).breakdownText = "" := by
    rw [breakdownText, if_pos rfl]
  have sameLargest : ({ stats with mnemonics := [] } : Stats).largestText = stats.largestText := by
    rw [largestText, largestText]
  unfold text
  rw [noBreakdown, sameLargest, String.append_empty]

/-- Entries are a breakdown of records: ten of the mnemonics, or all if they are fewer, each with the
number of its records; in order, and before all mnemonics that are left out.
-/
structure Breakdown (records : List Record) (entries : List (String × Nat)) : Prop where
  length : entries.length = min 10 (records.filterMap Record.mnemonic?).dedup.length
  exact
    : ∀ name count,
        (name, count) ∈ entries
        → .instruction name ∈ records ∧ count = records.count (.instruction name)
  ordered : entries.Pairwise Tally.Precedes
  foremost
    : ∀ name,
        .instruction name ∈ records
        → name ∉ entries.map Prod.fst
        → ∀ entry ∈ entries, Tally.Precedes entry (name, records.count (.instruction name))

/-- A mnemonic is in the table once it has been recorded, with the number of its records. -/
theorem mem_mnemonics {records : List Record} {name : String} {count : Nat}
    : (name, count) ∈ (recordAll {} records).mnemonics
      ↔ .instruction name ∈ records ∧ count = records.count (.instruction name) := by
  rw [(proper_mnemonics records).mem_iff, countOf_recordAll, ← List.count_pos_iff]
  change 0 + _ = _ ∧ _ ↔ _
  omega

theorem mem_mnemonic? {records : List Record} {name : String}
    : name ∈ records.filterMap Record.mnemonic? ↔ .instruction name ∈ records := by
  rw [List.mem_filterMap]
  constructor
  · rintro ⟨record, member, isName⟩
    cases record with
    | instruction mnemonic =>
        obtain rfl := Option.some.inj isName
        exact member
    | _ => cases isName
  · exact fun member => ⟨_, member, rfl⟩

theorem length_mnemonics (records : List Record)
    : (recordAll {} records).mnemonics.length
      = (records.filterMap Record.mnemonic?).dedup.length := by
  have distinct : ((recordAll {} records).mnemonics.map Prod.fst).Nodup :=
    List.pairwise_map.mpr ((proper_mnemonics records).ascending.imp fun less => ne_of_lt less)
  have perm
      : ((recordAll {} records).mnemonics.map Prod.fst).Perm
          (records.filterMap Record.mnemonic?).dedup := by
    refine (List.perm_ext_iff_of_nodup distinct (List.nodup_dedup _)).mpr fun name => ?_
    rw [List.mem_dedup, mem_mnemonic?, List.mem_map]
    constructor
    · rintro ⟨⟨_, count⟩, member, rfl⟩
      exact (mem_mnemonics.mp member).1
    · exact fun member => ⟨(name, _), mem_mnemonics.mpr ⟨member, rfl⟩, rfl⟩
  rw [← perm.length_eq, List.length_map]

theorem breakdown_recordAll (records : List Record)
    : Breakdown records ((recordAll {} records).mnemonics.ranked.take 10) := by
  have perm := List.mergeSort_perm (recordAll {} records).mnemonics Tally.ranksBefore
  have ordered := (proper_mnemonics records).ranked_pairwise
  refine ⟨?_, ?_, ?_, ?_⟩
  · rw [List.length_take, Tally.ranked, perm.length_eq, length_mnemonics]
  · intro name count member
    exact mem_mnemonics.mp (perm.mem_iff.mp (List.mem_of_mem_take member))
  · exact ordered.take
  · intro name counted unlisted entry member
    have ranked : (name, records.count (.instruction name))
        ∈ (recordAll {} records).mnemonics.ranked :=
      perm.mem_iff.mpr (mem_mnemonics.mpr ⟨counted, rfl⟩)
    rw [← List.take_append_drop 10 (recordAll {} records).mnemonics.ranked] at ranked ordered
    rcases List.mem_append.mp ranked with isListed | isLater
    · exact absurd (List.mem_map_of_mem isListed) unlisted
    · exact (List.pairwise_append.mp ordered).2.2 entry member _ isLater

/-- The text of statistics does not depend on the order of the records, if procedures keep theirs, nor
on the order in which the table of mnemonics is stored. It ends with a breakdown of the records.
-/
theorem text_independent_of_order (records others : List Record) (perm : records.Perm others)
    (sameProcedures : records.filter Record.isProcedure = others.filter Record.isProcedure)
    : (recordAll {} records).text = (recordAll {} others).text
      ∧ (∀ table : Tally,
          table.Perm (recordAll {} records).mnemonics
          → ({ recordAll {} records with mnemonics := table } : Stats).text
            = (recordAll {} records).text)
      ∧ ∃ entries,
          Breakdown records entries
          ∧ (recordAll {} records).text
            = ({ recordAll {} records with mnemonics := [] } : Stats).text
              ++ breakdownOf entries := by
  refine ⟨?_, ?_, ?_⟩
  · rw [recordAll_of_perm {} perm sameProcedures]
  · intro table stored
    rw [text_eq, text_eq (recordAll {} records), breakdownText_eq, breakdownText_eq,
      Tally.ranked_of_perm stored]
  · refine ⟨_, breakdown_recordAll records, ?_⟩
    rw [← breakdownText_eq, ← text_eq]

/-- Eleven mnemonics, all but one of them counted once, and two procedures of the same size. -/
def crowdedRecords : List Record :=
  ["movq", "xorq", "addq", "subq", "imulq", "idivq", "cqto", "leaq", "cmpq", "jmp", "call"].map
      .instruction
    ++ [.procedure "first" 2, .rule .value, .propagations 3, .data, .procedure "second" 2,
      .instruction "movq"]

def crowdedRecordsReordered : List Record :=
  [.procedure "first" 2, .procedure "second" 2]
    ++ ((crowdedRecords.filter fun record => !record.isProcedure).reverse)

theorem crowdedRecords_text
    : crowdedRecords.Perm crowdedRecordsReordered
      ∧ (recordAll {} crowdedRecords).text = (recordAll {} crowdedRecordsReordered).text
      ∧ ∃ entries, Breakdown crowdedRecords entries ∧ entries.length = 10 := by
  have perm : crowdedRecords.Perm crowdedRecordsReordered := by decide
  have sameProcedures
      : crowdedRecords.filter Record.isProcedure
        = crowdedRecordsReordered.filter Record.isProcedure := by
    decide
  obtain ⟨sameText, -, entries, breakdown, -⟩ :=
    text_independent_of_order crowdedRecords crowdedRecordsReordered perm sameProcedures
  refine ⟨perm, sameText, entries, breakdown, ?_⟩
  rw [breakdown.length]
  decide

end Stats

end TreeTiling
