import Mathlib.Algebra.GroupWithZero.Nat
import TreeTiling.Proofs.Selection.Trace
import TreeTiling.Proofs.X64.ExactAcceptance
import TreeTiling.X64.Generate

/-!
What generating code leaves in a session.

The records of a procedure's instructions are made while it is selected, also where that fails; the
procedure itself is recorded only after its last instruction. So what a session counts after any
fragments is what their records add up to, up to the first fragment that fails.
-/

namespace TreeTiling.X64

----------------------------------------------------------------------------------------------
-- Outcomes
----------------------------------------------------------------------------------------------

theorem GenerateM.bind_apply {α β : Type} (first : GenerateM α) (next : α → GenerateM β)
    (session : Session)
    : (first >>= next) session
      = match first session with
        | .ok result middle => next result middle
        | .error error middle => .error error middle := by
  change EStateM.bind first next session = _
  unfold EStateM.bind
  cases first session with
  | ok result middle => rfl
  | error error middle => rfl

/-- A procedure is counted after its selection, and only if that succeeds. -/
theorem generateProcedure_eq (name : Label) (body : Stm) (session : Session)
    : generateProcedure name body session
      = match rules.selectBody body (session.enter name.name) with
        | (.ok code, selected) =>
            .ok { name, isProcedure := true, instrs := code.map Op.instr }
              ((selected.leave.log (.selected targetName code.size name selected.temps)).count
                (·.recordProcedure name.name code.size))
        | (.error error, selected) => .error error selected.leave := by
  rw [generateProcedure, GenerateM.bind_apply, selectProcedure]
  rcases rules.selectBody body (session.enter name.name) with ⟨answer, selected⟩
  cases answer with
  | ok code => rfl
  | error error => rfl

/-- The directive of a word, in a session that stays as it is. -/
private def directive (word : Exp) : GenerateM Instr :=
  match dataWord word with
  | .ok directive => pure directive
  | .error error => throw error

/-- The words of a data fragment do not touch the session; by induction on them. -/
theorem mapM_directive (words : List Exp) (session : Session)
    : words.mapM directive session
      = match words.mapM dataWord with
        | .ok directives => .ok directives session
        | .error error => .error error session := by
  induction words with
  | nil => rfl
  | cons word rest ih =>
      rw [List.mapM_cons, List.mapM_cons, GenerateM.bind_apply, directive]
      cases dataWord word with
      | error error => rfl
      | ok first =>
          change (rest.mapM directive >>= _) session = _
          rw [GenerateM.bind_apply, ih]
          cases rest.mapM dataWord with
          | ok directives => rfl
          | error error => rfl

/-- A data fragment is counted if each of its words has a directive. -/
theorem generateData_eq (name : Label) (words : List Exp) (session : Session)
    : generateData name words session
      = match words.mapM dataWord with
        | .ok directives =>
            .ok
              { name
                isProcedure := false
                instrs := (Op.instr (.label name) :: directives).toArray }
              (session.count (·.recordData))
        | .error error => .error error session := by
  change (words.mapM directive >>= _) session = _
  rw [GenerateM.bind_apply, mapM_directive]
  cases words.mapM dataWord with
  | ok directives => rfl
  | error error => rfl

/-- Fragments are generated in order, up to the first that fails. -/
theorem assemble_cons (fragment : Fragment) (rest : List Fragment) (session : Session)
    : assemble (fragment :: rest) session
      = match generate fragment session with
        | .ok part middle =>
            match assemble rest middle with
            | .ok parts after => .ok (part :: parts) after
            | .error error after => .error error after
        | .error error after => .error error after := by
  unfold assemble
  rw [List.mapM_cons, GenerateM.bind_apply]
  cases generate fragment session with
  | error error after => rfl
  | ok part middle =>
      dsimp only
      rw [GenerateM.bind_apply]
      cases rest.mapM generate middle with
      | ok parts after => rfl
      | error error after => rfl

theorem assemble_cons_ok {fragment : Fragment} {rest : List Fragment} {session after : Session}
    {assembly : Assembly}
    : assemble (fragment :: rest) session = .ok assembly after
      ↔ ∃ part middle parts,
          generate fragment session = .ok part middle
          ∧ assemble rest middle = .ok parts after
          ∧ part :: parts = assembly := by
  rw [assemble_cons]
  cases generate fragment session with
  | error error last => simp
  | ok part middle =>
      cases assembled : assemble rest middle with
      | error error last => simp [assembled]
      | ok parts last => simp [assembled, and_comm, and_assoc]

/-- Fragments after others are generated in the session that those leave. -/
theorem assemble_append {first : List Fragment} {parts : Assembly} {session middle : Session}
    (assembled : assemble first session = .ok parts middle) (second : List Fragment)
    : assemble (first ++ second) session
      = match assemble second middle with
        | .ok others after => .ok (parts ++ others) after
        | .error error after => .error error after := by
  unfold assemble at assembled ⊢
  rw [List.mapM_append, GenerateM.bind_apply, assembled]
  dsimp only
  rw [GenerateM.bind_apply]
  cases second.mapM generate middle with
  | ok others after => rfl
  | error error after => rfl

/-- A fragment has code or data in a session. -/
def Generates (fragment : Fragment) (session : Session) : Prop :=
  ∃ part after, generate fragment session = .ok part after

/-- Whether a fragment generates does not depend on the session. -/
theorem Generates.of_generates {fragment : Fragment} {session : Session}
    (generates : Generates fragment session) (other : Session)
    : Generates fragment other := by
  obtain ⟨part, after, generated⟩ := generates
  unfold Generates
  cases fragment with
  | procedure name body =>
      rw [generate, generateProcedure_eq] at generated ⊢
      split at generated
      · next code last selected =>
          obtain ⟨last, selected, -, -⟩ := Rules.selectBody_ok.mp selected
          have selectable : ∀ part ∈ body.flatten, Selectable part :=
            fun part => selectable_of_selected selected
          obtain ⟨_, last, selected⟩ :=
            selectStatement_accepts selectable { session := other.enter name.name }
          rw [Rules.selectBody_ok.mpr ⟨last, selected, rfl, rfl⟩]
          exact ⟨_, _, rfl⟩
      · cases generated
  | data name words =>
      rw [generate, generateData_eq] at generated ⊢
      split at generated
      · exact ⟨_, _, rfl⟩
      · cases generated

/-- Fragments are assembled if each of them generates; by induction on them. -/
theorem assemble_ok_iff (fragments : List Fragment) (session other : Session)
    : (∃ assembly after, assemble fragments session = .ok assembly after)
      ↔ ∀ fragment ∈ fragments, Generates fragment other := by
  induction fragments generalizing session with
  | nil => exact ⟨fun _ => List.forall_mem_nil _, fun _ => ⟨[], session, rfl⟩⟩
  | cons fragment rest ih =>
      rw [List.forall_mem_cons]
      constructor
      · intro assembled
        obtain ⟨assembly, after, assembled⟩ := assembled
        obtain ⟨part, middle, parts, generated, assembledRest, -⟩ := assemble_cons_ok.mp assembled
        have generates : Generates fragment session := ⟨part, middle, generated⟩
        exact ⟨generates.of_generates other, (ih middle).mp ⟨parts, after, assembledRest⟩⟩
      · intro generates
        obtain ⟨part, middle, generated⟩ := generates.1.of_generates session
        obtain ⟨parts, after, assembledRest⟩ := (ih middle).mpr generates.2
        exact ⟨part :: parts, after,
          assemble_cons_ok.mpr ⟨part, middle, parts, generated, assembledRest, rfl⟩⟩

----------------------------------------------------------------------------------------------
-- Records
----------------------------------------------------------------------------------------------

/-- What a procedure is recorded as. -/
def entry (part : Section) : String × Nat :=
  (part.name.name, part.instrs.size)

/-- The name and the kind of each section. -/
def headings (assembly : Assembly) : List (Label × Bool) :=
  assembly.map fun part => (part.name, part.isProcedure)

theorem procedures_append (first second : Assembly)
    : Assembly.procedures (first ++ second) = first.procedures ++ second.procedures :=
  List.filter_append ..

/-- Attempting fragments makes records in a session: one for each section that is completed, next to
those of selection. No procedure is at work after one was attempted.
-/
structure Booked (before : Session) (attempted : List Fragment) (completed : Assembly)
    (records : List Record) (after : Session)
    : Prop where
  stats : after.stats = before.stats.recordAll records
  procedures : records.filterMap Record.procedure? = completed.procedures.map entry
  data : records.countP Record.isData = completed.countP (!·.isProcedure)
  procedure
    : after.procedure = if attempted.any Fragment.isProcedure then none else before.procedure

/-- What one list of fragments and then another leave in a session. -/
theorem Booked.append {before middle after : Session} {attempted others : List Fragment}
    {completed more : Assembly} {records later : List Record}
    (first : Booked before attempted completed records middle)
    (second : Booked middle others more later after)
    : Booked before (attempted ++ others) (completed ++ more) (records ++ later) after := by
  constructor
  · rw [second.stats, first.stats, Stats.recordAll_append]
  · rw [List.filterMap_append, first.procedures, second.procedures, procedures_append,
      List.map_append]
  · rw [List.countP_append, first.data, second.data, List.countP_append]
  · rw [second.procedure, first.procedure, List.any_append]
    cases attempted.any Fragment.isProcedure with
    | true => simp
    | false => rfl

/-- Selection alone records no procedure and no data. -/
theorem records_of_selection {records : List Record}
    (ofSelection : ∀ record ∈ records, record.ofSelection = true)
    : records.filterMap Record.procedure? = [] ∧ records.countP Record.isData = 0 := by
  rw [List.filterMap_eq_nil_iff, List.countP_eq_zero]
  constructor
  · intro record member
    have inside := ofSelection record member
    cases record <;> first | rfl | cases inside
  · intro record member
    have inside := ofSelection record member
    cases record <;> first | exact Bool.false_ne_true | cases inside

/-- A fragment that generates is recorded with the section that it becomes. -/
theorem generate_booked {fragment : Fragment} {part : Section} {before after : Session}
    (generated : generate fragment before = .ok part after)
    : (part.name, part.isProcedure) = (fragment.name, fragment.isProcedure)
      ∧ ∃ records,
          Booked before [fragment] [part] records after
          ∧ records.countP Record.isInstruction
            = ((Assembly.procedures [part]).map (·.instrs.size)).sum := by
  cases fragment with
  | procedure name body =>
      rw [generate, generateProcedure_eq] at generated
      split at generated
      · next code selected outcome =>
          cases generated
          obtain ⟨items, records, stats, -, ofSelection, counted, isCode⟩ :=
            rules.selectBody_recorded outcome
          obtain ⟨noProcedure, noData⟩ := records_of_selection ofSelection
          refine ⟨rfl, records ++ [.procedure name.name code.size], ⟨?_, ?_, ?_, rfl⟩, ?_⟩
          · rw [Stats.recordAll_append]
            exact congrArg (Stats.recordProcedure · name.name code.size) stats
          · simp [noProcedure, Record.procedure?, Assembly.procedures, entry]
          · simp [noData, Record.isData]
          · simp [counted, ← isCode code rfl, Record.isInstruction, Assembly.procedures]
      · cases generated
  | data name words =>
      rw [generate, generateData_eq] at generated
      split at generated
      · cases generated
        exact ⟨rfl, [.data], ⟨rfl, rfl, rfl, rfl⟩, rfl⟩
      · cases generated

/-- A fragment that fails leaves records of its selection only. -/
theorem generate_booked_of_error {fragment : Fragment} {error : SelectionError}
    {before after : Session} (failed : generate fragment before = .error error after)
    : ∃ records, Booked before [fragment] [] records after := by
  cases fragment with
  | procedure name body =>
      rw [generate, generateProcedure_eq] at failed
      split at failed
      · cases failed
      · next error selected outcome =>
          cases failed
          obtain ⟨items, records, stats, -, ofSelection, -, -⟩ := rules.selectBody_recorded outcome
          obtain ⟨noProcedure, noData⟩ := records_of_selection ofSelection
          exact ⟨records, stats, noProcedure, noData, rfl⟩
  | data name words =>
      rw [generate, generateData_eq] at failed
      split at failed
      · cases failed
      · cases failed
        exact ⟨[], rfl, rfl, rfl, rfl⟩

/-- Assembled fragments are recorded with their sections, which have their names and kinds in order;
by induction on the fragments.
-/
theorem assemble_booked {fragments : List Fragment} {assembly : Assembly} {before after : Session}
    (assembled : assemble fragments before = .ok assembly after)
    : headings assembly = fragments.map (fun fragment => (fragment.name, fragment.isProcedure))
      ∧ ∃ records,
          Booked before fragments assembly records after
          ∧ records.countP Record.isInstruction
            = (assembly.procedures.map (·.instrs.size)).sum := by
  induction fragments generalizing assembly before with
  | nil =>
      cases assembled
      exact ⟨rfl, [], ⟨rfl, rfl, rfl, rfl⟩, rfl⟩
  | cons fragment rest ih =>
      obtain ⟨part, middle, parts, generated, assembledRest, rfl⟩ := assemble_cons_ok.mp assembled
      obtain ⟨heading, records, booked, counted⟩ := generate_booked generated
      obtain ⟨restHeadings, others, bookedRest, countedRest⟩ := ih assembledRest
      refine ⟨congrArg₂ List.cons heading restHeadings, _, booked.append bookedRest, ?_⟩
      rw [List.countP_append, counted, countedRest, ← List.sum_append, ← List.map_append,
        ← procedures_append]
      rfl

----------------------------------------------------------------------------------------------
-- Accounts
----------------------------------------------------------------------------------------------

/-- What a session has after fragments were attempted, of which those that are done became the
sections of an assembly.
-/
structure Accounts (before : Session) (done attempted : List Fragment) (completed : Assembly)
    (after : Session)
    : Prop where
  headings : headings completed = done.map fun fragment => (fragment.name, fragment.isProcedure)
  procedures : after.stats.procedures = before.stats.procedures + done.countP Fragment.isProcedure
  data : after.stats.dataFragments = before.stats.dataFragments + done.countP (!·.isProcedure)
  balanced
    : before.stats.mnemonics.total = before.stats.instructions
      → after.stats.mnemonics.total = after.stats.instructions
  largest : before.stats.LargestAfter (completed.procedures.map entry) after.stats
  procedure
    : after.procedure = if attempted.any Fragment.isProcedure then none else before.procedure

/-- Accounts follow from the records that were made. -/
theorem Booked.accounts {before after : Session} {done attempted : List Fragment}
    {completed : Assembly} {records : List Record}
    (booked : Booked before attempted completed records after)
    (sameHeadings
      : headings completed = done.map fun fragment => (fragment.name, fragment.isProcedure))
    : Accounts before done attempted completed after := by
  have kinds (kind : Bool → Bool)
      : completed.countP (kind ·.isProcedure) = done.countP (kind ·.isProcedure) := by
    have counts := congrArg (List.countP fun heading => kind heading.2) sameHeadings
    rwa [headings, List.countP_map, List.countP_map] at counts
  refine ⟨sameHeadings, ?_, ?_, ?_, ?_, booked.procedure⟩
  · rw [booked.stats, Stats.procedures_recordAll, booked.procedures, List.length_map,
      Assembly.procedures, ← List.countP_eq_length_filter]
    exact congrArg _ (kinds id)
  · rw [booked.stats, Stats.dataFragments_recordAll, booked.data]
    exact congrArg _ (kinds not)
  · intro balanced
    rw [booked.stats, Stats.total_recordAll, Stats.instructions_recordAll, balanced]
  · rw [booked.stats, ← booked.procedures]
    exact Stats.largestAfter_recordAll before.stats records

/-- Fragments are assembled if and only if each of them generates, in whatever session. Then the
sections have their names and kinds in order, and the instructions of the procedures are counted;
if not, there is no assembly, and only what comes before the first failure is counted as finished.
-/
theorem assemble_accounts (fragments : List Fragment) (before other : Session)
    : ((∃ assembly after, assemble fragments before = .ok assembly after)
        ↔ ∀ fragment ∈ fragments, Generates fragment other)
      ∧ (∀ assembly after,
          assemble fragments before = .ok assembly after
          → Accounts before fragments fragments assembly after
            ∧ after.stats.instructions
              = before.stats.instructions + (assembly.procedures.map (·.instrs.size)).sum)
      ∧ ∀ done failed rest,
          fragments = done ++ failed :: rest
          → (∀ fragment ∈ done, Generates fragment other)
          → ¬ Generates failed other
          → ∃ completed middle error after,
              assemble done before = .ok completed middle
              ∧ generate failed middle = .error error after
              ∧ assemble fragments before = .error error after
              ∧ Accounts before done (done ++ [failed]) completed after := by
  refine ⟨assemble_ok_iff fragments before other, ?_, ?_⟩
  · intro assembly after assembled
    obtain ⟨sameHeadings, records, booked, counted⟩ := assemble_booked assembled
    refine ⟨booked.accounts sameHeadings, ?_⟩
    rw [booked.stats, Stats.instructions_recordAll, counted]
  · intro done failed rest split doneGenerate notGenerates
    obtain ⟨completed, middle, assembled⟩ :=
      (assemble_ok_iff done before other).mpr doneGenerate
    obtain ⟨sameHeadings, records, booked, -⟩ := assemble_booked assembled
    cases outcome : generate failed middle with
    | ok part after =>
        exact absurd (Generates.of_generates ⟨part, after, outcome⟩ other) notGenerates
    | error error after =>
        obtain ⟨others, bookedFailed⟩ := generate_booked_of_error outcome
        have allBooked := booked.append bookedFailed
        rw [List.append_nil] at allBooked
        refine ⟨completed, middle, error, after, assembled, outcome, ?_,
          allBooked.accounts sameHeadings⟩
        rw [split, assemble_append assembled, assemble_cons, outcome]

end TreeTiling.X64
