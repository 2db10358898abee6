import TreeTiling.Assembly
import TreeTiling.Proofs.Pattern.Renumbering
import TreeTiling.Proofs.Selection.Outcome
import TreeTiling.Proofs.Session.Records

/-!
Selection in two sessions that hand out different numbers.

Where the rules do not look at numbers, the two runs go alike: they choose the same rules, take as
many temporaries and make the same records, and what they emit differs in the numbers only. This is
so whether they succeed or not.
-/

namespace TreeTiling

variable {ι α β : Type}

----------------------------------------------------------------------------------------------
-- Choices
----------------------------------------------------------------------------------------------

/-- The first rule that matches is the same one if matching goes alike; by induction on the table.
-/
theorem RuleTable.choose?_renumber {π : Type} {numbering : Nat → Nat}
    {matching other : π → Option Captures} {table : RuleTable π ι α}
    (alike
      : ∀ rule ∈ table,
          other rule.pattern = (matching rule.pattern).map (Captures.renumber numbering))
    : table.choose? other
      = (table.choose? matching).map fun choice =>
          { choice with captures := choice.captures.renumber numbering } := by
  induction table with
  | nil => rfl
  | cons rule rest ih =>
      obtain ⟨first, later⟩ := List.forall_mem_cons.mp alike
      rw [choose?, choose?, first, ih later]
      cases matching rule.pattern with
      | some captures => rfl
      | none =>
          simp only [Option.map_none, Option.map_map]
          rfl

----------------------------------------------------------------------------------------------
-- Instructions and errors
----------------------------------------------------------------------------------------------

/-- The instruction with the numbers of its registers changed. -/
def Instr.renumber (numbering : Nat → Nat) : Instr → Instr
  | oper template defs uses jumps fallsThrough =>
      oper template (defs.map (Temp.renumber numbering)) (uses.map (Temp.renumber numbering)) jumps
        fallsThrough
  | move template dst src => move template (dst.renumber numbering) (src.renumber numbering)
  | label template name => label template name

theorem Instr.mnemonic_renumber (numbering : Nat → Nat) (instr : Instr)
    : (instr.renumber numbering).mnemonic = instr.mnemonic := by
  cases instr <;> rfl

/-- The section with the numbers of its registers changed. -/
def Section.renumber (numbering : Nat → Nat) (part : Section) : Section :=
  { part with instrs := part.instrs.map (Instr.renumber numbering) }

def SelectionError.renumber (numbering : Nat → Nat) : SelectionError → SelectionError
  | noRule category tree => noRule category (tree.renumber numbering)
  | unsupported what tree => unsupported what (tree.renumber numbering)
  | unboundCapture name => unboundCapture name
  | tooDeep tree => tooDeep (tree.renumber numbering)

/-- A change of numbers, and what it makes of the instructions that a selector emits. -/
structure Renumbering (ι : Type) [Emittable ι] where
  number : Nat → Nat
  item : ι → ι
  instr_item : ∀ other, Emittable.instr (item other) = (Emittable.instr other).renumber number

variable [Emittable ι]

----------------------------------------------------------------------------------------------
-- Actions
----------------------------------------------------------------------------------------------

/-- Two actions make the same requests, the second with the numbers changed. The answers that they
get differ in the same way, and so do the results.
-/
inductive Action.Mirrors (renumbering : Renumbering ι) (result : α → α)
    : Action ι α → Action ι α → Prop where
  | done (answer : α) : Mirrors renumbering result (done answer) (done (result answer))
  | fail (error : SelectionError)
    : Mirrors renumbering result (fail error) (fail (error.renumber renumbering.number))
  | emit (item : ι) {next other : Action ι α} (mirrors : Mirrors renumbering result next other)
    : Mirrors renumbering result (emit item next) (emit (renumbering.item item) other)
  | fresh {next other : Temp → Action ι α}
    (mirrors
      : ∀ register,
          Mirrors renumbering result (next register)
            (other (register.renumber renumbering.number)))
    : Mirrors renumbering result (fresh next) (fresh other)
  | value (tree : Exp) {next other : Temp → Action ι α}
    (mirrors
      : ∀ register,
          Mirrors renumbering result (next register)
            (other (register.renumber renumbering.number)))
    : Mirrors renumbering result (value tree next)
        (value (tree.renumber renumbering.number) other)
  | discard (tree : Exp) {next other : Action ι α} (mirrors : Mirrors renumbering result next other)
    : Mirrors renumbering result (discard tree next)
        (discard (tree.renumber renumbering.number) other)
  | statement (tree : Stm) {next other : Action ι α}
    (mirrors : Mirrors renumbering result next other)
    : Mirrors renumbering result (statement tree next)
        (statement (tree.renumber renumbering.number) other)

namespace Action.Mirrors

variable {renumbering : Renumbering ι} {result : α → α} {answer : β → β}

/-- Actions in sequence, by induction on the requests of the first ones. -/
theorem bind {action mirror : Action ι α} {next other : α → Action ι β}
    (mirrors : action.Mirrors renumbering result mirror)
    (nextMirrors : ∀ value, (next value).Mirrors renumbering answer (other (result value)))
    : (action >>= next).Mirrors renumbering answer (mirror >>= other) := by
  change (action.bind next).Mirrors renumbering answer (mirror.bind other)
  induction mirrors with
  | done value => exact nextMirrors value
  | fail error => exact .fail error
  | emit item _ ih => exact .emit item ih
  | fresh _ ih => exact .fresh ih
  | value tree _ ih => exact .value tree ih
  | discard tree _ ih => exact .discard tree ih
  | statement tree _ ih => exact .statement tree ih

theorem pure (value : α)
    : (pure value : Action ι α).Mirrors renumbering result (Pure.pure (result value)) :=
  .done value

theorem emitInstr (item : ι)
    : (emitInstr item).Mirrors renumbering id (Action.emitInstr (renumbering.item item)) :=
  .emit item (.done ())

theorem freshTemp
    : (freshTemp : Action ι Temp).Mirrors renumbering (Temp.renumber renumbering.number)
        Action.freshTemp :=
  .fresh .done

theorem valueOf (tree : Exp)
    : (valueOf tree : Action ι Temp).Mirrors renumbering (Temp.renumber renumbering.number)
        (Action.valueOf (tree.renumber renumbering.number)) :=
  .value tree .done

theorem effectsOf (tree : Exp)
    : (effectsOf tree : Action ι Unit).Mirrors renumbering id
        (Action.effectsOf (tree.renumber renumbering.number)) :=
  .discard tree (.done ())

theorem carryOut (tree : Stm)
    : (carryOut tree : Action ι Unit).Mirrors renumbering id
        (Action.carryOut (tree.renumber renumbering.number)) :=
  .statement tree (.done ())

/-- Reading a variable of a match. -/
theorem get {kind : Kind} (captures : Captures) (var : Var kind)
    : (monadLift (captures.get var) : Action ι kind.Value).Mirrors renumbering
        (kind.renumber renumbering.number)
        (monadLift ((captures.renumber renumbering.number).get var)) := by
  rw [captures.get_renumber]
  unfold Captures.get
  cases (captures.lookup var.id).bind (Captured.as? kind) with
  | none => exact .fail _
  | some value => exact .done value

/-- Going on from what a variable of a match is bound to. -/
theorem read {kind : Kind} {captures : Captures} {var : Var kind}
    {next other : kind.Value → Action ι β}
    (mirrors
      : ∀ value,
          (next value).Mirrors renumbering answer (other (kind.renumber renumbering.number value)))
    : (monadLift (captures.get var) >>= next).Mirrors renumbering answer
        (monadLift ((captures.renumber renumbering.number).get var) >>= other) :=
  .bind (.get captures var) mirrors

/-- Going on from the value of the expression that a variable of a match is bound to. -/
theorem compute {captures : Captures} {var : Var .exp} {next other : Temp → Action ι β}
    (mirrors
      : ∀ register,
          (next register).Mirrors renumbering answer
            (other (register.renumber renumbering.number)))
    : Mirrors renumbering answer
        (monadLift (captures.get var) >>= fun tree => Action.valueOf tree >>= next)
        (monadLift ((captures.renumber renumbering.number).get var) >>= fun tree =>
          Action.valueOf tree >>= other) :=
  .read fun tree => .bind (.valueOf tree) mirrors

end Action.Mirrors

----------------------------------------------------------------------------------------------
-- Rules
----------------------------------------------------------------------------------------------

/-- The action of a rule makes the same requests on captures whose numbers are changed. -/
def Rule.Mirrors {π : Type} (renumbering : Renumbering ι) (result : α → α) (rule : Rule π ι α)
    : Prop :=
  ∀ captures,
    (rule.action captures).Mirrors renumbering result
      (rule.action (captures.renumber renumbering.number))

/-- No rule looks at numbers, neither in its pattern nor in its action. -/
structure Rules.Mirrors (rules : Rules ι) (renumbering : Renumbering ι) : Prop where
  value
    : ∀ rule ∈ rules.value,
        rule.pattern.ignoresNumbers = true
        ∧ rule.Mirrors renumbering (Temp.renumber renumbering.number)
  discard
    : ∀ rule ∈ rules.discard, rule.pattern.ignoresNumbers = true ∧ rule.Mirrors renumbering id
  statement
    : ∀ rule ∈ rules.statement, rule.pattern.ignoresNumbers = true ∧ rule.Mirrors renumbering id

----------------------------------------------------------------------------------------------
-- Two runs
----------------------------------------------------------------------------------------------

/-- The numbers that one session hands out next become those that another one does. -/
def Renumbering.Continues (renumbering : Renumbering ι) (started otherStarted : Session) : Prop :=
  ∀ count, renumbering.number (started.temps + count) = otherStarted.temps + count

/-- Since two sessions were started, selection has taken as many temporaries, made the same records
and emitted the same instructions in both, up to the numbers.
-/
structure Selection.Alike (renumbering : Renumbering ι) (started otherStarted : Session)
    (selection other : Selection ι)
    : Prop where
  taken
    : ∃ count,
        selection.session.temps = started.temps + count
        ∧ other.session.temps = otherStarted.temps + count
  records
    : ∃ records,
        selection.session.stats = started.stats.recordAll records
        ∧ other.session.stats = otherStarted.stats.recordAll records
  code : other.code = selection.code.map renumbering.item

/-- Two outcomes are alike: both successes or both failures. -/
def Selection.EndAlike (renumbering : Renumbering ι) (started otherStarted : Session)
    (result : α → α)
    : EStateM.Result SelectionError (Selection ι) α
      → EStateM.Result SelectionError (Selection ι) α
      → Prop
  | .ok answer selection, .ok otherAnswer other =>
      otherAnswer = result answer ∧ selection.Alike renumbering started otherStarted other
  | .error error selection, .error otherError other =>
      otherError = error.renumber renumbering.number
      ∧ selection.Alike renumbering started otherStarted other
  | _, _ => False

/-- Two computations go alike from selections that are alike. -/
def Parallel (renumbering : Renumbering ι) (started otherStarted : Session) (result : α → α)
    (computation other : SelectM ι α)
    : Prop :=
  ∀ selection otherSelection,
    Selection.Alike renumbering started otherStarted selection otherSelection
    → Selection.EndAlike renumbering started otherStarted result (computation selection)
        (other otherSelection)

section

variable {renumbering : Renumbering ι} {started otherStarted : Session}

namespace Selection.Alike

variable {selection other : Selection ι}

theorem records_append (alike : selection.Alike renumbering started otherStarted other)
    {stats otherStats : Stats} (record : Record)
    (same : stats = selection.session.stats.record record)
    (otherSame : otherStats = other.session.stats.record record)
    : ∃ records,
        stats = started.stats.recordAll records
        ∧ otherStats = otherStarted.stats.recordAll records := by
  obtain ⟨records, stats, otherStats⟩ := alike.records
  refine ⟨records ++ [record], ?_, ?_⟩
  · rw [same, stats, Stats.recordAll_append]
    rfl
  · rw [otherSame, otherStats, Stats.recordAll_append]
    rfl

theorem emit (alike : selection.Alike renumbering started otherStarted other) (item : ι)
    : (selection.emit item).Alike renumbering started otherStarted
        (other.emit (renumbering.item item)) := by
  refine ⟨alike.taken, ?_, ?_⟩
  · apply alike.records_append (.instruction (Emittable.instr item).mnemonic) rfl
    rw [← Instr.mnemonic_renumber renumbering.number, ← renumbering.instr_item]
    rfl
  · change other.code.push _ = (selection.code.push item).map renumbering.item
    rw [alike.code, Array.map_push]

theorem note (alike : selection.Alike renumbering started otherStarted other) (category : Category)
    (index : Nat) (pattern : Pattern) (tree otherTree : Node)
    : (selection.note category index pattern tree).Alike renumbering started otherStarted
        (other.note category index pattern otherTree) :=
  ⟨alike.taken, alike.records_append (.rule category) rfl rfl, alike.code⟩

/-- Both sessions hand out their next temporaries. -/
theorem fresh (continues : renumbering.Continues started otherStarted)
    (alike : selection.Alike renumbering started otherStarted other)
    : Temp.virtual other.session.temps
        = (Temp.virtual selection.session.temps).renumber renumbering.number
      ∧ selection.taken.Alike renumbering started otherStarted other.taken := by
  obtain ⟨count, temps, otherTemps⟩ := alike.taken
  refine ⟨?_, ⟨count + 1, ?_, ?_⟩, alike.records, alike.code⟩
  · rw [Temp.renumber, temps, otherTemps, continues count]
  · rw [temps_taken, temps, Nat.add_assoc]
  · rw [temps_taken, otherTemps, Nat.add_assoc]

end Selection.Alike

namespace Parallel

variable {result : α → α} {answer : β → β}

theorem pure (value : α)
    : Parallel renumbering started otherStarted result (pure value) (Pure.pure (result value)) :=
  fun _ _ alike => ⟨rfl, alike⟩

theorem throw (error : SelectionError)
    : Parallel renumbering started otherStarted result (throw error)
        (MonadExcept.throw (error.renumber renumbering.number)) :=
  fun _ _ alike => ⟨rfl, alike⟩

theorem changes {change otherChange : Selection ι → Selection ι}
    (changesAlike
      : ∀ {selection other : Selection ι},
          selection.Alike renumbering started otherStarted other
          → (change selection).Alike renumbering started otherStarted (otherChange other))
    : Parallel renumbering started otherStarted id (modify change) (modify otherChange) :=
  fun _ _ alike => ⟨rfl, changesAlike alike⟩

theorem fresh (continues : renumbering.Continues started otherStarted)
    : Parallel renumbering started otherStarted (Temp.renumber renumbering.number)
        Selection.fresh Selection.fresh :=
  fun _ _ alike => alike.fresh continues

/-- Computations in sequence; the second ones start from answers that differ in the numbers. -/
theorem bind {computation other : SelectM ι α} {next otherNext : α → SelectM ι β}
    (parallel : Parallel renumbering started otherStarted result computation other)
    (nextParallel
      : ∀ value,
          Parallel renumbering started otherStarted answer (next value) (otherNext (result value)))
    : Parallel renumbering started otherStarted answer (computation >>= next)
        (other >>= otherNext) := by
  intro selection otherSelection alike
  have ended := parallel selection otherSelection alike
  change Selection.EndAlike _ _ _ _ (EStateM.bind computation next selection)
    (EStateM.bind other otherNext otherSelection)
  unfold EStateM.bind
  generalize computation selection = outcome at ended ⊢
  generalize other otherSelection = otherOutcome at ended ⊢
  cases outcome with
  | ok value middle =>
      cases otherOutcome with
      | ok otherValue otherMiddle =>
          obtain ⟨rfl, alikeMiddle⟩ := ended
          exact nextParallel value middle otherMiddle alikeMiddle
      | error otherError otherMiddle => exact ended.elim
  | error error middle =>
      cases otherOutcome with
      | ok otherValue otherMiddle => exact ended.elim
      | error otherError otherMiddle => exact ended

/-- The parts of a list go alike one after the other; by induction on the list. -/
theorem forM {parts : List α} {change : α → α} {computation : α → SelectM ι Unit}
    (parallel
      : ∀ part ∈ parts,
          Parallel renumbering started otherStarted id (computation part)
            (computation (change part)))
    : Parallel renumbering started otherStarted id (parts.forM computation)
        ((parts.map change).forM computation) := by
  induction parts with
  | nil => exact .pure ()
  | cons part rest ih =>
      obtain ⟨first, later⟩ := List.forall_mem_cons.mp parallel
      exact .bind first fun _ => ih later

end Parallel

/-- Everything selected within a bound goes alike in two sessions. -/
structure ParallelWithin (rules : Rules ι) (renumbering : Renumbering ι)
    (started otherStarted : Session) (bound : Nat)
    : Prop where
  value
    : ∀ tree : Exp,
        Parallel renumbering started otherStarted (Temp.renumber renumbering.number)
          (rules.valueWithin bound tree)
          (rules.valueWithin bound (tree.renumber renumbering.number))
  discard
    : ∀ tree : Exp,
        Parallel renumbering started otherStarted id (rules.discardWithin bound tree)
          (rules.discardWithin bound (tree.renumber renumbering.number))
  statement
    : ∀ tree : Stm,
        Parallel renumbering started otherStarted id (rules.statementWithin bound tree)
          (rules.statementWithin bound (tree.renumber renumbering.number))

variable {rules : Rules ι} {bound : Nat}

/-- Actions that make the same requests go alike; by induction on the requests. -/
theorem ParallelWithin.perform
    (within : ParallelWithin rules renumbering started otherStarted bound)
    (continues : renumbering.Continues started otherStarted) {result : α → α}
    {action mirror : Action ι α} (mirrors : action.Mirrors renumbering result mirror)
    : Parallel renumbering started otherStarted result (rules.perform bound action)
        (rules.perform bound mirror) := by
  unfold Rules.perform
  induction mirrors with
  | done answer => exact .pure answer
  | fail error => exact .throw error
  | emit item _ ih => exact .bind (.changes fun alike => alike.emit item) fun _ => ih
  | fresh _ ih => exact .bind (.fresh continues) ih
  | value tree _ ih => exact .bind (within.value tree) ih
  | discard tree _ ih => exact .bind (within.discard tree) fun _ => ih
  | statement tree _ ih => exact .bind (within.statement tree) fun _ => ih

/-- Firing goes alike where the same rule is chosen for both trees. -/
theorem ParallelWithin.fire {π : Type}
    (within : ParallelWithin rules renumbering started otherStarted bound)
    (continues : renumbering.Continues started otherStarted) {result : α → α}
    {table : RuleTable π ι α} (mirrors : ∀ rule ∈ table, rule.Mirrors renumbering result)
    {matching other : π → Option Captures}
    (alike
      : ∀ rule ∈ table,
          other rule.pattern = (matching rule.pattern).map (Captures.renumber renumbering.number))
    (category : Category) (tree : Node) (sort : π → Pattern)
    : Parallel renumbering started otherStarted result
        (RuleTable.fire category tree sort (rules.perform bound) (table.choose? matching))
        (RuleTable.fire category (tree.renumber renumbering.number) sort (rules.perform bound)
          (table.choose? other)) := by
  rw [RuleTable.choose?_renumber alike]
  cases chosen : table.choose? matching with
  | none => exact .throw _
  | some choice =>
      have inTable := (RuleTable.choose?_mem chosen).1
      refine .bind (.changes fun alike => alike.note _ _ _ _ _) fun _ => ?_
      exact within.perform continues (mirrors choice.rule inTable choice.captures)

/-- Selection goes alike in two sessions if no rule looks at numbers; by induction on the bound. -/
theorem Rules.Mirrors.parallelWithin (mirrors : rules.Mirrors renumbering)
    (continues : renumbering.Continues started otherStarted) (bound : Nat)
    : ParallelWithin rules renumbering started otherStarted bound := by
  induction bound with
  | zero =>
      constructor
      · exact fun tree => .throw (.tooDeep (.exp tree))
      · exact fun tree => .throw (.tooDeep (.exp tree))
      · exact fun tree => .throw (.tooDeep (.stm tree))
  | succ bound within =>
      constructor
      · intro tree
        rw [Rules.valueWithin, Rules.valueWithin]
        apply within.fire continues fun rule member => (mirrors.value rule member).2
        exact fun rule member => ExpPattern.matches?_renumber (mirrors.value rule member).1 tree
      · intro tree
        rw [Rules.discardWithin, Rules.discardWithin]
        apply within.fire continues fun rule member => (mirrors.discard rule member).2
        exact fun rule member => ExpPattern.matches?_renumber (mirrors.discard rule member).1 tree
      · intro tree
        rw [Rules.statementWithin_succ, Rules.statementWithin_succ, Stm.flatten_renumber]
        refine .forM fun part _ => ?_
        apply within.fire continues fun rule member => (mirrors.statement rule member).2
        exact fun rule member =>
          StmPattern.matches?_renumber (mirrors.statement rule member).1 part

/-- A body that keeps its numbers is selected alike in two sessions. -/
theorem Rules.Mirrors.selectBody (mirrors : rules.Mirrors renumbering)
    (continues : renumbering.Continues started otherStarted) {body : Stm}
    (kept : body.renumber renumbering.number = body)
    {answer otherAnswer : Except SelectionError (Array ι)} {after otherAfter : Session}
    (selected : rules.selectBody body started = (answer, after))
    (otherSelected : rules.selectBody body otherStarted = (otherAnswer, otherAfter))
    : (∃ count, after.temps = started.temps + count ∧ otherAfter.temps = otherStarted.temps + count)
      ∧ (∃ records,
          after.stats = started.stats.recordAll records
          ∧ otherAfter.stats = otherStarted.stats.recordAll records)
      ∧ ((∃ error,
            answer = .error error
            ∧ otherAnswer = .error (error.renumber renumbering.number))
          ∨ ∃ code, answer = .ok code ∧ otherAnswer = .ok (code.map renumbering.item)) := by
  have begun : Selection.Alike renumbering started otherStarted { session := started }
      { session := otherStarted } :=
    ⟨⟨0, rfl, rfl⟩, ⟨[], rfl, rfl⟩, Array.map_empty.symm⟩
  have ended := (mirrors.parallelWithin continues body.nesting).statement body _ _ begun
  rw [kept] at ended
  change Selection.EndAlike _ _ _ _ (rules.selectStatement body { session := started })
    (rules.selectStatement body { session := otherStarted }) at ended
  rw [Rules.selectBody, EStateM.run] at selected otherSelected
  generalize rules.selectStatement body { session := started } = outcome at ended selected
  generalize rules.selectStatement body { session := otherStarted } = otherOutcome
    at ended otherSelected
  cases outcome with
  | ok _ last =>
      cases otherOutcome with
      | ok _ otherLast =>
          cases selected
          cases otherSelected
          obtain ⟨-, alike⟩ := ended
          exact ⟨alike.taken, alike.records, .inr ⟨_, rfl, congrArg _ alike.code⟩⟩
      | error _ _ => exact ended.elim
  | error error last =>
      cases otherOutcome with
      | ok _ _ => exact ended.elim
      | error otherError otherLast =>
          cases selected
          cases otherSelected
          obtain ⟨rfl, alike⟩ := ended
          exact ⟨alike.taken, alike.records, .inl ⟨error, rfl, rfl⟩⟩

end

end TreeTiling
