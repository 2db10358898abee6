import Mathlib.Data.List.Chain
import TreeTiling.Proofs.Selection.Outcome
import TreeTiling.Proofs.Tree.Nesting

/-!
The recursion of the selector: which trees it turns to while it is at work on a tree.

A rule's action may ask for any tree, so in general nothing says that the recursion ends. Where a
number falls from every tree to those that its rule asks for, and stays below the bound on nesting,
the bound is never felt: selection obeys the equations it would have without one.
-/

namespace TreeTiling

variable {π ι α : Type}

----------------------------------------------------------------------------------------------
-- Jobs
----------------------------------------------------------------------------------------------

/-- What the selector can be asked for. -/
inductive Job where
  | value (tree : Exp)
  | discard (tree : Exp)
  | statement (tree : Stm)

/-- How deeply rules may nest on the tree of a job. -/
def Job.nesting : Job → Nat
  | value tree | discard tree => tree.nesting
  | statement tree => tree.nesting

/-- An action asks for a job, after some answers to what it asked for before. The answers are any
registers: it does not matter whether the selector would give them.
-/
inductive Action.Asks : Action ι α → Job → Prop where
  | value (tree : Exp) (next : Temp → Action ι α) : Asks (.value tree next) (.value tree)
  | discard (tree : Exp) (next : Action ι α) : Asks (.discard tree next) (.discard tree)
  | statement (tree : Stm) (next : Action ι α) : Asks (.statement tree next) (.statement tree)
  | afterEmit {item : ι} {next : Action ι α} {job : Job} (later : next.Asks job)
    : Asks (.emit item next) job
  | afterFresh {next : Temp → Action ι α} {register : Temp} {job : Job}
    (later : (next register).Asks job)
    : Asks (.fresh next) job
  | afterValue {tree : Exp} {next : Temp → Action ι α} {register : Temp} {job : Job}
    (later : (next register).Asks job)
    : Asks (.value tree next) job
  | afterDiscard {tree : Exp} {next : Action ι α} {job : Job} (later : next.Asks job)
    : Asks (.discard tree next) job
  | afterStatement {tree : Stm} {next : Action ι α} {job : Job} (later : next.Asks job)
    : Asks (.statement tree next) job

/-- While it is at work on one job, the selector turns to another: one that the rule for the tree
asks for or, if the tree is a sequence, one of its statements.
-/
inductive Rules.Calls (rules : Rules ι) : Job → Job → Prop where
  | value {tree : Exp} {choice : RuleTable.Choice ExpPattern ι Temp} {job : Job}
    (chosen : rules.value.choose? (·.matches? tree) = some choice)
    (asks : (choice.rule.action choice.captures).Asks job)
    : Calls rules (.value tree) job
  | discard {tree : Exp} {choice : RuleTable.Choice ExpPattern ι Unit} {job : Job}
    (chosen : rules.discard.choose? (·.matches? tree) = some choice)
    (asks : (choice.rule.action choice.captures).Asks job)
    : Calls rules (.discard tree) job
  | statement {tree : Stm} {choice : RuleTable.Choice StmPattern ι Unit} {job : Job}
    (single : ∀ statements, tree ≠ .seq statements)
    (chosen : rules.statement.choose? (·.matches? tree) = some choice)
    (asks : (choice.rule.action choice.captures).Asks job)
    : Calls rules (.statement tree) job
  | part {statements : List Stm} {part : Stm} (member : part ∈ statements)
    : Calls rules (.statement (.seq statements)) (.statement part)

----------------------------------------------------------------------------------------------
-- Actions that ask for jobs of a kind
----------------------------------------------------------------------------------------------

namespace Action

variable {β : Type} {jobs : Job → Prop} {results : α → Prop}

/-- An action asks only for jobs of a kind and is done only with results of a kind. -/
def Confined (jobs : Job → Prop) (results : α → Prop) : Action ι α → Prop
  | done result => results result
  | fail _ => True
  | emit _ next => next.Confined jobs results
  | fresh next => ∀ register, (next register).Confined jobs results
  | value tree next =>
      jobs (.value tree) ∧ ∀ register, (next register).Confined jobs results
  | discard tree next => jobs (.discard tree) ∧ next.Confined jobs results
  | statement tree next => jobs (.statement tree) ∧ next.Confined jobs results

/-- A confined action asks only for jobs of the kind; by induction on how it comes to ask. -/
theorem Confined.of_asks {action : Action ι α} {job : Job}
    (confined : action.Confined jobs results) (asks : action.Asks job)
    : jobs job := by
  induction asks with
  | value | discard | statement => exact confined.1
  | afterEmit _ ih => exact ih confined
  | afterFresh _ ih => exact ih (confined _)
  | afterValue _ ih => exact ih (confined.2 _)
  | afterDiscard _ ih | afterStatement _ ih => exact ih confined.2

/-- The kind of jobs may be wider; by induction on the requests. -/
theorem Confined.mono {wider : Job → Prop} {action : Action ι α}
    (confined : action.Confined jobs results) (among : ∀ job, jobs job → wider job)
    : action.Confined wider results := by
  induction action with
  | done | fail => exact confined
  | emit item next ih => exact ih confined
  | fresh next ih => exact fun register => ih register (confined register)
  | value tree next ih =>
      exact ⟨among _ confined.1, fun register => ih register (confined.2 register)⟩
  | discard tree next ih | statement tree next ih => exact ⟨among _ confined.1, ih confined.2⟩

/-- Actions in sequence, the second of which starts from a result of the first; by induction on the
requests of the first.
-/
theorem Confined.bind {others : β → Prop} {action : Action ι α} {next : α → Action ι β}
    (confined : action.Confined jobs results)
    (nextConfined : ∀ result, results result → (next result).Confined jobs others)
    : (action >>= next).Confined jobs others := by
  change (action.bind next).Confined jobs others
  induction action with
  | done result => exact nextConfined result confined
  | fail error => trivial
  | emit item rest ih => exact ih confined
  | fresh rest ih => exact fun register => ih register (confined register)
  | value tree rest ih => exact ⟨confined.1, fun register => ih register (confined.2 register)⟩
  | discard tree rest ih | statement tree rest ih => exact ⟨confined.1, ih confined.2⟩

namespace Confined

theorem pure {result : α} (holds : results result)
    : (pure result : Action ι α).Confined jobs results :=
  holds

theorem emit (item : ι) : (emitInstr item).Confined jobs fun _ => True :=
  trivial

theorem fresh : (freshTemp : Action ι Temp).Confined jobs fun _ => True :=
  fun _ => trivial

theorem value {tree : Exp} (among : jobs (.value tree))
    : (valueOf tree : Action ι Temp).Confined jobs fun _ => True :=
  ⟨among, fun _ => trivial⟩

theorem effects {tree : Exp} (among : jobs (.discard tree))
    : (effectsOf tree : Action ι Unit).Confined jobs fun _ => True :=
  ⟨among, trivial⟩

theorem statement {tree : Stm} (among : jobs (.statement tree))
    : (Action.carryOut tree : Action ι Unit).Confined jobs fun _ => True :=
  ⟨among, trivial⟩

end Confined

variable [Emittable ι]

/-- Carrying out an action depends only on how the selector does the jobs that it asks for; by
induction on the requests.
-/
theorem run_congr {value value' : Exp → SelectM ι Temp} {discard discard' : Exp → SelectM ι Unit}
    {statement statement' : Stm → SelectM ι Unit} {action : Action ι α}
    (sameValue : ∀ tree, action.Asks (.value tree) → value tree = value' tree)
    (sameDiscard : ∀ tree, action.Asks (.discard tree) → discard tree = discard' tree)
    (sameStatement : ∀ tree, action.Asks (.statement tree) → statement tree = statement' tree)
    : action.run value discard statement = action.run value' discard' statement' := by
  induction action with
  | done | fail => rfl
  | emit item next ih =>
      simp only [run]
      rw [ih (fun _ asks => sameValue _ (.afterEmit asks))
        (fun _ asks => sameDiscard _ (.afterEmit asks))
        (fun _ asks => sameStatement _ (.afterEmit asks))]
  | fresh next ih =>
      simp only [run]
      refine bind_congr fun register => ih register ?_ ?_ ?_
      · exact fun _ asks => sameValue _ (.afterFresh asks)
      · exact fun _ asks => sameDiscard _ (.afterFresh asks)
      · exact fun _ asks => sameStatement _ (.afterFresh asks)
  | value tree next ih =>
      simp only [run]
      rw [sameValue tree (.value tree next)]
      refine bind_congr fun register => ih register ?_ ?_ ?_
      · exact fun _ asks => sameValue _ (.afterValue asks)
      · exact fun _ asks => sameDiscard _ (.afterValue asks)
      · exact fun _ asks => sameStatement _ (.afterValue asks)
  | discard tree next ih =>
      simp only [run]
      rw [sameDiscard tree (.discard tree next),
        ih (fun _ asks => sameValue _ (.afterDiscard asks))
          (fun _ asks => sameDiscard _ (.afterDiscard asks))
          (fun _ asks => sameStatement _ (.afterDiscard asks))]
  | statement tree next ih =>
      simp only [run]
      rw [sameStatement tree (.statement tree next),
        ih (fun _ asks => sameValue _ (.afterStatement asks))
          (fun _ asks => sameDiscard _ (.afterStatement asks))
          (fun _ asks => sameStatement _ (.afterStatement asks))]

end Action

----------------------------------------------------------------------------------------------
-- Recursion that descends
----------------------------------------------------------------------------------------------

namespace Rules

/-- A number that falls whenever the selector turns from one job to another. -/
def Descends (rules : Rules ι) (depth : Job → Nat) : Prop :=
  ∀ {job next : Job}, rules.Calls job next → depth next < depth job

namespace Descends

variable {rules : Rules ι} {depth : Job → Nat}

theorem wellFounded (descends : rules.Descends depth)
    : WellFounded fun next job => rules.Calls job next :=
  Subrelation.wf (fun calls => descends calls) (measure depth).wf

/-- Jobs that are nested in one another are no more than the number of the first; by induction on
the nested jobs.
-/
theorem length_le (descends : rules.Descends depth) {job : Job} {nested : List Job}
    (chain : List.IsChain rules.Calls (job :: nested))
    : nested.length ≤ depth job := by
  induction nested generalizing job with
  | nil => exact Nat.zero_le _
  | cons next rest ih =>
      obtain ⟨calls, later⟩ := List.isChain_cons_cons.mp chain
      exact Nat.lt_of_le_of_lt (ih later) (descends calls)

mutual

/-- The parts of a statement are no deeper than the statement. -/
theorem depth_le_of_mem_flatten (descends : rules.Descends depth) {part : Stm}
    : ∀ {tree : Stm}, part ∈ tree.flatten → depth (.statement part) ≤ depth (.statement tree)
  | .seq statements, member => by
      rw [Stm.flatten] at member
      exact Nat.le_of_lt (depth_lt_of_mem_flattenAll descends member fun among => .part among)
  | .label _, member | .jump _, member | .cjump _ _ _ _ _, member | .cmove _ _ _ _ _, member
  | .move _ _, member | .exp _, member => by
      simp only [Stm.flatten, List.mem_singleton] at member
      exact Nat.le_of_eq (by rw [member])

/-- The parts of statements are less deep than a job that turns to all of the statements. -/
theorem depth_lt_of_mem_flattenAll (descends : rules.Descends depth) {part : Stm} {job : Job}
    : ∀ {statements : List Stm},
        part ∈ Stm.flattenAll statements
        → (∀ {statement : Stm}, statement ∈ statements → rules.Calls job (.statement statement))
        → depth (.statement part) < depth job
  | first :: rest, member, calls => by
      rw [Stm.flattenAll] at member
      rcases List.mem_append.mp member with here | later
      · exact Nat.lt_of_le_of_lt (depth_le_of_mem_flatten descends here)
          (descends (calls List.mem_cons_self))
      · exact depth_lt_of_mem_flattenAll descends later
          fun among => calls (List.mem_cons_of_mem first among)

end

end Descends

end Rules

----------------------------------------------------------------------------------------------
-- Selection without a bound
----------------------------------------------------------------------------------------------

/-- Firing the rule of a choice depends only on how that rule's action is carried out. -/
theorem RuleTable.fire_congr {category : Category} {tree : Node} {sort : π → Pattern}
    {carryOut carryOut' : Action ι α → SelectM ι α} {choice? : Option (Choice π ι α)}
    (same
      : ∀ choice,
          choice? = some choice
          → carryOut (choice.rule.action choice.captures)
            = carryOut' (choice.rule.action choice.captures))
    : fire category tree sort carryOut choice? = fire category tree sort carryOut' choice? := by
  cases choice? with
  | none => rfl
  | some choice => simp only [fire, same choice rfl]

/-- A visit to each item in order depends only on the visits to these items. -/
theorem SelectM.forM_congr {γ : Type} {visit other : γ → SelectM ι PUnit} {items : List γ}
    (same : ∀ item ∈ items, visit item = other item)
    : items.forM visit = items.forM other := by
  induction items with
  | nil => rfl
  | cons item rest ih =>
      have later := ih fun other member => same other (List.mem_cons_of_mem item member)
      simp only [List.forM_eq_forM] at later
      simp only [List.forM_eq_forM, List.forM_cons]
      rw [same item List.mem_cons_self, later]

namespace Rules

variable [Emittable ι] {rules : Rules ι} {depth : Job → Nat}

/-- Carries out an action, however deeply its requests nest. -/
def carryOut (rules : Rules ι) : Action ι α → SelectM ι α :=
  Action.run rules.selectValue rules.selectDiscard rules.selectStatement

/-- Selects a statement that is not a sequence by the first rule that matches. -/
def selectPart (rules : Rules ι) (part : Stm) : SelectM ι Unit :=
  RuleTable.fire .statement (.stm part) .stm rules.carryOut
    (rules.statement.choose? (·.matches? part))

/-- Selection obeys the equations of a recursion without a bound: every tree is selected by the
first rule that matches it, whose requests are selected in the same way, and a sequence is selected
statement by statement.
-/
structure Unfolds (rules : Rules ι) : Prop where
  value
    : ∀ tree,
        rules.selectValue tree
        = RuleTable.fire .value (.exp tree) .exp rules.carryOut
            (rules.value.choose? (·.matches? tree))
  discard
    : ∀ tree,
        rules.selectDiscard tree
        = RuleTable.fire .discard (.exp tree) .exp rules.carryOut
            (rules.discard.choose? (·.matches? tree))
  statement
    : ∀ tree,
        (∀ statements, tree ≠ .seq statements)
        → rules.selectStatement tree
          = RuleTable.fire .statement (.stm tree) .stm rules.carryOut
              (rules.statement.choose? (·.matches? tree))
  sequence
    : ∀ statements,
        rules.selectStatement (.seq statements) = statements.forM rules.selectStatement

/-- Two bounds give the same on every job that is less deep than both. -/
structure AgreesWithin (rules : Rules ι) (depth : Job → Nat) (first second : Nat) : Prop where
  value
    : ∀ tree,
        depth (.value tree) < first
        → depth (.value tree) < second
        → rules.valueWithin first tree = rules.valueWithin second tree
  discard
    : ∀ tree,
        depth (.discard tree) < first
        → depth (.discard tree) < second
        → rules.discardWithin first tree = rules.discardWithin second tree
  statement
    : ∀ tree,
        depth (.statement tree) < first
        → depth (.statement tree) < second
        → rules.statementWithin first tree = rules.statementWithin second tree

/-- An action whose requests are less deep than two bounds is carried out alike within both. -/
theorem AgreesWithin.perform {first second : Nat} (agrees : rules.AgreesWithin depth first second)
    {action : Action ι α}
    (shallow : ∀ job, action.Asks job → depth job < first ∧ depth job < second)
    : rules.perform first action = rules.perform second action := by
  refine Action.run_congr ?_ ?_ ?_
  · exact fun tree asks => agrees.value tree (shallow _ asks).1 (shallow _ asks).2
  · exact fun tree asks => agrees.discard tree (shallow _ asks).1 (shallow _ asks).2
  · exact fun tree asks => agrees.statement tree (shallow _ asks).1 (shallow _ asks).2

namespace Descends

/-- A bound above the depth of a job does not matter; by induction on one of the two bounds, since a
rule's requests are less deep than its tree.
-/
theorem agreesWithin (descends : rules.Descends depth) (first second : Nat)
    : rules.AgreesWithin depth first second := by
  induction first generalizing second with
  | zero =>
      constructor
      · exact fun _ shallow => absurd shallow (Nat.not_lt_zero _)
      · exact fun _ shallow => absurd shallow (Nat.not_lt_zero _)
      · exact fun _ shallow => absurd shallow (Nat.not_lt_zero _)
  | succ first ih =>
      cases second with
      | zero =>
          constructor
          · exact fun _ _ shallow => absurd shallow (Nat.not_lt_zero _)
          · exact fun _ _ shallow => absurd shallow (Nat.not_lt_zero _)
          · exact fun _ _ shallow => absurd shallow (Nat.not_lt_zero _)
      | succ second =>
          -- What a job turns to is less deep, so it is below both bounds by one more.
          have below {job next : Job} (calls : rules.Calls job next)
              (inFirst : depth job < first + 1) (inSecond : depth job < second + 1)
              : depth next < first ∧ depth next < second := by
            have less := descends calls
            omega
          constructor
          · intro tree inFirst inSecond
            rw [valueWithin, valueWithin]
            refine RuleTable.fire_congr fun choice chosen => (ih second).perform fun job asks => ?_
            exact below (.value chosen asks) inFirst inSecond
          · intro tree inFirst inSecond
            rw [discardWithin, discardWithin]
            refine RuleTable.fire_congr fun choice chosen => (ih second).perform fun job asks => ?_
            exact below (.discard chosen asks) inFirst inSecond
          · intro tree inFirst inSecond
            rw [statementWithin_succ, statementWithin_succ]
            refine SelectM.forM_congr fun part member => ?_
            have partLe := descends.depth_le_of_mem_flatten member
            have single statements : part ≠ .seq statements := Stm.ne_seq_of_mem_flatten member
            refine RuleTable.fire_congr fun choice chosen => (ih second).perform fun job asks => ?_
            exact below (.statement single chosen asks) (Nat.lt_of_le_of_lt partLe inFirst)
              (Nat.lt_of_le_of_lt partLe inSecond)

variable (descends : rules.Descends depth) (roomy : ∀ job, depth job < job.nesting)

include descends roomy

/-- An action whose requests are less deep than a bound is carried out within it as without. -/
theorem perform_eq_carryOut {bound : Nat} {action : Action ι α}
    (shallow : ∀ job, action.Asks job → depth job < bound)
    : rules.perform bound action = rules.carryOut action := by
  refine Action.run_congr ?_ ?_ ?_
  · exact fun tree asks => (descends.agreesWithin _ _).value tree (shallow _ asks) (roomy _)
  · exact fun tree asks => (descends.agreesWithin _ _).discard tree (shallow _ asks) (roomy _)
  · exact fun tree asks => (descends.agreesWithin _ _).statement tree (shallow _ asks) (roomy _)

/-- A statement is selected part by part. -/
theorem selectStatement_parts (tree : Stm)
    : rules.selectStatement tree = tree.flatten.forM rules.selectPart := by
  rw [selectStatement_eq]
  refine SelectM.forM_congr fun part member => ?_
  have single statements : part ≠ .seq statements := Stm.ne_seq_of_mem_flatten member
  refine RuleTable.fire_congr fun choice chosen => ?_
  refine perform_eq_carryOut descends roomy fun job asks => ?_
  have jobLt := descends (.statement single chosen asks)
  have partLe := descends.depth_le_of_mem_flatten member
  have treeLt := roomy (.statement tree)
  simp only [Job.nesting, Stm.nesting] at treeLt
  omega

/-- Where the recursion descends from below the bounds on nesting, it obeys the equations that it
would have without them.
-/
theorem unfolds : rules.Unfolds where
  value := by
    intro tree
    rw [selectValue, Exp.nesting, valueWithin]
    refine RuleTable.fire_congr fun choice chosen => ?_
    refine perform_eq_carryOut descends roomy fun job asks => ?_
    have jobLt := descends (.value chosen asks)
    have treeLt := roomy (.value tree)
    simp only [Job.nesting, Exp.nesting] at treeLt
    omega
  discard := by
    intro tree
    rw [selectDiscard, Exp.nesting, discardWithin]
    refine RuleTable.fire_congr fun choice chosen => ?_
    refine perform_eq_carryOut descends roomy fun job asks => ?_
    have jobLt := descends (.discard chosen asks)
    have treeLt := roomy (.discard tree)
    simp only [Job.nesting, Exp.nesting] at treeLt
    omega
  statement := by
    intro tree single
    rw [selectStatement_parts descends roomy, Stm.flatten_of_ne_seq single]
    exact bind_pure _
  sequence := by
    intro statements
    rw [selectStatement_parts descends roomy, Stm.flatten]
    induction statements with
    | nil =>
        rw [Stm.flattenAll]
        rfl
    | cons first rest ih =>
        simp only [List.forM_eq_forM] at ih
        simp only [Stm.flattenAll, List.forM_eq_forM, List.forM_append, List.forM_cons]
        rw [ih, selectStatement_parts descends roomy, List.forM_eq_forM]

end Descends

end Rules

end TreeTiling
