import TreeTiling.Proofs.Selection.Steps
import TreeTiling.Selection.Script

/-!
Rules that are added behind others.

The first rule that matches fires, so a rule at the end of a table is asked for only where selection
would have failed before. A run that does not fail for want of a rule is the same run with the rules
added: the same answer or failure, code, temporaries, counts and events.
-/

namespace TreeTiling

variable {π ι α β : Type}

----------------------------------------------------------------------------------------------
-- Tables with rules at the end
----------------------------------------------------------------------------------------------

/-- Rules at the end change nothing where a rule is chosen; by induction on the table. -/
theorem RuleTable.choose?_append {matching : π → Option Captures} {table : RuleTable π ι α}
    {choice : Choice π ι α} (chosen : table.choose? matching = some choice)
    (more : RuleTable π ι α)
    : choose? matching (table ++ more) = some choice := by
  induction table generalizing choice with
  | nil => cases chosen
  | cons rule rest ih =>
      rw [choose?] at chosen
      rw [List.cons_append, choose?]
      cases found : matching rule.pattern with
      | some captures =>
          rw [found] at chosen
          exact chosen
      | none =>
          rw [found] at chosen
          obtain ⟨later, laterChosen, rfl⟩ := Option.map_eq_some_iff.mp chosen
          rw [ih laterChosen, Option.map_some]

----------------------------------------------------------------------------------------------
-- Runs that do not want for a rule
----------------------------------------------------------------------------------------------

/-- Whether selection stopped because no rule matched. -/
def SelectionError.wantsRule : SelectionError → Bool
  | noRule _ _ => true
  | _ => false

/-- A run ended well, or it failed for another reason than that no rule matched. -/
def Decided : EStateM.Result SelectionError (Selection ι) α → Prop
  | .ok _ _ => True
  | .error error _ => error.wantsRule = false

/-- The second computation ends as the first one does, wherever that is decided. -/
def Conserved (first second : SelectM ι α) : Prop :=
  ∀ before, Decided (first before) → second before = first before

namespace Conserved

theorem refl (computation : SelectM ι α) : Conserved computation computation :=
  fun _ _ => rfl

/-- Where the first of two parts fails, the sequence does, so both parts are decided in turn. -/
theorem bind {first second : SelectM ι α} {next other : α → SelectM ι β}
    (conserved : Conserved first second) (conservedNext : ∀ result, Conserved (next result) (other result))
    : Conserved (first >>= next) (second >>= other) := by
  intro before decided
  change EStateM.bind second other before = EStateM.bind first next before
  change Decided (EStateM.bind first next before) at decided
  unfold EStateM.bind at decided ⊢
  cases outcome : first before with
  | ok result middle =>
      rw [outcome] at decided
      have succeeded : Decided (first before) := by
        rw [outcome]
        trivial
      rw [conserved before succeeded, outcome]
      exact conservedNext result middle decided
  | error error middle =>
      rw [outcome] at decided
      have failed : Decided (first before) := by
        rw [outcome]
        exact decided
      rw [conserved before failed, outcome]

/-- A visit to each item in order; by induction on the items. -/
theorem forM {γ : Type} {visit other : γ → SelectM ι PUnit}
    (conserved : ∀ item, Conserved (visit item) (other item)) (items : List γ)
    : Conserved (items.forM visit) (items.forM other) := by
  induction items with
  | nil => exact .refl _
  | cons item rest ih =>
      rw [List.forM_eq_forM, List.forM_cons, List.forM_cons]
      exact .bind (conserved item) fun _ => ih

end Conserved

----------------------------------------------------------------------------------------------
-- Rules behind rules
----------------------------------------------------------------------------------------------

/-- Rules with others behind them, table by table. -/
instance : Append (Rules ι) where
  append rules more :=
    { statement := rules.statement ++ more.statement
      value := rules.value ++ more.value
      discard := rules.discard ++ more.discard }

section

variable [Emittable ι]

/-- Everything selected within a bound is conserved when rules are added. -/
structure ConservedWithin (rules more : Rules ι) (bound : Nat) : Prop where
  value
    : ∀ tree, Conserved (rules.valueWithin bound tree) ((rules ++ more).valueWithin bound tree)
  discard
    : ∀ tree, Conserved (rules.discardWithin bound tree) ((rules ++ more).discardWithin bound tree)
  statement
    : ∀ tree,
        Conserved (rules.statementWithin bound tree) ((rules ++ more).statementWithin bound tree)

namespace ConservedWithin

variable {rules more : Rules ι} {bound : Nat}

/-- An action is conserved where its requests are; by induction on the requests. -/
theorem perform (within : ConservedWithin rules more bound) (action : Action ι α)
    : Conserved (rules.perform bound action) ((rules ++ more).perform bound action) := by
  unfold Rules.perform
  induction action with
  | done result => exact .refl _
  | fail error => exact .refl _
  | emit item next ih => exact .bind (.refl _) fun _ => ih
  | fresh next ih => exact .bind (.refl _) fun register => ih register
  | value tree next ih => exact .bind (within.value tree) fun register => ih register
  | discard tree next ih => exact .bind (within.discard tree) fun _ => ih
  | statement tree next ih => exact .bind (within.statement tree) fun _ => ih

/-- The rule that fires is the same with others behind it, and a run without one is not decided. -/
theorem fire {matching : π → Option Captures} (within : ConservedWithin rules more bound)
    (category : Category) (tree : Node) (sort : π → Pattern) (table others : RuleTable π ι α)
    : Conserved
        (RuleTable.fire category tree sort (rules.perform bound) (table.choose? matching))
        (RuleTable.fire category tree sort ((rules ++ more).perform bound)
          (RuleTable.choose? matching (table ++ others))) := by
  intro before decided
  cases chosen : table.choose? matching with
  | none =>
      rw [chosen] at decided
      cases decided
  | some choice =>
      rw [chosen] at decided
      rw [RuleTable.choose?_append chosen]
      exact within.perform _ _ decided

end ConservedWithin

/-- Added rules conserve selection, by induction on the bound. -/
theorem conservedWithin (rules more : Rules ι) (bound : Nat) : ConservedWithin rules more bound := by
  induction bound with
  | zero =>
      constructor
      · exact fun _ => .refl _
      · exact fun _ => .refl _
      · exact fun _ => .refl _
  | succ bound within =>
      constructor
      · intro tree
        rw [Rules.valueWithin, Rules.valueWithin]
        exact within.fire _ _ _ _ _
      · intro tree
        rw [Rules.discardWithin, Rules.discardWithin]
        exact within.fire _ _ _ _ _
      · intro tree
        rw [Rules.statementWithin_succ, Rules.statementWithin_succ]
        exact .forM (fun part => within.fire _ _ _ _ _) _

/-- At every node the first rule fires that matches. A statement is selected part by part, each part
is a node, and the events of every run tell which rules fired.
-/
structure FirstRuleFires (rules : Rules ι) (bound : Nat) : Prop where
  value
    : ∀ tree,
        rules.value.FiresFirst .value (.exp tree) .exp (·.matches? tree) (rules.perform bound)
          (rules.valueWithin (bound + 1) tree)
  discard
    : ∀ tree,
        rules.discard.FiresFirst .discard (.exp tree) .exp (·.matches? tree) (rules.perform bound)
          (rules.discardWithin (bound + 1) tree)
  part
    : ∀ part,
        rules.statement.FiresFirst .statement (.stm part) .stm (·.matches? part)
          (rules.perform bound) (rules.partWithin bound part)
  statement
    : ∀ tree, rules.statementWithin (bound + 1) tree = tree.flatten.forM (rules.partWithin bound)
  traced
    : ∀ before,
        (∀ tree, rules.Traced before (Selection.final (rules.valueWithin bound tree before)))
        ∧ (∀ tree, rules.Traced before (Selection.final (rules.discardWithin bound tree before)))
        ∧ ∀ tree, rules.Traced before (Selection.final (rules.statementWithin bound tree before))

theorem firstRuleFires (rules : Rules ι) (bound : Nat) : FirstRuleFires rules bound where
  value tree := by
    rw [Rules.valueWithin]
    exact RuleTable.fire_firesFirst _ _ _ _ _
  discard tree := by
    rw [Rules.discardWithin]
    exact RuleTable.fire_firesFirst _ _ _ _ _
  part part := RuleTable.fire_firesFirst _ _ _ _ _
  statement tree := Rules.statementWithin_succ tree
  traced before := by
    have stepwise := stepwiseWithin rules bound
    refine ⟨?_, ?_, ?_⟩
    · exact fun tree => Rules.traced_of_steps (stepwise.value tree before)
    · exact fun tree => Rules.traced_of_steps (stepwise.discard tree before)
    · exact fun tree => Rules.traced_of_steps (stepwise.statement tree before)

/-- Rules at the end of the tables are conservative, however deeply rules may nest. Selecting a value,
effects, a statement or a body ends as it did without them, in the same answer or failure and the
same selection, unless it failed because no rule matched; and the rule that fires at a node is the
first that matches, as `select?` tells.
-/
theorem added_rules_conservative (rules more : Rules ι)
    : (∀ bound, ConservedWithin rules more bound)
      ∧ (∀ tree, Conserved (rules.selectValue tree) ((rules ++ more).selectValue tree))
      ∧ (∀ tree, Conserved (rules.selectDiscard tree) ((rules ++ more).selectDiscard tree))
      ∧ (∀ tree, Conserved (rules.selectStatement tree) ((rules ++ more).selectStatement tree))
      ∧ (∀ body session,
          (∀ error,
            (rules.selectBody body session).1 = .error error → error.wantsRule = false)
          → (rules ++ more).selectBody body session = rules.selectBody body session)
      ∧ ∀ bound, FirstRuleFires rules bound := by
  have conserved := conservedWithin rules more
  refine ⟨conserved, ?_, ?_, ?_, ?_, firstRuleFires rules⟩
  · exact fun tree => (conserved tree.nesting).value tree
  · exact fun tree => (conserved tree.nesting).discard tree
  · exact fun tree => (conserved tree.nesting).statement tree
  · intro body session decided
    have same := (conserved body.nesting).statement body { session }
    change _ → (rules ++ more).selectStatement body { session }
      = rules.selectStatement body { session } at same
    rw [Rules.selectBody, EStateM.run] at decided
    rw [Rules.selectBody, Rules.selectBody, EStateM.run, EStateM.run, same ?_]
    change Decided (rules.selectStatement body { session })
    cases outcome : rules.selectStatement body { session } with
    | ok answer last => trivial
    | error error last =>
        rw [outcome] at decided
        exact decided error rfl

end

----------------------------------------------------------------------------------------------
-- Sums
----------------------------------------------------------------------------------------------

/-- Rules for sums of constants. -/
def sumRules : Rules Instr where
  value :=
    [⟨.binop (.is .plus) (.bind ⟨0, "l"⟩) (.bind ⟨1, "r"⟩),
        Script.result
          [.value ⟨0, "l"⟩, .value ⟨1, "r"⟩, .fresh,
            .oper [.text "add     `s0, `s1, `d0"] [2] [0, 1]]⟩,
      ⟨.const (.bind ⟨2, "i"⟩),
        Script.result
          [.fresh, .oper [.text "li      ", .captured (.scalar .int) ⟨2, "i"⟩, .text ", `d0"] [0] []]⟩]

/-- A rule that refuses whatever it is asked for. -/
def refusal : Rules Instr where
  value := [⟨.bind ⟨3, "e"⟩, Script.result [.refuse "value" ⟨3, "e"⟩]⟩]

theorem refusal_behind_sumRules
    : ∃ register after,
        sumRules.selectValue (.binop .plus (.const 1) (.const 2)) {} = .ok register after
        ∧ (sumRules ++ refusal).selectValue (.binop .plus (.const 1) (.const 2)) {}
          = .ok register after := by
  obtain ⟨register, after, selected⟩
      : ∃ register after,
          sumRules.selectValue (.binop .plus (.const 1) (.const 2)) {} = .ok register after :=
    ⟨_, _, rfl⟩
  refine ⟨register, after, selected, ?_⟩
  rw [(added_rules_conservative sumRules refusal).2.1 _ _ (by rw [selected]; trivial), selected]

end TreeTiling
