import Mathlib.Logic.Relation
import TreeTiling.Proofs.Selection.Outcome

/-!
Selection as a sequence of steps. Whatever the rules are and however a run ends, it only emits
instructions, takes temporaries, and fires the first rule that matches a node.
-/

namespace TreeTiling

open Relation (ReflTransGen)

variable {π ι α β : Type}

----------------------------------------------------------------------------------------------
-- The first rule that matches
----------------------------------------------------------------------------------------------

namespace RuleTable

variable {matching : π → Option Captures} {table : RuleTable π ι α}

/-- A rule stands at an index of a table, its pattern makes the bindings, and no pattern in front of
it matches.
-/
structure IsFirst (matching : π → Option Captures) (table : RuleTable π ι α) (index : Nat)
    (rule : Rule π ι α) (captures : Captures)
    : Prop where
  placed : table[index]? = some rule
  matched : matching rule.pattern = some captures
  least
    : ∀ earlier other,
        earlier < index → table[earlier]? = some other → matching other.pattern = none

/-- The rule that is chosen is the first that matches; by induction on the table. -/
theorem isFirst_of_choose? {choice : Choice π ι α} (chosen : table.choose? matching = some choice)
    : table.IsFirst matching choice.index choice.rule choice.captures := by
  induction table generalizing choice with
  | nil => cases chosen
  | cons rule rest ih =>
      rw [choose?] at chosen
      cases found : matching rule.pattern with
      | some captures =>
          rw [found] at chosen
          obtain rfl := Option.some.inj chosen
          exact ⟨rfl, found, fun _ _ before => absurd before (Nat.not_lt_zero _)⟩
      | none =>
          rw [found] at chosen
          obtain ⟨later, laterChosen, rfl⟩ := Option.map_eq_some_iff.mp chosen
          obtain ⟨placed, matched, least⟩ := ih laterChosen
          refine ⟨placed, matched, ?_⟩
          intro earlier other before isOther
          cases earlier with
          | zero =>
              obtain rfl := Option.some.inj isOther
              exact found
          | succ earlier => exact least earlier other (Nat.lt_of_succ_lt_succ before) isOther

/-- A computation for a node fires the rule of a table that `select?` names, which is the first that
matches: it takes note of the rule and carries out its action. Where `select?` names none, no
pattern matches and the computation fails.
-/
def FiresFirst (category : Category) (node : Node) (sort : π → Pattern)
    (matching : π → Option Captures) (table : RuleTable π ι α)
    (carryOut : Action ι α → SelectM ι α) (computation : SelectM ι α)
    : Prop :=
  (∀ index,
    table.select? matching = some index
    → ∃ rule captures,
        table.IsFirst matching index rule captures
        ∧ ∀ before,
            computation before
            = carryOut (rule.action captures)
                (before.note category index (sort rule.pattern) node))
  ∧ (table.select? matching = none
      → (∀ rule ∈ table, matching rule.pattern = none)
        ∧ ∀ before, computation before = .error (.noRule category node) before)

theorem fire_firesFirst (category : Category) (node : Node) (sort : π → Pattern)
    (table : RuleTable π ι α) (carryOut : Action ι α → SelectM ι α)
    : table.FiresFirst category node sort matching carryOut
        (fire category node sort carryOut (table.choose? matching)) := by
  constructor
  · intro index selected
    obtain ⟨choice, chosen, rfl⟩ := Option.map_eq_some_iff.mp selected
    rw [chosen]
    exact ⟨choice.rule, choice.captures, isFirst_of_choose? chosen, fun _ => rfl⟩
  · intro unselected
    have unchosen : table.choose? matching = none := Option.map_eq_none_iff.mp unselected
    rw [unchosen]
    refine ⟨?_, fun _ => rfl⟩
    intro rule member
    cases found : matching rule.pattern with
    | none => rfl
    | some captures =>
        obtain ⟨choice, chosen⟩ := choose?_of_match ⟨rule, member, captures, found⟩
        rw [unchosen] at chosen
        cases chosen

end RuleTable

----------------------------------------------------------------------------------------------
-- Steps
----------------------------------------------------------------------------------------------

namespace Rules

/-- In the table of a category, the rule at an index is the first with a pattern that matches a node,
and it is the one that `select?` names.
-/
inductive FirstFor (rules : Rules ι) : Category → Nat → Pattern → Node → Prop where
  | statement {tree : Stm} {index : Nat} {rule : Rule StmPattern ι Unit} {captures : Captures}
    (selected : rules.statement.select? (·.matches? tree) = some index)
    (first : rules.statement.IsFirst (·.matches? tree) index rule captures)
    : FirstFor rules .statement index (.stm rule.pattern) (.stm tree)
  | value {tree : Exp} {index : Nat} {rule : Rule ExpPattern ι Temp} {captures : Captures}
    (selected : rules.value.select? (·.matches? tree) = some index)
    (first : rules.value.IsFirst (·.matches? tree) index rule captures)
    : FirstFor rules .value index (.exp rule.pattern) (.exp tree)
  | discard {tree : Exp} {index : Nat} {rule : Rule ExpPattern ι Unit} {captures : Captures}
    (selected : rules.discard.select? (·.matches? tree) = some index)
    (first : rules.discard.IsFirst (·.matches? tree) index rule captures)
    : FirstFor rules .discard index (.exp rule.pattern) (.exp tree)

variable [Emittable ι]

/-- What selection does at a time. -/
inductive Step (rules : Rules ι) : Selection ι → Selection ι → Prop where
  | emit (selection : Selection ι) (item : ι) : Step rules selection (selection.emit item)
  | fresh (selection : Selection ι) : Step rules selection selection.taken
  | fire (selection : Selection ι) {category : Category} {index : Nat} {pattern : Pattern}
    {tree : Node} (first : rules.FirstFor category index pattern tree)
    : Step rules selection (selection.note category index pattern tree)

end Rules

/-- The selection that a run leaves behind, also where it fails. -/
def Selection.final : EStateM.Result SelectionError (Selection ι) α → Selection ι
  | .ok _ after => after
  | .error _ after => after

/-- A computation of the selector goes by steps. -/
def Stepwise [Emittable ι] (rules : Rules ι) (computation : SelectM ι α) : Prop :=
  ∀ before, ReflTransGen rules.Step before (Selection.final (computation before))

namespace Stepwise

variable [Emittable ι] {rules : Rules ι}

theorem pure (result : α) : Stepwise rules (pure result : SelectM ι α) :=
  fun _ => .refl

theorem throw (error : SelectionError) : Stepwise rules (throw error : SelectM ι α) :=
  fun _ => .refl

theorem modify {change : Selection ι → Selection ι}
    (step : ∀ before, rules.Step before (change before))
    : Stepwise rules (modify change : SelectM ι Unit) :=
  fun before => .single (step before)

theorem bind {computation : SelectM ι α} {next : α → SelectM ι β}
    (first : Stepwise rules computation) (second : ∀ result, Stepwise rules (next result))
    : Stepwise rules (computation >>= next) := by
  intro before
  have steps := first before
  change ReflTransGen rules.Step before (Selection.final (EStateM.bind computation next before))
  unfold EStateM.bind
  cases outcome : computation before with
  | error error middle =>
      rw [outcome] at steps
      exact steps
  | ok result middle =>
      rw [outcome] at steps
      exact steps.trans (second result middle)

/-- A visit to each item in order; by induction on the items. -/
theorem forM {γ : Type} {visit : γ → SelectM ι PUnit} (each : ∀ item, Stepwise rules (visit item))
    (items : List γ)
    : Stepwise rules (items.forM visit) := by
  induction items with
  | nil => exact .pure _
  | cons item rest ih =>
      rw [List.forM_eq_forM, List.forM_cons]
      exact .bind (each item) fun _ => ih

end Stepwise

----------------------------------------------------------------------------------------------
-- Runs
----------------------------------------------------------------------------------------------

/-- Everything selected within a bound goes by steps. -/
structure StepwiseWithin [Emittable ι] (rules : Rules ι) (bound : Nat) : Prop where
  value : ∀ tree : Exp, Stepwise rules (rules.valueWithin bound tree)
  discard : ∀ tree : Exp, Stepwise rules (rules.discardWithin bound tree)
  statement : ∀ tree : Stm, Stepwise rules (rules.statementWithin bound tree)

namespace StepwiseWithin

variable [Emittable ι] {rules : Rules ι} {bound : Nat}

/-- An action goes by steps where its requests do; by induction on the requests. -/
theorem perform (within : StepwiseWithin rules bound) (action : Action ι α)
    : Stepwise rules (rules.perform bound action) := by
  unfold Rules.perform
  induction action with
  | done result => exact .pure result
  | fail error => exact .throw error
  | emit item next ih => exact .bind (.modify fun before => .emit before item) fun _ => ih
  | fresh next ih =>
      have taken : Stepwise rules (Selection.fresh : SelectM ι Temp) :=
        fun before => .single (.fresh before)
      exact .bind taken fun register => ih register
  | value tree next ih => exact .bind (within.value tree) fun register => ih register
  | discard tree next ih => exact .bind (within.discard tree) fun _ => ih
  | statement tree next ih => exact .bind (within.statement tree) fun _ => ih

/-- Firing the rule that is chosen goes by steps, if that is the first rule for the node. -/
theorem fire {category : Category} {tree : Node} {sort : π → Pattern}
    {matching : π → Option Captures} {table : RuleTable π ι α}
    (within : StepwiseWithin rules bound)
    (isFirst
      : ∀ index rule captures,
          table.select? matching = some index
          → table.IsFirst matching index rule captures
          → rules.FirstFor category index (sort rule.pattern) tree)
    : Stepwise rules
        (RuleTable.fire category tree sort (rules.perform bound) (table.choose? matching)) := by
  cases chosen : table.choose? matching with
  | none => exact .throw _
  | some choice =>
      have selected : table.select? matching = some choice.index := by
        rw [RuleTable.select?, chosen, Option.map_some]
      have first := isFirst _ _ _ selected (RuleTable.isFirst_of_choose? chosen)
      exact .bind (.modify fun before => .fire before first) fun _ => within.perform _

end StepwiseWithin

/-- Selection goes by steps, by induction on the bound. -/
theorem stepwiseWithin [Emittable ι] (rules : Rules ι) (bound : Nat)
    : StepwiseWithin rules bound := by
  induction bound with
  | zero =>
      constructor
      · exact fun _ => .throw _
      · exact fun _ => .throw _
      · exact fun _ => .throw _
  | succ bound within =>
      constructor
      · intro tree
        rw [Rules.valueWithin]
        exact within.fire fun _ _ _ => .value
      · intro tree
        rw [Rules.discardWithin]
        exact within.fire fun _ _ _ => .discard
      · intro tree
        rw [Rules.statementWithin_succ]
        exact .forM (fun part => within.fire fun _ _ _ => .statement) _

----------------------------------------------------------------------------------------------
-- Events
----------------------------------------------------------------------------------------------

namespace Rules

variable {rules : Rules ι} {before middle after : Selection ι}

/-- Events were only added between two selections, and each rule that fired was the first for its
node.
-/
def Traced (rules : Rules ι) (before after : Selection ι) : Prop :=
  ∃ events,
    after.session.events.toList = before.session.events.toList ++ events
    ∧ ∀ category index pattern tree,
        .fired category index pattern tree ∈ events → rules.FirstFor category index pattern tree

theorem Traced.refl (selection : Selection ι) : rules.Traced selection selection :=
  ⟨[], by simp, fun _ _ _ _ member => absurd member List.not_mem_nil⟩

theorem Traced.trans (first : rules.Traced before middle) (second : rules.Traced middle after)
    : rules.Traced before after := by
  obtain ⟨events, added, isFirst⟩ := first
  obtain ⟨others, othersAdded, otherIsFirst⟩ := second
  refine ⟨events ++ others, by rw [othersAdded, added, List.append_assoc], ?_⟩
  intro category index pattern tree member
  rcases List.mem_append.mp member with earlier | later
  · exact isFirst _ _ _ _ earlier
  · exact otherIsFirst _ _ _ _ later

variable [Emittable ι]

theorem Step.traced (step : rules.Step before after) : rules.Traced before after := by
  cases step with
  | emit item =>
      refine ⟨[.emitted (Emittable.instr item)], Array.toList_push, ?_⟩
      intro _ _ _ _ member
      cases List.mem_singleton.mp member
  | fresh => exact Traced.refl before
  | fire first =>
      refine ⟨[.fired _ _ _ _], Array.toList_push, ?_⟩
      intro _ _ _ _ member
      cases List.mem_singleton.mp member
      exact first

/-- The events of a run name the first rule for each node where one fired; by induction on the
steps.
-/
theorem traced_of_steps (steps : ReflTransGen rules.Step before after)
    : rules.Traced before after := by
  induction steps with
  | refl => exact .refl before
  | tail _ step ih => exact ih.trans step.traced

end Rules

end TreeTiling
