import TreeTiling.Selection

/-!
What selection does on its way to success: which rule fires, and how an action's requests chain.

Failure leaves no code behind that later results could depend on, so every statement here is about
runs that end well; an action succeeds exactly when each of its requests does.
-/

namespace TreeTiling

variable {π ι α β : Type}

----------------------------------------------------------------------------------------------
-- Sequencing
----------------------------------------------------------------------------------------------

/-- A sequence of two computations succeeds through a state in between; witness: the two outcomes
of the first.
-/
theorem SelectM.bind_eq_ok {first : SelectM ι α} {next : α → SelectM ι β}
    {before after : Selection ι} {answer : β}
    : (first >>= next) before = .ok answer after
      ↔ ∃ result middle, first before = .ok result middle ∧ next result middle = .ok answer after := by
  change EStateM.bind first next before = _ ↔ _
  unfold EStateM.bind
  cases outcome : first before with
  | ok result middle =>
      constructor
      · exact fun next => ⟨result, middle, rfl, next⟩
      · rintro ⟨_, _, same, next⟩
        cases same
        exact next
  | error error middle => simp

/-- A sequence of two computations fails where one of them does. -/
theorem SelectM.bind_eq_error {first : SelectM ι α} {next : α → SelectM ι β}
    {before after : Selection ι} {error : SelectionError}
    : (first >>= next) before = .error error after
      ↔ first before = .error error after
        ∨ ∃ result middle,
            first before = .ok result middle ∧ next result middle = .error error after := by
  change EStateM.bind first next before = _ ↔ _
  unfold EStateM.bind
  cases first before with
  | ok result middle => simp [and_assoc]
  | error error middle => simp

@[simp]
theorem SelectM.pure_eq_ok {result answer : α} {before after : Selection ι}
    : (pure result : SelectM ι α) before = .ok answer after ↔ result = answer ∧ before = after := by
  change EStateM.Result.ok result before = _ ↔ _
  simp

----------------------------------------------------------------------------------------------
-- The rule that fires
----------------------------------------------------------------------------------------------

namespace RuleTable

variable {matching : π → Option Captures} {table : RuleTable π ι α}

/-- The rule of a choice is in the table, and its pattern made the bindings; by induction on the
table.
-/
theorem choose?_mem {choice : Choice π ι α} (chosen : table.choose? matching = some choice)
    : choice.rule ∈ table ∧ matching choice.rule.pattern = some choice.captures := by
  induction table generalizing choice with
  | nil => simp [choose?] at chosen
  | cons rule rest ih =>
      rw [choose?] at chosen
      split at chosen
      · next captures found =>
          obtain rfl := Option.some.inj chosen
          exact ⟨List.mem_cons_self, found⟩
      · obtain ⟨later, laterChosen, rfl⟩ := Option.map_eq_some_iff.mp chosen
        obtain ⟨member, found⟩ := ih laterChosen
        exact ⟨List.mem_cons_of_mem rule member, found⟩

/-- A table with a matching rule makes a choice; by induction on the table. -/
theorem choose?_of_match
    (matched : ∃ rule ∈ table, ∃ captures, matching rule.pattern = some captures)
    : ∃ choice, table.choose? matching = some choice := by
  obtain ⟨rule, member, captures, found⟩ := matched
  induction table with
  | nil => exact absurd member List.not_mem_nil
  | cons first rest ih =>
      rw [choose?]
      split
      · exact ⟨_, rfl⟩
      · next missed =>
          rcases List.mem_cons.mp member with same | later
          · rw [← same, found] at missed
            cases missed
          · obtain ⟨choice, chosen⟩ := ih later
            exact ⟨_, by rw [chosen]; rfl⟩

end RuleTable

----------------------------------------------------------------------------------------------
-- Growing code
----------------------------------------------------------------------------------------------

namespace Selection

/-- The second selection has the code of the first, followed by more. -/
def Gains (before : Selection ι) (code : List ι) (after : Selection ι) : Prop :=
  after.code.toList = before.code.toList ++ code

theorem Gains.refl (selection : Selection ι) : selection.Gains [] selection :=
  (List.append_nil _).symm

/-- Gains add up, by associativity of append. -/
theorem Gains.trans {before middle after : Selection ι} {first second : List ι}
    (earlier : before.Gains first middle) (later : middle.Gains second after)
    : before.Gains (first ++ second) after := by
  unfold Gains at earlier later ⊢
  rw [later, earlier, List.append_assoc]

/-- Taking a temporary leaves the rest of the selection alone. -/
def taken (selection : Selection ι) : Selection ι :=
  { selection with session := selection.session.fresh.2 }

@[simp]
theorem temps_note (selection : Selection ι) (category : Category) (index : Nat)
    (pattern : Pattern) (tree : Node)
    : (selection.note category index pattern tree).session.temps = selection.session.temps :=
  rfl

@[simp]
theorem temps_taken (selection : Selection ι)
    : selection.taken.session.temps = selection.session.temps + 1 :=
  rfl

@[simp]
theorem code_note (selection : Selection ι) (category : Category) (index : Nat)
    (pattern : Pattern) (tree : Node)
    : (selection.note category index pattern tree).code = selection.code :=
  rfl

@[simp]
theorem code_taken (selection : Selection ι) : selection.taken.code = selection.code :=
  rfl

variable [Emittable ι]

/-- Emitting gains the one instruction. -/
theorem gains_emit (selection : Selection ι) (item : ι)
    : selection.Gains [item] (selection.emit item) := by
  simp [Gains, emit]

/-- Emitting after a temporary was taken gains the one instruction too. -/
theorem gains_emit_taken (selection : Selection ι) (item : ι)
    : selection.Gains [item] (selection.taken.emit item) :=
  selection.taken.gains_emit item

@[simp]
theorem temps_emit (selection : Selection ι) (item : ι)
    : (selection.emit item).session.temps = selection.session.temps :=
  rfl

end Selection

----------------------------------------------------------------------------------------------
-- Requests
----------------------------------------------------------------------------------------------

namespace Rules

variable [Emittable ι] {rules : Rules ι} {bound : Nat} {before after : Selection ι}

/-- Carries out an action whose requests nest no deeper than the bound. -/
def perform (rules : Rules ι) (bound : Nat) : Action ι α → SelectM ι α :=
  Action.run (rules.valueWithin bound) (rules.discardWithin bound) (rules.statementWithin bound)

/-- Actions in sequence are carried out in sequence; witness: induction on the requests of the
first.
-/
theorem perform_bind (first : Action ι α) (next : α → Action ι β)
    : rules.perform bound (first >>= next)
      = rules.perform bound first >>= fun result => rules.perform bound (next result) := by
  change rules.perform bound (first.bind next) = _
  unfold perform
  induction first with
  | done result => simp [Action.bind, Action.run]
  | fail error => rfl
  | emit instr rest ih => simp only [Action.bind, Action.run, ih, bind_assoc]
  | fresh rest ih => simp only [Action.bind, Action.run, ih, bind_assoc]
  | value tree rest ih => simp only [Action.bind, Action.run, ih, bind_assoc]
  | discard tree rest ih => simp only [Action.bind, Action.run, ih, bind_assoc]
  | statement tree rest ih => simp only [Action.bind, Action.run, ih, bind_assoc]

/-- A sequence of actions succeeds through a selection in between. -/
@[simp]
theorem perform_bind_ok {first : Action ι α} {next : α → Action ι β} {answer : β}
    : rules.perform bound (first >>= next) before = .ok answer after
      ↔ ∃ result middle,
          rules.perform bound first before = .ok result middle
          ∧ rules.perform bound (next result) middle = .ok answer after := by
  rw [perform_bind, SelectM.bind_eq_ok]

@[simp]
theorem perform_pure_ok {result answer : α}
    : rules.perform bound (pure result) before = .ok answer after
      ↔ result = answer ∧ before = after :=
  SelectM.pure_eq_ok

@[simp]
theorem perform_fail_ok {error : SelectionError} {answer : α}
    : rules.perform bound (.fail error) before = .ok answer after ↔ False := by
  constructor
  · exact fun failed => nomatch failed
  · exact False.elim

@[simp]
theorem perform_emitInstr_ok {item : ι} {answer : Unit}
    : rules.perform bound (Action.emitInstr item) before = .ok answer after
      ↔ before.emit item = after := by
  change EStateM.Result.ok () (before.emit item) = _ ↔ _
  simp

@[simp]
theorem perform_freshTemp_ok {register : Temp}
    : rules.perform bound Action.freshTemp before = .ok register after
      ↔ .virtual before.session.temps = register ∧ before.taken = after := by
  change EStateM.Result.ok (Temp.virtual before.session.temps) before.taken = _ ↔ _
  simp

theorem perform_valueOf (tree : Exp)
    : rules.perform bound (Action.valueOf tree) = rules.valueWithin bound tree :=
  bind_pure _

@[simp]
theorem perform_valueOf_ok {tree : Exp} {register : Temp}
    : rules.perform bound (Action.valueOf tree) before = .ok register after
      ↔ rules.valueWithin bound tree before = .ok register after := by
  rw [perform_valueOf]

theorem perform_effectsOf (tree : Exp)
    : rules.perform bound (Action.effectsOf tree) = rules.discardWithin bound tree :=
  bind_pure _

@[simp]
theorem perform_effectsOf_ok {tree : Exp} {answer : Unit}
    : rules.perform bound (Action.effectsOf tree) before = .ok answer after
      ↔ rules.discardWithin bound tree before = .ok answer after := by
  rw [perform_effectsOf]

theorem perform_carryOut (tree : Stm)
    : rules.perform bound (Action.carryOut tree) = rules.statementWithin bound tree :=
  bind_pure _

@[simp]
theorem perform_carryOut_ok {tree : Stm} {answer : Unit}
    : rules.perform bound (Action.carryOut tree) before = .ok answer after
      ↔ rules.statementWithin bound tree before = .ok answer after := by
  rw [perform_carryOut]

----------------------------------------------------------------------------------------------
-- Trees
----------------------------------------------------------------------------------------------

/-- Firing succeeds when a rule was chosen and its action succeeds. -/
theorem fire_ok {category : Category} {tree : Node} {sort : π → Pattern}
    {choice? : Option (RuleTable.Choice π ι α)} {answer : α}
    : RuleTable.fire category tree sort (rules.perform bound) choice? before = .ok answer after
      ↔ ∃ choice,
          choice? = some choice
          ∧ rules.perform bound (choice.rule.action choice.captures)
              (before.note category choice.index (sort choice.rule.pattern) tree)
            = .ok answer after := by
  cases choice? with
  | none =>
      constructor
      · exact fun failed => nomatch failed
      · rintro ⟨_, missing, _⟩
        cases missing
  | some choice =>
      simp only [RuleTable.fire, Option.some.injEq, exists_eq_left']
      rfl

/-- The value of a tree is selected by the rule that is chosen for it. -/
theorem valueWithin_ok {tree : Exp} {register : Temp}
    : rules.valueWithin (bound + 1) tree before = .ok register after
      ↔ ∃ choice,
          rules.value.choose? (·.matches? tree) = some choice
          ∧ rules.perform bound (choice.rule.action choice.captures)
              (before.note .value choice.index (.exp choice.rule.pattern) (.exp tree))
            = .ok register after := by
  rw [valueWithin]
  exact fire_ok

/-- The effects of a tree are selected by the rule that is chosen for it. -/
theorem discardWithin_ok {tree : Exp} {answer : Unit}
    : rules.discardWithin (bound + 1) tree before = .ok answer after
      ↔ ∃ choice,
          rules.discard.choose? (·.matches? tree) = some choice
          ∧ rules.perform bound (choice.rule.action choice.captures)
              (before.note .discard choice.index (.exp choice.rule.pattern) (.exp tree))
            = .ok answer after := by
  rw [discardWithin]
  exact fire_ok

/-- Selects a statement that is not a sequence by the first rule that matches. -/
def partWithin (rules : Rules ι) (bound : Nat) (part : Stm) : SelectM ι Unit :=
  RuleTable.fire .statement (.stm part) .stm (rules.perform bound)
    (rules.statement.choose? (·.matches? part))

/-- A statement is selected part by part. -/
theorem statementWithin_succ (tree : Stm)
    : rules.statementWithin (bound + 1) tree = tree.flatten.forM (rules.partWithin bound) := by
  rw [statementWithin]
  rfl

/-- A part is selected by the rule that is chosen for it. -/
theorem partWithin_ok {part : Stm} {answer : Unit}
    : rules.partWithin bound part before = .ok answer after
      ↔ ∃ choice,
          rules.statement.choose? (·.matches? part) = some choice
          ∧ rules.perform bound (choice.rule.action choice.captures)
              (before.note .statement choice.index (.stm choice.rule.pattern) (.stm part))
            = .ok answer after :=
  fire_ok

/-- A statement is selected part by part, within a bound that depends on its height. -/
theorem selectStatement_eq (tree : Stm)
    : rules.selectStatement tree = tree.flatten.forM (rules.partWithin (2 * tree.height + 3)) :=
  statementWithin_succ tree

/-- The code of a body is what selecting it as a statement emits, from no code. -/
theorem selectBody_ok {body : Stm} {session left : Session} {code : Array ι}
    : rules.selectBody body session = (.ok code, left)
      ↔ ∃ last,
          rules.selectStatement body { session } = .ok () last
          ∧ last.code = code
          ∧ last.session = left := by
  rw [selectBody, EStateM.run]
  split
  · next answer selection selected =>
      simp only [Prod.mk.injEq, Except.ok.injEq]
      constructor
      · rintro ⟨rfl, rfl⟩
        exact ⟨selection, selected, rfl, rfl⟩
      · rintro ⟨last, again, rfl, rfl⟩
        obtain rfl : last = selection := by simpa [selected] using again.symm
        exact ⟨rfl, rfl⟩
  · next error selection failed => simp [failed]

theorem selectBody_error {body : Stm} {session : Session} {error : SelectionError}
    (failed : (rules.selectBody body session).1 = .error error)
    : ∃ last, rules.selectStatement body { session } = .error error last := by
  rw [selectBody, EStateM.run] at failed
  split at failed
  · cases failed
  · next other selection outcome =>
      cases failed
      exact ⟨selection, outcome⟩

end Rules

end TreeTiling
