import TreeTiling.Proofs.Selection.Outcome
import TreeTiling.Proofs.Session.Ledger
import TreeTiling.Proofs.Tree.Occurrence

/-!
Which registers emitted instructions name: machine registers, those of the trees that are selected,
and those that were taken from the session meanwhile.

This holds of every set of rules whose actions name only what they were given, whether selection
succeeds or not.
-/

namespace TreeTiling

variable {ι α β : Type}

/-- The registers that an instruction writes or reads. -/
def Instr.registers (instr : Instr) : List Temp :=
  instr.defs ++ instr.uses

----------------------------------------------------------------------------------------------
-- Actions that name what they were given
----------------------------------------------------------------------------------------------

namespace Action

variable [Emittable ι]

/-- An action names only machine registers and registers that it knows: those it starts from, and
those that its requests are answered with. `results` are the registers of its own answer.
-/
def Scoped (results : α → List Temp) : (known : List Temp) → Action ι α → Prop
  | known, done result => Covered known (results result)
  | _, fail _ => True
  | known, emit item next =>
      Covered known (Emittable.instr item).registers ∧ next.Scoped results known
  | known, fresh next => ∀ register, (next register).Scoped results (register :: known)
  | known, value tree next =>
      Covered known tree.temps ∧ ∀ register, (next register).Scoped results (register :: known)
  | known, discard tree next => Covered known tree.temps ∧ next.Scoped results known
  | known, statement tree next => Covered known tree.temps ∧ next.Scoped results known

namespace Scoped

variable {results : α → List Temp} {known more : List Temp}

/-- An action may know other registers if they cover those it knew; by induction on the requests. -/
theorem of_covered {action : Action ι α} (inScope : action.Scoped results known)
    (covered : Covered more known)
    : action.Scoped results more := by
  induction action generalizing known more with
  | done result => exact covered.trans inScope
  | fail error => trivial
  | emit item next ih => exact ⟨covered.trans inScope.1, ih inScope.2 covered⟩
  | fresh next ih => exact fun register => ih register (inScope register) (covered.cons register)
  | value tree next ih =>
      refine ⟨covered.trans inScope.1, fun register => ?_⟩
      exact ih register (inScope.2 register) (covered.cons register)
  | discard tree next ih => exact ⟨covered.trans inScope.1, ih inScope.2 covered⟩
  | statement tree next ih => exact ⟨covered.trans inScope.1, ih inScope.2 covered⟩

/-- Actions in sequence, the second of which knows what the first answers; by induction on the
requests of the first.
-/
theorem bind {others : β → List Temp} {action : Action ι α} {next : α → Action ι β}
    (inScope : action.Scoped results known)
    (nextInScope : ∀ result, (next result).Scoped others (results result ++ known))
    : (action >>= next).Scoped others known := by
  suffices general : ∀ more, Covered more known → action.Scoped results more
      → (action.bind next).Scoped others more from
    general known (.of_subset (List.Subset.refl known)) inScope
  clear inScope
  intro more covered inScope
  induction action generalizing more with
  | done result => exact (nextInScope result).of_covered (Covered.append inScope covered)
  | fail error => trivial
  | emit item rest ih => exact ⟨inScope.1, ih more covered inScope.2⟩
  | fresh rest ih =>
      intro register
      exact ih register _ (covered.mono (List.subset_cons_self _ _)) (inScope register)
  | value tree rest ih =>
      refine ⟨inScope.1, fun register => ?_⟩
      exact ih register _ (covered.mono (List.subset_cons_self _ _)) (inScope.2 register)
  | discard tree rest ih => exact ⟨inScope.1, ih more covered inScope.2⟩
  | statement tree rest ih => exact ⟨inScope.1, ih more covered inScope.2⟩

theorem pure {result : α} (covered : Covered known (results result))
    : (pure result : Action ι α).Scoped results known :=
  covered

theorem emit {item : ι} (covered : Covered known (Emittable.instr item).registers)
    : (emitInstr item).Scoped (fun _ => []) known :=
  ⟨covered, List.forall_mem_nil _⟩

theorem fresh : (freshTemp : Action ι Temp).Scoped (fun register => [register]) known :=
  fun _ => .of_subset (List.cons_subset_cons _ (List.nil_subset _))

theorem value {tree : Exp} (covered : Covered known tree.temps)
    : (valueOf tree : Action ι Temp).Scoped (fun register => [register]) known :=
  ⟨covered, fun _ => .of_subset (List.cons_subset_cons _ (List.nil_subset _))⟩

theorem effects {tree : Exp} (covered : Covered known tree.temps)
    : (effectsOf tree : Action ι Unit).Scoped (fun _ => []) known :=
  ⟨covered, List.forall_mem_nil _⟩

theorem statement {tree : Stm} (covered : Covered known tree.temps)
    : (carryOut tree : Action ι Unit).Scoped (fun _ => []) known :=
  ⟨covered, List.forall_mem_nil _⟩

end Scoped

end Action

/-- Every action of the rules names only what its tree names and what it is answered. -/
structure Rules.Scoped [Emittable ι] (rules : Rules ι) : Prop where
  value
    : ∀ {tree : Exp} {choice : RuleTable.Choice ExpPattern ι Temp},
        rules.value.choose? (·.matches? tree) = some choice
        → (choice.rule.action choice.captures).Scoped (fun register => [register]) tree.temps
  discard
    : ∀ {tree : Exp} {choice : RuleTable.Choice ExpPattern ι Unit},
        rules.discard.choose? (·.matches? tree) = some choice
        → (choice.rule.action choice.captures).Scoped (fun _ => []) tree.temps
  statement
    : ∀ {part : Stm} {choice : RuleTable.Choice StmPattern ι Unit},
        rules.statement.choose? (·.matches? part) = some choice
        → (choice.rule.action choice.captures).Scoped (fun _ => []) part.ownTemps

----------------------------------------------------------------------------------------------
-- Accounts of a session
----------------------------------------------------------------------------------------------

theorem known_later (given : List Temp) (first : Nat) {count later : Nat} (le : count ≤ later)
    : given ++ takenBetween first count ⊆ given ++ takenBetween first later :=
  List.append_subset.mpr ⟨List.subset_append_left _ _,
    List.subset_append_of_subset_right _ (takenBetween_subset (Nat.le_refl first) le)⟩

/-- An event stands where it stood or is the one that was added. -/
theorem event_push_cases {events : Array Event} {event other : Event} {position : Nat}
    (found : (events.push event)[position]? = some other)
    : events[position]? = some other ∨ event = other := by
  rw [Array.getElem?_push] at found
  split at found
  · exact .inr (Option.some.inj found)
  · exact .inl found

/-- What a session has emitted since it was started names only machine registers, given registers,
and those that were taken since then.
-/
structure Session.Accounted (given : List Temp) (started session : Session) : Prop where
  temps_le : started.temps ≤ session.temps
  emitted
    : ∀ position instr,
        started.events.size ≤ position
        → session.events[position]? = some (.emitted instr)
        → Covered (given ++ takenBetween started.temps session.temps) instr.registers

/-- A session that was just started has emitted nothing since. -/
theorem Session.accounted_start (given : List Temp) (session : Session)
    : Accounted given session session := by
  refine ⟨Nat.le_refl _, ?_⟩
  intro position instr past found
  rw [Array.getElem?_eq_none past] at found
  cases found

/-- The accounts of a session since it was started, with some registers given. -/
def Session.ledger (given : List Temp) (started : Session) : Ledger Session where
  Sound := Accounted given started
  known session := given ++ takenBetween started.temps session.temps
  Grows before after := before.temps ≤ after.temps
  refl _ := Nat.le_refl _
  trans := Nat.le_trans
  known_subset := known_later given started.temps

section

variable [Emittable ι] {given : List Temp} {started : Session}

/-- What selection has emitted is accounted for, and so is its code. -/
structure Selection.Accounted (given : List Temp) (started : Session) (selection : Selection ι)
    : Prop where
  session : Session.Accounted given started selection.session
  code
    : ∀ item ∈ selection.code,
        Covered (given ++ takenBetween started.temps selection.session.temps)
          (Emittable.instr item).registers

/-- The accounts of a selection. -/
def Selection.ledger (given : List Temp) (started : Session) : Ledger (Selection ι) where
  Sound := Accounted given started
  known selection := given ++ takenBetween started.temps selection.session.temps
  Grows before after := before.session.temps ≤ after.session.temps
  refl _ := Nat.le_refl _
  trans := Nat.le_trans
  known_subset := known_later given started.temps

----------------------------------------------------------------------------------------------
-- Computations of the selector
----------------------------------------------------------------------------------------------

namespace Selection

variable {known : List Temp}

theorem keeps_emit {item : ι} (covered : Covered known (Emittable.instr item).registers)
    : (ledger given started).Keeps known (fun _ => [])
        (modify (·.emit item) : SelectM ι Unit) := by
  intro before accounted knownCovered
  have itemCovered := knownCovered.trans covered
  refine ⟨⟨⟨accounted.session.temps_le, ?_⟩, ?_⟩, Nat.le_refl _, .nil⟩
  · intro position instr since found
    rcases event_push_cases found with earlier | same
    · exact accounted.session.emitted position instr since earlier
    · obtain rfl := Event.emitted.inj same
      exact itemCovered
  · intro other member
    rcases Array.mem_push.mp member with earlier | rfl
    · exact accounted.code other earlier
    · exact itemCovered

theorem keeps_fresh
    : (ledger given started).Keeps known (fun register => [register])
        (Selection.fresh : SelectM ι Temp) := by
  intro before accounted knownCovered
  have startedLe := accounted.session.temps_le
  have later := Nat.le_succ before.session.temps
  have grown := known_later given started.temps later
  refine ⟨⟨⟨Nat.le_succ_of_le startedLe, ?_⟩, ?_⟩, later, ?_⟩
  · intro position instr since found
    exact (accounted.session.emitted position instr since found).mono grown
  · exact fun item member => (accounted.code item member).mono grown
  · refine List.forall_mem_singleton.mpr (.inr (List.mem_append_right _ (mem_takenBetween.mpr ?_)))
    exact ⟨before.session.temps, startedLe, Nat.lt_succ_self _, rfl⟩

/-- Taking note that a rule fires emits nothing. -/
theorem keeps_note (category : Category) (index : Nat) (pattern : Pattern) (tree : Node)
    : (ledger given started).Keeps known (fun _ => [])
        (modify (·.note category index pattern tree) : SelectM ι Unit) := by
  intro before accounted _
  refine ⟨⟨⟨accounted.session.temps_le, ?_⟩, accounted.code⟩, Nat.le_refl _, .nil⟩
  intro position instr since found
  rcases event_push_cases found with earlier | same
  · exact accounted.session.emitted position instr since earlier
  · cases same

end Selection

/-- Everything selected within a bound keeps the accounts. -/
structure KeepsWithin (rules : Rules ι) (ledger : Ledger (Selection ι)) (bound : Nat) : Prop where
  value
    : ∀ tree : Exp,
        ledger.Keeps tree.temps (fun register => [register]) (rules.valueWithin bound tree)
  discard : ∀ tree : Exp, ledger.Keeps tree.temps (fun _ => []) (rules.discardWithin bound tree)
  statement : ∀ tree : Stm, ledger.Keeps tree.temps (fun _ => []) (rules.statementWithin bound tree)

variable {rules : Rules ι} {bound : Nat}

/-- An action that names what it was given keeps the accounts; by induction on its requests. -/
theorem KeepsWithin.perform (within : KeepsWithin rules (Selection.ledger given started) bound)
    {results : α → List Temp} {known : List Temp} {action : Action ι α}
    (inScope : action.Scoped results known)
    : (Selection.ledger given started).Keeps known results (rules.perform bound action) := by
  unfold Rules.perform
  induction action generalizing known with
  | done result => exact .pure inScope
  | fail error => exact .throw error
  | emit item next ih => exact .bind (Selection.keeps_emit inScope.1) fun _ => ih inScope.2
  | fresh next ih =>
      exact .bind Selection.keeps_fresh fun register => ih register (inScope register)
  | value tree next ih =>
      exact .bind ((within.value tree).of_covered inScope.1) fun register =>
        ih register (inScope.2 register)
  | discard tree next ih =>
      exact .bind ((within.discard tree).of_covered inScope.1) fun _ => ih inScope.2
  | statement tree next ih =>
      exact .bind ((within.statement tree).of_covered inScope.1) fun _ => ih inScope.2

/-- Firing keeps the accounts if the action that is chosen, if any, names what it was given. -/
theorem KeepsWithin.fire {π : Type}
    (within : KeepsWithin rules (Selection.ledger given started) bound)
    {category : Category} {tree : Node} {sort : π → Pattern}
    {choice? : Option (RuleTable.Choice π ι α)} {results : α → List Temp} {known : List Temp}
    (inScope
      : ∀ choice,
          choice? = some choice → (choice.rule.action choice.captures).Scoped results known)
    : (Selection.ledger given started).Keeps known results
        (RuleTable.fire category tree sort (rules.perform bound) choice?) := by
  cases choice? with
  | none => exact .throw _
  | some choice =>
      exact .bind (Selection.keeps_note _ _ _ _) fun _ => within.perform (inScope choice rfl)

/-- Selection keeps the accounts, by induction on the bound. -/
theorem Rules.Scoped.keepsWithin (inScope : rules.Scoped) (bound : Nat)
    : KeepsWithin rules (Selection.ledger given started) bound := by
  induction bound with
  | zero =>
      constructor
      · exact fun _ => .throw _
      · exact fun _ => .throw _
      · exact fun _ => .throw _
  | succ bound within =>
      constructor
      · intro tree
        rw [Rules.valueWithin]
        exact within.fire fun choice => inScope.value
      · intro tree
        rw [Rules.discardWithin]
        exact within.fire fun choice => inScope.discard
      · intro tree
        rw [Rules.statementWithin_succ]
        refine .forM fun part member => ?_
        have covered : Covered tree.temps part.ownTemps :=
          .of_subset fun register occurs => List.mem_flatMap_of_mem member occurs
        exact (within.fire fun choice => inScope.statement).of_covered covered

/-- Selecting a body whose registers are known keeps the accounts, whether it succeeds or not. -/
theorem Rules.Scoped.selectBody (inScope : rules.Scoped) {body : Stm} {session after : Session}
    {answer : Except SelectionError (Array ι)} (accounted : Session.Accounted given started session)
    (known : Covered (given ++ takenBetween started.temps session.temps) body.temps)
    (selected : rules.selectBody body session = (answer, after))
    : Session.Accounted given started after
      ∧ session.temps ≤ after.temps
      ∧ ∀ code,
          answer = .ok code
          → ∀ item ∈ code,
              Covered (given ++ takenBetween started.temps after.temps)
                (Emittable.instr item).registers := by
  have begun : Selection.Accounted given started ({ session } : Selection ι) :=
    ⟨accounted, fun item member => absurd member (Array.not_mem_empty item)⟩
  have done := (inScope.keepsWithin body.nesting).statement body { session } begun known
  change Ledger.Ends _ _ _ (rules.selectStatement body { session }) at done
  rw [Rules.selectBody, EStateM.run] at selected
  cases outcome : rules.selectStatement body { session } with
  | ok result last =>
      rw [outcome] at done selected
      cases selected
      refine ⟨done.1.session, done.2.1, ?_⟩
      intro code same
      cases same
      exact done.1.code
  | error error last =>
      rw [outcome] at done selected
      cases selected
      refine ⟨done.1.session, done.2, ?_⟩
      intro code same
      cases same

end

end TreeTiling
