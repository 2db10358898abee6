import TreeTiling.Proofs.X64.Acceptance
import TreeTiling.Proofs.X64.Layout
import TreeTiling.Proofs.X64.Soundness

/-!
The code of a canonical body without calls runs as the body does.

Each step of the body is matched by a run through the code of one statement, from where that code
begins to where the code of the next statement begins. Jumps find their label because the code
defines the labels of the body and no others.
-/

namespace TreeTiling.X64

----------------------------------------------------------------------------------------------
-- Runs through code
----------------------------------------------------------------------------------------------

section

variable {symbols : Label → Word} {code : Array Op} {position : Nat} {machine : Machine}

/-- An operation that hands control on is one step. -/
theorem step?_of_exec? {op : Op} {after : Machine} (found : code[position]? = some op)
    (executed : op.exec? symbols machine = some after)
    : step? symbols code { position, machine }
      = some { position := position + 1, machine := after } := by
  cases op with
  | branch _ _ _ | jump _ => cases executed
  | loadImm _ _ | clear _ | copy _ _ | load _ _ | store _ _ | storeImm _ _ | lea _ _
  | leaLabel _ _ | compareImm _ _ | compareMem _ _ | compare _ _ | condMove _ _ _ | increment _
  | decrement _ | arithImm _ _ _ | arith _ _ _ | multiplyImm _ _ _ | signExtend | divide _
  | label _ | call _ _ =>
      simp only [step?, found, executed]
      rfl

/-- A conditional jump goes to its first label if the tested relation is met, and on otherwise. -/
theorem step?_branch {tested : RelOp} {ifTrue ifFalse : Label} {flags : Flags}
    (found : code[position]? = some (.branch tested ifTrue ifFalse))
    (flagsSet : machine.flags = some flags)
    : step? symbols code { position, machine }
      = if flags.test tested then
          (FlowGraph.labelNode? (code.map Op.instr) ifTrue).map fun position =>
            { position, machine }
        else
          some { position := position + 1, machine } := by
  simp only [step?, found, flagsSet]
  rfl

/-- Code that runs to its end is run through where it stands; by induction on it. -/
theorem Reaches.of_execAll? {piece : List Op} {after : Machine}
    (standsAt : CodeAt code position piece)
    (ran : execAll? symbols piece machine = some after)
    : Reaches symbols code { position, machine }
        { position := position + piece.length, machine := after } := by
  induction piece generalizing position machine with
  | nil =>
      obtain rfl := Option.some.inj ran
      exact .refl
  | cons op rest ih =>
      obtain ⟨middle, executed, ranRest⟩ := Option.bind_eq_some_iff.mp ran
      have reached := ih standsAt.tail ranRest
      rw [Nat.add_assoc, Nat.add_comm 1] at reached
      exact .head (step?_of_exec? standsAt.head executed) reached

end

/-- A statement has the same effect in stores that agree. -/
theorem Agrees.effect? {symbols : Label → Word} {first : Nat} {divides : Bool}
    {left right store : Store} {part : Stm} (agrees : Agrees first divides left right)
    (readable : ∀ operand ∈ part.operands, Readable first divides operand)
    (defined : part.effect? symbols left = some store)
    : ∃ other, part.effect? symbols right = some other ∧ Agrees first divides store other := by
  have same {operand : Exp} (member : operand ∈ part.operands)
      : operand.eval? symbols right = operand.eval? symbols left :=
    agrees.eval? (readable operand member)
  unfold Stm.effect? at defined ⊢
  split at defined
  · obtain rfl := Option.some.inj defined
    exact ⟨right, rfl, agrees⟩
  · rename_i op leftTree rightTree dst value
    obtain ⟨result, resultDefined, defined⟩ := Option.bind_eq_some_iff.mp defined
    obtain ⟨leftValue, leftDefined, defined⟩ := Option.bind_eq_some_iff.mp defined
    obtain ⟨rightValue, rightDefined, effect⟩ := Option.bind_eq_some_iff.mp defined
    obtain rfl := Option.some.inj effect
    rw [← same (by simp [Stm.operands])] at resultDefined leftDefined rightDefined
    simp only [resultDefined, leftDefined, rightDefined]
    refine ⟨_, rfl, ?_⟩
    cases op.holds leftValue rightValue with
    | true => exact agrees.assign dst result
    | false => exact agrees
  · rename_i dst src
    obtain ⟨value, valueDefined, effect⟩ := Option.bind_eq_some_iff.mp defined
    obtain rfl := Option.some.inj effect
    rw [← same (by simp [Stm.operands])] at valueDefined
    simp only [valueDefined]
    exact ⟨_, rfl, agrees.assign dst value⟩
  · rename_i address src
    obtain ⟨place, placeDefined, defined⟩ := Option.bind_eq_some_iff.mp defined
    obtain ⟨value, valueDefined, effect⟩ := Option.bind_eq_some_iff.mp defined
    obtain rfl := Option.some.inj effect
    have addressReadable := (readable (.mem address) (by simp [Stm.operands])).address
    rw [← agrees.eval? addressReadable] at placeDefined
    rw [← same (by simp [Stm.operands])] at valueDefined
    simp only [placeDefined, valueDefined]
    exact ⟨_, rfl, agrees.write place value⟩
  · rename_i value
    obtain ⟨word, valueDefined, effect⟩ := Option.bind_eq_some_iff.mp defined
    obtain rfl := Option.some.inj effect
    rw [← same (by simp [Stm.operands])] at valueDefined
    simp only [valueDefined]
    exact ⟨_, rfl, agrees⟩
  · cases defined

----------------------------------------------------------------------------------------------
-- Labels
----------------------------------------------------------------------------------------------

namespace Layout

variable {parts : List Stm} {first : Nat} {code : Array Op} {start : Nat → Nat}

/-- The code defines a label where the code of the label's statement begins. -/
theorem labelNode? (layout : Layout parts first code start)
    (distinct : (parts.filterMap Stm.labelName?).Nodup) {name : Label} {position : Nat}
    (found : parts[position]? = some (.label name))
    : FlowGraph.labelNode? (code.map Op.instr) name = some (start position) := by
  obtain ⟨piece, _, _, standsAt, tiling, _, _⟩ := layout.piece found
  cases tiling
  have defined := standsAt.head
  rw [← layout.labels] at distinct
  have labelled {node : Nat} {op : Op} (found : code[node]? = some op)
      : (code.map Op.instr)[node]?.bind Instr.labelName? = op.labelName? := by
    rw [Array.getElem?_map, found, Option.map_some, Option.bind_some, Op.labelName?_instr]
  apply FlowGraph.labelNode?_of_unique
  · rw [labelled defined, Op.labelName?]
  · intro other otherDefines
    rw [Array.getElem?_map] at otherDefines
    obtain ⟨_, mapped, named⟩ := Option.bind_eq_some_iff.mp otherDefines
    obtain ⟨op, otherFound, rfl⟩ := Option.map_eq_some_iff.mp mapped
    rw [Op.labelName?_instr] at named
    rw [← Array.getElem?_toList] at otherFound defined
    exact position_unique distinct otherFound defined named rfl

end Layout

----------------------------------------------------------------------------------------------
-- Steps
----------------------------------------------------------------------------------------------

/-- What a body must satisfy for its code to run as it does: nothing that it reads is disturbed. -/
def Undisturbed (parts : List Stm) (first : Nat) (divides : Bool) : Prop :=
  ∀ part ∈ parts, ∀ operand ∈ part.operands, Readable first divides operand

section

variable {symbols : Label → Word} {body : Stm} {first : Nat} {divides : Bool} {code : Array Op}
  {start : Nat → Nat}

/-- One step of the body is a run through the code of one statement. -/
theorem Layout.simulates_step (layout : Layout body.flatten first code start)
    (canonical : body.Canonical) (undisturbed : Undisturbed body.flatten first divides)
    {before after : Point} {machine : Machine}
    (agrees : Agrees first divides before.store machine.toStore)
    (steps : Stm.step? symbols body.flatten before = some after)
    : ∃ next,
        Reaches symbols code { position := start before.position, machine }
          { position := start after.position, machine := next }
        ∧ Agrees first divides after.store next.toStore := by
  have goes {name : Label} {position : Nat}
      (defined : Stm.labelPosition? body.flatten name = some position)
      : FlowGraph.labelNode? (code.map Op.instr) name = some (start position) :=
    layout.labelNode? canonical.labelsDistinct (Stm.label_of_labelPosition? defined)
  rcases Stm.step?_cases steps with jumps | branches | moves
  · obtain ⟨target, position, found, defined, rfl⟩ := jumps
    obtain ⟨piece, _, _, standsAt, tiling, _, _⟩ := layout.piece found
    cases tiling
    have stepped
        : step? symbols code { position := start before.position, machine }
          = some { position := start position, machine } := by
      simp only [step?, standsAt.head, goes defined]
      rfl
    exact ⟨machine, .single stepped, agrees⟩
  · obtain ⟨op, left, right, ifTrue, ifFalse, leftValue, rightValue, position, found, leftDefined,
      rightDefined, defined, rfl⟩ := branches
    obtain ⟨piece, middle, _, standsAt, tiling, firstLe, startNext⟩ := layout.piece found
    have readable := undisturbed _ (List.mem_of_getElem? found)
    have leftReadable := readable left (by simp [Stm.operands])
    have rightReadable := readable right (by simp [Stm.operands])
    cases tiling with
    | @cjump _ tested _ _ _ _ _ _ compareCode compared =>
        obtain ⟨last, ran, lastAgrees, flags, flagsSet, means⟩ :=
          compared.sound symbols divides machine leftValue rightValue (leftReadable.mono firstLe)
            (rightReadable.mono firstLe) ((agrees.eval? leftReadable).trans leftDefined)
            ((agrees.eval? rightReadable).trans rightDefined)
        have reached := Reaches.of_execAll? standsAt.left ran
        refine ⟨last, reached.tail ?_, agrees.trans (lastAgrees.mono firstLe)⟩
        rw [step?_branch standsAt.right.head flagsSet, means]
        cases outcome : op.holds leftValue rightValue with
        | true =>
            rw [outcome, if_pos rfl] at defined
            rw [if_pos rfl, goes defined]
            rfl
        | false =>
            -- Control falls through to the label that the body goes to.
            rw [outcome, if_neg Bool.false_ne_true] at defined
            have falls := canonical.branchesFallThrough _ op left right ifTrue ifFalse found
            obtain rfl : position = before.position + 1 :=
              position_unique canonical.labelsDistinct (Stm.label_of_labelPosition? defined) falls
                rfl rfl
            rw [startNext, List.length_append, List.length_singleton, ← Nat.add_assoc]
            rfl
  · obtain ⟨part, store, found, defined, rfl⟩ := moves
    obtain ⟨piece, middle, _, standsAt, tiling, firstLe, startNext⟩ := layout.piece found
    have readable := undisturbed part (List.mem_of_getElem? found)
    obtain ⟨other, otherDefined, otherAgrees⟩ := agrees.effect? readable defined
    obtain ⟨last, ran, lastAgrees⟩ :=
      tiling.sound symbols divides machine other
        (fun operand member => (readable operand member).mono firstLe) otherDefined
    refine ⟨last, ?_, otherAgrees.trans (lastAgrees.mono firstLe)⟩
    rw [startNext]
    exact .of_execAll? standsAt ran

/-- A run of the body is matched by a run through its code; by induction on the run. -/
theorem Layout.simulates (layout : Layout body.flatten first code start)
    (canonical : body.Canonical) (undisturbed : Undisturbed body.flatten first divides)
    {store : Store} {machine : Machine} (agrees : Agrees first divides store machine.toStore)
    {point : Point} (reaches : Stm.Reaches symbols body.flatten { position := 0, store } point)
    : ∃ next,
        Reaches symbols code { position := 0, machine }
          { position := start point.position, machine := next }
        ∧ Agrees first divides point.store next.toStore := by
  induction reaches with
  | refl =>
      refine ⟨machine, ?_, agrees⟩
      rw [layout.start_zero]
      exact .refl
  | tail _ steps ih =>
      obtain ⟨middle, reached, middleAgrees⟩ := ih
      obtain ⟨next, stepped, nextAgrees⟩ :=
        layout.simulates_step canonical undisturbed middleAgrees steps
      exact ⟨next, reached.trans stepped, nextAgrees⟩

end

----------------------------------------------------------------------------------------------
-- Bodies
----------------------------------------------------------------------------------------------

section

variable {body : Stm} {first : Nat}

theorem selectable_of_canonical (canonical : body.Canonical) (callFree : body.isCallFree = true)
    : ∀ part ∈ body.flatten, Selectable part := by
  intro part member
  refine ⟨⟨fun _ => Stm.ne_seq_of_mem_flatten member, ?_⟩, ?_, ?_⟩
  · rintro dst src rfl
    exact canonical.destinations dst src member
  · rintro target rfl
    obtain ⟨name, same, _⟩ := canonical.jumpsResolve target member
    exact ⟨name, same⟩
  · intro operand occurs
    apply Exp.callsLabels_of_isCallFree
    exact List.all_eq_true.mp (List.all_eq_true.mp callFree part member) operand occurs

/-- The temporaries of a body are stable if they were there before selection, and if `rax` and
`rdx` are not among them where there are divisions.
-/
theorem stable_of_mem_temps
    (earlier : ∀ number, Temp.virtual number ∈ body.temps → number < first)
    (divisions : body.hasDivision = false ∨ (rax ∉ body.temps ∧ rdx ∉ body.temps))
    {register : Temp} (occurs : register ∈ body.temps)
    : Stable first body.hasDivision register :=
  stable_of_earlier earlier divisions occurs

theorem undisturbed_of_stable
    (stable : ∀ register ∈ body.temps, Stable first body.hasDivision register)
    : Undisturbed body.flatten first body.hasDivision := by
  intro part member operand occurs
  constructor
  · intro register reads
    apply stable
    refine List.mem_flatMap_of_mem member (List.mem_append_left _ ?_)
    exact List.mem_flatMap_of_mem occurs reads
  · intro found
    exact List.any_eq_true.mpr ⟨part, member, List.any_eq_true.mpr ⟨operand, occurs, found⟩⟩

end

/-- Selection succeeds on a canonical body without calls, and the code runs as the body does.
Wherever a run of the body gets to, the code gets to the point where the code of the next statement
begins, with the same memory and the same values in all temporaries of the body and in all other
registers that were there before, except for `rax` and `rdx` if there are divisions. Labels have
any addresses, and registers, memory and flags hold anything at first.
-/
theorem selectBody_preserves_runs (body : Stm) (session : Session) (canonical : body.Canonical)
    (callFree : body.isCallFree = true)
    (earlier : ∀ number, Temp.virtual number ∈ body.temps → number < session.temps)
    (divisions : body.hasDivision = false ∨ (rax ∉ body.temps ∧ rdx ∉ body.temps))
    : ∃ code after,
        rules.selectBody body session = (.ok code, after)
        ∧ codeStart body session body.flatten.length = code.size
        ∧ ∀ (symbols : Label → Word) (store : Store) (flags : Option Flags) (point : Point),
            Stm.Reaches symbols body.flatten { position := 0, store } point
            → ∃ machine,
                Reaches symbols code { position := 0, machine := { store with flags } }
                  { position := codeStart body session point.position, machine }
                ∧ machine.memory = point.store.memory
                ∧ ∀ register,
                    register ∈ body.temps ∨ Stable session.temps body.hasDivision register
                    → machine.register register = point.store.register register := by
  have stable : ∀ register ∈ body.temps, Stable session.temps body.hasDivision register :=
    fun _ occurs => stable_of_mem_temps earlier divisions occurs
  obtain ⟨_, last, selected⟩ :=
    selectStatement_accepts (selectable_of_canonical canonical callFree) { session }
  have layout := layout_of_selected selected
  refine ⟨last.code, last.session, ?_, layout.start_length, ?_⟩
  · exact Rules.selectBody_ok.mpr ⟨last, selected, rfl, rfl⟩
  · intro symbols store flags point reaches
    have initial : Agrees session.temps body.hasDivision store (Machine.mk store flags).toStore :=
      .refl store
    obtain ⟨machine, reached, agrees⟩ :=
      layout.simulates canonical (undisturbed_of_stable stable) initial reaches
    refine ⟨machine, reached, agrees.memory, ?_⟩
    rintro register (occurs | kept)
    · exact agrees.register (stable register occurs)
    · exact agrees.register kept

/-- Adds one to a temporary until it is ten or more, then divides it by three. -/
def countAndDivide : Stm :=
  .seq [
    .label ⟨"test"⟩,
    .cjump .lt (.temp (.virtual 0)) (.const 10) ⟨"more"⟩ ⟨"done"⟩,
    .label ⟨"done"⟩,
    .move (.temp (.virtual 1)) (.binop .div (.temp (.virtual 0)) (.const 3)),
    .jump (.name ⟨"end"⟩),
    .label ⟨"more"⟩,
    .move (.temp (.virtual 0)) (.binop .plus (.temp (.virtual 0)) (.const 1)),
    .jump (.name ⟨"test"⟩),
    .label ⟨"end"⟩]

theorem countAndDivide_canonical : countAndDivide.Canonical := by
  constructor
  · decide
  · intro target member
    simp only [countAndDivide, Stm.flatten, Stm.flattenAll] at member ⊢
    simp at member ⊢
    rcases member with rfl | rfl <;> simp
  · intro op left right ifTrue ifFalse member
    simp only [countAndDivide, Stm.flatten, Stm.flattenAll] at member ⊢
    simp at member ⊢
    simp [member]
  · intro position op left right ifTrue ifFalse found
    simp only [countAndDivide, Stm.flatten, Stm.flattenAll] at found ⊢
    rcases position with _ | _ | _ | _ | _ | _ | _ | _ | _ | position <;> simp at found
    simp [found]
  · intro dst src member
    simp only [countAndDivide, Stm.flatten, Stm.flattenAll] at member ⊢
    simp at member
    rcases member with ⟨rfl, _⟩ | ⟨rfl, _⟩ <;> simp

/-- A loop with a division runs as its body does. -/
theorem countAndDivide_preserves_runs
    : countAndDivide.hasDivision = true
      ∧ ∃ code after,
          rules.selectBody countAndDivide { temps := 2 } = (.ok code, after)
          ∧ ∀ (symbols : Label → Word) (store : Store) (point : Point),
              Stm.Reaches symbols countAndDivide.flatten { position := 0, store } point
              → ∃ machine,
                  Reaches symbols code { position := 0, machine := { store with flags := none } }
                    { position := codeStart countAndDivide { temps := 2 } point.position, machine }
                  ∧ machine.register (.virtual 1) = point.store.register (.virtual 1) := by
  refine ⟨by decide, ?_⟩
  have earlier : ∀ number, Temp.virtual number ∈ countAndDivide.temps → number < 2 := by
    have temps
        : countAndDivide.temps
          = [.virtual 0, .virtual 1, .virtual 0, .virtual 0, .virtual 0] := by
      decide
    intro number occurs
    simp [temps] at occurs
    omega
  obtain ⟨code, after, selected, _, preserved⟩ :=
    selectBody_preserves_runs countAndDivide { temps := 2 } countAndDivide_canonical (by decide)
      earlier (.inr ⟨by decide, by decide⟩)
  refine ⟨code, after, selected, ?_⟩
  intro symbols store point reaches
  obtain ⟨machine, reached, _, same⟩ := preserved symbols store none point reaches
  exact ⟨machine, reached, same _ (.inl (by decide))⟩

end TreeTiling.X64
