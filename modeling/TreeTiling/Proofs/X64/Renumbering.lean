import TreeTiling.Proofs.Selection.Renumbering
import TreeTiling.Proofs.X64.Accounts
import TreeTiling.Proofs.X64.Scope

/-!
Selection does not depend on what was compiled before, up to the numbers of the temporaries that it
takes: none of the rules looks at a number.
-/

namespace TreeTiling.X64

open TreeTiling.Action (carryOut emitInstr)

variable {numbering : Nat → Nat}

----------------------------------------------------------------------------------------------
-- Operations
----------------------------------------------------------------------------------------------

namespace Address

def renumber (numbering : Nat → Nat) : Address → Address
  | direct base => direct (base.renumber numbering)
  | displaced offset base => displaced offset (base.renumber numbering)
  | indexed base index => indexed (base.renumber numbering) (index.renumber numbering)
  | scaled base index scale =>
      scaled (base.renumber numbering) (index.renumber numbering) scale

theorem registers_renumber (address : Address)
    : (address.renumber numbering).registers
      = address.registers.map (Temp.renumber numbering) := by
  cases address <;> rfl

theorem template_renumber (first : Nat) (address : Address)
    : (address.renumber numbering).template first = address.template first := by
  cases address <;> rfl

end Address

namespace Op

/-- The operation with the numbers of its registers changed. -/
def renumber (numbering : Nat → Nat) : Op → Op
  | loadImm value dst => loadImm value (dst.renumber numbering)
  | clear dst => clear (dst.renumber numbering)
  | copy dst src => copy (dst.renumber numbering) (src.renumber numbering)
  | load address dst => load (address.renumber numbering) (dst.renumber numbering)
  | store src address => store (src.renumber numbering) (address.renumber numbering)
  | storeImm value address => storeImm value (address.renumber numbering)
  | lea address dst => lea (address.renumber numbering) (dst.renumber numbering)
  | leaLabel symbol dst => leaLabel symbol (dst.renumber numbering)
  | compareImm left right => compareImm (left.renumber numbering) right
  | compareMem left right => compareMem (left.renumber numbering) (right.renumber numbering)
  | compare left right => compare (left.renumber numbering) (right.renumber numbering)
  | branch op ifTrue ifFalse => branch op ifTrue ifFalse
  | condMove op src dst => condMove op (src.renumber numbering) (dst.renumber numbering)
  | increment dst => increment (dst.renumber numbering)
  | decrement dst => decrement (dst.renumber numbering)
  | arithImm op value dst => arithImm op value (dst.renumber numbering)
  | arith op src dst => arith op (src.renumber numbering) (dst.renumber numbering)
  | multiplyImm value src dst =>
      multiplyImm value (src.renumber numbering) (dst.renumber numbering)
  | signExtend => signExtend
  | divide divisor => divide (divisor.renumber numbering)
  | jump target => jump target
  | label name => label name
  | call function arguments => call function arguments

/-- Machine registers have no numbers. -/
theorem renumber_machine {registers : List Temp}
    (machine : ∀ register ∈ registers, register.isFixed = true)
    : registers.map (Temp.renumber numbering) = registers := by
  refine (List.map_congr_left ?_).trans (List.map_id registers)
  exact fun register member => Temp.renumber_of_isFixed (machine register member)

theorem instr_renumber (op : Op) : (op.renumber numbering).instr = op.instr.renumber numbering := by
  cases op with
  | load address dst | lea address dst | storeImm value address | store src address
  | compareMem left address =>
      simp [renumber, instr, Instr.straight, Instr.renumber, Address.registers_renumber,
        Address.template_renumber]
  | call function arguments =>
      have passed : ∀ register ∈ specials ++ passed arguments, register.isFixed = true := by
        have allFixed : ∀ register ∈ specials ++ argRegs, register.isFixed = true := by decide
        intro register member
        apply allFixed
        rcases List.mem_append.mp member with isSpecial | isPassed
        · exact List.mem_append_left _ isSpecial
        · exact List.mem_append_right _ (List.mem_of_mem_take isPassed)
      have overwritten : ∀ register ∈ callerSaves, register.isFixed = true := by decide
      rw [renumber, instr, Instr.straight, Instr.renumber, renumber_machine overwritten,
        renumber_machine passed]
  | loadImm | clear | copy | leaLabel | compareImm | compare | branch | condMove | increment
  | decrement | arithImm | arith | multiplyImm | signExtend | divide | jump | label => rfl

theorem map_instr_renumber (code : Array Op)
    : (code.map (Op.renumber numbering)).map Op.instr
      = (code.map Op.instr).map (Instr.renumber numbering) := by
  simp [Op.instr_renumber]

end Op

/-- A change of numbers in the code for x86-64. -/
def renumbering (numbering : Nat → Nat) : Renumbering Op where
  number := numbering
  item := Op.renumber numbering
  instr_item := Op.instr_renumber

----------------------------------------------------------------------------------------------
-- Calls
----------------------------------------------------------------------------------------------

/-- An argument is staged alike, since machine registers stay machine registers. -/
theorem stageArg_mirrors (arg : Exp)
    : (stageArg arg).Mirrors (renumbering numbering) (Exp.renumber numbering)
        (stageArg (arg.renumber numbering)) := by
  cases arg with
  | const value => exact .pure (Exp.const value)
  | name label => exact .pure (Exp.name label)
  | temp _ | mem _ | binop _ _ _ | call _ _ =>
      refine .bind (.valueOf _) fun register => ?_
      cases register with
      | virtual number => exact .pure (Exp.temp (.virtual number))
      | fixed name =>
          exact .bind .freshTemp fun copy => .bind (.emitInstr _) fun _ => .pure (Exp.temp copy)

theorem stageArgs_mirrors (args : List (Exp × Nat))
    : (stageArgs args).Mirrors (renumbering numbering)
        (List.map fun entry => (entry.1, entry.2.renumber numbering))
        (stageArgs (args.map fun entry => (entry.1.renumber numbering, entry.2))) := by
  induction args with
  | nil => exact .pure []
  | cons first rest ih =>
      simp only [stageArgs, List.map_cons, List.mapM_cons, bind_assoc, pure_bind] at ih ⊢
      exact .bind (stageArg_mirrors first.1) fun value => .bind ih fun staged =>
        .pure ((first.2, value) :: staged)

/-- The places where arguments go have no numbers. -/
theorem outArg_renumber (index : Nat) : (outArg index).renumber numbering = outArg index := by
  rcases outArg_cases index with ⟨register, found, isTemp⟩ | ⟨-, slot, isMem⟩
  · have allFixed : ∀ register ∈ argRegs, register.isFixed = true := by decide
    rw [isTemp, Exp.renumber,
      Temp.renumber_of_isFixed (allFixed register (List.mem_of_getElem? found))]
  · rw [isMem]
    simp [rsp, Temp.renumber]

theorem storeArgs_mirrors (staged : List (Nat × Exp))
    : (storeArgs staged).Mirrors (renumbering numbering) id
        (storeArgs (staged.map fun entry => (entry.1, entry.2.renumber numbering))) := by
  induction staged with
  | nil => exact .pure ()
  | cons first rest ih =>
      have stored
          : (carryOut (.move (outArg first.1) first.2)).Mirrors (renumbering numbering) id
              (carryOut ((Stm.move (outArg first.1) first.2).renumber numbering)) :=
        .carryOut _
      rw [Stm.renumber, outArg_renumber] at stored
      simp only [storeArgs, List.forM_eq_forM, List.map_cons, List.forM_cons] at ih ⊢
      exact .bind stored fun _ => ih

theorem emitCall_mirrors (function : Label) (args : List Exp)
    : (emitCall function args).Mirrors (renumbering numbering) id
        (emitCall function (Exp.argsRenumber numbering args)) := by
  rw [emitCall_eq, emitCall_eq, Exp.argsRenumber_eq, List.length_map, List.zipIdx_map,
    ← List.map_reverse]
  exact .bind (stageArgs_mirrors _) fun staged =>
    .bind (storeArgs_mirrors staged) fun _ => .emitInstr (Op.call function args.length)

----------------------------------------------------------------------------------------------
-- Statements
----------------------------------------------------------------------------------------------

theorem controlRules_mirror : ∀ rule ∈ controlRules, rule.Mirrors (renumbering numbering) id := by
  intro rule member captures
  simp only [controlRules, List.mem_cons, List.not_mem_nil, or_false] at member
  rcases member with rfl | rfl | rfl
  · exact .read fun _ => .emitInstr _
  · exact .read fun _ => .emitInstr _
  · exact .read fun _ => .fail _

theorem Shape.compare_mirrors (shape : Shape) (captures : Captures)
    : (shape.compare captures).Mirrors (renumbering numbering) id
        (shape.compare (captures.renumber numbering)) := by
  refine .read fun op => ?_
  cases shape with
  | immRight | immLeft =>
      exact .compute fun _ => .read fun _ => .bind (.emitInstr _) fun _ => .pure _
  | memBoth =>
      exact .compute fun _ => .compute fun _ => .bind .freshTemp fun _ =>
        .bind (.emitInstr _) fun _ => .bind (.emitInstr _) fun _ => .pure _
  | memRight | memLeft | registers =>
      exact .compute fun _ => .compute fun _ => .bind (.emitInstr _) fun _ => .pure _

theorem Shape.jumpRule_mirrors (shape : Shape)
    : shape.jumpRule.Mirrors (renumbering numbering) id :=
  fun captures => .bind (shape.compare_mirrors captures) fun _ =>
    .read fun _ => .read fun _ => .emitInstr _

theorem Shape.moveRule_mirrors (shape : Shape)
    : shape.moveRule.Mirrors (renumbering numbering) id :=
  fun captures => .compute fun _ => .bind (shape.compare_mirrors captures) fun _ =>
    .read fun _ => .emitInstr _

theorem assignRules_mirror : ∀ rule ∈ assignRules, rule.Mirrors (renumbering numbering) id := by
  intro rule member captures
  simp only [assignRules, List.mem_cons, List.not_mem_nil, or_false] at member
  rcases member with rfl | rfl | rfl | rfl | rfl | rfl | rfl | rfl
  · exact .read fun _ => .emitInstr _
  · exact .read fun _ => .read fun _ => .emitInstr _
  · exact .compute fun _ => .read fun _ => .read fun _ => .emitInstr _
  · exact .compute fun _ => .compute fun _ => .read fun _ => .emitInstr _
  · exact .compute fun _ => .compute fun _ => .read fun _ => .read fun _ => .emitInstr _
  · exact .compute fun _ => .read fun _ => .read fun _ => .emitInstr _
  · exact .compute fun _ => .read fun _ => .emitInstr _
  · exact .compute fun _ => .read fun _ => .emitInstr _

theorem storeRules_mirror : ∀ rule ∈ storeRules, rule.Mirrors (renumbering numbering) id := by
  intro rule member captures
  simp only [storeRules, List.mem_cons, List.not_mem_nil, or_false] at member
  rcases member with rfl | rfl | rfl | rfl
  · exact .compute fun _ => .read fun _ => .read fun _ => .emitInstr _
  · exact .compute fun _ => .compute fun _ => .read fun _ => .emitInstr _
  · exact .compute fun _ => .read fun _ => .emitInstr _
  · exact .compute fun _ => .compute fun _ => .emitInstr _

theorem statementRules_mirror
    : ∀ rule ∈ statementRules, rule.Mirrors (renumbering numbering) id := by
  simp only [statementRules, List.forall_mem_append, List.forall_mem_map,
    List.forall_mem_singleton]
  refine ⟨⟨⟨⟨⟨controlRules_mirror, ?_⟩, ?_⟩, assignRules_mirror⟩, storeRules_mirror⟩, ?_⟩
  · exact fun shape _ => shape.jumpRule_mirrors
  · exact fun shape _ => shape.moveRule_mirrors
  · exact fun captures => .read fun _ => .effectsOf _

----------------------------------------------------------------------------------------------
-- Values
----------------------------------------------------------------------------------------------

theorem refuseCall_mirrors {α : Type} {result : α → α} (captures : Captures)
    : (refuseCall captures).Mirrors (renumbering numbering) result
        (refuseCall (captures.renumber numbering)) :=
  .read fun _ => .read fun _ => .fail _

theorem operandRules_mirror
    : ∀ rule ∈ operandRules, rule.Mirrors (renumbering numbering) (Temp.renumber numbering) := by
  intro rule member captures
  simp only [operandRules, List.mem_cons, List.not_mem_nil, or_false] at member
  rcases member with rfl | rfl | rfl | rfl | rfl | rfl | rfl | rfl | rfl
  · exact .read fun function => .read fun args => .bind (emitCall_mirrors function args) fun _ =>
      .pure returnReg
  · exact refuseCall_mirrors captures
  · exact .bind .freshTemp fun dst => .bind (.emitInstr _) fun _ => .pure dst
  · exact .bind .freshTemp fun dst => .read fun _ => .bind (.emitInstr _) fun _ => .pure dst
  · exact .bind .freshTemp fun dst => .read fun _ => .bind (.emitInstr _) fun _ => .pure dst
  · exact .get captures Capture.register
  · exact .compute fun _ => .compute fun _ => .read fun _ => .bind .freshTemp fun dst =>
      .bind (.emitInstr _) fun _ => .pure dst
  · exact .compute fun _ => .read fun _ => .bind .freshTemp fun dst =>
      .bind (.emitInstr _) fun _ => .pure dst
  · exact .compute fun _ => .bind .freshTemp fun dst => .bind (.emitInstr _) fun _ => .pure dst

theorem updateCopy_mirrors (tree : Exp) {update : Temp → Op}
    (sameUpdate : ∀ dst, (update dst).renumber numbering = update (dst.renumber numbering))
    : (updateCopy tree update).Mirrors (renumbering numbering) (Temp.renumber numbering)
        (updateCopy (tree.renumber numbering) update) := by
  have updated (dst : Temp)
      : (emitInstr (update dst)).Mirrors (renumbering numbering) id
          (emitInstr (update (dst.renumber numbering))) := by
    rw [← sameUpdate dst]
    exact .emitInstr (update dst)
  exact .bind (.valueOf tree) fun value => .bind .freshTemp fun dst =>
    .bind (.emitInstr _) fun _ => .bind (updated dst) fun _ => .pure dst

theorem updateRule_mirrors (pattern : ExpPattern) {update : Temp → Op}
    (sameUpdate : ∀ dst, (update dst).renumber numbering = update (dst.renumber numbering))
    : (updateRule pattern update).Mirrors (renumbering numbering) (Temp.renumber numbering) :=
  fun _ => .read fun tree => updateCopy_mirrors tree sameUpdate

theorem arithImmRule_mirrors (op : Arith) (pattern : ExpPattern)
    : (arithImmRule op pattern).Mirrors (renumbering numbering) (Temp.renumber numbering) :=
  fun _ => .read fun _ => .read fun tree => updateCopy_mirrors tree fun _ => rfl

theorem arithRule_mirrors (tree : BinOp) (op : Arith)
    : (arithRule tree op).Mirrors (renumbering numbering) (Temp.renumber numbering) :=
  fun _ => .read fun left => .read fun right => .bind (.valueOf left) fun _ =>
    .bind (.valueOf right) fun _ => .bind .freshTemp fun dst => .bind (.emitInstr _) fun _ =>
    .bind (.emitInstr _) fun _ => .pure dst

theorem multiplyImmRule_mirrors (pattern : ExpPattern)
    : (multiplyImmRule pattern).Mirrors (renumbering numbering) (Temp.renumber numbering) :=
  fun _ => .read fun tree => .read fun _ => .bind (.valueOf tree) fun _ =>
    .bind .freshTemp fun dst => .bind (.emitInstr _) fun _ => .pure dst

theorem sameValueRule_mirrors (pattern : ExpPattern)
    : (sameValueRule pattern).Mirrors (renumbering numbering) (Temp.renumber numbering) :=
  fun _ => .read fun tree => .valueOf tree

theorem quotientRule_mirrors
    : quotientRule.Mirrors (renumbering numbering) (Temp.renumber numbering) :=
  fun _ => .read fun left => .read fun right => .bind (.valueOf left) fun dividend =>
    .bind (.valueOf right) fun _ => .bind (.emitInstr (Op.copy rax dividend)) fun _ =>
    .bind (.emitInstr Op.signExtend) fun _ => .bind (.emitInstr _) fun _ =>
    .bind .freshTemp fun dst => .bind (.emitInstr (Op.copy dst rax)) fun _ => .pure dst

theorem bitwiseRules_mirror (tree : BinOp) (op : Arith)
    : ∀ rule ∈ bitwiseRules tree op,
        rule.Mirrors (renumbering numbering) (Temp.renumber numbering) := by
  simp only [bitwiseRules, List.forall_mem_cons]
  exact ⟨arithImmRule_mirrors op _, arithImmRule_mirrors op _, arithRule_mirrors tree op,
    List.forall_mem_nil _⟩

theorem sumRules_mirror
    : ∀ rule ∈ sumRules, rule.Mirrors (renumbering numbering) (Temp.renumber numbering) := by
  simp only [sumRules, List.forall_mem_cons]
  exact ⟨sameValueRule_mirrors _, sameValueRule_mirrors _, updateRule_mirrors _ fun _ => rfl,
    updateRule_mirrors _ fun _ => rfl, arithImmRule_mirrors .add _, arithImmRule_mirrors .add _,
    arithRule_mirrors .plus .add, List.forall_mem_nil _⟩

theorem differenceRules_mirror
    : ∀ rule ∈ differenceRules, rule.Mirrors (renumbering numbering) (Temp.renumber numbering) := by
  simp only [differenceRules, List.forall_mem_cons]
  exact ⟨updateRule_mirrors _ fun _ => rfl, arithImmRule_mirrors .sub _,
    arithRule_mirrors .minus .sub, List.forall_mem_nil _⟩

theorem productRules_mirror
    : ∀ rule ∈ productRules, rule.Mirrors (renumbering numbering) (Temp.renumber numbering) := by
  simp only [productRules, List.forall_mem_cons]
  exact ⟨multiplyImmRule_mirrors _, multiplyImmRule_mirrors _, arithRule_mirrors .mul .imul,
    List.forall_mem_nil _⟩

theorem valueRules_mirror
    : ∀ rule ∈ valueRules, rule.Mirrors (renumbering numbering) (Temp.renumber numbering) := by
  simp only [valueRules, List.forall_mem_append, List.forall_mem_singleton]
  exact ⟨⟨⟨⟨⟨⟨⟨operandRules_mirror, sumRules_mirror⟩, differenceRules_mirror⟩, productRules_mirror⟩,
    quotientRule_mirrors⟩, bitwiseRules_mirror .and .and⟩, bitwiseRules_mirror .or .or⟩,
    bitwiseRules_mirror .xor .xor⟩

theorem discardRules_mirror : ∀ rule ∈ discardRules, rule.Mirrors (renumbering numbering) id := by
  intro rule member captures
  simp only [discardRules, List.mem_cons, List.not_mem_nil, or_false] at member
  rcases member with rfl | rfl | rfl | rfl | rfl | rfl
  · exact .read fun function => .read fun args => emitCall_mirrors function args
  · exact refuseCall_mirrors captures
  · exact .pure ()
  · exact .pure ()
  · exact .pure ()
  · exact .compute fun _ => .pure ()

/-- No rule of x86-64 looks at the number of a register. -/
theorem rules_mirror (numbering : Nat → Nat) : rules.Mirrors (renumbering numbering) where
  value rule member := by
    have ignore : ∀ rule ∈ valueRules, rule.pattern.ignoresNumbers = true := by decide
    exact ⟨ignore rule member, valueRules_mirror rule member⟩
  discard rule member := by
    have ignore : ∀ rule ∈ discardRules, rule.pattern.ignoresNumbers = true := by decide
    exact ⟨ignore rule member, discardRules_mirror rule member⟩
  statement rule member := by
    have ignore : ∀ rule ∈ statementRules, rule.pattern.ignoresNumbers = true := by decide
    exact ⟨ignore rule member, statementRules_mirror rule member⟩

----------------------------------------------------------------------------------------------
-- Bodies
----------------------------------------------------------------------------------------------

/-- What is refused is a part of the statement, so it keeps its numbers with it. -/
theorem Refusal.renumber_of_kept {part : Stm} {error : SelectionError}
    (refusal : Refusal part error) (kept : Temp.Kept numbering part.ownTemps)
    : error.renumber numbering = error := by
  cases refusal with
  | jump indirect =>
      rw [SelectionError.renumber, Node.renumber, Stm.renumber_of_kept]
      simpa [Stm.ownTemps, Stm.operands] using kept
  | call member occurs indirect =>
      rw [SelectionError.renumber, Node.renumber, Exp.renumber_of_kept]
      have inside := Exp.temps_subset (Exp.subtrees_subset_of_mem occurs)
      exact kept.of_subset fun register named =>
        List.mem_append_left _ (List.mem_flatMap_of_mem member (inside named))
  | move notTemp notMem =>
      rw [SelectionError.renumber, Node.renumber, Stm.renumber_of_kept]
      simpa [Stm.ownTemps, Stm.operands] using kept

/-- Numbers from `first` on are moved up by an offset. -/
def shift (first offset number : Nat) : Nat :=
  if number < first then number else number + offset

theorem shift_continues {session other : Session} (le : session.temps ≤ other.temps)
    : (renumbering (shift session.temps (other.temps - session.temps))).Continues session
        other := by
  intro count
  change shift _ _ _ = _
  rw [shift, if_neg (by omega)]
  omega

theorem shift_kept {registers : List Temp} {first : Nat} (offset : Nat)
    (earlier : ∀ number, .virtual number ∈ registers → number < first)
    : Temp.Kept (shift first offset) registers := by
  intro register member
  cases register with
  | virtual number => rw [Temp.renumber, shift, if_pos (earlier number member)]
  | fixed name => rfl

/-- A body whose registers are older than two sessions is selected alike in both: the code is the
same up to the numbers of what was taken, and an error is the same.
-/
theorem selectBody_alike {body : Stm} {session other after otherAfter : Session}
    {answer otherAnswer : Except SelectionError (Array Op)}
    (selected : rules.selectBody body session = (answer, after))
    (otherSelected : rules.selectBody body other = (otherAnswer, otherAfter))
    (earlier : ∀ number, Temp.virtual number ∈ body.temps → number < session.temps)
    (le : session.temps ≤ other.temps)
    : (∃ count, after.temps = session.temps + count ∧ otherAfter.temps = other.temps + count)
      ∧ (∃ records,
          after.stats = session.stats.recordAll records
          ∧ otherAfter.stats = other.stats.recordAll records)
      ∧ ((∃ error, answer = .error error ∧ otherAnswer = .error error)
          ∨ ∃ code,
              answer = .ok code
              ∧ otherAnswer
                = .ok
                    (code.map
                      (Op.renumber (shift session.temps (other.temps - session.temps))))) := by
  have kept := shift_kept (other.temps - session.temps) earlier
  obtain ⟨taken, recorded, failed | succeeded⟩ :=
    (rules_mirror _).selectBody (shift_continues le) (Stm.renumber_of_kept kept) selected
      otherSelected
  · obtain ⟨error, isError, otherIsError⟩ := failed
    obtain ⟨last, refused⟩ := Rules.selectBody_error (congrArg Prod.fst selected |>.trans isError)
    obtain ⟨part, member, refusal⟩ := selectStatement_failsOnly body _ _ _ refused
    have partKept := kept.of_subset fun register => List.mem_flatMap_of_mem member
    refine ⟨taken, recorded, .inl ⟨error, isError, ?_⟩⟩
    rw [otherIsError]
    exact congrArg Except.error (refusal.renumber_of_kept partKept)
  · exact ⟨taken, recorded, .inr succeeded⟩

----------------------------------------------------------------------------------------------
-- Fragments
----------------------------------------------------------------------------------------------

/-- A session never takes temporaries back while fragments are assembled. -/
theorem temps_le_of_assembled {fragments : List Fragment} {assembly : Assembly}
    {before after : Session} (assembled : assemble fragments before = .ok assembly after)
    : before.temps ≤ after.temps := by
  have ended := assemble_keeps fragments before
    (Session.accounted_start (fragments.flatMap Fragment.temps) before) .left
  rw [assembled] at ended
  exact ended.2.1

/-- The section of a fragment is generated after those of the fragments before it. -/
theorem assemble_split {done rest : List Fragment} {fragment : Fragment} {assembly : Assembly}
    {before after : Session}
    (assembled : assemble (done ++ fragment :: rest) before = .ok assembly after)
    : ∃ parts middle part next others,
        assemble done before = .ok parts middle
        ∧ generate fragment middle = .ok part next
        ∧ assembly = parts ++ part :: others
        ∧ parts.length = done.length := by
  have generates := (assemble_ok_iff _ before before).mp ⟨assembly, after, assembled⟩
  rw [List.forall_mem_append] at generates
  obtain ⟨parts, middle, assembledDone⟩ := (assemble_ok_iff done before before).mpr generates.1
  obtain ⟨sameHeadings, -⟩ := assemble_booked assembledDone
  have sameLength := congrArg List.length sameHeadings
  rw [headings, List.length_map, List.length_map] at sameLength
  rw [assemble_append assembledDone] at assembled
  split at assembled
  · next others last assembledRest =>
      cases assembled
      obtain ⟨part, next, more, generated, -, rfl⟩ := assemble_cons_ok.mp assembledRest
      exact ⟨parts, middle, part, next, more, assembledDone, generated, rfl, sameLength⟩
  · cases assembled

/-- Procedures that are generated from one body in two sessions are the same up to the numbers. -/
theorem generateProcedure_alike {name : Label} {body : Stm} {session other last : Session}
    {part : Section}
    (earlier : ∀ number, Temp.virtual number ∈ body.temps → number < session.temps)
    (le : session.temps ≤ other.temps)
    (generated : generate (.procedure name body) other = .ok part last)
    : ∃ alone after,
        generate (.procedure name body) session = .ok alone after
        ∧ part = alone.renumber (shift session.temps (other.temps - session.temps)) := by
  rw [generate, generateProcedure_eq] at generated ⊢
  rcases selected : rules.selectBody body (session.enter name.name) with ⟨answer, after⟩
  rcases otherSelected : rules.selectBody body (other.enter name.name)
    with ⟨otherAnswer, otherAfter⟩
  obtain ⟨-, -, ended⟩ := selectBody_alike selected otherSelected earlier le
  rw [otherSelected] at generated
  rcases ended with ⟨error, -, rfl⟩ | ⟨code, rfl, rfl⟩
  · cases generated
  · cases generated
    refine ⟨_, _, rfl, ?_⟩
    exact congrArg (Section.mk name true) (Op.map_instr_renumber code)

/-- In two sessions that have handed out the registers of a body, selection fails with the same
error or succeeds with the same code, up to the numbers that it took; it takes as many, and counts
the same. So a procedure among any fragments has the code that it has alone, up to the numbers.
-/
theorem selection_independent_of_numbers (body : Stm) (session other : Session)
    (earlier : ∀ number, Temp.virtual number ∈ body.temps → number < session.temps)
    (le : session.temps ≤ other.temps)
    : (∃ (count : Nat) (growth : Stats.Growth),
        (rules.selectBody body session).2.temps = session.temps + count
        ∧ (rules.selectBody body other).2.temps = other.temps + count
        ∧ Stats.GrowsBy growth session.stats (rules.selectBody body session).2.stats
        ∧ Stats.GrowsBy growth other.stats (rules.selectBody body other).2.stats
        ∧ ((∃ error,
              (rules.selectBody body session).1 = .error error
              ∧ (rules.selectBody body other).1 = .error error)
            ∨ ∃ code,
                (rules.selectBody body session).1 = .ok code
                ∧ (rules.selectBody body other).1
                  = .ok
                      (code.map
                        (Op.renumber (shift session.temps (other.temps - session.temps))))))
      ∧ ∀ fragments position name assembly after,
          fragments[position]? = some (.procedure name body)
          → assemble fragments other = .ok assembly after
          → ∃ earlierParts middle alone last,
              assemble (fragments.take position) other = .ok earlierParts middle
              ∧ session.temps ≤ middle.temps
              ∧ generate (.procedure name body) session = .ok alone last
              ∧ assembly[position]?
                = some (alone.renumber (shift session.temps (middle.temps - session.temps))) := by
  constructor
  · rcases selected : rules.selectBody body session with ⟨answer, after⟩
    rcases otherSelected : rules.selectBody body other with ⟨otherAnswer, otherAfter⟩
    obtain ⟨⟨count, temps, otherTemps⟩, ⟨records, stats, otherStats⟩, ended⟩ :=
      selectBody_alike selected otherSelected earlier le
    have growth := Stats.growsBy_recordAll session.stats records
    have otherGrowth := Stats.growsBy_recordAll other.stats records
    exact ⟨count, _, temps, otherTemps, stats ▸ growth, otherStats ▸ otherGrowth, ended⟩
  · intro fragments position name assembly after found assembled
    obtain ⟨inside, isProcedure⟩ := List.getElem?_eq_some_iff.mp found
    rw [← List.take_append_drop position fragments, List.drop_eq_getElem_cons inside, isProcedure]
      at assembled
    obtain ⟨parts, middle, part, next, others, assembledDone, generated, rfl, sameLength⟩ :=
      assemble_split assembled
    have middleLe := Nat.le_trans le (temps_le_of_assembled assembledDone)
    obtain ⟨alone, last, generatedAlone, rfl⟩ := generateProcedure_alike earlier middleLe generated
    refine ⟨parts, middle, alone, last, assembledDone, middleLe, generatedAlone, ?_⟩
    rw [List.length_take_of_le (Nat.le_of_lt inside)] at sameLength
    rw [← sameLength, List.getElem?_append_right (Nat.le_refl _), Nat.sub_self]
    rfl

/-- Subtracts a word of memory from a temporary. -/
def deduct : Stm :=
  .move (.temp (.virtual 0)) (.binop .minus (.temp (.virtual 0)) (.mem (.temp (.virtual 1))))

/-- Both halves at once: the body alone in two sessions, and as the second of two procedures. -/
theorem deduct_independent_of_numbers
    : (∃ code,
        (rules.selectBody deduct { temps := 2 }).1 = .ok code
        ∧ (rules.selectBody deduct { temps := 9 }).1
          = .ok (code.map (Op.renumber (shift 2 7))))
      ∧ ∃ assembly after earlierParts middle alone last,
          assemble [.procedure ⟨"first"⟩ deduct, .procedure ⟨"second"⟩ deduct] { temps := 9 }
            = .ok assembly after
          ∧ assemble [.procedure ⟨"first"⟩ deduct] { temps := 9 } = .ok earlierParts middle
          ∧ 2 ≤ middle.temps
          ∧ generate (.procedure ⟨"second"⟩ deduct) { temps := 2 } = .ok alone last
          ∧ assembly[1]? = some (alone.renumber (shift 2 (middle.temps - 2))) := by
  have earlier : ∀ number, Temp.virtual number ∈ deduct.temps → number < 2 := by
    simp [deduct]
  obtain ⟨⟨_, _, -, -, -, -, ended⟩, amongFragments⟩ :=
    selection_independent_of_numbers deduct { temps := 2 } { temps := 9 } earlier (by decide)
  constructor
  · rcases ended with ⟨error, isError, -⟩ | succeeded
    · cases isError
    · exact succeeded
  · have generates (name : Label) : Generates (.procedure name deduct) {} := ⟨_, _, rfl⟩
    obtain ⟨assembly, after, assembled⟩ :=
      (assemble_ok_iff [.procedure ⟨"first"⟩ deduct, .procedure ⟨"second"⟩ deduct]
        { temps := 9 } {}).mpr (by simp [generates])
    obtain ⟨earlierParts, middle, alone, last, found⟩ :=
      amongFragments _ 1 ⟨"second"⟩ assembly after rfl assembled
    exact ⟨assembly, after, earlierParts, middle, alone, last, assembled, found⟩

end TreeTiling.X64
