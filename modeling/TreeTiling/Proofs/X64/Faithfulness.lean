import TreeTiling.Proofs.X64.EntryLiveness
import TreeTiling.Proofs.X64.Execution
import TreeTiling.Proofs.X64.Symbols

/-!
The lists of an instruction tell what its operation does on the machine.

An operation is faithful if its instruction lists every register that its effect depends on, every
register that it changes and every place that control can go to. Flow analysis and register
allocation look at nothing else, so they may rely on the lists. The text says the same: no place of
a template is left open.
-/

namespace TreeTiling.X64

----------------------------------------------------------------------------------------------
-- Machines that look alike
----------------------------------------------------------------------------------------------

/-- Machines with the same memory and flags that agree on some registers. -/
structure SameOn (registers : List Temp) (left right : Machine) : Prop where
  registers : ∀ register ∈ registers, left.register register = right.register register
  memory : left.memory = right.memory
  flags : left.flags = right.flags

namespace SameOn

variable {registers : List Temp} {left right : Machine}

theorem mono {fewer : List Temp} (same : SameOn registers left right) (subset : fewer ⊆ registers)
    : SameOn fewer left right :=
  ⟨fun register member => same.registers register (subset member), same.memory, same.flags⟩

theorem none (same : SameOn registers left right) : SameOn [] left right :=
  same.mono (List.nil_subset _)

/-- The same value is moved to the same register. -/
theorem move (same : SameOn registers left right) (dst : Temp) {value other : Word}
    (equal : value = other)
    : SameOn [dst] (left.move dst value) (right.move dst other) := by
  refine ⟨List.forall_mem_singleton.mpr ?_, same.memory, same.flags⟩
  rw [Machine.register_move_self, Machine.register_move_self, equal]

/-- Both compute the same value into the same register. -/
theorem compute (same : SameOn registers left right) (dst : Temp) {value other : Word}
    (equal : value = other)
    : SameOn [dst] (left.compute dst value) (right.compute dst other) := by
  refine ⟨List.forall_mem_singleton.mpr ?_, same.memory, rfl⟩
  rw [Machine.register_compute_self, Machine.register_compute_self, equal]

theorem store (same : SameOn registers left right) {address place value other : Word}
    (equalPlace : address = place) (equal : value = other)
    : SameOn [] (left.store address value) (right.store place other) := by
  refine ⟨List.forall_mem_nil _, ?_, same.flags⟩
  simp only [Machine.store, Store.write, same.memory, equalPlace, equal]

theorem compare (same : SameOn registers left right) {value other word another : Word}
    (equal : value = other) (equalWord : word = another)
    : SameOn [] (left.compare value word) (right.compare other another) := by
  refine ⟨List.forall_mem_nil _, same.memory, ?_⟩
  rw [equal, equalWord]
  rfl

/-- An address is located from the registers it is made of. -/
theorem locate {address : Address} (same : SameOn address.registers left right)
    : address.locate left.toStore = address.locate right.toStore := by
  have agree := same.registers
  cases address with
  | direct base | displaced _ base =>
      simp only [Address.locate, agree base List.mem_cons_self]
  | indexed base index | scaled base index _ =>
      have baseAgrees := agree base List.mem_cons_self
      have indexAgrees := agree index (List.mem_cons_of_mem _ List.mem_cons_self)
      simp only [Address.locate, baseAgrees, indexAgrees]

end SameOn

----------------------------------------------------------------------------------------------
-- Effects
----------------------------------------------------------------------------------------------

namespace Op

variable {symbols : Label → Word}

/-- An operation changes no register but those it lists as written. -/
theorem exec?_unwritten {op : Op} {machine after : Machine}
    (executed : op.exec? symbols machine = some after) {register : Temp}
    (unwritten : register ∉ op.instr.defs)
    : after.register register = machine.register register := by
  cases op with
  | loadImm _ _ | copy _ _ | load _ _ | lea _ _ | leaLabel _ _ | signExtend =>
      obtain rfl := Option.some.inj executed
      exact machine.register_move_of_ne _ (List.ne_of_not_mem_cons unwritten)
  | clear _ | increment _ | decrement _ | arithImm _ _ _ | arith _ _ _ | multiplyImm _ _ _ =>
      obtain rfl := Option.some.inj executed
      exact machine.register_compute_of_ne _ (List.ne_of_not_mem_cons unwritten)
  | store _ _ | storeImm _ _ | compareImm _ _ | compareMem _ _ | compare _ _ | label _ =>
      obtain rfl := Option.some.inj executed
      rfl
  | condMove op src dst =>
      obtain ⟨flags, -, executed⟩ := Option.bind_eq_some_iff.mp executed
      obtain rfl := Option.some.inj executed
      split
      · exact machine.register_move_of_ne _ (List.ne_of_not_mem_cons unwritten)
      · rfl
  | divide divisor =>
      obtain ⟨⟨quotient, remainder⟩, -, executed⟩ := Option.bind_eq_some_iff.mp executed
      obtain rfl := Option.some.inj executed
      obtain ⟨notRax, others⟩ := List.ne_and_not_mem_of_not_mem_cons unwritten
      rw [Machine.register_compute_of_ne _ _ (List.ne_of_not_mem_cons others),
        Machine.register_compute_of_ne _ _ notRax]
  | branch _ _ _ | jump _ | call _ _ => cases executed

/-- What an operation does depends on no register but those it lists as read: from machines that
look alike there, it runs in both or in neither, and leaves the same in all it lists as written.
-/
theorem exec?_determined (symbols : Label → Word) (op : Op) {left right : Machine}
    (same : SameOn op.instr.uses left right)
    : Option.Rel (SameOn op.instr.defs) (op.exec? symbols left) (op.exec? symbols right) := by
  cases op with
  | loadImm value dst => exact .some (same.move dst rfl)
  | clear dst => exact .some (same.compute dst rfl)
  | copy dst src => exact .some (same.move dst (same.registers src List.mem_cons_self))
  | load address dst =>
      exact .some (same.move dst (by rw [same.memory, same.locate]))
  | store src address =>
      have placed := (same.mono (List.subset_append_left address.registers [src])).locate
      exact .some (same.store placed (same.registers src List.mem_concat_self))
  | storeImm value address => exact .some (same.store same.locate rfl)
  | lea address dst => exact .some (same.move dst same.locate)
  | leaLabel symbol dst => exact .some (same.move dst rfl)
  | compareImm left right => exact .some (same.compare (same.registers left List.mem_cons_self) rfl)
  | compareMem left right =>
      have placed := (same.mono (List.subset_cons_self left right.registers)).locate
      exact .some (same.compare (same.registers left List.mem_cons_self)
        (by rw [same.memory, placed]))
  | compare left right =>
      exact .some (same.compare (same.registers left List.mem_cons_self)
        (same.registers right (List.mem_cons_of_mem _ List.mem_cons_self)))
  | condMove op src dst =>
      have dstSame := same.registers dst (List.mem_cons_of_mem _ List.mem_cons_self)
      simp only [exec?, same.flags]
      cases right.flags with
      | none => exact .none
      | some flags =>
          refine .some ?_
          by_cases met : flags.test op = true
          · rw [if_pos met, if_pos met]
            exact same.move dst (same.registers src List.mem_cons_self)
          · rw [if_neg met, if_neg met]
            exact ⟨List.forall_mem_singleton.mpr dstSame, same.memory, same.flags⟩
  | increment dst | decrement dst =>
      exact .some (same.compute dst (by rw [same.registers dst List.mem_cons_self]))
  | arithImm op value dst =>
      exact .some (same.compute dst (by rw [same.registers dst List.mem_cons_self]))
  | arith op src dst =>
      exact .some (same.compute dst (by
        rw [same.registers src List.mem_cons_self,
          same.registers dst (List.mem_cons_of_mem _ List.mem_cons_self)]))
  | multiplyImm value src dst =>
      exact .some (same.compute dst (by rw [same.registers src List.mem_cons_self]))
  | signExtend => exact .some (same.move rdx (by rw [same.registers rax List.mem_cons_self]))
  | divide divisor =>
      have divisorSame := same.registers divisor List.mem_cons_self
      obtain ⟨raxSame, rdxSame⟩ :=
        forall_mem_pair.mp (List.forall_mem_cons.mp same.registers).2
      simp only [exec?, divisorSame, raxSame, rdxSame]
      cases quotient? (right.register rdx) (right.register rax) (right.register divisor) with
      | none => exact .none
      | some results =>
          have low := same.compute rax (Eq.refl results.1)
          have high := low.compute rdx (Eq.refl results.2)
          refine .some ⟨forall_mem_pair.mpr ⟨?_, ?_⟩, high.memory, high.flags⟩
          · rw [Machine.register_compute_of_ne _ _ rax_ne_rdx,
              Machine.register_compute_of_ne _ _ rax_ne_rdx]
            exact low.registers rax List.mem_cons_self
          · exact high.registers rdx List.mem_cons_self
  | label _ => exact .some same
  | branch _ _ _ | jump _ | call _ _ => exact .none

end Op

----------------------------------------------------------------------------------------------
-- Steps
----------------------------------------------------------------------------------------------

section

variable {symbols : Label → Word} {code : Array Op} {position : Nat}

/-- An operation without labels to go to has its effect and hands control on. -/
theorem step?_straight {op : Op} (found : code[position]? = some op)
    (straight : op.instr.jumps = []) (machine : Machine)
    : step? symbols code { position, machine }
      = (op.exec? symbols machine).map fun after =>
          { position := position + 1, machine := after } := by
  cases op with
  | branch _ _ _ | jump _ => cases straight
  | _ =>
      simp only [step?, found]
      cases Op.exec? symbols machine _ <;> rfl

theorem Op.fallsThrough_of_straight {op : Op} (straight : op.instr.jumps = [])
    : op.instr.fallsThrough = true := by
  cases op with
  | jump _ => cases straight
  | _ => rfl

theorem Op.defs_of_transfer {op : Op} (transfers : op.instr.jumps ≠ []) : op.instr.defs = [] := by
  cases op with
  | branch _ _ _ | jump _ => rfl
  | _ => exact absurd rfl transfers

/-- An operation with labels to go to changes nothing. Where it goes depends on the flags: to one of
the labels, or on if control can reach the next instruction.
-/
theorem step?_transfer (symbols : Label → Word) {op : Op} (found : code[position]? = some op)
    (transfers : op.instr.jumps ≠ [])
    : ∃ destination : Option Flags → Option Nat,
        (∀ machine,
          step? symbols code { position, machine }
          = (destination machine.flags).map fun position => { position, machine })
        ∧ ∀ flags next,
            destination flags = some next
            → (op.instr.fallsThrough = true ∧ next = position + 1)
              ∨ ∃ label ∈ op.instr.jumps,
                  FlowGraph.labelNode? (code.map Op.instr) label = some next := by
  cases op with
  | jump target =>
      refine ⟨fun _ => FlowGraph.labelNode? (code.map Op.instr) target, fun machine => ?_, ?_⟩
      · simp only [step?, found]
      · exact fun flags next reached => .inr ⟨target, List.mem_singleton_self target, reached⟩
  | branch tested ifTrue ifFalse =>
      refine ⟨fun flags => flags.bind fun flags =>
        if flags.test tested then FlowGraph.labelNode? (code.map Op.instr) ifTrue
        else some (position + 1), fun machine => ?_, ?_⟩
      · simp only [step?, found]
        cases machine.flags with
        | none => rfl
        | some flags => by_cases met : flags.test tested = true <;> simp [met]
      · intro flags next reached
        obtain ⟨flags, -, reached⟩ := Option.bind_eq_some_iff.mp reached
        by_cases met : flags.test tested = true
        · rw [if_pos met] at reached
          exact .inr ⟨ifTrue, List.mem_cons_self, reached⟩
        · rw [if_neg met] at reached
          exact .inl ⟨rfl, (Option.some.inj reached).symm⟩
  | _ => exact absurd rfl transfers

/-- A step changes no register but those its instruction lists as written. -/
theorem step?_unwritten {op : Op} {point next : CodePoint}
    (found : code[point.position]? = some op) (stepped : step? symbols code point = some next)
    {register : Temp} (unwritten : register ∉ op.instr.defs)
    : next.machine.register register = point.machine.register register := by
  by_cases straight : op.instr.jumps = []
  · rw [step?_straight found straight] at stepped
    obtain ⟨after, executed, rfl⟩ := Option.map_eq_some_iff.mp stepped
    exact Op.exec?_unwritten executed unwritten
  · obtain ⟨destination, steps, -⟩ := step?_transfer symbols found straight
    rw [steps] at stepped
    obtain ⟨_, _, rfl⟩ := Option.map_eq_some_iff.mp stepped
    rfl

/-- A step depends on no register but those its instruction lists as read. -/
theorem step?_determined (symbols : Label → Word) {op : Op} (found : code[position]? = some op)
    {left right : Machine} (same : SameOn op.instr.uses left right)
    : Option.Rel
        (fun afterLeft afterRight =>
          afterLeft.position = afterRight.position
          ∧ SameOn op.instr.defs afterLeft.machine afterRight.machine)
        (step? symbols code { position, machine := left })
        (step? symbols code { position, machine := right }) := by
  by_cases straight : op.instr.jumps = []
  · rw [step?_straight found straight, step?_straight found straight]
    have determined := op.exec?_determined symbols same
    generalize op.exec? symbols left = afterLeft at determined ⊢
    generalize op.exec? symbols right = afterRight at determined ⊢
    cases determined with
    | none => exact .none
    | some same => exact .some ⟨rfl, same⟩
  · obtain ⟨destination, steps, -⟩ := step?_transfer symbols found straight
    rw [steps, steps, same.flags]
    cases destination right.flags with
    | none => exact .none
    | some next => exact .some ⟨rfl, Op.defs_of_transfer straight ▸ same.none⟩

/-- A step goes to a label that its instruction lists, or on if the instruction says so. -/
theorem step?_goes {op : Op} {point next : CodePoint} (found : code[point.position]? = some op)
    (stepped : step? symbols code point = some next)
    : (op.instr.fallsThrough = true ∧ next.position = point.position + 1)
      ∨ ∃ label ∈ op.instr.jumps,
          FlowGraph.labelNode? (code.map Op.instr) label = some next.position := by
  by_cases straight : op.instr.jumps = []
  · rw [step?_straight found straight] at stepped
    obtain ⟨after, -, rfl⟩ := Option.map_eq_some_iff.mp stepped
    exact .inl ⟨Op.fallsThrough_of_straight straight, rfl⟩
  · obtain ⟨destination, steps, goes⟩ := step?_transfer symbols found straight
    rw [steps] at stepped
    obtain ⟨_, reached, rfl⟩ := Option.map_eq_some_iff.mp stepped
    exact goes _ _ reached

end

/-- The lists of the operation's instruction say what the operation does, wherever it stands. -/
structure Op.Faithful (op : Op) : Prop where
  /-- A register that is not listed as written keeps its value. -/
  writes
    : ∀ {symbols : Label → Word} {code : Array Op} {point next : CodePoint},
        code[point.position]? = some op
        → step? symbols code point = some next
        → ∀ register ∉ op.instr.defs,
            next.machine.register register = point.machine.register register
  /-- A register that is not listed as read makes no difference: neither to whether there is a step
  and where it goes, nor to what it leaves in memory, in the flags and in the registers listed as
  written.
  -/
  reads
    : ∀ {symbols : Label → Word} {code : Array Op} {position : Nat} {left right : Machine},
        code[position]? = some op
        → SameOn op.instr.uses left right
        → Option.Rel
            (fun afterLeft afterRight =>
              afterLeft.position = afterRight.position
              ∧ SameOn op.instr.defs afterLeft.machine afterRight.machine)
            (step? symbols code { position, machine := left })
            (step? symbols code { position, machine := right })
  /-- Control goes to a label that is listed, or on if it can. -/
  goes
    : ∀ {symbols : Label → Word} {code : Array Op} {point next : CodePoint},
        code[point.position]? = some op
        → step? symbols code point = some next
        → (op.instr.fallsThrough = true ∧ next.position = point.position + 1)
          ∨ ∃ label ∈ op.instr.jumps,
              FlowGraph.labelNode? (code.map Op.instr) label = some next.position
  /-- An instruction that is marked as a move copies one register to another and does no more. -/
  moves
    : op.instr.isMove = true
      → ∃ dst src,
          op.instr.defs = [dst]
          ∧ op.instr.uses = [src]
          ∧ ∀ (symbols : Label → Word) (machine : Machine),
              op.exec? symbols machine = some (machine.move dst (machine.register src))

/-- Every operation is faithful. Clearing is the one whose text names a register that it lists as
written but not as read, since the register's value makes no difference.
-/
theorem Op.faithful (op : Op) : op.Faithful where
  writes found stepped _ unwritten := step?_unwritten found stepped unwritten
  reads found same := step?_determined _ found same
  goes found stepped := step?_goes found stepped
  moves isMove := by
    cases op with
    | copy dst src => exact ⟨dst, src, rfl, rfl, fun _ _ => rfl⟩
    | _ => cases isMove

----------------------------------------------------------------------------------------------
-- Registers that code names
----------------------------------------------------------------------------------------------

/-- Code reads what its task reads, the stack and frame pointers, and what the task may write. -/
theorem Tiling.uses_cases {task : Task} {first next : Nat} {code : List Op}
    (tiling : Tiling task first code next) {op : Op} (member : op ∈ code) {register : Temp}
    (read : register ∈ op.instr.uses)
    : register ∈ task.reads ∨ register ∈ specials ∨ task.MayWrite first next register := by
  obtain ⟨offset, found⟩ := List.mem_iff_getElem?.mp member
  refine (tiling.uses_at found read).imp_right (.imp_right ?_)
  rintro ⟨earlier, before, written⟩
  exact tiling.writesOnly earlier (List.mem_of_mem_take before) register written

theorem Task.destinations_statement_subset (part : Stm)
    : (Task.statement part).destinations ⊆ part.ownTemps := by
  intro register member
  rcases Task.assigned_of_destination member with ⟨src, rfl⟩ | ⟨op, left, right, value, rfl⟩
  · simp [Stm.ownTemps, Stm.operands]
  · simp [Stm.ownTemps]

/-- The machine registers that code names are those of its statement and those of the machine. -/
theorem Tiling.machine_register {part : Stm} {first next : Nat} {code : List Op}
    (tiling : Tiling (.statement part) first code next) {op : Op} (member : op ∈ code)
    {name : String} (named : .fixed name ∈ op.instr.registers)
    : Temp.fixed name ∈ part.ownTemps ∨ Temp.fixed name ∈ X64.registers := by
  have dividing : ∀ register ∈ [rax, rdx], register ∈ X64.registers := by decide
  have saved : ∀ register ∈ callerSaves, register ∈ X64.registers := by decide
  have pointers : ∀ register ∈ specials, register ∈ X64.registers := by decide
  have written : ∀ register, (Task.statement part).MayWrite first next register →
      register = .fixed name → register ∈ part.ownTemps ∨ register ∈ X64.registers := by
    intro register mayWrite isFixed
    cases mayWrite with
    | fresh => cases isFixed
    | division _ isWritten => exact .inr (dividing register isWritten)
    | call _ isWritten => exact .inr (saved register isWritten)
    | destination isWritten => exact .inl (Task.destinations_statement_subset part isWritten)
  rcases List.mem_append.mp named with isWritten | isRead
  · exact written _ (tiling.writesOnly op member _ isWritten) rfl
  · rcases tiling.uses_cases member isRead with reads | isSpecial | mayWrite
    · exact .inl (Task.reads_statement_subset part reads)
    · exact .inr (pointers _ isSpecial)
    · exact written _ mayWrite rfl

/-- No place opens in the name of a register, if machine registers are those of the machine. -/
theorem noPlace_register {register : Temp}
    (isRegister : ∀ name, register = .fixed name → register ∈ registers)
    : '\x60' ∉ register.text.toList := by
  cases register with
  | virtual number =>
      simpa [Temp.text] using noPlace_toDigits number
  | fixed name =>
      have plain : ∀ register ∈ registers, '\x60' ∉ register.text.toList := by decide
      exact plain _ (isRegister name rfl)

----------------------------------------------------------------------------------------------
-- Emitted instructions
----------------------------------------------------------------------------------------------

/-- The instructions selected for a statement tell what they do. Each is faithful; a call lists the
stack and frame pointers and the registers that its arguments are passed in as read, and all
registers that the callee may overwrite as written; and no place of a template is left open, so that
the text is the written form of the operation.
-/
theorem selected_instructions_faithful {tree : Stm} {before after : Selection Op}
    (plainLabels : ∀ label ∈ tree.labels, '\x60' ∉ label.name.toList)
    (machineTemps : ∀ name, Temp.fixed name ∈ tree.temps → Temp.fixed name ∈ registers)
    (selected : rules.selectStatement tree before = .ok () after)
    : ∃ code,
        before.Gains code after
        ∧ ∀ op ∈ code,
            op.Faithful
            ∧ (∀ function count,
                op = .call function count
                → ∃ args,
                    (function, args) ∈ tree.calls
                    ∧ rsp ∈ op.instr.uses
                    ∧ rbp ∈ op.instr.uses
                    ∧ (∀ index < args.length, ∀ register,
                        outArg index = .temp register → register ∈ op.instr.uses)
                    ∧ ∀ register ∈ callerSaves, register ∈ op.instr.defs)
            ∧ op.instr.Filled
            ∧ (∀ naming, op.instr.textWith naming = op.written naming)
            ∧ (∀ naming : Temp → String,
                (∀ register ∈ op.instr.registers, '\x60' ∉ (naming register).toList)
                → '\x60' ∉ (op.instr.textWith naming).toList)
            ∧ '\x60' ∉ op.instr.text.toList := by
  obtain ⟨pieces, gains, tiling⟩ := selectStatement_tiles selected
  refine ⟨pieces.flatten, gains, fun op member => ?_⟩
  have labels : ∀ label ∈ op.labels, '\x60' ∉ label.name.toList :=
    fun label occurs => plainLabels label (tiling.namesOnly op member occurs)
  have text := fun naming => (op.textWith_instr naming labels).2
  have plain : ∀ naming : Temp → String,
      (∀ register ∈ op.instr.registers, '\x60' ∉ (naming register).toList)
      → '\x60' ∉ (op.instr.textWith naming).toList := by
    intro naming names
    rw [text]
    exact op.noPlace_written labels names
  refine ⟨op.faithful, ?_, (op.textWith_instr Temp.text labels).1, text, plain, ?_⟩
  · rintro function count rfl
    obtain ⟨args, isCall, rfl⟩ := tiling.call_of_mem member
    refine ⟨args, isCall, List.mem_cons_self, List.mem_cons_of_mem _ List.mem_cons_self, ?_,
      fun _ saved => saved⟩
    intro index isArg register passed
    rcases outArg_cases index with ⟨_, found, isTemp⟩ | ⟨-, _, isMem⟩
    · rw [isTemp] at passed
      cases passed
      have inTake : (Op.passed args.length)[index]? = some register := by
        rw [Op.passed, List.getElem?_take_of_lt isArg, found]
      exact List.mem_append_right _ (List.mem_of_getElem? inTake)
    · rw [isMem] at passed
      cases passed
  · refine plain Temp.text fun register named => noPlace_register ?_
    rintro name rfl
    obtain ⟨part, isPart, _, _, _, piece, inPiece⟩ := tiling.of_mem member
    rcases piece.machine_register inPiece named with occurs | isRegister
    · exact machineTemps name (List.mem_flatMap_of_mem isPart occurs)
    · exact isRegister

/-- A call whose first argument is a quotient by a machine register. -/
def callOfQuotient : Stm :=
  .exp (.call (.name ⟨"f"⟩) [.binop .div (.temp (.virtual 0)) (.temp rbx), .const 0])

def callOfQuotientCode : List Op :=
  [.copy rax (.virtual 0), .signExtend, .divide rbx, .copy (.virtual 1) rax, .clear rsi,
    .copy rdi (.virtual 1), .call ⟨"f"⟩ 2]

/-- Clearing `rsi` does not read it, and the call after it does. -/
theorem callOfQuotient_faithful
    : ∃ after,
        rules.selectStatement callOfQuotient { session := { temps := 1 } } = .ok () after
        ∧ Selection.Gains { session := { temps := 1 } } callOfQuotientCode after
        ∧ (∀ op ∈ callOfQuotientCode, op.Faithful ∧ op.instr.Filled ∧ '\x60' ∉ op.instr.text.toList)
        ∧ rsi ∈ (Op.call ⟨"f"⟩ 2).instr.uses
        ∧ (Op.divide rbx).instr.text = "idivq   %rbx" := by
  obtain ⟨after, selected, emitted⟩ : ∃ after,
      rules.selectStatement callOfQuotient { session := { temps := 1 } } = .ok () after
      ∧ after.code.toList = callOfQuotientCode := ⟨_, rfl, rfl⟩
  have fixedTemps : ∀ register ∈ callOfQuotient.temps,
      register.isFixed = true → register ∈ registers := by
    decide
  obtain ⟨code, gains, holds⟩ :=
    selected_instructions_faithful (by decide) (fun _ occurs => fixedTemps _ occurs rfl) selected
  obtain rfl : code = callOfQuotientCode := by rw [← emitted, gains, List.nil_append]
  refine ⟨after, selected, gains, fun op member => ?_, ?_, ?_⟩
  · obtain ⟨faithful, -, filled, -, -, plain⟩ := holds op member
    exact ⟨faithful, filled, plain⟩
  · obtain ⟨-, lists, -⟩ := holds (.call ⟨"f"⟩ 2) (by decide)
    obtain ⟨args, isCall, -, -, passed, -⟩ := lists _ _ rfl
    have two : ∀ call ∈ callOfQuotient.calls, call.2.length = 2 := by decide
    exact passed 1 (by rw [two _ isCall]; decide) rsi rfl
  · obtain ⟨-, -, -, text, -⟩ := holds (.divide rbx) (by decide)
    rw [Instr.text, text]
    decide

end TreeTiling.X64
