import Mathlib.Algebra.GroupWithZero.Nat
import Mathlib.Data.List.Nodup
import TreeTiling.Proofs.X64.Acceptance
import TreeTiling.Proofs.X64.Soundness

/-!
A call delivers its arguments: when the transfer is reached, every argument is where the callee
looks for it.

The first pass leaves each argument in a form that neither the code of other arguments nor any store
can change: a constant, a label, or a temporary. The second pass then puts these into the argument
registers and the words of the outgoing area one by one, and no place of an argument is the place
of another. So the values are those from before the call, even of arguments that read the very
places to be written.
-/

namespace TreeTiling.X64

----------------------------------------------------------------------------------------------
-- The places of arguments
----------------------------------------------------------------------------------------------

/-- The distance of an argument's word from the stack pointer, if it has no register. -/
def argOffset (index : Nat) : Word :=
  BitVec.ofNat 64 ((index - argRegs.length) * wordSize)

/-- What a callee finds as the argument with an index. -/
def argument (store : Store) (index : Nat) : Word :=
  match argRegs[index]? with
  | some register => store.register register
  | none => store.memory (store.register rsp + argOffset index)

/-- Puts a value where a callee looks for the argument with an index. -/
def putArg (store : Store) (index : Nat) (value : Word) : Store :=
  match argRegs[index]? with
  | some register => store.assign register value
  | none => store.write (store.register rsp + argOffset index) value

section

variable {store : Store} {index : Nat} {value : Word}

theorem argument_register {register : Temp} (found : argRegs[index]? = some register)
    : argument store index = store.register register := by
  rw [argument, found]

theorem argument_stacked (missing : argRegs[index]? = none)
    : argument store index = store.memory (store.register rsp + argOffset index) := by
  rw [argument, missing]

theorem putArg_register {register : Temp} (found : argRegs[index]? = some register)
    : putArg store index value = store.assign register value := by
  rw [putArg, found]

theorem putArg_stacked (missing : argRegs[index]? = none)
    : putArg store index value = store.write (store.register rsp + argOffset index) value := by
  rw [putArg, missing]

/-- Storing an argument has the effect of putting its value in place. -/
theorem effect?_move_outArg {symbols : Label → Word} {tree : Exp}
    (defined : tree.eval? symbols store = some value)
    : (Stm.move (outArg index) tree).effect? symbols store = some (putArg store index value) := by
  cases found : argRegs[index]? with
  | some register =>
      rw [outArg, found, putArg_register found]
      simp only [Stm.effect?, defined]
      rfl
  | none =>
      rw [outArg, found, putArg_stacked found]
      simp only [Stm.effect?, defined]
      rfl

/-- The stack pointer passes no argument. -/
theorem rsp_notMem_argRegs : rsp ∉ argRegs := by
  decide

theorem virtual_notMem_argRegs (number : Nat) : Temp.virtual number ∉ argRegs := by
  have allFixed : ∀ register ∈ argRegs, register.isFixed = true := by decide
  exact fun member => Bool.false_ne_true (allFixed _ member)

/-- Only argument registers are written. -/
theorem register_putArg {register : Temp} (other : register ∉ argRegs)
    : (putArg store index value).register register = store.register register := by
  cases found : argRegs[index]? with
  | some written =>
      rw [putArg_register found]
      apply Store.register_assign_of_ne
      rintro rfl
      exact other (List.mem_of_getElem? found)
  | none => rw [putArg_stacked found, Store.register_write]

/-- Only the word of an argument is written, and none if it has a register. -/
theorem memory_putArg {place : Word}
    (other : argRegs[index]? = none → place ≠ store.register rsp + argOffset index)
    : (putArg store index value).memory place = store.memory place := by
  cases found : argRegs[index]? with
  | some written => rw [putArg_register found, Store.memory_assign]
  | none =>
      rw [putArg_stacked found]
      exact if_neg (other found)

theorem argument_putArg_self : argument (putArg store index value) index = value := by
  cases found : argRegs[index]? with
  | some register =>
      rw [argument_register found, putArg_register found, Store.register_assign_self]
  | none =>
      rw [argument_stacked found, putArg_stacked found, Store.register_write]
      exact if_pos rfl

/-- Arguments within reach have words of their own. -/
theorem argOffset_inj {other : Nat} (few : index < 2 ^ 60) (otherFew : other < 2 ^ 60)
    (stacked : argRegs[index]? = none) (otherStacked : argRegs[other]? = none)
    (same : argOffset other = argOffset index)
    : other = index := by
  have numbers := congrArg BitVec.toNat same
  simp only [argOffset, BitVec.toNat_ofNat, wordSize] at numbers
  rw [List.getElem?_eq_none_iff] at stacked otherStacked
  rw [Nat.mod_eq_of_lt (by omega), Nat.mod_eq_of_lt (by omega)] at numbers
  omega

/-- Putting one argument in place keeps every other. -/
theorem argument_putArg_of_ne {other : Nat} (ne : other ≠ index) (few : index < 2 ^ 60)
    (otherFew : other < 2 ^ 60)
    : argument (putArg store index value) other = argument store other := by
  cases otherFound : argRegs[other]? with
  | some register =>
      rw [argument_register otherFound, argument_register otherFound]
      cases found : argRegs[index]? with
      | some written =>
          rw [putArg_register found]
          apply Store.register_assign_of_ne
          rintro rfl
          have distinct : argRegs.Nodup := by decide
          obtain ⟨inside, -⟩ := List.getElem?_eq_some_iff.mp otherFound
          exact ne ((List.getElem?_inj inside distinct).mp (otherFound.trans found.symm))
      | none => rw [putArg_stacked found, Store.register_write]
  | none =>
      rw [argument_stacked otherFound, argument_stacked otherFound,
        register_putArg rsp_notMem_argRegs]
      apply memory_putArg
      intro stacked same
      exact ne (argOffset_inj few otherFew stacked otherFound ((BitVec.add_right_inj _).mp same))

end

----------------------------------------------------------------------------------------------
-- All arguments
----------------------------------------------------------------------------------------------

/-- Puts values in place one after the other, each given with its index. -/
def putArgs (store : Store) (entries : List (Nat × Word)) : Store :=
  entries.foldl (fun store entry => putArg store entry.1 entry.2) store

section

variable {store : Store} {entries : List (Nat × Word)}

theorem register_putArgs {register : Temp} (other : register ∉ argRegs)
    : (putArgs store entries).register register = store.register register := by
  induction entries generalizing store with
  | nil => rfl
  | cons entry entries ih => exact ih.trans (register_putArg other)

theorem memory_putArgs {place : Word}
    (other
      : ∀ entry ∈ entries,
          argRegs[entry.1]? = none → place ≠ store.register rsp + argOffset entry.1)
    : (putArgs store entries).memory place = store.memory place := by
  induction entries generalizing store with
  | nil => rfl
  | cons entry entries ih =>
      obtain ⟨otherFirst, otherLater⟩ := List.forall_mem_cons.mp other
      refine (ih ?_).trans (memory_putArg otherFirst)
      rw [register_putArg rsp_notMem_argRegs]
      exact otherLater

/-- Arguments that are not among those put in place stay as they were. -/
theorem argument_putArgs_of_notMem {index : Nat} (few : index < 2 ^ 60)
    (allFew : ∀ entry ∈ entries, entry.1 < 2 ^ 60) (absent : index ∉ entries.map Prod.fst)
    : argument (putArgs store entries) index = argument store index := by
  induction entries generalizing store with
  | nil => rfl
  | cons entry entries ih =>
      obtain ⟨firstFew, laterFew⟩ := List.forall_mem_cons.mp allFew
      rw [List.map_cons, List.mem_cons, not_or] at absent
      exact (ih laterFew absent.2).trans (argument_putArg_of_ne absent.1 firstFew few)

/-- Once all values are in place, each argument is the value that was put there for it. -/
theorem argument_putArgs {entry : Nat × Word} (allFew : ∀ entry ∈ entries, entry.1 < 2 ^ 60)
    (once : (entries.map Prod.fst).Nodup) (member : entry ∈ entries)
    : argument (putArgs store entries) entry.1 = entry.2 := by
  induction entries generalizing store with
  | nil => cases member
  | cons first entries ih =>
      obtain ⟨firstFew, laterFew⟩ := List.forall_mem_cons.mp allFew
      obtain ⟨absent, laterOnce⟩ := List.nodup_cons.mp once
      rcases List.mem_cons.mp member with rfl | later
      · exact (argument_putArgs_of_notMem firstFew laterFew absent).trans argument_putArg_self
      · exact ih laterFew laterOnce later

end

----------------------------------------------------------------------------------------------
-- The first pass
----------------------------------------------------------------------------------------------

section

variable {symbols : Label → Word} {divides : Bool} {first next : Nat} {code : List Op}

theorem readable_temp {register : Temp} (stable : Stable first divides register)
    : Readable first divides (.temp register) := by
  constructor
  · simpa using stable
  · intro found
    simp [Exp.hasDivision, Exp.isDivision] at found

/-- A staged form has the value that the argument had before, and later code cannot change it. -/
theorem Tiling.argument_sound {arg value : Exp}
    (tiling : Tiling (.argument arg value) first code next) (readable : Readable first divides arg)
    {machine : Machine} {word : Word} (defined : arg.eval? symbols machine.toStore = some word)
    : Readable next divides value
      ∧ Runs symbols code machine fun after =>
          Agrees first divides machine.toStore after.toStore
          ∧ value.eval? symbols after.toStore = some word := by
  cases tiling with
  | keepConst | keepName => exact ⟨readable, .nil ⟨.refl _, defined⟩⟩
  | keepRegister _ computed =>
      obtain ⟨stable, run⟩ := computed.sound symbols divides machine word readable defined
      refine ⟨readable_temp stable, run.weaken ?_⟩
      rintro after ⟨agrees, held⟩
      exact ⟨agrees, congrArg some held⟩
  | copyFixed _ computed =>
      obtain ⟨-, run⟩ := computed.sound symbols divides machine word readable defined
      refine ⟨readable_temp (Nat.lt_succ_self _), run.append ?_⟩
      rintro middle ⟨agrees, held⟩
      refine (Runs.put (not_stable_virtual computed.le) agrees rfl rfl).weaken ?_
      rintro after ⟨laterAgrees, copied⟩
      refine ⟨laterAgrees, ?_⟩
      rw [Exp.eval?, copied, held]

/-- All staged forms have the values that the arguments had before the first was computed. By
induction on the arguments: what the others mean is not changed by the code of one, and its staged
form is not changed by their code.
-/
theorem Tiling.arguments_sound {args : List (Exp × Nat)} {staged : List (Nat × Exp)}
    (tiling : Tiling (.arguments args staged) first code next)
    (readable : ∀ entry ∈ args, Readable first divides entry.1) {machine : Machine}
    {entries : List (Nat × Word)}
    (defined
      : args.map (fun entry => (entry.2, entry.1.eval? symbols machine.toStore))
        = entries.map fun entry => (entry.1, some entry.2))
    : (∀ entry ∈ staged, Readable next divides entry.2)
      ∧ Runs symbols code machine fun after =>
          Agrees first divides machine.toStore after.toStore
          ∧ staged.map (fun entry => (entry.1, entry.2.eval? symbols after.toStore))
            = entries.map fun entry => (entry.1, some entry.2) := by
  induction args generalizing staged first code machine entries with
  | nil =>
      cases tiling
      exact ⟨List.forall_mem_nil _, .nil ⟨.refl _, defined⟩⟩
  | cons arg args ih =>
      cases tiling with
      | @moreArguments tree value index _ staged _ middle _ code rest argument others =>
          obtain ⟨argReadable, othersReadable⟩ := List.forall_mem_cons.mp readable
          cases entries with
          | nil => simp at defined
          | cons entry entries =>
              simp only [List.map_cons, List.cons.injEq, Prod.mk.injEq] at defined
              obtain ⟨⟨sameIndex, argDefined⟩, othersDefined⟩ := defined
              obtain ⟨valueReadable, run⟩ := argument.argument_sound argReadable argDefined
              have othersThen : ∀ halfway : Machine,
                  Agrees first divides machine.toStore halfway.toStore
                  → (∀ entry ∈ staged, Readable next divides entry.2)
                    ∧ Runs symbols rest halfway fun after =>
                        Agrees middle divides halfway.toStore after.toStore
                        ∧ staged.map (fun entry => (entry.1, entry.2.eval? symbols after.toStore))
                          = entries.map fun entry => (entry.1, some entry.2) := by
                intro halfway agrees
                refine ih others ?_ ?_
                · intro entry member
                  exact (othersReadable entry member).mono argument.le
                · rw [← othersDefined]
                  apply List.map_congr_left
                  intro entry member
                  rw [agrees.eval? (othersReadable entry member)]
              refine ⟨List.forall_mem_cons.mpr ⟨valueReadable.mono others.le,
                (othersThen machine (.refl _)).1⟩, run.append ?_⟩
              rintro halfway ⟨agrees, held⟩
              refine (othersThen halfway agrees).2.weaken ?_
              rintro after ⟨laterAgrees, othersHeld⟩
              refine ⟨agrees.trans (laterAgrees.mono argument.le), ?_⟩
              rw [List.map_cons, List.map_cons, othersHeld, laterAgrees.eval? valueReadable, held,
                sameIndex]

----------------------------------------------------------------------------------------------
-- The second pass
----------------------------------------------------------------------------------------------

/-- A staged form reads no memory and no argument register, so putting an argument in place keeps
its value.
-/
theorem Staged.eval?_putArg {tree : Exp} (staged : Staged tree) (store : Store) (index : Nat)
    (value : Word)
    : tree.eval? symbols (putArg store index value) = tree.eval? symbols store := by
  cases staged with
  | const | name => rfl
  | register number =>
      rw [Exp.eval?, Exp.eval?, register_putArg (virtual_notMem_argRegs number)]

/-- A staged form that is readable is so whether there are divisions or not. -/
theorem Staged.readable {tree : Exp} (staged : Staged tree)
    (readable : Readable first divides tree)
    : Readable first false tree := by
  cases staged with
  | const | name => exact ⟨by simp, by simp [Exp.hasDivision, Exp.isDivision]⟩
  | register number => exact readable_temp (readable.temps (.virtual number) (by simp))

/-- Without divisions, an argument register is stable. -/
theorem stable_argReg {register : Temp} (member : register ∈ argRegs)
    : Stable first false register := by
  cases register with
  | virtual number => exact absurd member (virtual_notMem_argRegs number)
  | fixed name => exact stable_fixed (.inl rfl)

/-- The stack pointer is stable. -/
theorem stable_rsp : Stable first divides rsp :=
  stable_fixed (.inr ⟨by decide, by decide⟩)

/-- The place of an argument can be read after other code has run. -/
theorem outArg_readable (index : Nat) : Readable first false (outArg index) := by
  cases found : argRegs[index]? with
  | some register =>
      rw [outArg, found]
      exact readable_temp (stable_argReg (List.mem_of_getElem? found))
  | none =>
      rw [outArg, found]
      refine ⟨?_, by simp [Exp.hasDivision, Exp.isDivision]⟩
      simpa using stable_rsp

/-- Stores that agree on the machine registers agree after the same argument is put in place. -/
theorem Agrees.putArg {left right : Store} (agrees : Agrees first false left right) (index : Nat)
    (value : Word)
    : Agrees first false (putArg left index value) (putArg right index value) := by
  cases found : argRegs[index]? with
  | some register =>
      rw [putArg_register found, putArg_register found]
      exact agrees.assign register value
  | none =>
      rw [putArg_stacked found, putArg_stacked found, agrees.register stable_rsp]
      exact agrees.write _ value

theorem Agrees.putArgs {left right : Store} (agrees : Agrees first false left right)
    {entries : List (Nat × Word)}
    : Agrees first false (putArgs left entries) (putArgs right entries) := by
  induction entries generalizing left right with
  | nil => exact agrees
  | cons entry entries ih => exact ih (agrees.putArg entry.1 entry.2)

/-- Storing staged arguments puts their values in place, and changes nothing else that was there
before. By induction on them: a store keeps the values of the staged forms that follow.
-/
theorem Tiling.stores_sound {staged : List (Nat × Exp)}
    (tiling : Tiling (.stores staged) first code next)
    (allStaged : ∀ entry ∈ staged, Staged entry.2)
    (readable : ∀ entry ∈ staged, Readable first false entry.2) {machine : Machine}
    {entries : List (Nat × Word)}
    (defined
      : staged.map (fun entry => (entry.1, entry.2.eval? symbols machine.toStore))
        = entries.map fun entry => (entry.1, some entry.2))
    : Runs symbols code machine fun after =>
        Agrees first false (putArgs machine.toStore entries) after.toStore := by
  induction staged generalizing first code machine entries with
  | nil =>
      cases tiling
      obtain rfl : entries = [] := List.map_eq_nil_iff.mp defined.symm
      exact .nil (.refl _)
  | cons entry staged ih =>
      cases tiling with
      | @moreStores index value _ _ middle _ code rest store others =>
          obtain ⟨valueStaged, othersStaged⟩ := List.forall_mem_cons.mp allStaged
          obtain ⟨valueReadable, othersReadable⟩ := List.forall_mem_cons.mp readable
          cases entries with
          | nil => simp at defined
          | cons entry entries =>
              simp only [List.map_cons, List.cons.injEq, Prod.mk.injEq] at defined
              obtain ⟨⟨rfl, valueDefined⟩, othersDefined⟩ := defined
              have operandsReadable
                  : ∀ operand ∈ (Stm.move (outArg entry.1) value).operands,
                      Readable first false operand := by
                simpa [Stm.operands] using ⟨outArg_readable entry.1, valueReadable⟩
              have run := store.sound symbols false machine _ operandsReadable
                (effect?_move_outArg valueDefined)
              refine run.append ?_
              intro halfway agrees
              have stillDefined
                  : staged.map (fun entry => (entry.1, entry.2.eval? symbols halfway.toStore))
                    = entries.map fun entry => (entry.1, some entry.2) := by
                rw [← othersDefined]
                apply List.map_congr_left
                intro later member
                rw [agrees.eval? (othersReadable later member),
                  (othersStaged later member).eval?_putArg]
              refine (ih others othersStaged
                (fun later member => (othersReadable later member).mono store.le)
                stillDefined).weaken ?_
              intro after laterAgrees
              exact agrees.putArgs.trans (laterAgrees.mono store.le)

end

----------------------------------------------------------------------------------------------
-- Calls
----------------------------------------------------------------------------------------------

/-- The values of arguments with their indices, in the order in which they are put in place. -/
def argEntries (values : List Word) : List (Nat × Word) :=
  values.zipIdx.reverse.map fun entry => (entry.2, entry.1)

theorem mem_argEntries {values : List Word} {index : Nat} {value : Word}
    : (index, value) ∈ argEntries values ↔ values[index]? = some value := by
  simp [argEntries, List.mk_mem_zipIdx_iff_getElem?]

theorem indices_argEntries (values : List Word)
    : (argEntries values).map Prod.fst = (List.range values.length).reverse := by
  simp [argEntries, List.range_eq_range', Function.comp_def]

/-- The code of a call runs up to the transfer, and has then put the values of the arguments in
place after other code that changed nothing stable.
-/
theorem Tiling.call_sound {function : Label} {args : List Exp} {divides : Bool} {first next : Nat}
    {code : List Op} (tiling : Tiling (.call function args) first code next)
    (readable : ∀ arg ∈ args, Readable first divides arg)
    : ∃ front,
        code = front ++ [.call function args.length]
        ∧ ∀ {symbols : Label → Word} {machine : Machine} {values : List Word},
            args.map (·.eval? symbols machine.toStore) = values.map some
            → Runs symbols front machine fun last =>
                ∃ reached,
                  Agrees first divides machine.toStore reached
                  ∧ Agrees first false (putArgs reached (argEntries values)) last.toStore := by
  cases tiling with
  | @call _ _ staged _ _ _ evaluation stores _ stagedArgs storedArgs =>
      refine ⟨evaluation ++ stores, rfl, ?_⟩
      intro symbols machine values defined
      have entriesDefined
          : args.zipIdx.reverse.map (fun entry => (entry.2, entry.1.eval? symbols machine.toStore))
            = (argEntries values).map fun entry => (entry.1, some entry.2) := by
        have indexed := congrArg
          (fun words => (words.zipIdx.map fun entry => (entry.2, entry.1)).reverse) defined
        simpa [argEntries, List.zipIdx_map, Function.comp_def] using indexed
      have indexedReadable : ∀ entry ∈ args.zipIdx.reverse, Readable first divides entry.1 := by
        rintro ⟨arg, index⟩ member
        have found := List.mk_mem_zipIdx_iff_getElem?.mp (List.mem_reverse.mp member)
        exact readable arg (List.mem_of_getElem? found)
      obtain ⟨stagedReadable, run⟩ := stagedArgs.arguments_sound indexedReadable entriesDefined
      refine run.append ?_
      rintro halfway ⟨agrees, stagedDefined⟩
      have allStaged := stagedArgs.staged
      have allReadable := fun entry member =>
        (allStaged entry member).readable (stagedReadable entry member)
      refine (storedArgs.stores_sound allStaged allReadable stagedDefined).weaken ?_
      intro last stored
      exact ⟨halfway.toStore, agrees, stored.mono stagedArgs.le⟩

/-- The code ends in the transfer to a function. From every state in which all arguments have values
it gets there; the callee then finds these values, the first six in registers and the others in the
words above the stack pointer. All other words, the stack pointer and the temporaries below a number
are as they were.
-/
def Delivers (function : Label) (args : List Exp) (first : Nat) (code : List Op) : Prop :=
  ∃ front,
    code = front ++ [.call function args.length]
    ∧ ∀ (symbols : Label → Word) (machine : Machine) (values : List Word),
        args.map (·.eval? symbols machine.toStore) = values.map some
        → ∃ last,
            execAll? symbols front machine = some last
            ∧ (∀ (index : Nat) (register : Temp) (value : Word),
                [rdi, rsi, rdx, rcx, r8, r9][index]? = some register
                → values[index]? = some value
                → last.register register = value)
            ∧ (∀ (index : Nat) (value : Word),
                6 ≤ index
                → values[index]? = some value
                → last.memory (machine.register rsp + BitVec.ofNat 64 (8 * (index - 6))) = value)
            ∧ (∀ place,
                (∀ index,
                  6 ≤ index
                  → index < args.length
                  → place ≠ machine.register rsp + BitVec.ofNat 64 (8 * (index - 6)))
                → last.memory place = machine.memory place)
            ∧ last.register rsp = machine.register rsp
            ∧ ∀ number < first,
                last.register (.virtual number) = machine.register (.virtual number)

theorem argOffset_eq (index : Nat) : argOffset index = BitVec.ofNat 64 (8 * (index - 6)) := by
  rw [argOffset, Nat.mul_comm]
  rfl

theorem getElem?_argRegs_eq_none {index : Nat} : argRegs[index]? = none ↔ 6 ≤ index :=
  List.getElem?_eq_none_iff

/-- Code that has put all values in place delivers them. -/
theorem Tiling.call_delivers {function : Label} {args : List Exp} {divides : Bool}
    {first next : Nat} {code : List Op} (tiling : Tiling (.call function args) first code next)
    (readable : ∀ arg ∈ args, Readable first divides arg) (few : args.length < 2 ^ 60)
    : Delivers function args first code := by
  obtain ⟨front, ends, sound⟩ := tiling.call_sound readable
  refine ⟨front, ends, ?_⟩
  intro symbols machine values defined
  obtain ⟨last, ran, reached, agrees, stored⟩ := sound defined
  have sameLength : values.length = args.length := by
    simpa using (congrArg List.length defined).symm
  have inside : ∀ entry ∈ argEntries values, entry.1 < args.length := by
    intro entry member
    have found := mem_argEntries.mp member
    rw [← sameLength]
    exact (List.getElem?_eq_some_iff.mp found).1
  have allFew : ∀ entry ∈ argEntries values, entry.1 < 2 ^ 60 :=
    fun entry member => Nat.lt_trans (inside entry member) few
  have once : ((argEntries values).map Prod.fst).Nodup := by
    rw [indices_argEntries]
    exact List.nodup_reverse.mpr List.nodup_range
  have delivered {index : Nat} {value : Word} (found : values[index]? = some value)
      : argument (putArgs reached (argEntries values)) index = value :=
    argument_putArgs allFew once (mem_argEntries.mpr found)
  have rspReached : reached.register rsp = machine.register rsp :=
    agrees.register stable_rsp
  have rspPut
      : (putArgs reached (argEntries values)).register rsp = machine.register rsp :=
    (register_putArgs rsp_notMem_argRegs).trans rspReached
  refine ⟨last, ran, ?_, ?_, ?_, ?_, ?_⟩
  · intro index register value found given
    have there := delivered given
    have isArgReg : argRegs[index]? = some register := found
    rw [argument_register isArgReg] at there
    rw [stored.register (stable_argReg (List.mem_of_getElem? isArgReg)), there]
  · intro index value stacked given
    have there := delivered given
    rw [argument_stacked (getElem?_argRegs_eq_none.mpr stacked), rspPut, argOffset_eq] at there
    rw [stored.memory, there]
  · intro place other
    rw [stored.memory, memory_putArgs, agrees.memory]
    intro entry member stacked
    rw [rspReached, argOffset_eq]
    exact other entry.1 (getElem?_argRegs_eq_none.mp stacked) (inside entry member)
  · rw [stored.register stable_rsp, rspPut]
  · intro number lt
    have stable : ∀ {divides : Bool}, Stable first divides (.virtual number) := lt
    rw [stored.register stable, register_putArgs (virtual_notMem_argRegs number),
      agrees.register stable]

section

variable {function : Label} {args : List Exp} {first next : Nat} {code : List Op}

/-- The code for the value of a call is the code of the call. -/
theorem Tiling.of_callValue {register : Temp}
    (tiling : Tiling (.value (.call (.name function) args) register) first code next)
    : register = returnReg ∧ Tiling (.call function args) first code next := by
  cases tiling with
  | callValue call => exact ⟨rfl, call⟩
  | make made => cases made
  | same same => cases same
  | update updated => cases updated
  | multiple multiple => cases multiple

/-- So is the code for its effects. -/
theorem Tiling.of_callEffects
    (tiling : Tiling (.effects (.call (.name function) args)) first code next)
    : Tiling (.call function args) first code next := by
  cases tiling with
  | callEffects call => exact call
  | idle _ leaf => simp [Exp.height] at leaf
  | valueEffects value => exact value.of_callValue.2

end

/-- Selection succeeds on a call of a label whose arguments have no calls, for its value, which is
left in the return register, and for its effects. Either way the code delivers the arguments.
-/
theorem call_delivers_arguments (function : Label) (args : List Exp) (before : Selection Op)
    (callFree : ∀ arg ∈ args, arg.isCallFree = true) (few : args.length < 2 ^ 60)
    (earlier
      : ∀ arg ∈ args, ∀ number, Temp.virtual number ∈ arg.temps → number < before.session.temps)
    (divisions
      : (∀ arg ∈ args, arg.hasDivision = false) ∨ ∀ arg ∈ args, rax ∉ arg.temps ∧ rdx ∉ arg.temps)
    : (∃ after code,
        rules.selectValue (.call (.name function) args) before = .ok returnReg after
        ∧ before.Gains code after
        ∧ Delivers function args before.session.temps code)
      ∧ ∃ after code,
          rules.selectDiscard (.call (.name function) args) before = .ok () after
          ∧ before.Gains code after
          ∧ Delivers function args before.session.temps code := by
  have callsLabels : (Exp.call (.name function) args).CallsLabels := by
    rw [Exp.callsLabels_iff, Exp.indirectCalls_call_name, List.flatMap_eq_nil_iff]
    intro arg member
    exact Exp.callsLabels_iff.mp (Exp.callsLabels_of_isCallFree (callFree arg member))
  have readable
      : ∀ arg ∈ args, Readable before.session.temps (args.any Exp.hasDivision) arg := by
    intro arg member
    refine ⟨fun register occurs => stable_of_earlier (earlier arg member) ?_ occurs, ?_⟩
    · exact divisions.imp (fun none => List.any_eq_false.mpr (by simpa using none)) (· arg member)
    · exact fun divides => List.any_eq_true.mpr ⟨arg, member, divides⟩
  constructor
  · obtain ⟨register, after, selected⟩ := selectValue_accepts callsLabels before
    obtain ⟨code, gains, tiling⟩ := (coversWithin _).value selected
    obtain ⟨rfl, called⟩ := tiling.of_callValue
    exact ⟨after, code, selected, gains, called.call_delivers readable few⟩
  · obtain ⟨_, after, selected⟩ := selectDiscard_accepts callsLabels before
    obtain ⟨code, gains, tiling⟩ := (coversWithin _).effects selected
    exact ⟨after, code, selected, gains, tiling.of_callEffects.call_delivers readable few⟩

/-- Arguments that read each other's places: two registers and two words of the outgoing area change
places, and a quotient goes where its division leaves a remainder.
-/
def crossedArgs : List Exp :=
  [.temp rsi, .temp rdi, .binop .div (.temp (.virtual 0)) (.const 3), .const 0x123456789abcdef,
    .name ⟨"table"⟩, .const 0, .mem (.binop .plus (.temp rsp) (.const 8)), .mem (.temp rsp)]

/-- A machine whose words hold their own addresses. -/
def crossingMachine : Machine where
  register register :=
    if register = rsp then 4096 else if register = rsi then 1 else if register = rdi then 2 else 20
  memory place := place
  flags := none

/-- The crossed arguments are delivered. -/
theorem crossedArgs_delivered
    : ∃ after front last,
        rules.selectDiscard (.call (.name ⟨"f"⟩) crossedArgs) { session := { temps := 1 } }
          = .ok () after
        ∧ Selection.Gains { session := { temps := 1 } } (front ++ [.call ⟨"f"⟩ 8]) after
        ∧ execAll? (fun _ => 77) front crossingMachine = some last
        ∧ [rdi, rsi, rdx, rcx, r8, r9].map last.register = [1, 2, 6, 0x123456789abcdef, 77, 0]
        ∧ last.memory 4096 = 4104
        ∧ last.memory 4104 = 4096
        ∧ last.register (.virtual 0) = 20 := by
  have earlier : ∀ arg ∈ crossedArgs, ∀ number, Temp.virtual number ∈ arg.temps → number < 1 := by
    simp [crossedArgs, rsi, rdi, rsp]
  have divisions : ∀ arg ∈ crossedArgs, rax ∉ arg.temps ∧ rdx ∉ arg.temps := by decide
  obtain ⟨-, after, code, selected, gains, front, rfl, delivers⟩ :=
    call_delivers_arguments ⟨"f"⟩ crossedArgs { session := { temps := 1 } } (by decide) (by decide)
      earlier (.inr divisions)
  obtain ⟨last, ran, inRegisters, inWords, -, -, kept⟩ :=
    delivers (fun _ => 77) crossingMachine [1, 2, 6, 0x123456789abcdef, 77, 0, 4104, 4096]
      (by decide)
  refine ⟨after, front, last, selected, gains, ran, ?_, inWords 6 4104 (by decide) rfl,
    inWords 7 4096 (by decide) rfl, kept 0 (by decide)⟩
  simp only [List.map_cons, List.map_nil, inRegisters 0 rdi 1 rfl rfl, inRegisters 1 rsi 2 rfl rfl,
    inRegisters 2 rdx 6 rfl rfl, inRegisters 3 rcx 0x123456789abcdef rfl rfl,
    inRegisters 4 r8 77 rfl rfl, inRegisters 5 r9 0 rfl rfl]

end TreeTiling.X64
