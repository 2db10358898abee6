import Mathlib.Data.List.Nodup
import TreeTiling.Proofs.Flow.Equations
import TreeTiling.Proofs.X64.CallSites

/-!
The arguments of a call are in place at the transfer.

Storing the arguments writes each argument register once and no other fixed register, so from its
store on a register keeps its argument. It is live until the transfer, which reads it.
-/

namespace TreeTiling.X64

----------------------------------------------------------------------------------------------
-- The passes of a call
----------------------------------------------------------------------------------------------

/-- Staging keeps the indices of the arguments; by induction on them. -/
theorem Tiling.staged_indices {args : List (Exp × Nat)} {staged : List (Nat × Exp)}
    {first next : Nat} {code : List Op} (tiling : Tiling (.arguments args staged) first code next)
    : staged.map Prod.fst = args.map Prod.snd := by
  induction args generalizing staged first code with
  | nil =>
      cases tiling
      rfl
  | cons arg rest ih =>
      cases tiling with
      | moreArguments argument others => simp [ih others]

/-- The code of the two passes covers the arguments and their stores. -/
theorem CallPasses.tilings {args : List Exp} {staged : List (Nat × Exp)}
    {evaluation stores : List Op} (passes : CallPasses args staged evaluation stores)
    : ∃ first middle next,
        Tiling (.arguments args.zipIdx.reverse staged) first evaluation middle
        ∧ Tiling (.stores staged) middle stores next := by
  obtain ⟨bound, before, middle, after, stagedArgs, evaluationGains, storedArgs, storesGains⟩ :=
    passes
  obtain ⟨evaluationCode, gains, evaluationTiling⟩ := (coversWithin bound).arguments stagedArgs
  obtain rfl : evaluation = evaluationCode :=
    List.append_cancel_left (evaluationGains.symm.trans gains)
  obtain ⟨storesCode, gains, storesTiling⟩ := (coversWithin bound).stores storedArgs
  obtain rfl : stores = storesCode := List.append_cancel_left (storesGains.symm.trans gains)
  exact ⟨_, _, _, evaluationTiling, storesTiling⟩

/-- The items of a list at the first indices are its first items, by induction on their number. -/
theorem filterMap_range {α : Type} (items : List α) (count : Nat)
    : (List.range count).filterMap (fun index => items[index]?) = items.take count := by
  induction count with
  | zero => simp
  | succ count ih =>
      rw [List.range_succ, List.filterMap_append, ih, List.take_add_one]
      cases found : items[count]? <;> simp [found]

/-- The stores of a call are to the argument registers that it passes, the last first. -/
theorem CallPasses.destinations {args : List Exp} {staged : List (Nat × Exp)}
    {evaluation stores : List Op} (passes : CallPasses args staged evaluation stores)
    : (Task.stores staged).destinations = (Op.passed args.length).reverse := by
  obtain ⟨_, _, _, evaluationTiling, _⟩ := passes.tilings
  have indices : staged.map Prod.fst = (List.range args.length).reverse := by
    rw [evaluationTiling.staged_indices]
    simp [List.range_eq_range']
  calc staged.filterMap (fun entry => argRegs[entry.1]?)
      = (staged.map Prod.fst).filterMap (fun index => argRegs[index]?) := by
        rw [List.filterMap_map]
        rfl
    _ = (Op.passed args.length).reverse := by
        rw [indices, List.filterMap_reverse, filterMap_range, Op.passed]

----------------------------------------------------------------------------------------------
-- Storing the arguments
----------------------------------------------------------------------------------------------

/-- No operation of the code writes a register. -/
def Spares (register : Temp) (code : List Op) : Prop :=
  ∀ op ∈ code, register ∉ op.instr.defs

/-- Code of a task without divisions and calls spares the fixed registers other than its
destinations.
-/
theorem WritesOnly.spares {task : Task} {first next : Nat} {code : List Op} {register : Temp}
    (writes : WritesOnly (task.MayWrite first next) code) (isFixed : register.isFixed = true)
    (plain : Plain task.subtrees) (other : register ∉ task.destinations)
    : Spares register code := by
  intro op member written
  rcases (writes op member register written).of_plain plain with ⟨number, rfl, -⟩ | isDestination
  · cases isFixed
  · exact other isDestination

section

variable {index : Nat} {value : Exp} {register : Temp} {first next : Nat} {code : List Op}

/-- Storing an argument writes its register, if it has one, with the last operation only. -/
theorem Tiling.store_writes
    (tiling : Tiling (.statement (.move (outArg index) value)) first code next)
    (staged : Staged value) (isFixed : register.isFixed = true)
    (found : argRegs[index]? = some register)
    : ∃ before store,
        code = before ++ [store] ∧ register ∈ store.instr.defs ∧ Spares register before := by
  rcases outArg_cases index with ⟨_, again, isTemp⟩ | ⟨missing, -⟩
  · obtain rfl := Option.some.inj (found.symm.trans again)
    rw [isTemp] at tiling
    obtain ⟨before, store, rfl, defs, writes⟩ := tiling.assigns
    refine ⟨before, store, rfl, by simp [defs], writes.spares isFixed ?_ List.not_mem_nil⟩
    simpa [Task.subtrees, Task.trees] using staged.plain
  · rw [found] at missing
    cases missing

/-- Storing an argument spares the other fixed registers. -/
theorem Tiling.store_spares
    (tiling : Tiling (.statement (.move (outArg index) value)) first code next)
    (staged : Staged value) (isFixed : register.isFixed = true)
    (other : argRegs[index]? ≠ some register)
    : Spares register code := by
  refine tiling.writesOnly.spares isFixed ?_ ?_
  · intro tree occurs
    simp only [Task.subtrees, Task.trees, Stm.operands, List.flatMap_cons, List.flatMap_nil,
      List.mem_append, List.not_mem_nil, or_false] at occurs
    rcases occurs with place | inValue
    · exact outArg_plain index tree place
    · exact staged.plain tree inValue
  · rw [destinations_store]
    simpa using other

end

/-- Storing staged arguments writes a register once if it is a destination once: the operation that
does stands between code that spares the register. By induction on the stores.
-/
theorem Tiling.stores_once {staged : List (Nat × Exp)} {first next : Nat} {code : List Op}
    {register : Temp} (tiling : Tiling (.stores staged) first code next)
    (allStaged : ∀ entry ∈ staged, Staged entry.2) (isFixed : register.isFixed = true)
    (once : (Task.stores staged).destinations.Nodup)
    (member : register ∈ (Task.stores staged).destinations)
    : ∃ before store after,
        code = before ++ store :: after
        ∧ register ∈ store.instr.defs
        ∧ Spares register before
        ∧ Spares register after := by
  induction staged generalizing first code with
  | nil => cases member
  | cons entry staged ih =>
      obtain ⟨index, value⟩ := entry
      obtain ⟨valueStaged, restStaged⟩ := List.forall_mem_cons.mp allStaged
      rw [destinations_stores_cons, destinations_store] at once member
      obtain ⟨-, restOnce, apart⟩ := List.nodup_append.mp once
      cases tiling with
      | @moreStores _ _ _ _ _ _ code rest store others =>
          by_cases here : argRegs[index]? = some register
          · obtain ⟨before, op, rfl, written, spared⟩ :=
              store.store_writes valueStaged isFixed here
            have restSpares : Spares register rest := by
              refine others.writesOnly.spares isFixed (stores_plain restStaged) ?_
              intro later
              exact apart register (by simp [here]) register later rfl
            exact ⟨before, op, rest, by simp, written, spared, restSpares⟩
          · have later : register ∈ (Task.stores staged).destinations := by
              rcases List.mem_append.mp member with first | later
              · exact absurd (by simpa using first) here
              · exact later
            obtain ⟨before, op, after, rfl, written, spared, sparedAfter⟩ :=
              ih others restStaged restOnce later
            have spares := store.store_spares valueStaged isFixed here
            exact ⟨code ++ before, op, after, by simp, written,
              List.forall_mem_append.mpr ⟨spares, spared⟩, sparedAfter⟩

----------------------------------------------------------------------------------------------
-- From the store to the transfer
----------------------------------------------------------------------------------------------

/-- Between code that spares a register, the operation that writes it is the only one. -/
theorem Spares.position {register : Temp} {before after : List Op} {store op : Op} {offset : Nat}
    (spared : Spares register before) (sparedAfter : Spares register after)
    (found : (before ++ store :: after)[offset]? = some op) (written : register ∈ op.instr.defs)
    : offset = before.length := by
  rcases Nat.lt_trichotomy offset before.length with earlier | same | later
  · rw [List.getElem?_append_left earlier] at found
    exact absurd written (spared op (List.mem_of_getElem? found))
  · exact same
  · obtain ⟨place, rfl⟩ : ∃ place, offset = before.length + (place + 1) :=
      ⟨offset - before.length - 1, by omega⟩
    rw [List.getElem?_append_right (by omega), Nat.add_sub_cancel_left,
      List.getElem?_cons_succ] at found
    exact absurd written (sparedAfter op (List.mem_of_getElem? found))

/-- The registers that a node of the code's graph writes are those of its operation. -/
theorem defs_build {code : Array Op} {node : Nat} {op : Op} (found : code[node]? = some op)
    : (FlowGraph.build (code.map Op.instr)).defs node = op.instr.defs := by
  simp [FlowGraph.defs, FlowGraph.build, found]

theorem uses_build {code : Array Op} {node : Nat} {op : Op} (found : code[node]? = some op)
    : (FlowGraph.build (code.map Op.instr)).uses node = op.instr.uses := by
  simp [FlowGraph.uses, FlowGraph.build, found]

/-- Between two nodes a register is written once, and from there on it is live until the second,
which finds it live.
-/
def KeptUntil (graph : FlowGraph) (register : Temp) (stored called : Nat) : Prop :=
  ∃ store,
    stored ≤ store
    ∧ store < called
    ∧ register ∈ graph.defs store
    ∧ (∀ other, stored ≤ other → other < called → register ∈ graph.defs other → other = store)
    ∧ (∀ node, store ≤ node → node < called → register ∈ (Liveness.compute graph).liveOut node)
    ∧ register ∈ (Liveness.compute graph).liveIn called

/-- Straight code that writes a register once, in front of an operation that reads it, keeps the
register until there.
-/
theorem keptUntil_of_codeAt {code : Array Op} {stored : Nat} {before after : List Op}
    {store transfer : Op} {register : Temp}
    (standsAt : CodeAt code stored ((before ++ store :: after) ++ [transfer]))
    (written : register ∈ store.instr.defs) (spared : Spares register before)
    (sparedAfter : Spares register after)
    (falls : ∀ op ∈ before ++ store :: after, op.instr.fallsThrough = true)
    (reads : register ∈ transfer.instr.uses)
    : KeptUntil (FlowGraph.build (code.map Op.instr)) register stored
        (stored + (before ++ store :: after).length) := by
  have transferAt := standsAt.right.head
  -- every node of the stretch has its operation
  have operation : ∀ {node : Nat}, stored ≤ node → node < stored + (before ++ store :: after).length
      → ∃ offset op,
          node = stored + offset
          ∧ code[node]? = some op
          ∧ (before ++ store :: after)[offset]? = some op := by
    intro node le lt
    obtain ⟨offset, rfl⟩ := Nat.exists_eq_add_of_le le
    have inside : offset < (before ++ store :: after).length := by omega
    have found := List.getElem?_eq_getElem inside
    exact ⟨offset, _, rfl, (standsAt.left.getElem? inside).trans found, found⟩
  have only : ∀ other, stored ≤ other → other < stored + (before ++ store :: after).length
      → register ∈ (FlowGraph.build (code.map Op.instr)).defs other
      → other = stored + before.length := by
    intro other le lt defines
    obtain ⟨offset, op, rfl, found, place⟩ := operation le lt
    rw [defs_build found] at defines
    rw [spared.position sparedAfter place defines]
  have live : register ∈ (Liveness.compute (FlowGraph.build (code.map Op.instr))).liveIn
      (stored + (before ++ store :: after).length) := by
    rw [Liveness.mem_liveIn_iff (FlowGraph.build_closed _), uses_build transferAt]
    exact .inl reads
  have storeInside : before.length < (before ++ store :: after).length := by simp
  have storeAt : code[stored + before.length]? = some store := by
    rw [standsAt.left.getElem? storeInside]
    simp
  refine ⟨stored + before.length, Nat.le_add_right _ _, by omega, ?_, only, ?_, live⟩
  · rw [defs_build storeAt]
    exact written
  · intro node le lt
    refine Liveness.live_along ?_ ?_ ?_ live le lt
    · have inside := (Array.getElem?_eq_some_iff.mp transferAt).1
      simpa using inside
    · intro node instr le lt found
      obtain ⟨offset, op, rfl, opAt, place⟩ := operation (by omega) lt
      rw [Array.getElem?_map, opAt] at found
      obtain rfl := Option.some.inj found
      exact falls op (List.mem_of_getElem? place)
    · intro node le lt defines
      have same := only node (by omega) lt defines
      omega

/-- The register of every argument is written once by the stores, and live from there on. -/
theorem CallSite.keptUntil {code : Array Op} {call : Label × List Exp} {stored called : Nat}
    (site : CallSite code call stored called) {index : Nat} {register : Temp}
    (inside : index < call.2.length) (found : argRegs[index]? = some register)
    : KeptUntil (FlowGraph.build (code.map Op.instr)) register stored called := by
  obtain ⟨staged, evaluation, stores, evaluated, passes, standsAt, rfl, rfl⟩ := site
  obtain ⟨_, _, _, evaluationTiling, storesTiling⟩ := passes.tilings
  have isPassed : register ∈ Op.passed call.2.length := by
    refine List.mem_of_getElem? (i := index) ?_
    rw [Op.passed, List.getElem?_take_of_lt inside, found]
  have isFixed : register.isFixed = true := by
    have allFixed : ∀ register ∈ argRegs, register.isFixed = true := by decide
    exact allFixed register (List.mem_of_getElem? found)
  have once : (Task.stores staged).destinations.Nodup := by
    have distinct : argRegs.Nodup := by decide
    rw [passes.destinations, List.nodup_reverse]
    exact distinct.sublist (List.take_sublist _ _)
  have member : register ∈ (Task.stores staged).destinations := by
    rw [passes.destinations]
    exact List.mem_reverse.mpr isPassed
  obtain ⟨before, store, after, rfl, written, spared, sparedAfter⟩ :=
    storesTiling.stores_once evaluationTiling.staged isFixed once member
  rw [List.append_assoc] at standsAt
  refine keptUntil_of_codeAt standsAt.right written spared sparedAfter ?_ ?_
  · exact fun _ => storesTiling.fallsThrough rfl
  · exact List.mem_append_right _ isPassed

/-- In the code of a body the transfers are those of its calls, in the order in which they are made.
At each of them, the register of every argument that has one was written once since the arguments
were computed, and it is live from there up to the transfer.
-/
theorem argument_registers_kept_until_call {body : Stm} {session after : Session} {code : Array Op}
    (selected : rules.selectBody body session = (.ok code, after))
    : List.Forall₂ (fun call called =>
        (∃ stored, CallSite code call stored called)
        ∧ ∀ stored index register,
            CallSite code call stored called
            → index < call.2.length
            → argRegs[index]? = some register
            → KeptUntil (FlowGraph.build (code.map Op.instr)) register stored called)
        body.calls (callPositions 0 code.toList) := by
  refine (selectBody_callsAre selected).imp ?_
  intro call called stands
  refine ⟨stands, ?_⟩
  intro stored index register site inside found
  exact site.keptUntil inside found

/-- Arguments of a call, one of which divides and two of which call. -/
def nestedArgs : List Exp :=
  [.binop .div (.call (.name ⟨"a"⟩) []) (.temp (.virtual 0)),
    .temp (.virtual 1),
    .call (.name ⟨"b"⟩) [.const 1]]

def nestedCallsCode : Array Op :=
  #[.loadImm 1 rdi, .call ⟨"b"⟩ 1, .copy (.virtual 2) rax, .call ⟨"a"⟩ 0, .copy rax rax, .signExtend,
    .divide (.virtual 0), .copy (.virtual 3) rax, .copy rdx (.virtual 2), .copy rsi (.virtual 1),
    .copy rdi (.virtual 3), .call ⟨"g"⟩ 3]

/-- Although the division and the calls write `rdx`, it is kept from the store of the third argument
on.
-/
theorem nestedCalls_registers_kept
    : ∃ after,
        rules.selectBody (.exp (.call (.name ⟨"g"⟩) nestedArgs)) { temps := 2 }
          = (.ok nestedCallsCode, after)
        ∧ ∃ stored,
            CallSite nestedCallsCode (⟨"g"⟩, nestedArgs) stored 11
            ∧ KeptUntil (FlowGraph.build (nestedCallsCode.map Op.instr)) rdx stored 11 := by
  obtain ⟨after, selected⟩ : ∃ after,
      rules.selectBody (.exp (.call (.name ⟨"g"⟩) nestedArgs)) { temps := 2 }
      = (.ok nestedCallsCode, after) := ⟨_, rfl⟩
  have kept := argument_registers_kept_until_call selected
  have calls : (Stm.exp (.call (.name ⟨"g"⟩) nestedArgs)).calls
      = [(⟨"b"⟩, [.const 1]), (⟨"a"⟩, []), (⟨"g"⟩, nestedArgs)] :=
    rfl
  have positions : callPositions 0 nestedCallsCode.toList = [1, 3, 11] := by decide
  simp only [calls, positions, List.forall₂_cons] at kept
  obtain ⟨-, -, ⟨⟨stored, site⟩, registers⟩, -⟩ := kept
  exact ⟨after, selected, stored, site, registers stored 2 rdx site (by decide) rfl⟩

end TreeTiling.X64
