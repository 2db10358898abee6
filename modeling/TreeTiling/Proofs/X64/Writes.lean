import TreeTiling.Proofs.Tree.Nesting
import TreeTiling.Proofs.X64.Tiling

/-!
Which registers the code of a task writes: the temporaries it takes, the destinations that the task
names, `rax` and `rdx` if it divides, and what a callee may overwrite if it calls.
-/

namespace TreeTiling.X64

----------------------------------------------------------------------------------------------
-- The trees of a task
----------------------------------------------------------------------------------------------

/-- No tree of a list is a division or a call. -/
def Plain (trees : List Exp) : Prop :=
  ∀ tree ∈ trees, tree.isDivision = false ∧ tree.isCall = false

/-- The trees that a memory operand is computed from, in order. -/
def AddressForm.trees : AddressForm → List Exp
  | direct base => [base]
  | displaced _ base => [base]
  | indexed base index => [base, index]
  | scaled base index _ => [base, index]

namespace Task

/-- The trees that a task is about, in the order in which they are computed. -/
def trees : Task → List Exp
  | value tree _ => [tree]
  | address form _ => form.trees
  | comparison _ left right _ => [left, right]
  | argument arg _ => [arg]
  | arguments args _ => args.map Prod.fst
  | stores staged => staged.flatMap fun entry => [outArg entry.1, entry.2]
  | call function args => [.call (.name function) args]
  | effects tree => [tree]
  | statement tree => tree.operands

/-- The trees of a task and all that is inside them. -/
def subtrees (task : Task) : List Exp :=
  task.trees.flatMap Exp.subtrees

/-- The registers that a task is to write. -/
def destinations : Task → List Temp
  | statement (.move (.temp dst) _) => [dst]
  | statement (.cmove _ _ _ dst _) => [dst]
  | stores staged => staged.filterMap fun entry => argRegs[entry.1]?
  | _ => []

/-- The registers that the code of a task may write if it takes the temporaries between two numbers.
-/
inductive MayWrite (task : Task) (first next : Nat) : Temp → Prop where
  | fresh {number : Nat} (le : first ≤ number) (lt : number < next)
    : MayWrite task first next (.virtual number)
  | division {register : Temp} (divides : ∃ tree ∈ task.subtrees, tree.isDivision = true)
    (member : register ∈ [rax, rdx]) : MayWrite task first next register
  | call {register : Temp} (calls : ∃ tree ∈ task.subtrees, tree.isCall = true)
    (member : register ∈ callerSaves) : MayWrite task first next register
  | destination {register : Temp} (member : register ∈ task.destinations)
    : MayWrite task first next register

/-- What a part may write the whole may write, as far as the whole has the part's destinations. -/
theorem MayWrite.of_part {part whole : Task} {first next start stop : Nat} {register : Temp}
    (written : part.MayWrite start stop register) (inside : part.subtrees ⊆ whole.subtrees)
    (le : first ≤ start) (ge : stop ≤ next)
    (destinations : ∀ register ∈ part.destinations, whole.MayWrite first next register)
    : whole.MayWrite first next register := by
  cases written with
  | fresh startLe ltStop => exact .fresh (Nat.le_trans le startLe) (Nat.lt_of_lt_of_le ltStop ge)
  | division divides member =>
      obtain ⟨tree, occurs, isDivision⟩ := divides
      exact .division ⟨tree, inside occurs, isDivision⟩ member
  | call calls member =>
      obtain ⟨tree, occurs, isCall⟩ := calls
      exact .call ⟨tree, inside occurs, isCall⟩ member
  | destination member => exact destinations register member

/-- A task without divisions and calls writes its temporaries and its destinations. -/
theorem MayWrite.of_plain {task : Task} {first next : Nat} {register : Temp}
    (written : task.MayWrite first next register)
    (plain : Plain task.subtrees)
    : (∃ number, register = .virtual number ∧ first ≤ number ∧ number < next)
      ∨ register ∈ task.destinations := by
  cases written with
  | fresh le lt => exact .inl ⟨_, rfl, le, lt⟩
  | division divides =>
      obtain ⟨tree, occurs, isDivision⟩ := divides
      rw [(plain tree occurs).1] at isDivision
      cases isDivision
  | call calls =>
      obtain ⟨tree, occurs, isCall⟩ := calls
      rw [(plain tree occurs).2] at isCall
      cases isCall
  | destination member => exact .inr member

end Task

theorem AddressForm.Of.subtrees_subset {form : AddressForm} {tree : Exp} (of : form.Of tree)
    : form.trees.flatMap Exp.subtrees ⊆ tree.subtrees := by
  intro part occurs
  cases of with
  | direct => simpa [AddressForm.trees] using occurs
  | displaced | indexed | scaled =>
      simp only [AddressForm.trees, List.flatMap_cons, List.flatMap_nil, List.mem_append,
        List.not_mem_nil, or_false] at occurs
      simp only [Exp.subtrees, List.mem_cons, List.mem_append]
      grind

theorem SameAs.subtrees_subset {tree operand : Exp} (same : SameAs tree operand)
    : operand.subtrees ⊆ tree.subtrees := by
  intro part occurs
  cases same <;> simp [occurs]

theorem UpdatedBy.subtrees_subset {tree operand : Exp} {update : Temp → Op}
    (updated : UpdatedBy tree operand update)
    : operand.subtrees ⊆ tree.subtrees := by
  intro part occurs
  cases updated <;> simp [occurs]

theorem MultipleOf.subtrees_subset {tree factor : Exp} {value : Word}
    (multiple : MultipleOf tree factor value)
    : factor.subtrees ⊆ tree.subtrees := by
  intro part occurs
  cases multiple <;> simp [occurs]

----------------------------------------------------------------------------------------------
-- What code writes
----------------------------------------------------------------------------------------------

theorem MadeBy.defs {tree : Exp} {make : Temp → Op} (made : MadeBy tree make) (dst : Temp)
    : (make dst).instr.defs = [dst] := by
  cases made <;> rfl

theorem UpdatedBy.defs {tree operand : Exp} {update : Temp → Op}
    (updated : UpdatedBy tree operand update) (dst : Temp)
    : (update dst).instr.defs = [dst] := by
  cases updated <;> rfl

/-- All registers that code writes are allowed. -/
def WritesOnly (allowed : Temp → Prop) (code : List Op) : Prop :=
  ∀ op ∈ code, ∀ register ∈ op.instr.defs, allowed register

namespace WritesOnly

variable {allowed more : Temp → Prop}

theorem nil : WritesOnly allowed [] := by
  intro op member
  cases member

theorem append {first second : List Op} (firstWrites : WritesOnly allowed first)
    (secondWrites : WritesOnly allowed second)
    : WritesOnly allowed (first ++ second) :=
  List.forall_mem_append.mpr ⟨firstWrites, secondWrites⟩

theorem cons {op : Op} {code : List Op} (writes : ∀ register ∈ op.instr.defs, allowed register)
    (rest : WritesOnly allowed code)
    : WritesOnly allowed (op :: code) :=
  List.forall_mem_cons.mpr ⟨writes, rest⟩

/-- An operation that writes nothing. -/
theorem silent {op : Op} {code : List Op} (defs : op.instr.defs = [])
    (rest : WritesOnly allowed code)
    : WritesOnly allowed (op :: code) := by
  refine .cons ?_ rest
  rw [defs]
  exact fun _ member => absurd member List.not_mem_nil

/-- An operation that writes one register. -/
theorem writing {op : Op} {register : Temp} {code : List Op} (defs : op.instr.defs = [register])
    (isAllowed : allowed register) (rest : WritesOnly allowed code)
    : WritesOnly allowed (op :: code) := by
  refine .cons ?_ rest
  rw [defs]
  exact List.forall_mem_singleton.mpr isAllowed

theorem mono {code : List Op} (writes : WritesOnly allowed code)
    (implies : ∀ register, allowed register → more register)
    : WritesOnly more code := by
  intro op member register written
  exact implies register (writes op member register written)

/-- Code of a part without destinations writes what the whole may write. -/
theorem of_part {part whole : Task} {first next start stop : Nat} {code : List Op}
    (writes : WritesOnly (part.MayWrite start stop) code)
    (inside : part.subtrees ⊆ whole.subtrees) (le : first ≤ start) (ge : stop ≤ next)
    (none : part.destinations = [])
    : WritesOnly (whole.MayWrite first next) code := by
  refine writes.mono fun register written => written.of_part inside le ge ?_
  rw [none]
  exact fun _ member => absurd member List.not_mem_nil

/-- Two values one after the other write what a task on both may write. -/
theorem both {left right : Exp} {leftRegister rightRegister : Temp} {whole : Task}
    {first middle next stop : Nat} {leftCode rightCode : List Op}
    (leftWrites : WritesOnly ((Task.value left leftRegister).MayWrite first middle) leftCode)
    (rightWrites : WritesOnly ((Task.value right rightRegister).MayWrite middle next) rightCode)
    (inside : left.subtrees ++ right.subtrees ⊆ whole.subtrees) (leftLe : first ≤ middle)
    (rightLe : middle ≤ next) (ge : next ≤ stop)
    : WritesOnly (whole.MayWrite first stop) (leftCode ++ rightCode) := by
  obtain ⟨leftInside, rightInside⟩ := List.append_subset.mp inside
  refine .append (leftWrites.of_part ?_ (Nat.le_refl _) (Nat.le_trans rightLe ge) rfl)
    (rightWrites.of_part ?_ leftLe ge rfl)
  · simpa [Task.subtrees, Task.trees] using leftInside
  · simpa [Task.subtrees, Task.trees] using rightInside

end WritesOnly

/-- An argument is left in its register, or in a slot of the outgoing area if it has none. -/
theorem outArg_cases (index : Nat)
    : (∃ register, argRegs[index]? = some register ∧ outArg index = .temp register)
      ∨ (argRegs[index]? = none
        ∧ ∃ slot, outArg index = .mem (.binop .plus (.temp rsp) (.const slot))) := by
  unfold outArg
  cases argRegs[index]? with
  | some register => exact .inl ⟨register, rfl, rfl⟩
  | none => exact .inr ⟨rfl, _, rfl⟩

/-- The destination of a statement is that of an assignment or of a conditional move. -/
theorem Task.assigned_of_destination {tree : Stm} {register : Temp}
    (member : register ∈ (Task.statement tree).destinations)
    : (∃ src, tree = .move (.temp register) src)
      ∨ ∃ op left right value, tree = .cmove op left right register value := by
  cases tree with
  | move dst src =>
      cases dst with
      | temp dst =>
          obtain rfl := List.mem_singleton.mp member
          exact .inl ⟨src, rfl⟩
      | const _ | name _ | mem _ | binop _ _ _ | call _ _ => cases member
  | cmove op left right dst value =>
      obtain rfl := List.mem_singleton.mp member
      exact .inr ⟨op, left, right, value, rfl⟩
  | label _ | jump _ | cjump _ _ _ _ _ | exp _ | seq _ => cases member

/-- Storing an argument has the argument's register as destination, if it has one. -/
theorem destinations_store (index : Nat) (value : Exp)
    : (Task.statement (.move (outArg index) value)).destinations = argRegs[index]?.toList := by
  rcases outArg_cases index with ⟨register, found, isTemp⟩ | ⟨missing, slot, isMem⟩
  · rw [found, isTemp]
    rfl
  · rw [missing, isMem]
    rfl

theorem destinations_stores_cons (index : Nat) (value : Exp) (staged : List (Nat × Exp))
    : (Task.stores ((index, value) :: staged)).destinations
      = (Task.statement (.move (outArg index) value)).destinations
        ++ (Task.stores staged).destinations := by
  rw [destinations_store]
  simp only [Task.destinations, List.filterMap_cons]
  cases argRegs[index]? <;> rfl

/-- The place of an argument neither divides nor calls. -/
theorem outArg_plain (index : Nat) : Plain (outArg index).subtrees := by
  intro tree occurs
  rcases outArg_cases index with ⟨register, -, isTemp⟩ | ⟨-, slot, isMem⟩
  · simp only [isTemp, Exp.subtrees, List.mem_singleton] at occurs
    subst tree
    exact ⟨rfl, rfl⟩
  · simp only [isMem, Exp.subtrees, List.mem_cons, List.cons_append, List.nil_append,
      List.not_mem_nil, or_false] at occurs
    rcases occurs with rfl | rfl | rfl | rfl <;> exact ⟨rfl, rfl⟩

/-- A staged argument neither divides nor calls. -/
theorem Staged.plain {value : Exp} (staged : Staged value) : Plain value.subtrees := by
  intro tree occurs
  cases staged with
  | const | name | register =>
      simp only [Exp.subtrees, List.mem_singleton] at occurs
      subst tree
      exact ⟨rfl, rfl⟩

/-- Storing staged arguments neither divides nor calls. -/
theorem stores_plain {staged : List (Nat × Exp)} (allStaged : ∀ entry ∈ staged, Staged entry.2)
    : Plain (Task.stores staged).subtrees := by
  intro tree occurs
  obtain ⟨operand, member, occurs⟩ := List.mem_flatMap.mp occurs
  obtain ⟨⟨index, value⟩, isEntry, member⟩ := List.mem_flatMap.mp member
  simp only [List.mem_cons, List.not_mem_nil, or_false] at member
  rcases member with rfl | rfl
  · exact outArg_plain index tree occurs
  · exact (allStaged _ isEntry).plain tree occurs

/-- What storing staged arguments writes, a call may write. -/
theorem Task.MayWrite.of_stores {staged : List (Nat × Exp)} {whole : Task}
    {first start next : Nat} {register : Temp}
    (written : (Task.stores staged).MayWrite start next register)
    (allStaged : ∀ entry ∈ staged, Staged entry.2)
    (calls : ∃ tree ∈ whole.subtrees, tree.isCall = true) (le : first ≤ start)
    : whole.MayWrite first next register := by
  rcases written.of_plain (stores_plain allStaged) with ⟨number, rfl, startLe, lt⟩ | member
  · exact .fresh (Nat.le_trans le startLe) lt
  · obtain ⟨entry, -, found⟩ := List.mem_filterMap.mp member
    have saved : ∀ register ∈ argRegs, register ∈ callerSaves := by decide
    exact .call calls (saved register (List.mem_of_getElem? found))

/-- Code writes only what its task allows; by induction on the tiling. -/
theorem Tiling.writesOnly {task : Task} {first next : Nat} {code : List Op}
    (tiling : Tiling task first code next)
    : WritesOnly (task.MayWrite first next) code := by
  induction tiling with
  | make made =>
      exact .writing (made.defs _) (.fresh (Nat.le_refl _) (Nat.lt_succ_self _)) .nil
  | temp | keepConst | keepName | noArguments | noStores | idle => exact .nil
  | load of operand ih =>
      refine .append (ih.of_part ?_ (Nat.le_refl _) (Nat.le_succ _) rfl)
        (.writing rfl (.fresh operand.le (Nat.lt_succ_self _)) .nil)
      intro part occurs
      have inside := of.subtrees_subset occurs
      simp [Task.subtrees, Task.trees, inside]
  | same same value ih =>
      refine ih.of_part ?_ (Nat.le_refl _) (Nat.le_refl _) rfl
      simpa [Task.subtrees, Task.trees] using same.subtrees_subset
  | @update _ _ _ _ _ next _ updated value ih =>
      have here := Nat.lt_succ_self next
      refine .append (ih.of_part ?_ (Nat.le_refl _) (Nat.le_succ _) rfl)
        (.writing rfl (.fresh value.le here) (.writing (updated.defs _) (.fresh value.le here) .nil))
      simpa [Task.subtrees, Task.trees] using updated.subtrees_subset
  | multiple multiple factor ih =>
      refine .append (ih.of_part ?_ (Nat.le_refl _) (Nat.le_succ _) rfl)
        (.writing rfl (.fresh factor.le (Nat.lt_succ_self _)) .nil)
      simpa [Task.subtrees, Task.trees] using multiple.subtrees_subset
  | callValue call ih | callEffects call ih =>
      exact ih.of_part (List.Subset.refl _) (Nat.le_refl _) (Nat.le_refl _) rfl
  | direct baseValue ih | displaced baseValue ih | keepRegister _ value ih | valueEffects value ih
  | effects _ ih =>
      exact ih.of_part (List.Subset.refl _) (Nat.le_refl _) (Nat.le_refl _) rfl
  | @combine _ _ _ _ _ _ _ next _ _ leftValue rightValue left right =>
      have here := Nat.lt_succ_self next
      have le := Nat.le_trans leftValue.le rightValue.le
      refine .append (left.both right ?_ leftValue.le rightValue.le (Nat.le_succ _))
        (.writing rfl (.fresh le here) (.writing rfl (.fresh le here) .nil))
      simp [Task.subtrees, Task.trees]
  | @quotient dividend divisor _ _ _ _ next _ _ leftValue rightValue left right =>
      have here := Nat.lt_succ_self next
      have le := Nat.le_trans leftValue.le rightValue.le
      have divides : ∃ tree ∈ [Exp.binop .div dividend divisor].flatMap Exp.subtrees,
          tree.isDivision = true := ⟨.binop .div dividend divisor, by simp, rfl⟩
      refine .append (left.both right ?_ leftValue.le rightValue.le (Nat.le_succ _))
        (.writing rfl (.division divides ?_) (.writing rfl (.division divides ?_) ?_))
      · simp [Task.subtrees, Task.trees]
      · simp
      · simp
      · exact .cons (fun _ member => .division divides member) (.writing rfl (.fresh le here) .nil)
  | indexed leftValue rightValue left right | scaled leftValue rightValue left right =>
      exact left.both right (by simp [Task.subtrees, Task.trees, AddressForm.trees]) leftValue.le
        rightValue.le (Nat.le_refl _)
  | @memBoth _ _ _ _ _ _ _ next _ _ leftValue rightValue left right =>
      have here := Nat.lt_succ_self next
      have le := Nat.le_trans leftValue.le rightValue.le
      refine .append (left.both right ?_ leftValue.le rightValue.le (Nat.le_succ _))
        (.writing rfl (.fresh le here) (.silent rfl .nil))
      intro part occurs
      rcases List.mem_append.mp occurs with inLeft | inRight
      · simp [Task.subtrees, Task.trees, inLeft]
      · simp [Task.subtrees, Task.trees, inRight]
  | memRight leftValue rightValue left right | memLeft leftValue rightValue left right
  | registers leftValue rightValue left right =>
      refine .append (left.both right ?_ leftValue.le rightValue.le (Nat.le_refl _))
        (.silent rfl .nil)
      simp [Task.subtrees, Task.trees]
  | immRight _ value ih | immLeft _ value ih =>
      refine .append (ih.of_part ?_ (Nat.le_refl _) (Nat.le_refl _) rfl) (.silent rfl .nil)
      simp [Task.subtrees, Task.trees]
  | copyFixed _ value ih =>
      exact .append (ih.of_part (List.Subset.refl _) (Nat.le_refl _) (Nat.le_succ _) rfl)
        (.writing rfl (.fresh value.le (Nat.lt_succ_self _)) .nil)
  | moreArguments argument others first rest =>
      refine .append (first.of_part ?_ (Nat.le_refl _) others.le rfl)
        (rest.of_part ?_ argument.le (Nat.le_refl _) rfl)
      · simp [Task.subtrees, Task.trees]
      · simp [Task.subtrees, Task.trees]
  | @moreStores index value staged _ _ _ _ _ store others first rest =>
      have destinations := destinations_stores_cons index value staged
      refine .append (first.mono ?_) (rest.mono ?_)
      · intro register written
        refine written.of_part ?_ (Nat.le_refl _) others.le ?_
        · simp [Task.subtrees, Task.trees, Stm.operands]
        · exact fun _ member => .destination (destinations ▸ List.mem_append_left _ member)
      · intro register written
        refine written.of_part ?_ store.le (Nat.le_refl _) ?_
        · simp [Task.subtrees, Task.trees]
        · exact fun _ member => .destination (destinations ▸ List.mem_append_right _ member)
  | @call function args _ _ _ _ _ _ _ stagedArgs storedArgs evaluation stores =>
      have calls : ∃ tree ∈ (Task.call function args).subtrees, tree.isCall = true :=
        ⟨.call (.name function) args, by simp [Task.subtrees, Task.trees], rfl⟩
      refine .append (.append (evaluation.of_part ?_ (Nat.le_refl _) storedArgs.le rfl)
        (stores.mono fun _ written => written.of_stores stagedArgs.staged calls stagedArgs.le)) ?_
      · intro part occurs
        obtain ⟨arg, member, occurs⟩ := List.mem_flatMap.mp occurs
        obtain ⟨⟨_, index⟩, isArg, rfl⟩ := List.mem_map.mp member
        have isArg := List.fst_mem_of_mem_zipIdx (List.mem_reverse.mp isArg)
        have inside := List.mem_flatMap_of_mem isArg occurs
        simp only [Task.subtrees, Task.trees, List.flatMap_singleton, Exp.subtrees,
          Exp.argsSubtrees_eq]
        exact List.mem_cons_of_mem _ (List.mem_append_right _ inside)
      · exact .cons (fun _ member => .call calls member) .nil
  | label | jump => exact .silent rfl .nil
  | cjump compared ih =>
      exact .append (ih.of_part (List.Subset.refl _) (Nat.le_refl _) (Nat.le_refl _) rfl)
        (.silent rfl .nil)
  | cmove valueTiling compared value comparison =>
      refine .append (.append (value.of_part ?_ (Nat.le_refl _) compared.le rfl)
        (comparison.of_part ?_ valueTiling.le (Nat.le_refl _) rfl))
        (.writing rfl (.destination (by simp [Task.destinations])) .nil)
      · simp [Task.subtrees, Task.trees, Stm.operands]
      · simp [Task.subtrees, Task.trees, Stm.operands]
  | assignMade _ made =>
      exact .writing (made.defs _) (.destination (by simp [Task.destinations])) .nil
  | assignAddress of operand ih | assignLoad of operand ih =>
      refine .append (ih.of_part ?_ (Nat.le_refl _) (Nat.le_refl _) rfl)
        (.writing rfl (.destination (by simp [Task.destinations])) .nil)
      intro part occurs
      have inside := of.subtrees_subset occurs
      simp [Task.subtrees, Task.trees, Stm.operands, inside]
  | assignCopy value ih =>
      refine .append (ih.of_part ?_ (Nat.le_refl _) (Nat.le_refl _) rfl)
        (.writing rfl (.destination (by simp [Task.destinations])) .nil)
      simp [Task.subtrees, Task.trees, Stm.operands]
  | storeImm of _ operand ih =>
      refine .append (ih.of_part ?_ (Nat.le_refl _) (Nat.le_refl _) rfl) (.silent rfl .nil)
      intro part occurs
      have inside := of.subtrees_subset occurs
      simp [Task.subtrees, Task.trees, Stm.operands, inside]
  | store of operand valueTiling address value =>
      refine .append (.append (address.of_part ?_ (Nat.le_refl _) valueTiling.le rfl)
        (value.of_part ?_ operand.le (Nat.le_refl _) rfl)) (.silent rfl .nil)
      · intro part occurs
        have inside := of.subtrees_subset occurs
        simp [Task.subtrees, Task.trees, Stm.operands, inside]
      · simp [Task.subtrees, Task.trees, Stm.operands]

/-- The code of an assignment to a register ends with the one operation that writes the register for
the assignment; what comes before it writes only what computing the value does.
-/
theorem Tiling.assigns {dst : Temp} {tree : Exp} {first next : Nat} {code : List Op}
    (tiling : Tiling (.statement (.move (.temp dst) tree)) first code next)
    : ∃ computed last,
        code = computed ++ [last]
        ∧ last.instr.defs = [dst]
        ∧ WritesOnly ((Task.effects tree).MayWrite first next) computed := by
  cases tiling with
  | assignMade _ made => exact ⟨[], _, rfl, made.defs dst, .nil⟩
  | assignAddress of operand =>
      refine ⟨_, _, rfl, rfl, operand.writesOnly.of_part ?_ (Nat.le_refl _) (Nat.le_refl _) rfl⟩
      simpa [Task.subtrees, Task.trees] using of.subtrees_subset
  | assignLoad of operand =>
      refine ⟨_, _, rfl, rfl, operand.writesOnly.of_part ?_ (Nat.le_refl _) (Nat.le_refl _) rfl⟩
      intro part occurs
      have inside := of.subtrees_subset occurs
      simp [Task.subtrees, Task.trees, inside]
  | assignCopy value =>
      exact ⟨_, _, rfl, rfl, value.writesOnly.of_part (List.Subset.refl _) (Nat.le_refl _)
        (Nat.le_refl _) rfl⟩

end TreeTiling.X64
