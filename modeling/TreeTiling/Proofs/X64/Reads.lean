import TreeTiling.Proofs.X64.Arguments

/-!
Which registers the code of a task reads before it writes them: those that its trees name, and the
stack and frame pointers.

Whatever else an operation reads was written earlier in the same code: temporaries that were taken,
`rax` and `rdx` around a division, and the argument registers in front of a call.
-/

namespace TreeTiling

namespace Exp

theorem temps_subset {part whole : Exp} (inside : part.subtrees ⊆ whole.subtrees)
    : part.temps ⊆ whole.temps := by
  intro register occurs
  obtain ⟨tree, member, isTemp⟩ := List.mem_filterMap.mp occurs
  exact List.mem_filterMap.mpr ⟨tree, inside member, isTemp⟩

/-- The temporaries of a call's arguments are the call's. -/
theorem temps_args_subset (callee : Exp) (args : List Exp)
    : args.flatMap temps ⊆ (call callee args).temps := by
  rw [temps_call]
  exact List.subset_append_right _ _

end Exp

namespace X64

----------------------------------------------------------------------------------------------
-- Code that is supplied with what it reads
----------------------------------------------------------------------------------------------

/-- The registers that are given, or written by code. -/
def Held (given : Temp → Prop) (code : List Op) (register : Temp) : Prop :=
  given register ∨ ∃ op ∈ code, register ∈ op.instr.defs

/-- Every register that code reads is given or was written by the code before. -/
def Supplied : (given : Temp → Prop) → List Op → Prop
  | _, [] => True
  | given, op :: rest =>
      (∀ register ∈ op.instr.uses, given register) ∧ Supplied (Held given [op]) rest

/-- Code is supplied, and some registers are held when it is done. -/
structure Provides (given : Temp → Prop) (code : List Op) (results : List Temp) : Prop where
  supplied : Supplied given code
  results : ∀ register ∈ results, Held given code register

variable {given more : Temp → Prop} {register : Temp} {first second code : List Op}

theorem held_append
    : Held given (first ++ second) register ↔ Held (Held given first) second register := by
  simp only [Held, List.mem_append]
  grind

theorem Held.mono (held : Held given code register)
    (kept : ∀ register, given register → more register)
    : Held more code register :=
  held.imp_left (kept register)

theorem Supplied.mono (supplied : Supplied given code)
    (kept : ∀ register, given register → more register)
    : Supplied more code := by
  induction code generalizing given more with
  | nil => trivial
  | cons op rest ih =>
      obtain ⟨reads, others⟩ := supplied
      refine ⟨fun register member => kept register (reads register member), ih others ?_⟩
      exact fun register held => held.mono kept

theorem Supplied.append (supplied : Supplied given first)
    (others : Supplied (Held given first) second)
    : Supplied given (first ++ second) := by
  induction first generalizing given with
  | nil => exact others.mono fun register held => held.resolve_right (by simp)
  | cons op rest ih =>
      refine ⟨supplied.1, ih supplied.2 ?_⟩
      exact others.mono fun register held => held_append.mp held

/-- An operation reads what is given or was written by the code in front of it. By induction on that
code.
-/
theorem Supplied.held_at (supplied : Supplied given code) {offset : Nat} {op : Op}
    (found : code[offset]? = some op) (reads : register ∈ op.instr.uses)
    : Held given (code.take offset) register := by
  induction code generalizing given offset with
  | nil => simp at found
  | cons head rest ih =>
      cases offset with
      | zero =>
          obtain rfl := Option.some.inj found
          exact .inl (supplied.1 register reads)
      | succ offset => exact held_append.mpr (ih supplied.2 found)

namespace Provides

variable {results others : List Temp}

theorem nil (held : ∀ register ∈ results, given register) : Provides given [] results :=
  ⟨trivial, fun register member => .inl (held register member)⟩

/-- Code that follows other code finds what that code provides. -/
theorem append (provides : Provides given first others)
    (following
      : ∀ {more : Temp → Prop},
          (∀ register, given register → more register)
          → (∀ register ∈ others, more register)
          → Provides more second results)
    : Provides given (first ++ second) results := by
  have after : Provides (Held given first) second results :=
    following (fun _ => .inl) provides.results
  refine ⟨provides.supplied.append after.supplied, ?_⟩
  exact fun register member => held_append.mpr (after.results register member)

/-- One operation, which reads what is given. -/
theorem single {op : Op} (reads : ∀ register ∈ op.instr.uses, given register)
    (held : ∀ register ∈ results, given register ∨ register ∈ op.instr.defs)
    : Provides given [op] results := by
  refine ⟨⟨reads, trivial⟩, ?_⟩
  intro register member
  exact (held register member).imp_right fun written => ⟨op, List.mem_singleton_self op, written⟩

/-- An operation in front of code that finds what the operation writes. -/
theorem cons {op : Op} (reads : ∀ register ∈ op.instr.uses, given register)
    (following
      : ∀ {more : Temp → Prop},
          (∀ register, given register → more register)
          → (∀ register ∈ op.instr.defs, more register)
          → Provides more code results)
    : Provides given (op :: code) results :=
  append (single reads fun _ => .inr) following

end Provides

/-- Code reads nothing that it did not write but some registers and the stack and frame pointers,
and leaves other registers for the code after it.
-/
def Needs (reads : List Temp) (code : List Op) (results : List Temp) : Prop :=
  ∀ given : Temp → Prop,
    (∀ register ∈ reads, given register)
    → (∀ register ∈ specials, given register)
    → Provides given code results

namespace Needs

variable {reads others results : List Temp}

theorem mono (needs : Needs reads code results) (subset : reads ⊆ others)
    : Needs others code results :=
  fun given held => needs given fun register member => held register (subset member)

theorem weaken (needs : Needs reads code others) (fewer : results ⊆ others)
    : Needs reads code results := by
  intro given held special
  obtain ⟨supplied, left⟩ := needs given held special
  exact ⟨supplied, fun register member => left register (fewer member)⟩

/-- Operations that follow code find what it needed and what it left. -/
theorem followedBy (needs : Needs reads first others)
    (following
      : ∀ {given : Temp → Prop},
          (∀ register ∈ reads, given register)
          → (∀ register ∈ specials, given register)
          → (∀ register ∈ others, given register)
          → Provides given second results)
    : Needs reads (first ++ second) results := by
  intro given held special
  refine (needs given held special).append fun kept left => ?_
  exact following (fun register member => kept register (held register member))
    (fun register member => kept register (special register member)) left

/-- Two pieces of code, the second of which does not look at what the first leaves. -/
theorem both {moreReads : List Temp} (needs : Needs reads first others)
    (following : Needs moreReads second results)
    : Needs (reads ++ moreReads) (first ++ second) (others ++ results) := by
  have subset : reads ⊆ reads ++ moreReads := List.subset_append_left _ _
  refine (needs.mono subset).followedBy fun held special left => ?_
  obtain ⟨supplied, right⟩ :=
    following _ (fun register member => held register (List.mem_append_right _ member)) special
  refine ⟨supplied, ?_⟩
  intro register member
  rcases List.mem_append.mp member with before | after
  · exact .inl (left register before)
  · exact right register after

theorem ofSpecials (needs : Needs (rsp :: reads) code results) : Needs reads code results := by
  intro given held special
  exact needs given (List.forall_mem_cons.mpr ⟨special rsp List.mem_cons_self, held⟩) special

/-- One more operation, which reads what the code before it left. -/
theorem followedByOp {op : Op} (needs : Needs reads first others) (uses : op.instr.uses ⊆ others)
    : Needs reads (first ++ [op]) op.instr.defs := by
  refine needs.followedBy fun _ _ left => ?_
  exact .single (fun register member => left register (uses member)) fun _ => .inr

end Needs

----------------------------------------------------------------------------------------------
-- What tasks read and provide
----------------------------------------------------------------------------------------------

/-- The temporaries that a memory operand is computed from. -/
def AddressForm.temps : AddressForm → List Temp
  | direct base => base.temps
  | displaced _ base => base.temps
  | indexed base index => base.temps ++ index.temps
  | scaled base index _ => base.temps ++ index.temps

namespace Task

/-- The registers that a task reads, apart from the stack and frame pointers. -/
def reads : Task → List Temp
  | value tree _ => tree.temps
  | address form _ => form.temps
  | comparison _ left right _ => left.temps ++ right.temps
  | argument arg _ => arg.temps
  | arguments args _ => args.flatMap fun entry => entry.1.temps
  | stores staged => staged.flatMap fun entry => entry.2.temps
  | call _ args => args.flatMap Exp.temps
  | effects tree => tree.temps
  | statement (.move (.temp _) src) => src.temps
  | statement tree => tree.ownTemps

/-- The registers that the code of a task leaves for the code after it. -/
def results : Task → List Temp
  | value _ register => [register]
  | address _ operand => operand.registers
  | argument _ form => form.temps
  | arguments _ staged => staged.flatMap fun entry => entry.2.temps
  | call _ _ => [returnReg]
  | task => task.destinations

end Task

theorem MadeBy.uses {tree : Exp} {make : Temp → Op} (made : MadeBy tree make) (dst : Temp)
    : (make dst).instr.uses = [] := by
  cases made <;> rfl

theorem UpdatedBy.uses {tree operand : Exp} {update : Temp → Op}
    (updated : UpdatedBy tree operand update) (dst : Temp)
    : (update dst).instr.uses = [dst] := by
  cases updated <;> rfl

theorem AddressForm.Of.temps_subset {form : AddressForm} {tree : Exp} (of : form.Of tree)
    : form.temps ⊆ tree.temps := by
  cases of with
  | direct => exact List.Subset.refl _
  | displaced | indexed | scaled => simp [AddressForm.temps]

/-- Storing an argument reads the stack pointer at most, besides the argument. -/
theorem reads_store (index : Nat) (value : Exp)
    : (Task.statement (.move (outArg index) value)).reads ⊆ rsp :: value.temps := by
  intro register member
  rcases outArg_cases index with ⟨_, -, isTemp⟩ | ⟨-, slot, isMem⟩
  · rw [isTemp] at member
    exact List.mem_cons_of_mem _ member
  · simpa [isMem, Task.reads, Stm.ownTemps, Stm.operands] using member

theorem forall_mem_pair {property : Temp → Prop} {left right : Temp}
    : (∀ item ∈ [left, right], property item) ↔ property left ∧ property right := by
  simp

/-- A division needs its operands; the registers it works in are written before they are read. -/
theorem needs_quotient (dividend divisor dst : Temp)
    : Needs [dividend, divisor]
        [.copy rax dividend, .signExtend, .divide divisor, .copy dst rax] [dst] := by
  intro _ values _
  obtain ⟨dividendHeld, divisorHeld⟩ := forall_mem_pair.mp values
  refine .cons (List.forall_mem_singleton.mpr dividendHeld) fun kept copied => .cons copied
    fun keptAgain extended => .cons ?_ fun _ divided => .single ?_ fun _ => .inr
  · have low := keptAgain _ (List.forall_mem_singleton.mp copied)
    have high := List.forall_mem_singleton.mp extended
    have isHeld := keptAgain _ (kept _ divisorHeld)
    exact List.forall_mem_cons.mpr ⟨isHeld, forall_mem_pair.mpr ⟨low, high⟩⟩
  · exact List.forall_mem_singleton.mpr (forall_mem_pair.mp divided).1

/-- Arguments that are taken from the last to the first name what they name. -/
theorem temps_reversed_subset (args : List Exp)
    : args.zipIdx.reverse.flatMap (fun entry => entry.1.temps) ⊆ args.flatMap Exp.temps := by
  intro register occurs
  obtain ⟨entry, member, occurs⟩ := List.mem_flatMap.mp occurs
  have isArg := List.fst_mem_of_mem_zipIdx (List.mem_reverse.mp member)
  exact List.mem_flatMap_of_mem isArg occurs

/-- Code needs what its task reads and leaves what its task is for; by induction on the tiling. -/
theorem Tiling.needs {task : Task} {first next : Nat} {code : List Op}
    (tiling : Tiling task first code next)
    : Needs task.reads code task.results := by
  induction tiling with
  | make made =>
      exact fun _ _ _ => .single (by simp [made.uses]) (by simp [made.defs, Task.results])
  | temp => exact fun _ held _ => .nil (by simpa [Task.reads, Task.results] using held)
  | load of operand ih =>
      exact (ih.mono (by simpa [Task.reads] using of.temps_subset)).followedByOp
        (List.Subset.refl _)
  | same same value ih => exact ih.mono (Exp.temps_subset same.subtrees_subset)
  | update updated value ih =>
      refine (ih.mono (Exp.temps_subset updated.subtrees_subset)).followedBy fun _ _ left =>
        .cons left fun _ copied => .single ?_ fun _ => .inl ∘ copied _
      rw [updated.uses]
      exact copied
  | multiple multiple factor ih =>
      exact (ih.mono (Exp.temps_subset multiple.subtrees_subset)).followedByOp
        (List.Subset.refl _)
  | combine leftValue rightValue left right =>
      rw [Task.reads, Exp.temps_binop]
      refine (left.both right).followedBy fun _ _ values => ?_
      obtain ⟨leftHeld, rightHeld⟩ := forall_mem_pair.mp values
      refine .cons (List.forall_mem_singleton.mpr leftHeld) fun kept copied =>
        .single ?_ fun _ => .inr
      exact forall_mem_pair.mpr ⟨kept _ rightHeld, List.forall_mem_singleton.mp copied⟩
  | quotient leftValue rightValue left right =>
      rw [Task.reads, Exp.temps_binop]
      exact (left.both right).followedBy fun _ special values =>
        needs_quotient _ _ _ _ values special
  | callValue call ih => exact ih.mono (Exp.temps_args_subset _ _)
  | direct | displaced => assumption
  | indexed _ _ left right | scaled _ _ left right => exact left.both right
  | immRight _ value ih =>
      exact (ih.mono (List.subset_append_left _ _)).followedByOp (List.Subset.refl _)
  | immLeft _ value ih =>
      exact (ih.mono (List.subset_append_right _ _)).followedByOp (List.Subset.refl _)
  | memBoth leftValue rightValue left right =>
      rw [Task.reads, Exp.temps_mem, Exp.temps_mem]
      refine (left.both right).followedBy fun _ _ values => ?_
      obtain ⟨leftHeld, rightHeld⟩ := forall_mem_pair.mp values
      refine .cons (List.forall_mem_singleton.mpr leftHeld) fun kept loaded =>
        .single ?_ fun _ => .inr
      exact forall_mem_pair.mpr ⟨List.forall_mem_singleton.mp loaded, kept _ rightHeld⟩
  | memRight _ _ left right =>
      rw [Task.reads, Exp.temps_mem]
      exact (left.both right).followedByOp (List.Subset.refl _)
  | memLeft _ _ left right =>
      rw [Task.reads, Exp.temps_mem]
      refine (left.both right).followedByOp ?_
      exact forall_mem_pair.mpr ⟨by simp [Task.results], by simp [Task.results]⟩
  | registers _ _ left right => exact (left.both right).followedByOp (List.Subset.refl _)
  | keepConst | keepName => exact fun _ _ _ => .nil (by simp [Task.results, Exp.temps, Exp.asTemp?])
  | keepRegister _ value ih =>
      rw [Task.results, Exp.temps_temp]
      exact ih
  | copyFixed _ value ih =>
      rw [Task.results, Exp.temps_temp]
      exact ih.followedByOp (List.Subset.refl _)
  | noArguments | noStores => exact fun _ _ _ => .nil (by simp [Task.results, Task.destinations])
  | moreArguments argument others first rest => exact first.both rest
  | @moreStores index value staged _ _ _ _ _ store others first rest =>
      have stored := (first.mono (reads_store index value)).ofSpecials
      refine (stored.both rest).weaken ?_
      show (Task.stores ((index, value) :: staged)).destinations ⊆ _
      rw [destinations_stores_cons]
      exact List.Subset.refl _
  | @call _ args _ _ _ _ _ _ passes stagedArgs storedArgs evaluation stores =>
      have evaluated := evaluation.mono (temps_reversed_subset args)
      have stored := evaluated.followedBy fun _ special left => stores _ left special
      refine stored.followedBy fun _ special left => .single ?_ ?_
      · refine List.forall_mem_append.mpr ⟨special, ?_⟩
        intro register isPassed
        refine left register ?_
        show register ∈ (Task.stores _).destinations
        rw [passes.destinations]
        exact List.mem_reverse.mpr isPassed
      · exact List.forall_mem_singleton.mpr (.inr List.mem_cons_self)
  | callEffects call ih =>
      exact (ih.mono (Exp.temps_args_subset _ _)).weaken (List.nil_subset _)
  | idle => exact fun _ _ _ => .nil (by simp [Task.results, Task.destinations])
  | valueEffects value ih => exact ih.weaken (List.nil_subset _)
  | label | jump => exact fun _ _ _ => .single (List.forall_mem_nil _) (List.forall_mem_nil _)
  | cjump compared ih =>
      refine (ih.mono ?_).followedByOp (List.nil_subset _)
      simp [Task.reads, Stm.ownTemps, Stm.operands]
  | cmove valueTiling compared value comparison =>
      refine ((value.both comparison).mono ?_).followedBy fun held _ left =>
        .single ?_ fun _ => .inr
      · intro register occurs
        simp only [Task.reads, List.mem_append] at occurs
        rcases occurs with inValue | inLeft | inRight
        · simp [Task.reads, Stm.ownTemps, Stm.operands, inValue]
        · simp [Task.reads, Stm.ownTemps, Stm.operands, inLeft]
        · simp [Task.reads, Stm.ownTemps, Stm.operands, inRight]
      · refine forall_mem_pair.mpr ⟨left _ List.mem_cons_self, held _ ?_⟩
        simp [Task.reads, Stm.ownTemps]
  | assignMade _ made =>
      exact fun _ _ _ => .single (by simp [made.uses])
        (by simp [made.defs, Task.results, Task.destinations])
  | assignAddress of operand ih => exact (ih.mono of.temps_subset).followedByOp (List.Subset.refl _)
  | assignLoad of operand ih =>
      exact (ih.mono (by simpa [Task.reads] using of.temps_subset)).followedByOp
        (List.Subset.refl _)
  | assignCopy value ih => exact ih.followedByOp (List.Subset.refl _)
  | storeImm of _ operand ih =>
      refine (ih.mono ?_).followedByOp (List.Subset.refl _)
      intro register occurs
      simp [Task.reads, Stm.ownTemps, Stm.operands, of.temps_subset occurs]
  | store of operand valueTiling address value =>
      refine ((address.both value).mono ?_).followedByOp (List.Subset.refl _)
      intro register occurs
      rcases List.mem_append.mp occurs with inAddress | inValue
      · simp [Task.reads, Stm.ownTemps, Stm.operands, of.temps_subset inAddress]
      · have inValue : register ∈ Exp.temps _ := inValue
        simp [Task.reads, Stm.ownTemps, Stm.operands, inValue]
  | effects _ ih => exact ih.mono (by simp [Task.reads, Stm.ownTemps, Stm.operands])

/-- An operation reads what its task reads, the stack and frame pointers, and what the code in front
of it wrote.
-/
theorem Tiling.uses_at {task : Task} {first next : Nat} {code : List Op}
    (tiling : Tiling task first code next) {offset : Nat} {op : Op}
    (found : code[offset]? = some op) {register : Temp} (read : register ∈ op.instr.uses)
    : register ∈ task.reads
      ∨ register ∈ specials
      ∨ ∃ earlier ∈ code.take offset, register ∈ earlier.instr.defs := by
  have provides := tiling.needs (fun register => register ∈ task.reads ∨ register ∈ specials)
    (fun _ => .inl) fun _ => .inr
  exact or_assoc.mp (provides.supplied.held_at found read)

end X64

end TreeTiling
