import Mathlib.Data.List.Forall2
import TreeTiling.Proofs.X64.Layout
import TreeTiling.Proofs.X64.Writes

/-!
Where calls stand in the code of a body.

The code of a call is what computes its arguments, what stores them, and the transfer. Storing makes
no call, so the transfers in the code of a body are those of its calls, in the order in which they
are made.
-/

namespace TreeTiling.X64

----------------------------------------------------------------------------------------------
-- Where calls stand
----------------------------------------------------------------------------------------------

def Op.isCall : Op → Bool
  | call _ _ => true
  | _ => false

/-- The positions of the calls in code that begins at a position. -/
def callPositions (start : Nat) (code : List Op) : List Nat :=
  ((code.zipIdx start).filter fun entry => entry.1.isCall).map Prod.snd

theorem callPositions_append (start : Nat) (first second : List Op)
    : callPositions start (first ++ second)
      = callPositions start first ++ callPositions (start + first.length) second := by
  simp [callPositions, List.zipIdx_append]

theorem callPositions_plain {start : Nat} {code : List Op} (plain : ∀ op ∈ code, op.isCall = false)
    : callPositions start code = [] := by
  rw [callPositions, List.map_eq_nil_iff, List.filter_eq_nil_iff]
  intro entry member
  simp [plain entry.1 (List.fst_mem_of_mem_zipIdx member)]

/-- The calls of labels in the trees of a task, in the order in which they are made. -/
def Task.calls (task : Task) : List (Label × List Exp) :=
  task.trees.flatMap Exp.calls

/-- The code of a call stands in code, with the transfer at `called`: first what computes the
arguments, then, from `stored` on, what stores them.
-/
def CallSite (code : Array Op) (call : Label × List Exp) (stored called : Nat) : Prop :=
  ∃ staged evaluation stores evaluated,
    CallPasses call.2 staged evaluation stores
    ∧ CodeAt code evaluated (evaluation ++ stores ++ [.call call.1 call.2.length])
    ∧ stored = evaluated + evaluation.length
    ∧ called = stored + stores.length

/-- The calls in a piece of code are those of a list, in order. -/
def CallsAre (whole : Array Op) (calls : List (Label × List Exp)) (position : Nat) (code : List Op)
    : Prop :=
  List.Forall₂ (fun call called => ∃ stored, CallSite whole call stored called) calls
    (callPositions position code)

namespace CallsAre

variable {whole : Array Op} {calls more : List (Label × List Exp)} {position : Nat}
  {code rest : List Op}

theorem plain (noCall : ∀ op ∈ code, op.isCall = false) : CallsAre whole [] position code := by
  rw [CallsAre, callPositions_plain noCall]
  exact .nil

theorem append (first : CallsAre whole calls position code)
    (second : CallsAre whole more (position + code.length) rest)
    : CallsAre whole (calls ++ more) position (code ++ rest) := by
  rw [CallsAre, callPositions_append]
  exact List.rel_append first second

theorem append_plain (first : CallsAre whole calls position code)
    (noCall : ∀ op ∈ rest, op.isCall = false)
    : CallsAre whole calls position (code ++ rest) := by
  simpa using first.append (plain noCall)

theorem call {made : Label × List Exp} (site : ∃ stored, CallSite whole made stored position)
    : CallsAre whole [made] position [.call made.1 made.2.length] :=
  .cons site .nil

theorem of_eq (are : CallsAre whole calls position code) (same : calls = more)
    : CallsAre whole more position code :=
  same ▸ are

end CallsAre

theorem AddressForm.Of.calls {form : AddressForm} {tree : Exp} (of : form.Of tree)
    : form.trees.flatMap Exp.calls = tree.calls := by
  cases of <;> simp [AddressForm.trees]

theorem SameAs.calls {tree operand : Exp} (same : SameAs tree operand)
    : operand.calls = tree.calls := by
  cases same <;> simp

theorem UpdatedBy.calls {tree operand : Exp} {update : Temp → Op}
    (updated : UpdatedBy tree operand update)
    : operand.calls = tree.calls := by
  cases updated <;> simp

theorem UpdatedBy.isCall {tree operand : Exp} {update : Temp → Op}
    (updated : UpdatedBy tree operand update) (dst : Temp)
    : (update dst).isCall = false := by
  cases updated <;> rfl

theorem MadeBy.calls {tree : Exp} {make : Temp → Op} (made : MadeBy tree make) : tree.calls = [] := by
  cases made <;> simp

theorem MadeBy.isCall {tree : Exp} {make : Temp → Op} (made : MadeBy tree make) (dst : Temp)
    : (make dst).isCall = false := by
  cases made <;> rfl

theorem MultipleOf.calls {tree factor : Exp} {value : Word}
    (multiple : MultipleOf tree factor value)
    : factor.calls = tree.calls := by
  cases multiple <;> simp

/-- The arguments of a call are computed from the last to the first; by induction on them. -/
theorem argsCalls_eq (args : List Exp)
    : Exp.argsCalls args = (args.zipIdx.reverse.map Prod.fst).flatMap Exp.calls := by
  have reversed : args.zipIdx.reverse.map Prod.fst = args.reverse := by simp
  rw [reversed]
  induction args with
  | nil => simp
  | cons arg rest ih => simp [ih]

/-- Storing staged arguments makes no call. -/
theorem calls_stores {staged : List (Nat × Exp)} (allStaged : ∀ entry ∈ staged, Staged entry.2)
    : (Task.stores staged).calls = [] := by
  rw [Task.calls, List.flatMap_eq_nil_iff]
  intro tree member
  obtain ⟨⟨index, value⟩, isEntry, member⟩ := List.mem_flatMap.mp member
  simp only [List.mem_cons, List.not_mem_nil, or_false] at member
  rcases member with rfl | rfl
  · rcases outArg_cases index with ⟨register, -, isTemp⟩ | ⟨-, slot, isMem⟩
    · simp [isTemp]
    · simp [isMem]
  · have staged := allStaged _ isEntry
    cases staged <;> simp

/-- A tree without parts makes no call. -/
theorem calls_of_leaf {tree : Exp} (leaf : tree.height = 1) : tree.calls = [] := by
  obtain ⟨_, rfl⟩ | ⟨_, rfl⟩ | ⟨_, rfl⟩ := Exp.leaf_cases leaf <;> simp

attribute [local simp] Task.calls Task.trees Stm.operands

/-- The calls in the code of a task are those of its trees; by induction on the tiling. -/
theorem Tiling.callsAre {task : Task} {first next : Nat} {code : List Op}
    (tiling : Tiling task first code next) {whole : Array Op} {position : Nat}
    (standsAt : CodeAt whole position code)
    : CallsAre whole task.calls position code := by
  induction tiling generalizing position with
  | make made | assignMade _ made =>
      exact (CallsAre.plain (by simp [made.isCall])).of_eq (by simp [made.calls])
  | temp | keepConst | keepName | noArguments | noStores =>
      exact (CallsAre.plain (by simp)).of_eq (by simp)
  | label | jump => exact (CallsAre.plain (by simp [Op.isCall])).of_eq (by simp)
  | idle _ leaf => exact (CallsAre.plain (by simp)).of_eq (by simp [calls_of_leaf leaf])
  | same same _ ih => exact (ih standsAt).of_eq (by simp [same.calls])
  | callValue _ ih | callEffects _ ih | valueEffects _ ih | keepRegister _ _ ih | effects _ ih
  | direct _ ih | displaced _ ih => exact ih standsAt
  | update updated _ ih =>
      refine ((ih standsAt.left).append_plain ?_).of_eq (by simp [updated.calls])
      exact List.forall_mem_cons.mpr ⟨rfl, List.forall_mem_singleton.mpr (updated.isCall _)⟩
  | multiple multiple _ ih =>
      exact ((ih standsAt.left).append_plain (by simp [Op.isCall])).of_eq
        (by simp [multiple.calls])
  | load of _ ih | assignAddress of _ ih | assignLoad of _ ih | storeImm of _ _ ih =>
      exact ((ih standsAt.left).append_plain (by simp [Op.isCall])).of_eq (by simp [of.calls])
  | immRight _ _ ih | immLeft _ _ ih | copyFixed _ _ ih | cjump _ ih | assignCopy _ ih =>
      exact ((ih standsAt.left).append_plain (by simp [Op.isCall])).of_eq (by simp)
  | indexed _ _ left right | scaled _ _ left right =>
      exact ((left standsAt.left).append (right standsAt.right)).of_eq
        (by simp [AddressForm.trees])
  | moreArguments _ _ left right | moreStores _ _ left right =>
      exact ((left standsAt.left).append (right standsAt.right)).of_eq (by simp)
  | combine _ _ left right | quotient _ _ left right | memBoth _ _ left right
  | memRight _ _ left right | memLeft _ _ left right | registers _ _ left right
  | cmove _ _ left right =>
      have parts := (left standsAt.left.left).append (right standsAt.left.right)
      exact (parts.append_plain (by simp [Op.isCall])).of_eq (by simp)
  | store of _ _ left right =>
      have parts := (left standsAt.left.left).append (right standsAt.left.right)
      exact (parts.append_plain (by simp [Op.isCall])).of_eq (by simp [of.calls])
  | @call function args staged _ _ _ evaluation stores passes stagedArgs storedArgs computed stored =>
      have noStoreCall := calls_stores stagedArgs.staged
      have parts := (computed standsAt.left.left).append (stored standsAt.left.right)
      have site : CallSite whole (function, args) (position + evaluation.length)
          (position + (evaluation ++ stores).length) :=
        ⟨staged, evaluation, stores, position, passes, standsAt, rfl, by simp [Nat.add_assoc]⟩
      refine (parts.append (.call ⟨_, site⟩)).of_eq ?_
      rw [noStoreCall]
      simp [argsCalls_eq]

/-- The calls in the code of statements are theirs, in order; by induction on the statements. -/
theorem BodyTiling.callsAre {parts : List Stm} {first next : Nat} {pieces : List (List Op)}
    (tiling : BodyTiling parts first pieces next) {whole : Array Op} {position : Nat}
    (standsAt : CodeAt whole position pieces.flatten)
    : CallsAre whole (parts.flatMap fun part => part.operands.flatMap Exp.calls) position
        pieces.flatten := by
  induction tiling generalizing position with
  | nil => exact .plain (by simp)
  | cons piece _ ih => exact (piece.callsAre standsAt.left).append (ih standsAt.right)

/-- The calls in the code of a body are those of the body. -/
theorem selectBody_callsAre {body : Stm} {session after : Session} {code : Array Op}
    (selected : rules.selectBody body session = (.ok code, after))
    : CallsAre code body.calls 0 code.toList := by
  obtain ⟨last, parts, rfl, -⟩ := Rules.selectBody_ok.mp selected
  rw [Rules.selectStatement_eq] at parts
  obtain ⟨pieces, gains, tiling⟩ := bodyTiling_of_parts parts
  have code : last.code.toList = pieces.flatten := by rw [gains, List.nil_append]
  rw [code]
  exact tiling.callsAre ⟨[], [], by simp [code], rfl⟩

end TreeTiling.X64
