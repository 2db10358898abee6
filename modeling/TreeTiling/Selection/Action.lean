import TreeTiling.Pattern.Match

/-!
What a rule does once its pattern has matched, as a tree of requests.

An action may emit an instruction, take a fresh temporary, fail, or ask for a tree to be selected
in turn. It can do nothing else: in particular it cannot look at the code emitted so far, and it
cannot catch a failure. `ι` is the type of the instructions that are emitted.
-/

namespace TreeTiling

/-- A computation with a result of type `α` that is carried out by the selector. -/
inductive Action (ι : Type) (α : Type) where
  | done (result : α)
  | fail (error : SelectionError)
  | emit (instr : ι) (next : Action ι α)
  | fresh (next : Temp → Action ι α)
  /-- Select code for the value of an expression; the answer is the register that holds it. -/
  | value (tree : Exp) (next : Temp → Action ι α)
  /-- Select code for the effects of an expression. -/
  | discard (tree : Exp) (next : Action ι α)
  | statement (tree : Stm) (next : Action ι α)

namespace Action

variable {ι α β γ : Type}

/-- Goes on with `next` where an action is done. -/
def bind (action : Action ι α) (next : α → Action ι β) : Action ι β :=
  match action with
  | done result => next result
  | fail error => fail error
  | emit instr rest => emit instr (rest.bind next)
  | fresh rest => fresh fun register => (rest register).bind next
  | value tree rest => value tree fun register => (rest register).bind next
  | discard tree rest => discard tree (rest.bind next)
  | statement tree rest => statement tree (rest.bind next)

instance : Monad (Action ι) where
  pure := done
  bind := bind

instance : MonadLift (Except SelectionError) (Action ι) where
  monadLift
    | .ok result => done result
    | .error error => fail error

/-- Being done is a right unit; witness: induction on the requests. -/
theorem bind_done (action : Action ι α) : action.bind done = action := by
  induction action with
  | done | fail => rfl
  | emit _ _ ih | discard _ _ ih | statement _ _ ih => simp [bind, ih]
  | fresh _ ih | value _ _ ih => simp [bind, ih]

/-- Continuations compose; witness: induction on the requests. -/
theorem bind_assoc (action : Action ι α) (next : α → Action ι β) (last : β → Action ι γ)
    : (action.bind next).bind last = action.bind fun result => (next result).bind last := by
  induction action with
  | done | fail => rfl
  | emit _ _ ih | discard _ _ ih | statement _ _ ih => simp [bind, ih]
  | fresh _ ih | value _ _ ih => simp [bind, ih]

instance : LawfulMonad (Action ι) :=
  LawfulMonad.mk' (Action ι) bind_done (fun _ _ => rfl) bind_assoc

----------------------------------------------------------------------------------------------
-- Single requests
----------------------------------------------------------------------------------------------

def emitInstr (instr : ι) : Action ι Unit :=
  emit instr (done ())

def freshTemp : Action ι Temp :=
  fresh done

def valueOf (tree : Exp) : Action ι Temp :=
  value tree done

def effectsOf (tree : Exp) : Action ι Unit :=
  discard tree (done ())

def carryOut (tree : Stm) : Action ι Unit :=
  statement tree (done ())

end Action

end TreeTiling
