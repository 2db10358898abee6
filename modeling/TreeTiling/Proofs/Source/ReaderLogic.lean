import TreeTiling.Proofs.Tree.Occurrence
import TreeTiling.Source.Reader

/-!
What holds of readers in general: statements about the registers that a reader knows and answers
with, which hold of everything that is read once they hold of single temporaries.
-/

namespace TreeTiling.Source

variable {α β : Type} {register? : String → Option Temp}

/-- A kind of statement about readers. `Holds known results reader` speaks of a reader where some
registers are known already, and of the registers in its answers.
-/
structure ReaderLogic (register? : String → Option Temp) where
  Holds : {α : Type} → (known : List Temp) → (results : α → List Temp) → ReadM α → Prop
  /-- Answering with registers that are known. -/
  pure
    : ∀ {α : Type} {known : List Temp} {results : α → List Temp} {result : α},
        results result ⊆ known → Holds known results (pure result)
  throw
    : ∀ {α : Type} {known : List Temp} {results : α → List Temp} (error : Error),
        Holds known results (throw error : ReadM α)
  /-- Reading on with what was answered before. -/
  bind
    : ∀ {α β : Type} {known : List Temp} {results : α → List Temp} {others : β → List Temp}
        {reader : ReadM α} {next : α → ReadM β},
        Holds known results reader
        → (∀ result, Holds (results result ++ known) others (next result))
        → Holds known others (reader >>= next)
  named
    : ∀ {known : List Temp} (name : String),
        Holds known (fun register => [register]) (named name)
  machine
    : ∀ {known : List Temp} {name : String} {register : Temp},
        register? name = some register
        → Holds known (fun register => [register]) (return register : ReadM Temp)

namespace ReaderLogic

variable {known : List Temp} (logic : ReaderLogic register?)

/-- What two readers answer with is known after them. -/
theorem answers_subset (first second known : List Temp)
    : first ++ second ⊆ second ++ (first ++ known) :=
  List.append_subset.mpr
    ⟨List.subset_append_of_subset_right _ (List.subset_append_left _ _),
      List.subset_append_left _ _⟩

/-- Answers without registers. -/
theorem silent {result : α} : logic.Holds known (fun _ => []) (return result : ReadM α) :=
  logic.pure (List.nil_subset _)

----------------------------------------------------------------------------------------------
-- Atoms
----------------------------------------------------------------------------------------------

theorem atom (role : AtomRole) (operand : Sexp)
    : logic.Holds known (fun _ => []) (atom role operand) := by
  cases operand with
  | atom => exact logic.silent
  | list => exact logic.throw _

theorem label (operand : Sexp) : logic.Holds known (fun _ => []) (label operand) :=
  logic.bind (logic.atom _ operand) fun _ => logic.silent

theorem relation (operand : Sexp) : logic.Holds known (fun _ => []) (relation operand) := by
  refine logic.bind (logic.atom _ operand) fun name => ?_
  cases RelOp.ofName? name with
  | some op => exact logic.silent
  | none => exact logic.throw _

theorem integer (line : Nat) (operand : Sexp)
    : logic.Holds known (fun _ => []) (integer line operand) := by
  refine logic.bind (logic.atom _ operand) fun numeral => ?_
  cases Numeral.word? numeral.toList with
  | some value => exact logic.silent
  | none => exact logic.throw _

theorem temporaryName (operand : Sexp)
    : logic.Holds known (fun _ => []) (temporaryName operand) := by
  unfold Source.temporaryName
  split
  · exact logic.silent
  · split
    · split
      · exact logic.atom _ _
      · exact logic.throw _
    · exact logic.throw _
  · exact logic.throw _

theorem temporary (operand : Sexp)
    : logic.Holds known (fun register => [register]) (temporary register? operand) := by
  refine logic.bind (logic.temporaryName operand) fun name => ?_
  split
  · cases found : register? name with
    | some register => exact logic.machine found
    | none => exact logic.throw _
  · exact logic.named name

----------------------------------------------------------------------------------------------
-- Trees
----------------------------------------------------------------------------------------------

mutual

/-- By recursion on what is read. -/
theorem exp {known : List Temp}
    : ∀ operand : Sexp, logic.Holds known Exp.temps (exp register? operand)
  | .atom text line => by
      rw [Source.exp]
      split
      · exact logic.pure (List.nil_subset _)
      · exact logic.throw _
  | .list [] line | .list (.list _ _ :: _) line => by
      rw [exp.eq_def]
      exact logic.throw _
  | .list (.atom keyword start :: args) line => by
      rw [exp.eq_def]
      dsimp only
      split
      · exact logic.throw _
      · exact logic.bind (logic.integer line _) fun _ => logic.pure (by simp)
      · exact logic.bind (logic.label _) fun _ => logic.pure (by simp)
      · exact logic.bind (logic.temporary _) fun _ => logic.pure (by simp)
      · exact logic.bind (exp _) fun _ => logic.pure (by simp)
      · exact logic.throw _
      · exact logic.bind (exps _) fun _ => logic.pure (by simp)
      · exact logic.bind (exp _) fun _ => logic.bind (exps _) fun _ =>
          logic.pure (by simp)
      · exact logic.bind (exp _) fun _ => logic.bind (exp _) fun _ =>
          logic.pure (by simp)
      · exact logic.throw _

theorem exps {known : List Temp}
    : ∀ operands : List Sexp,
        logic.Holds known (fun trees => trees.flatMap Exp.temps) (exps register? operands)
  | [] => by
      rw [Source.exps]
      exact logic.pure (List.nil_subset _)
  | operand :: rest => by
      rw [Source.exps]
      exact logic.bind (exp operand) fun _ => logic.bind (exps rest) fun _ =>
        logic.pure (answers_subset _ _ _)

end

theorem jumpTarget (operand : Sexp)
    : logic.Holds known Exp.temps (jumpTarget register? operand) := by
  cases operand with
  | atom => exact logic.pure (List.nil_subset _)
  | list => exact logic.exp _

mutual

/-- By recursion on what is read. -/
theorem stm {known : List Temp}
    : ∀ operand : Sexp, logic.Holds known Stm.temps (stm register? operand)
  | .atom text line => by
      rw [Source.stm]
      exact logic.throw _
  | .list [] line | .list (.list _ _ :: _) line => by
      rw [stm.eq_def]
      exact logic.throw _
  | .list (.atom keyword start :: args) line => by
      rw [stm.eq_def]
      dsimp only
      split
      · exact logic.throw _
      · exact logic.bind (logic.label _) fun _ => logic.pure (List.nil_subset _)
      · exact logic.bind (logic.jumpTarget _) fun _ => logic.pure (by simp)
      · exact logic.bind (logic.relation _) fun _ => logic.bind (logic.exp _) fun _ =>
          logic.bind (logic.exp _) fun _ => logic.bind (logic.label _) fun _ =>
          logic.bind (logic.label _) fun _ => logic.pure (by simp)
      · refine logic.bind (logic.relation _) fun _ => logic.bind (logic.exp _) fun left =>
          logic.bind (logic.exp _) fun right => logic.bind (logic.temporary _) fun dst =>
          logic.bind (logic.exp _) fun value => logic.pure ?_
        intro register occurs
        simp only [Stm.temps_cmove, List.mem_append] at occurs ⊢
        grind
      · exact logic.bind (logic.exp _) fun _ => logic.bind (logic.exp _) fun _ =>
          logic.pure (by simp)
      · exact logic.bind (logic.exp _) fun _ => logic.pure (by simp)
      · exact logic.bind (stms _) fun _ => logic.pure (by simp)
      · exact logic.throw _

theorem stms {known : List Temp}
    : ∀ operands : List Sexp,
        logic.Holds known (fun trees => trees.flatMap Stm.temps) (stms register? operands)
  | [] => by
      rw [Source.stms]
      exact logic.pure (List.nil_subset _)
  | operand :: rest => by
      rw [Source.stms]
      exact logic.bind (stm operand) fun _ => logic.bind (stms rest) fun _ =>
        logic.pure (answers_subset _ _ _)

end

----------------------------------------------------------------------------------------------
-- Fragments and whole texts
----------------------------------------------------------------------------------------------

theorem fragment (operand : Sexp)
    : logic.Holds known Fragment.temps (fragment register? operand) := by
  unfold Source.fragment
  split
  · exact logic.throw _
  · exact logic.throw _
  · refine logic.bind (logic.label _) fun name => ?_
    split
    · exact logic.bind (logic.stms _) fun _ => logic.pure (by simp [Fragment.temps])
    · split
      · exact logic.bind (logic.exps _) fun _ => logic.pure (List.subset_append_left _ _)
      · exact logic.throw _
  · exact logic.throw _

/-- Fragments in order; by induction on what is read. -/
theorem fragments (operands : List Sexp)
    : logic.Holds known (fun parts => parts.flatMap Fragment.temps)
        (fragments register? operands) := by
  induction operands generalizing known with
  | nil => exact logic.pure (List.nil_subset _)
  | cons operand rest ih =>
      rw [Source.fragments]
      exact logic.bind (logic.fragment operand) fun _ => logic.bind ih fun _ =>
        logic.pure (answers_subset _ _ _)

theorem parse (source : String) : logic.Holds known (fun _ => []) (parse source) := by
  unfold Source.parse
  split
  · exact logic.silent
  · exact logic.throw _

theorem readFragments (source : String)
    : logic.Holds known (fun parts => parts.flatMap Fragment.temps)
        (readFragments register? source) :=
  logic.bind (logic.parse source) fun items => logic.fragments items

theorem readStm (source : String)
    : logic.Holds known Stm.temps (readStm register? source) := by
  refine logic.bind (logic.parse source) fun items => logic.bind (logic.stms items) fun parts => ?_
  split
  · exact logic.throw _
  · exact logic.pure (by simp)
  · exact logic.pure (by simp)

theorem readExp (source : String)
    : logic.Holds known Exp.temps (readExp register? source) := by
  refine logic.bind (logic.parse source) fun items => ?_
  split
  · exact logic.exp _
  · exact logic.throw _

end ReaderLogic

end TreeTiling.Source
