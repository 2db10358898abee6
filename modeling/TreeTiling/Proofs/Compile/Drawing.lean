import TreeTiling.Proofs.Compile.Ownership
import TreeTiling.Proofs.Flow.Quoting
import TreeTiling.Proofs.X64.Accounts
import TreeTiling.Proofs.X64.EntryLiveness

/-!
Drawings of programs that were read.

Labels show live sets as they are, without escaping them. In a program that was read this is safe:
all registers that its code reads are temporaries or machine registers, and none of these has a
quote or a backslash in its name. Main statement: whatever else a program has in its names, the
strings of its drawings begin and end where they are meant to.
-/

namespace TreeTiling

open Source (AllNameable Nameable)

namespace X64

----------------------------------------------------------------------------------------------
-- Registers with names
----------------------------------------------------------------------------------------------

theorem nameable_of_mem {register : Temp} (member : register ∈ registers)
    : Nameable register? register := by
  have named : ∀ register ∈ registers, register? register.text = some register := by decide
  exact .machine (named register member)

/-- A register that can be named has neither quotes nor backslashes in its name. -/
theorem clean_of_nameable {register : Temp} (nameable : Nameable register? register)
    : Dot.Clean register.text := by
  have machine : ∀ register ∈ registers, Dot.Clean register.text := by decide
  cases nameable with
  | temporary number => exact .append (by decide) (.repr number)
  | machine found =>
      unfold register? at found
      exact machine register (List.mem_of_find?_eq_some found)

----------------------------------------------------------------------------------------------
-- Code
----------------------------------------------------------------------------------------------

/-- The code of a statement writes temporaries, machine registers and what the statement names. -/
theorem Task.MayWrite.nameable {part : Stm} {first next : Nat} {register : Temp}
    (written : (Task.statement part).MayWrite first next register)
    (named : AllNameable register? part.ownTemps)
    : Nameable register? register := by
  have ofCallee : ∀ register ∈ callerSaves, register ∈ registers := by decide
  have ofDivision : ∀ register ∈ [rax, rdx], register ∈ registers := by decide
  cases written with
  | fresh => exact .temporary _
  | division _ member => exact nameable_of_mem (ofDivision register member)
  | call _ member => exact nameable_of_mem (ofCallee register member)
  | destination member =>
      refine named register ?_
      rcases Task.assigned_of_destination member with ⟨src, rfl⟩ | ⟨op, left, right, value, rfl⟩
      · simp [Stm.ownTemps, Stm.operands]
      · simp [Stm.ownTemps]

/-- The code of a statement reads what the statement names, the stack and frame pointers, and what
it has written.
-/
theorem Tiling.uses_nameable {part : Stm} {first next : Nat} {code : List Op}
    (tiling : Tiling (.statement part) first code next)
    (named : AllNameable register? part.ownTemps) {op : Op} (member : op ∈ code)
    : AllNameable register? op.instr.uses := by
  have special : ∀ register ∈ specials, register ∈ X64.registers := by decide
  intro register read
  obtain ⟨offset, found⟩ := List.getElem?_of_mem member
  rcases tiling.uses_at found read with isRead | isSpecial | ⟨earlier, inFront, written⟩
  · exact named register (Task.reads_statement_subset part isRead)
  · exact nameable_of_mem (special register isSpecial)
  · exact (tiling.writesOnly earlier (List.mem_of_mem_take inFront) register written).nameable named

theorem selectBody_uses_nameable {body : Stm} {session after : Session} {code : Array Op}
    (selected : rules.selectBody body session = (.ok code, after))
    (named : AllNameable register? body.temps) {op : Op} (member : op ∈ code)
    : AllNameable register? op.instr.uses := by
  obtain ⟨last, statement, rfl, -⟩ := Rules.selectBody_ok.mp selected
  obtain ⟨pieces, gains, tiling⟩ := selectStatement_tiles statement
  have emitted : op ∈ pieces.flatten := by
    have isCode : last.code.toList = pieces.flatten := gains
    exact isCode ▸ Array.mem_toList_iff.mpr member
  obtain ⟨part, isPart, _, _, _, partTiling, inPart⟩ := tiling.of_mem emitted
  refine partTiling.uses_nameable ?_ inPart
  exact fun register occurs => named register (List.mem_flatMap_of_mem isPart occurs)

theorem uses_of_dataWord {word : Exp} {directive : Instr} (directed : dataWord word = .ok directive)
    : directive.uses = [] := by
  cases word with
  | const _ | name _ =>
      cases directed
      rfl
  | temp _ | mem _ | binop _ _ _ | call _ _ => cases directed

/-- Directives read no registers; by induction on the words. -/
theorem uses_of_mapM_dataWord {words : List Exp} {directives : List Instr}
    (directed : words.mapM dataWord = .ok directives)
    : ∀ instr ∈ directives, instr.uses = [] := by
  induction words generalizing directives with
  | nil =>
      cases directed
      exact List.forall_mem_nil _
  | cons word rest ih =>
      rw [List.mapM_cons] at directed
      cases first : dataWord word with
      | error error =>
          rw [first] at directed
          cases directed
      | ok directive =>
          cases others : rest.mapM dataWord with
          | error error =>
              rw [first, others] at directed
              cases directed
          | ok later =>
              rw [first, others] at directed
              cases directed
              exact List.forall_mem_cons.mpr ⟨uses_of_dataWord first, ih others⟩

/-- A section for a fragment reads only what can be named if the fragment does. -/
theorem generate_uses_nameable {fragment : Fragment} {session after : Session} {part : Section}
    (generated : generate fragment session = .ok part after)
    (named : AllNameable register? fragment.temps)
    : ∀ instr ∈ part.instrs, AllNameable register? instr.uses := by
  cases fragment with
  | procedure name body =>
      rw [generate, generateProcedure_eq] at generated
      rcases selected : rules.selectBody body (session.enter name.name) with ⟨answer, ended⟩
      rw [selected] at generated
      cases answer with
      | error error => cases generated
      | ok code =>
          cases generated
          intro instr member
          obtain ⟨op, isOp, rfl⟩ := Array.mem_map.mp member
          exact selectBody_uses_nameable selected named isOp
  | data name words =>
      rw [generate, generateData_eq] at generated
      cases directed : words.mapM dataWord with
      | error error =>
          rw [directed] at generated
          cases generated
      | ok directives =>
          rw [directed] at generated
          cases generated
          intro instr member
          have silent : instr.uses = [] := by
            rcases List.mem_cons.mp (List.mem_toArray.mp member) with rfl | isDirective
            · rfl
            · exact uses_of_mapM_dataWord directed instr isDirective
          rw [silent]
          exact List.forall_mem_nil _

/-- By induction on the fragments. -/
theorem assemble_uses_nameable {fragments : List Fragment} {session after : Session}
    {assembly : Assembly} (assembled : assemble fragments session = .ok assembly after)
    (named : ∀ fragment ∈ fragments, AllNameable register? fragment.temps)
    : ∀ part ∈ assembly, ∀ instr ∈ part.instrs, AllNameable register? instr.uses := by
  induction fragments generalizing session assembly with
  | nil =>
      cases assembled
      exact List.forall_mem_nil _
  | cons fragment rest ih =>
      obtain ⟨first, middle, parts, generated, assembledRest, rfl⟩ :=
        assemble_cons_ok.mp assembled
      obtain ⟨here, later⟩ := List.forall_mem_cons.mp named
      exact List.forall_mem_cons.mpr
        ⟨generate_uses_nameable generated here, ih assembledRest later⟩

end X64

/-- What is live somewhere is read by some instruction. -/
theorem Liveness.exists_reader_of_live {instrs : Array Instr} {node : Nat} {register : Temp}
    (live
      : register ∈ (compute (FlowGraph.build instrs)).liveIn node
        ∨ register ∈ (compute (FlowGraph.build instrs)).liveOut node)
    : ∃ instr ∈ instrs, register ∈ instr.uses := by
  have closed := FlowGraph.build_closed instrs
  have encloses : Encloses (FlowGraph.build instrs)
      (fun _ => {register | ∃ instr ∈ instrs, register ∈ instr.uses})
      (fun _ => {register | ∃ instr ∈ instrs, register ∈ instr.uses}) := by
    refine ⟨?_, fun _ _ _ member _ => member, fun _ _ _ _ => Set.Subset.rfl⟩
    intro node inside register read
    have inside : node < instrs.size := inside
    simp only [FlowGraph.uses, FlowGraph.build, Array.getElem?_eq_getElem inside] at read
    exact ⟨instrs[node], Array.getElem_mem inside, read⟩
  rcases live with before | after
  · exact (encloses.live_le closed (lt_of_mem_liveIn closed before)).1 before
  · exact (encloses.live_le closed (lt_of_mem_liveOut closed after)).2 after

----------------------------------------------------------------------------------------------
-- Work on a session
----------------------------------------------------------------------------------------------

namespace Workspace

variable {workspace : Workspace}

/-- What was read names, and what was generated reads, only what can be named. -/
structure Legible (workspace : Workspace) : Prop where
  read
    : ∀ index part,
        .fragment part ∈ (workspace.readers index).pieces
        → AllNameable X64.register? part.temps
  generated
    : ∀ run ∈ workspace.runs, ∀ part ∈ run.sections, ∀ instr ∈ part.instrs,
        AllNameable X64.register? instr.uses

/-- Putting a reader in its place, whose new fragments name only what can be named. -/
theorem Legible.put (legible : workspace.Legible) {index : Nat} {reading : Source.Reading}
    {pieces : List Piece}
    (added
      : ∀ part,
          .fragment part ∈ pieces
          → .fragment part ∈ (workspace.readers index).pieces
            ∨ AllNameable X64.register? part.temps)
    : (workspace.put index reading pieces).Legible where
  read :=
    forall_readers_put
      (fun _ reader =>
        ∀ part, .fragment part ∈ reader.pieces → AllNameable X64.register? part.temps)
      (fun part member => (added part member).elim (legible.read index part) id)
      legible.read
  generated := legible.generated

/-- Reading, whether it succeeds or not. -/
theorem Legible.reading (legible : workspace.Legible) (index : Nat) {α : Type}
    {computation : Source.ReadM α} {pieces : α → List Piece}
    (added
      : ∀ result reading part,
          computation { names := (workspace.readers index).names, session := workspace.session }
            = .ok result reading
          → .fragment part ∈ pieces result
          → AllNameable X64.register? part.temps)
    : (workspace.read index computation pieces).Legible := by
  unfold Workspace.read
  dsimp only [EStateM.run]
  cases outcome : computation
      { names := (workspace.readers index).names, session := workspace.session } with
  | ok result reading =>
      refine legible.put fun part member => ?_
      exact (List.mem_append.mp member).imp_right (added result reading part outcome)
  | error error reading => exact legible.put fun _ => .inl

/-- A run of the code generator, whether it succeeds or not. -/
theorem Legible.generating (legible : workspace.Legible) {fragments : List Fragment}
    {computation : X64.GenerateM (List Section)}
    (added
      : ∀ sections ended,
          computation workspace.session = .ok sections ended
          → ∀ part ∈ sections, ∀ instr ∈ part.instrs, AllNameable X64.register? instr.uses)
    : (workspace.generate fragments computation).Legible := by
  unfold generate
  dsimp only [EStateM.run]
  cases outcome : computation workspace.session with
  | ok sections ended =>
      exact ⟨legible.read, List.forall_mem_cons.mpr
        ⟨added sections ended outcome, legible.generated⟩⟩
  | error error ended =>
      exact ⟨legible.read, List.forall_mem_cons.mpr ⟨List.forall_mem_nil _, legible.generated⟩⟩

theorem Legible.fragment? (legible : workspace.Legible) {pick : Nat × Nat} {part : Fragment}
    (found : workspace.fragment? pick = some part)
    : AllNameable X64.register? part.temps :=
  legible.read pick.1 part (mem_of_fragment? found)

theorem Legible.step (legible : workspace.Legible) (sound : workspace.Sound) (request : Request)
    : (workspace.step request).Legible := by
  cases request with
  | readFragments index source =>
      refine legible.reading index fun fragments reading part read member => ?_
      have nameable := Source.readFragments_nameable (sound.names index).nameable read
      obtain ⟨other, isRead, same⟩ := List.mem_map.mp member
      obtain rfl := Piece.fragment.inj same
      exact fun register occurs => nameable register (List.mem_flatMap_of_mem isRead occurs)
  | readStm index source | readExp index source =>
      refine legible.reading index fun _ _ part _ member => ?_
      cases List.mem_singleton.mp member
  | generate pick =>
      rw [Workspace.step]
      cases found : workspace.fragment? pick with
      | none => exact legible
      | some part =>
          refine legible.generating fun sections ended generated => ?_
          rw [X64.GenerateM.bind_apply] at generated
          cases outcome : X64.generate part workspace.session with
          | error error failed =>
              rw [outcome] at generated
              cases generated
          | ok only middle =>
              rw [outcome] at generated
              cases generated
              exact List.forall_mem_singleton.mpr
                (X64.generate_uses_nameable outcome (legible.fragment? found))
  | assemble picks =>
      refine legible.generating fun sections ended assembled => ?_
      refine X64.assemble_uses_nameable assembled fun part member => ?_
      obtain ⟨pick, -, found⟩ := List.mem_filterMap.mp member
      exact legible.fragment? found
  | fresh => exact ⟨legible.read, legible.generated⟩

/-- By induction on the requests. -/
theorem Legible.run (legible : workspace.Legible) (sound : workspace.Sound)
    (requests : List Request)
    : (requests.foldl Workspace.step workspace).Legible := by
  induction requests generalizing workspace with
  | nil => exact legible
  | cons request rest ih => exact ih (legible.step sound request) (step_proceeds sound request).1

theorem after_legible (requests : List Request) : (after requests).Legible := by
  have new : Legible {} :=
    ⟨fun _ _ member => absurd member List.not_mem_nil, List.forall_mem_nil _⟩
  exact new.run sound_new requests

----------------------------------------------------------------------------------------------
-- Drawings
----------------------------------------------------------------------------------------------

/-- Escaped text has no bare quote, does not end in the middle of an escape, and is read as the text
that was escaped. In the drawing of a section that was generated for what was read, under any title,
each string begins and ends where it is meant to, and the labels of nodes are read as their live
sets, their numbers and the texts of their instructions, a line break between them. This is so
whatever was asked of the session before.
-/
theorem drawn_strings_end_as_meant
    : (∀ text : String, Dot.unescape? (Dot.escape text).toList = some text.toList)
      ∧ ∀ (requests : List Request) (title : String), ∀ run ∈ (after requests).runs,
          ∀ part ∈ run.sections,
            let liveness := Liveness.compute (FlowGraph.build part.instrs)
            let drawing := (Dot.document liveness title).toList
            let meant := Dot.stretches liveness title
            drawing = meant.flatMap Dot.Stretch.text
            ∧ Dot.places? .outside drawing = some (meant.flatMap Dot.Stretch.places)
            ∧ ∀ (node : Nat) (instr : Instr),
                Dot.unescape? (Dot.labelBody liveness node instr).toList
                = some
                    (Temp.setText (liveness.liveIn node) ++ "n" ++ node.repr ++ ": " ++ instr.text
                      ++ "n" ++ Temp.setText (liveness.liveOut node)).toList := by
  refine ⟨fun text => Dot.unescape?_eq_some_iff.mpr (Dot.reads_escape text), ?_⟩
  intro requests title run isRun part isPart liveness drawing meant
  have uses := (after_legible requests).generated run isRun part isPart
  have clean : ∀ node register,
      register ∈ liveness.liveIn node ∨ register ∈ liveness.liveOut node
      → Dot.Clean register.text := by
    intro node register live
    obtain ⟨instr, isInstr, read⟩ := Liveness.exists_reader_of_live live
    exact X64.clean_of_nameable (uses instr isInstr register read)
  refine ⟨Dot.toList_document liveness title, Dot.places?_document clean title, ?_⟩
  exact fun node instr => Dot.unescape?_eq_some_iff.mpr (Dot.reads_labelBody clean node instr)

-- A label with a quote and a backslash reaches the drawing of the procedure that it is read in.
example
    : ((after [.readFragments 0 "(proc f (label a\"\\))", .generate (0, 0)]).runs.map fun run =>
          run.sections.map fun part => part.instrs.toList.map fun instr => Dot.escape instr.text)
      = [[["a\\\"\\\\:"]]] := by
  decide +kernel

end Workspace

end TreeTiling
