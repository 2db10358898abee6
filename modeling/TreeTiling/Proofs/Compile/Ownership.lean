import Mathlib.Logic.Function.Basic
import TreeTiling.Compile
import TreeTiling.Proofs.Source.Naming
import TreeTiling.Proofs.X64.Scope

/-!
Who has which temporary of a session.

Readers, the rules that select code and the callers of the session all take temporaries from it, in
any order and also in work that fails. Each temporary belongs to the one that took it: a name keeps
its temporary, and no one else is ever given it.
-/

namespace TreeTiling

open Source (Names Reading ReadM)

----------------------------------------------------------------------------------------------
-- Work on a session
----------------------------------------------------------------------------------------------

/-- What a reader can answer with. -/
inductive Piece where
  | fragment (part : Fragment)
  | statement (tree : Stm)
  | expression (tree : Exp)

def Piece.temps : Piece → List Temp
  | fragment part => part.temps
  | statement tree => tree.temps
  | expression tree => tree.temps

/-- A reader: the names it knows, and what it has read so far. -/
structure Reader where
  names : Names := []
  pieces : List Piece := []

def Reader.temps (reader : Reader) : List Temp :=
  reader.pieces.flatMap Piece.temps

/-- A run of the code generator: the fragments it was given, the session that it found and left,
and the sections it answered with, if it succeeded.
-/
structure Run where
  fragments : List Fragment
  started : Session
  ended : Session
  sections : List Section

namespace Run

/-- The temporaries that rules took in a run. -/
def taken (run : Run) : List Temp :=
  takenBetween run.started.temps run.ended.temps

/-- An instruction was emitted in a run or is part of its answer. -/
def Emits (run : Run) (instr : Instr) : Prop :=
  (∃ position,
    run.started.events.size ≤ position ∧ run.ended.events[position]? = some (.emitted instr))
  ∨ ∃ part ∈ run.sections, instr ∈ part.instrs

end Run

/-- A session and those who work on it. A reader that has read nothing yet knows no names. -/
structure Workspace where
  session : Session := {}
  readers : Nat → Reader := fun _ => {}
  runs : List Run := []
  /-- The temporaries that were asked for directly. -/
  asked : List Temp := []

/-- What can be asked of a session and of those who work on it. Fragments are given by a reader and
a place in what it has read.
-/
inductive Request where
  | readFragments (reader : Nat) (source : String)
  | readStm (reader : Nat) (source : String)
  | readExp (reader : Nat) (source : String)
  | generate (pick : Nat × Nat)
  | assemble (picks : List (Nat × Nat))
  | fresh

/-- Those who take temporaries from a session. -/
inductive Owner where
  | reader (index : Nat)
  | selector
  | caller

namespace Workspace

/-- Puts what a reader has become in its place. -/
def put (workspace : Workspace) (index : Nat) (reading : Reading) (pieces : List Piece)
    : Workspace :=
  { workspace with
    session := reading.session
    readers := Function.update workspace.readers index { names := reading.names, pieces } }

/-- Lets a reader read. It keeps the names that it met before a fault. -/
def read {α : Type} (workspace : Workspace) (index : Nat) (computation : ReadM α)
    (pieces : α → List Piece)
    : Workspace :=
  let reader := workspace.readers index
  match computation.run { names := reader.names, session := workspace.session } with
  | .ok result reading => workspace.put index reading (reader.pieces ++ pieces result)
  | .error _ reading => workspace.put index reading reader.pieces

/-- The fragment at a place in what a reader has read. -/
def fragment? (workspace : Workspace) (pick : Nat × Nat) : Option Fragment :=
  match (workspace.readers pick.1).pieces[pick.2]? with
  | some (.fragment part) => some part
  | _ => none

/-- Keeps a record of a run of the code generator. -/
def record (workspace : Workspace) (fragments : List Fragment) (ended : Session)
    (sections : List Section)
    : Workspace :=
  let run := { fragments, started := workspace.session, ended, sections }
  { workspace with session := ended, runs := run :: workspace.runs }

/-- Generates code for fragments. -/
def generate (workspace : Workspace) (fragments : List Fragment)
    (computation : X64.GenerateM (List Section))
    : Workspace :=
  match computation.run workspace.session with
  | .ok sections ended => workspace.record fragments ended sections
  | .error _ ended => workspace.record fragments ended []

/-- Carries out a request. A request for a fragment that is not there changes nothing. -/
def step (workspace : Workspace) : Request → Workspace
  | .readFragments index source =>
      workspace.read index (Source.readFragments X64.register? source) (·.map .fragment)
  | .readStm index source =>
      workspace.read index (Source.readStm X64.register? source) fun tree => [.statement tree]
  | .readExp index source =>
      workspace.read index (Source.readExp X64.register? source) fun tree => [.expression tree]
  | .generate pick =>
      match workspace.fragment? pick with
      | some part => workspace.generate [part] (do return [← X64.generate part])
      | none => workspace
  | .assemble picks =>
      let fragments := picks.filterMap workspace.fragment?
      workspace.generate fragments (X64.assemble fragments)
  | .fresh =>
      let (register, session) := workspace.session.fresh
      { workspace with session, asked := register :: workspace.asked }

/-- What requests come to, in order, on a new session. -/
def after (requests : List Request) : Workspace :=
  requests.foldl step {}

----------------------------------------------------------------------------------------------
-- Owners
----------------------------------------------------------------------------------------------

/-- The temporaries that someone has taken. -/
def owned (workspace : Workspace) : Owner → List Temp
  | .reader index => (workspace.readers index).names.temps
  | .selector => workspace.runs.flatMap Run.taken
  | .caller => workspace.asked

/-- Work only adds to what is there. -/
structure Grows (before after : Workspace) : Prop where
  temps_le : before.session.temps ≤ after.session.temps
  names : ∀ index, (before.readers index).names <:+ (after.readers index).names
  pieces : ∀ index, (before.readers index).pieces ⊆ (after.readers index).pieces
  owned : ∀ owner, before.owned owner ⊆ after.owned owner

theorem Grows.refl (workspace : Workspace) : workspace.Grows workspace :=
  ⟨Nat.le_refl _, fun _ => List.suffix_refl _, fun _ => List.Subset.refl _,
    fun _ => List.Subset.refl _⟩

theorem Grows.trans {before middle after : Workspace} (first : before.Grows middle)
    (second : middle.Grows after)
    : before.Grows after where
  temps_le := Nat.le_trans first.temps_le second.temps_le
  names index := (first.names index).trans (second.names index)
  pieces index := List.Subset.trans (first.pieces index) (second.pieces index)
  owned owner := List.Subset.trans (first.owned owner) (second.owned owner)

/-- One of the owners takes temporaries from the session and the others take none. -/
structure Takes (taker : Owner) (before after : Workspace) : Prop extends before.Grows after where
  taken
    : ∀ register ∈ after.owned taker,
        register ∈ before.owned taker
        ∨ register ∈ takenBetween before.session.temps after.session.temps
  others : ∀ owner, owner ≠ taker → after.owned owner = before.owned owner

/-- A run was given fragments that were read, and its instructions name only machine registers,
temporaries of these fragments, and those that its rules took.
-/
structure Accounts (workspace : Workspace) (run : Run) : Prop where
  given : ∀ part ∈ run.fragments, ∃ index, .fragment part ∈ (workspace.readers index).pieces
  emitted
    : ∀ instr,
        run.Emits instr
        → Covered (run.fragments.flatMap Fragment.temps ++ run.taken) instr.registers

theorem Accounts.later {before after : Workspace} {run : Run} (accounts : before.Accounts run)
    (grows : before.Grows after)
    : after.Accounts run := by
  refine ⟨?_, accounts.emitted⟩
  intro part member
  obtain ⟨index, wasRead⟩ := accounts.given part member
  exact ⟨index, grows.pieces index wasRead⟩

/-- What holds of the temporaries at any time. -/
structure Sound (workspace : Workspace) : Prop where
  names
    : ∀ index,
        Reading.Sound
          { names := (workspace.readers index).names, session := workspace.session }
  below : ∀ owner, workspace.owned owner ⊆ takenBetween 0 workspace.session.temps
  apart : ∀ one other, one ≠ other → (workspace.owned one).Disjoint (workspace.owned other)
  read
    : ∀ index, Covered (workspace.readers index).names.temps (workspace.readers index).temps
  runs : ∀ run ∈ workspace.runs, workspace.Accounts run

/-- A new session was asked for nothing. -/
theorem sound_new : Sound {} := by
  constructor
  · exact fun _ => ⟨List.nodup_nil, List.nodup_nil, List.nil_subset _⟩
  · intro owner
    cases owner <;> exact List.nil_subset _
  · intro one other _
    cases one <;> exact List.disjoint_nil_left _
  · exact fun _ => .nil
  · exact fun run member => absurd member List.not_mem_nil

/-- What is taken now belonged to no one. -/
theorem Sound.not_owned {before : Workspace} (sound : before.Sound) {owner : Owner}
    {register : Temp} {count : Nat} (now : register ∈ takenBetween before.session.temps count)
    : register ∉ before.owned owner := by
  intro earlier
  obtain ⟨number, le, -, rfl⟩ := mem_takenBetween.mp now
  obtain ⟨other, -, lt, same⟩ := mem_takenBetween.mp (sound.below owner earlier)
  obtain rfl := Temp.virtual.inj same
  exact Nat.not_lt_of_le le lt

namespace Takes

variable {taker : Owner} {before after : Workspace}

theorem refl (taker : Owner) (workspace : Workspace) : Takes taker workspace workspace where
  toGrows := .refl workspace
  taken _ := .inl
  others _ _ := rfl

/-- A temporary belongs to its owner already or was taken now. -/
theorem owned_cases (takes : Takes taker before after) {owner : Owner} {register : Temp}
    (member : register ∈ after.owned owner)
    : register ∈ before.owned owner
      ∨ owner = taker ∧ register ∈ takenBetween before.session.temps after.session.temps := by
  by_cases same : owner = taker
  · subst same
    exact (takes.taken register member).imp_right fun now => ⟨rfl, now⟩
  · rw [takes.others owner same] at member
    exact .inl member

theorem below (takes : Takes taker before after) (sound : before.Sound) (owner : Owner)
    : after.owned owner ⊆ takenBetween 0 after.session.temps := by
  intro register member
  rcases takes.owned_cases member with earlier | ⟨-, now⟩
  · exact takenBetween_subset (Nat.le_refl 0) takes.temps_le (sound.below owner earlier)
  · exact takenBetween_subset (Nat.zero_le _) (Nat.le_refl _) now

theorem apart (takes : Takes taker before after) (sound : before.Sound) {one other : Owner}
    (different : one ≠ other)
    : (after.owned one).Disjoint (after.owned other) := by
  intro register left right
  rcases takes.owned_cases left with leftEarlier | ⟨rfl, leftNow⟩
  · rcases takes.owned_cases right with rightEarlier | ⟨-, rightNow⟩
    · exact sound.apart one other different leftEarlier rightEarlier
    · exact sound.not_owned rightNow leftEarlier
  · rcases takes.owned_cases right with rightEarlier | ⟨same, -⟩
    · exact sound.not_owned leftNow rightEarlier
    · exact different same.symm

end Takes

----------------------------------------------------------------------------------------------
-- One request
----------------------------------------------------------------------------------------------

/-- A request is carried out soundly by one of the owners. -/
def Proceeds (before after : Workspace) : Prop :=
  after.Sound ∧ ∃ taker, Takes taker before after

variable {workspace : Workspace}

/-- What holds of the reader that was put in its place and of those before holds of all. -/
theorem forall_readers_put {index : Nat} {reading : Reading} {pieces : List Piece}
    (holds : Nat → Reader → Prop) (here : holds index { names := reading.names, pieces })
    (elsewhere : ∀ other, holds other (workspace.readers other)) (other : Nat)
    : holds other ((workspace.put index reading pieces).readers other) :=
  (Function.forall_update_iff _ holds).mpr ⟨here, fun other _ => elsewhere other⟩ other

/-- Only the reader whose turn it is takes temporaries. -/
theorem put_takes {index : Nat} {reading : Reading} {pieces : List Piece}
    (grows
      : Reading.Grows
          { names := (workspace.readers index).names, session := workspace.session }
          reading)
    (kept : (workspace.readers index).pieces ⊆ pieces)
    : Takes (.reader index) workspace (workspace.put index reading pieces) where
  temps_le := grows.temps_le
  names :=
    forall_readers_put (fun other reader => (workspace.readers other).names <:+ reader.names)
      grows.kept fun _ => List.suffix_refl _
  pieces :=
    forall_readers_put (fun other reader => (workspace.readers other).pieces ⊆ reader.pieces)
      kept fun _ => List.Subset.refl _
  owned := by
    intro owner
    cases owner with
    | reader other =>
        exact forall_readers_put
          (fun other reader => (workspace.readers other).names.temps ⊆ reader.names.temps)
          (grows.kept.map Prod.snd).subset (fun _ => List.Subset.refl _) other
    | selector | caller => exact List.Subset.refl _
  taken := by
    intro register member
    simp only [owned, put, Function.update_self] at member
    exact grows.added register member
  others := by
    intro owner different
    cases owner with
    | reader other =>
        have elsewhere : other ≠ index := fun same => different (congrArg _ same)
        simp only [owned, put, Function.update_of_ne elsewhere]
    | selector | caller => rfl

/-- A reader that has grown takes its place. -/
theorem put_sound (sound : workspace.Sound) {index : Nat} {reading : Reading}
    {pieces : List Piece} (readingSound : reading.Sound)
    (takes : Takes (.reader index) workspace (workspace.put index reading pieces))
    (covered : Covered reading.names.temps (pieces.flatMap Piece.temps))
    : (workspace.put index reading pieces).Sound where
  names :=
    forall_readers_put
      (fun _ reader => Reading.Sound { names := reader.names, session := reading.session })
      readingSound fun other => (sound.names other).later takes.temps_le
  below := takes.below sound
  apart _ _ := takes.apart sound
  read :=
    forall_readers_put (fun _ reader => Covered reader.names.temps reader.temps) covered
      sound.read
  runs run member := (sound.runs run member).later takes.toGrows

/-- Reading is the reader's own work, whether it succeeds or not. -/
theorem read_proceeds (sound : workspace.Sound) (index : Nat) {α : Type}
    {computation : ReadM α} {pieces : α → List Piece}
    (keeps
      : Reading.ledger.Keeps [] (fun result => (pieces result).flatMap Piece.temps) computation)
    : workspace.Proceeds (workspace.read index computation pieces) := by
  have done := keeps _ (sound.names index) .nil
  unfold read
  dsimp only [EStateM.run]
  cases outcome : computation
      { names := (workspace.readers index).names, session := workspace.session } with
  | ok result reading =>
      rw [outcome] at done
      obtain ⟨readingSound, grows, covered⟩ := done
      have takes := put_takes grows (List.subset_append_left _ (pieces result))
      refine ⟨put_sound sound readingSound takes ?_, _, takes⟩
      rw [List.flatMap_append]
      exact .append ((sound.read index).mono (Reading.ledger.known_subset grows)) covered
  | error error reading =>
      rw [outcome] at done
      obtain ⟨readingSound, grows⟩ := done
      have takes := put_takes grows (List.Subset.refl _)
      exact ⟨put_sound sound readingSound takes
        ((sound.read index).mono (Reading.ledger.known_subset grows)), _, takes⟩

/-- Where no reader is at work, what readers have read and named stays. -/
theorem Takes.sound {taker : Owner} {before after : Workspace} (takes : Takes taker before after)
    (sound : before.Sound) (readers : after.readers = before.readers)
    (runs : ∀ run ∈ after.runs, run ∈ before.runs ∨ after.Accounts run)
    : after.Sound where
  names index := by
    rw [readers]
    exact (sound.names index).later takes.temps_le
  below := takes.below sound
  apart _ _ := takes.apart sound
  read index := by
    rw [readers]
    exact sound.read index
  runs := by
    intro run member
    rcases runs run member with earlier | accounts
    · exact (sound.runs run earlier).later takes.toGrows
    · exact accounts

/-- A run of the code generator takes what its rules take. -/
theorem record_takes {fragments : List Fragment} {ended : Session} {sections : List Section}
    (le : workspace.session.temps ≤ ended.temps)
    : Takes .selector workspace (workspace.record fragments ended sections) where
  temps_le := le
  names _ := List.suffix_refl _
  pieces _ := List.Subset.refl _
  owned := by
    intro owner
    cases owner with
    | selector => exact List.subset_append_right _ _
    | reader _ | caller => exact List.Subset.refl _
  taken register member := (List.mem_append.mp member).symm
  others := by
    intro owner different
    cases owner with
    | selector => exact absurd rfl different
    | reader _ | caller => rfl

theorem generate_proceeds (sound : workspace.Sound) {fragments : List Fragment}
    (given : ∀ part ∈ fragments, ∃ index, .fragment part ∈ (workspace.readers index).pieces)
    {computation : X64.GenerateM (List Section)}
    (keeps
      : (Session.ledger (fragments.flatMap Fragment.temps) workspace.session).Keeps
          (fragments.flatMap Fragment.temps) (fun parts => parts.flatMap Section.registers)
          computation)
    : workspace.Proceeds (workspace.generate fragments computation) := by
  have done := keeps workspace.session (Session.accounted_start _ _) .left
  have recorded (ended : Session) (sections : List Section)
      (accounted
        : Session.Accounted (fragments.flatMap Fragment.temps) workspace.session ended)
      (covered
        : Covered
            (fragments.flatMap Fragment.temps
              ++ takenBetween workspace.session.temps ended.temps)
            (sections.flatMap Section.registers))
      : workspace.Proceeds (workspace.record fragments ended sections) := by
    have takes : Takes .selector workspace (workspace.record fragments ended sections) :=
      record_takes accounted.temps_le
    refine ⟨takes.sound sound rfl ?_, _, takes⟩
    intro run member
    rcases List.mem_cons.mp member with rfl | earlier
    · refine .inr ⟨given, ?_⟩
      intro instr emits
      rcases emits with ⟨position, since, found⟩ | ⟨part, isPart, isInstr⟩
      · exact accounted.emitted position instr since found
      · intro register occurs
        refine covered register (List.mem_flatMap_of_mem isPart ?_)
        exact List.mem_flatMap_of_mem (Array.mem_toList_iff.mpr isInstr) occurs
    · exact .inl earlier
  unfold generate
  dsimp only [EStateM.run]
  cases outcome : computation workspace.session with
  | ok sections ended =>
      rw [outcome] at done
      exact recorded ended sections done.1 done.2.2
  | error error ended =>
      rw [outcome] at done
      exact recorded ended [] done.1 .nil

theorem mem_of_fragment? {pick : Nat × Nat} {part : Fragment}
    (found : workspace.fragment? pick = some part)
    : .fragment part ∈ (workspace.readers pick.1).pieces := by
  unfold fragment? at found
  split at found
  next other isRead =>
    cases found
    exact List.mem_of_getElem? isRead
  next => cases found

/-- A temporary that is asked for directly is the caller's. -/
theorem fresh_takes : Takes .caller workspace (workspace.step .fresh) where
  temps_le := Nat.le_succ _
  names _ := List.suffix_refl _
  pieces _ := List.Subset.refl _
  owned := by
    intro owner
    cases owner with
    | caller => exact List.subset_cons_self _ _
    | reader _ | selector => exact List.Subset.refl _
  taken := by
    intro register member
    rcases List.mem_cons.mp member with rfl | earlier
    · exact .inr (mem_takenBetween.mpr ⟨_, Nat.le_refl _, Nat.lt_succ_self _, rfl⟩)
    · exact .inl earlier
  others := by
    intro owner different
    cases owner with
    | caller => exact absurd rfl different
    | reader _ | selector => rfl

theorem registers_fixed : Source.NamesFixed X64.register? := by
  have allFixed : ∀ register ∈ X64.registers, register.isFixed = true := by decide
  intro name register found
  unfold X64.register? at found
  exact allFixed register (List.mem_of_find?_eq_some found)

theorem step_proceeds (sound : workspace.Sound) (request : Request)
    : workspace.Proceeds (workspace.step request) := by
  cases request with
  | readFragments index source =>
      refine read_proceeds sound index ?_
      simpa only [List.flatMap_map, Piece.temps] using
        Source.readFragments_keeps registers_fixed source
  | readStm index source =>
      refine read_proceeds sound index ?_
      simpa [Piece.temps] using Source.readStm_keeps registers_fixed source
  | readExp index source =>
      refine read_proceeds sound index ?_
      simpa [Piece.temps] using Source.readExp_keeps registers_fixed source
  | generate pick =>
      rw [step]
      cases found : workspace.fragment? pick with
      | none => exact ⟨sound, .caller, .refl _ _⟩
      | some part =>
          have isRead := mem_of_fragment? found
          refine generate_proceeds sound (List.forall_mem_singleton.mpr ⟨_, isRead⟩) ?_
          refine .bind ((X64.generate_keeps part).of_covered ?_) fun generated => .pure ?_
          · simpa using Covered.of_subset (List.Subset.refl _)
          · simpa using Covered.left
  | assemble picks =>
      refine generate_proceeds sound ?_ (X64.assemble_keeps _)
      intro part member
      obtain ⟨pick, -, found⟩ := List.mem_filterMap.mp member
      exact ⟨_, mem_of_fragment? found⟩
  | fresh => exact ⟨fresh_takes.sound sound rfl fun _ => .inl, .caller, fresh_takes⟩

----------------------------------------------------------------------------------------------
-- Any number of requests
----------------------------------------------------------------------------------------------

/-- Requests keep what holds of the temporaries, and only add; by induction on them. -/
theorem run_sound (sound : workspace.Sound) (requests : List Request)
    : (requests.foldl step workspace).Sound
      ∧ workspace.Grows (requests.foldl step workspace) := by
  induction requests generalizing workspace with
  | nil => exact ⟨sound, .refl _⟩
  | cons request rest ih =>
      obtain ⟨stepSound, taker, takes⟩ := step_proceeds sound request
      obtain ⟨restSound, grows⟩ := ih stepSound
      exact ⟨restSound, takes.toGrows.trans grows⟩

/-- A register is in a reader's names, was taken or asked for, or occurs in a tree that was read or
in an instruction.
-/
def Mentions (workspace : Workspace) (register : Temp) : Prop :=
  (∃ owner, register ∈ workspace.owned owner)
  ∨ (∃ index, register ∈ (workspace.readers index).temps)
  ∨ ∃ run ∈ workspace.runs, ∃ instr, run.Emits instr ∧ register ∈ instr.registers

/-- A register that is mentioned is a machine register or belongs to someone. -/
theorem Sound.owned_of_mentions (sound : workspace.Sound) {register : Temp}
    (mentions : workspace.Mentions register)
    : register.isFixed = true ∨ ∃ owner, register ∈ workspace.owned owner := by
  have ofReader {index : Nat} (occurs : register ∈ (workspace.readers index).temps)
      : register.isFixed = true ∨ ∃ owner, register ∈ workspace.owned owner :=
    (sound.read index register occurs).imp_right fun isNamed => ⟨.reader index, isNamed⟩
  rcases mentions with isOwned | ⟨index, occurs⟩ | ⟨run, isRun, instr, emits, occurs⟩
  · exact .inr isOwned
  · exact ofReader occurs
  · have accounts := sound.runs run isRun
    rcases accounts.emitted instr emits register occurs with isFixed | known
    · exact .inl isFixed
    · rcases List.mem_append.mp known with inFragments | taken
      · obtain ⟨part, isPart, inPart⟩ := List.mem_flatMap.mp inFragments
        obtain ⟨index, isRead⟩ := accounts.given part isPart
        exact ofReader (List.mem_flatMap_of_mem isRead inPart)
      · exact .inr ⟨.selector, List.mem_flatMap_of_mem isRun taken⟩

/-- Temporaries do not collide from some time of a session to a later one. -/
structure Uncollided (now later : Workspace) : Prop where
  /-- Every virtual register anywhere was handed out by the session. -/
  below : ∀ number, now.Mentions (.virtual number) → number < now.session.temps
  /-- A name, when it is read, denotes the temporary that the reader has for it from then on. -/
  denoted
    : ∀ index name,
        name.toList.head? ≠ some '%'
        → ∀ start place line,
            ∃ register reading,
              Source.exp X64.register? (.list [.atom "temp" start, .atom name place] line)
                  { names := (now.readers index).names, session := now.session }
                = .ok (.temp register) reading
              ∧ reading.names.lookup name = some register
              ∧ ∀ earlier,
                  (now.readers index).names.lookup name = some earlier → earlier = register
  distinct
    : ∀ index left right register,
        (now.readers index).names.lookup left = some register
        → (now.readers index).names.lookup right = some register
        → left = right
  kept
    : ∀ index name register,
        (now.readers index).names.lookup name = some register
        → (later.readers index).names.lookup name = some register
  read : ∀ index, Covered (now.readers index).names.temps (now.readers index).temps
  emitted : ∀ run ∈ now.runs, now.Accounts run
  /-- What belongs to one is never given to another. -/
  apart : ∀ one other, one ≠ other → (now.owned one).Disjoint (later.owned other)

/-- Whatever is asked of a session, and in whatever order, no two of its readers, its rules and its
callers have a temporary in common, and no two names of a reader; what someone has stays theirs.
-/
theorem temporaries_never_collide (earlier later : List Request)
    : (after earlier).Uncollided (after (earlier ++ later)) := by
  obtain ⟨sound, -⟩ := run_sound sound_new earlier
  obtain ⟨laterSound, grows⟩ := run_sound sound later
  rw [← List.foldl_append] at laterSound grows
  constructor
  · intro number mentions
    rcases sound.owned_of_mentions mentions with isFixed | ⟨owner, isOwned⟩
    · cases isFixed
    · obtain ⟨same, -, lt, isVirtual⟩ := mem_takenBetween.mp (sound.below owner isOwned)
      obtain rfl := Temp.virtual.inj isVirtual
      exact lt
  · intro index name plain start place line
    exact Source.exp_temp plain start place line _
  · exact fun index _ _ _ first second => (sound.names index).name_eq first second
  · intro index name register found
    exact Source.lookup_kept (laterSound.names index).keys (grows.names index) found
  · exact sound.read
  · exact sound.runs
  · intro one other different register isOwned
    exact laterSound.apart one other different (grows.owned one isOwned)

-- What the first reader met before the fault stays named; the second reader's `x` is another.
example
    : ((after [.readExp 0 "(temp x)", .fresh, .readExp 1 "(temp x)",
        .readExp 0 "(plus (temp y) (oops))"]).readers 0).names
      = [("y", .virtual 3), ("x", .virtual 0)] := by
  decide +kernel

end Workspace

end TreeTiling
