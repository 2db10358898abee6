import Mathlib.Data.List.Nodup
import TreeTiling.Proofs.Session.Ledger
import TreeTiling.Proofs.Source.ReaderLogic

/-!
What a reader does with names: each name has one temporary of its own, which it keeps, and trees
that were read name only machine registers and these temporaries.

Reading takes temporaries from the session and does nothing else to it. All of this holds up to a
fault too.
-/

namespace TreeTiling.Source

----------------------------------------------------------------------------------------------
-- Names
----------------------------------------------------------------------------------------------

/-- The temporaries that names have. -/
def Names.temps (names : Names) : List Temp :=
  names.map Prod.snd

theorem mem_of_lookup {names : Names} {name : String} {register : Temp}
    (found : names.lookup name = some register)
    : (name, register) ∈ names := by
  obtain ⟨front, back, rfl, -⟩ := List.lookup_eq_some_iff.mp found
  exact List.mem_append_right _ List.mem_cons_self

/-- A name that is known keeps its temporary when others are added in front. -/
theorem lookup_kept {names later : Names} (keys : (later.map Prod.fst).Nodup)
    (kept : names <:+ later) {name : String} {register : Temp}
    (found : names.lookup name = some register)
    : later.lookup name = some register := by
  obtain ⟨added, rfl⟩ := kept
  rw [List.map_append] at keys
  have notAdded : added.lookup name = none := by
    refine List.lookup_eq_none_iff.mpr fun entry isAdded => ?_
    have different := List.disjoint_of_nodup_append keys (List.mem_map_of_mem isAdded)
    by_contra same
    have same : name = entry.1 := by simpa using same
    exact different (same ▸ List.mem_map_of_mem (mem_of_lookup found))
  rw [List.lookup_append, notAdded, Option.none_or, found]

/-- Names and their temporaries correspond one to one, and the session has handed the temporaries
out.
-/
structure Reading.Sound (reading : Reading) : Prop where
  keys : (reading.names.map Prod.fst).Nodup
  temps : reading.names.temps.Nodup
  below : reading.names.temps ⊆ takenBetween 0 reading.session.temps

theorem Reading.Sound.later {reading : Reading} (sound : reading.Sound) {session : Session}
    (le : reading.session.temps ≤ session.temps)
    : Reading.Sound { reading with session } :=
  ⟨sound.keys, sound.temps,
    List.Subset.trans sound.below (takenBetween_subset (Nat.le_refl 0) le)⟩

/-- Different names have different temporaries. -/
theorem Reading.Sound.name_eq {reading : Reading} (sound : reading.Sound) {left right : String}
    {register : Temp} (first : reading.names.lookup left = some register)
    (second : reading.names.lookup right = some register)
    : left = right :=
  congrArg Prod.fst
    (List.inj_on_of_nodup_map sound.temps (mem_of_lookup first) (mem_of_lookup second) rfl)

/-- Reading adds names in front, with temporaries that it takes from the session. -/
structure Reading.Grows (before after : Reading) : Prop where
  kept : before.names <:+ after.names
  added
    : ∀ register ∈ after.names.temps,
        register ∈ before.names.temps
        ∨ register ∈ takenBetween before.session.temps after.session.temps
  session : after.session = { before.session with temps := after.session.temps }
  temps_le : before.session.temps ≤ after.session.temps

theorem Reading.Grows.refl (reading : Reading) : reading.Grows reading :=
  ⟨List.suffix_refl _, fun _ => .inl, rfl, Nat.le_refl _⟩

theorem Reading.Grows.trans {before middle after : Reading} (first : before.Grows middle)
    (second : middle.Grows after)
    : before.Grows after := by
  refine ⟨first.kept.trans second.kept, ?_, ?_, Nat.le_trans first.temps_le second.temps_le⟩
  · intro register member
    rcases second.added register member with earlier | late
    · rcases first.added register earlier with oldest | early
      · exact .inl oldest
      · exact .inr (takenBetween_subset (Nat.le_refl _) second.temps_le early)
    · exact .inr (takenBetween_subset first.temps_le (Nat.le_refl _) late)
  · rw [second.session, first.session]

/-- The accounts of a reader. -/
def Reading.ledger : Ledger Reading where
  Sound := Reading.Sound
  known reading := reading.names.temps
  Grows := Reading.Grows
  refl := Reading.Grows.refl
  trans := Reading.Grows.trans
  known_subset grows := (grows.kept.map Prod.snd).subset

open Reading (ledger)

variable {known : List Temp} {register? : String → Option Temp}

/-- A name has the temporary that it had, or takes a fresh one. -/
theorem named_eq (name : String) (before : Reading)
    : named name before
      = match before.names.lookup name with
        | some register => .ok register before
        | none =>
            .ok (.virtual before.session.temps)
              { names := (name, .virtual before.session.temps) :: before.names
                session := before.session.fresh.2 } := by
  have opens (change : Reading → Temp × Reading)
      : (modifyGet change : ReadM Temp) before = .ok (change before).1 (change before).2 :=
    rfl
  unfold named
  rw [opens]
  cases before.names.lookup name <;> rfl

/-- A new name and a fresh temporary leave the names one to one with their temporaries. -/
theorem Reading.Sound.taken {reading : Reading} (sound : reading.Sound) {name : String}
    (new : reading.names.lookup name = none)
    : Reading.Sound
        { names := (name, .virtual reading.session.temps) :: reading.names
          session := reading.session.fresh.2 } := by
  refine ⟨List.nodup_cons.mpr ⟨?_, sound.keys⟩, List.nodup_cons.mpr ⟨?_, sound.temps⟩, ?_⟩
  · intro member
    obtain ⟨entry, isEntry, same⟩ := List.mem_map.mp member
    have differs := List.lookup_eq_none_iff.mp new entry isEntry
    simp [same] at differs
  · intro member
    obtain ⟨number, -, lt, same⟩ := mem_takenBetween.mp (sound.below member)
    obtain rfl := Temp.virtual.inj same
    exact Nat.lt_irrefl _ lt
  · refine List.cons_subset.mpr ⟨mem_takenBetween.mpr ?_, ?_⟩
    · exact ⟨_, Nat.zero_le _, Nat.lt_succ_self _, rfl⟩
    · exact List.Subset.trans sound.below (takenBetween_subset (Nat.le_refl 0) (Nat.le_succ _))

theorem named_keeps (name : String)
    : ledger.Keeps known (fun register => [register]) (named name) := by
  intro before sound _
  rw [named_eq]
  cases found : before.names.lookup name with
  | some register =>
      refine ⟨sound, .refl before, List.forall_mem_singleton.mpr (.inr ?_)⟩
      exact List.mem_map_of_mem (mem_of_lookup found)
  | none =>
      refine ⟨sound.taken found, ⟨List.suffix_cons _ _, ?_, rfl, Nat.le_succ _⟩, ?_⟩
      · intro register member
        rcases List.mem_cons.mp member with rfl | earlier
        · exact .inr (mem_takenBetween.mpr ⟨_, Nat.le_refl _, Nat.lt_succ_self _, rfl⟩)
        · exact .inl earlier
      · exact List.forall_mem_singleton.mpr (.inr List.mem_cons_self)

/-- A temporary in an expression is the one that its name has from then on, and had before. -/
theorem exp_temp {name : String} (plain : name.toList.head? ≠ some '%') (start place line : Nat)
    (before : Reading)
    : ∃ register after,
        exp register? (.list [.atom "temp" start, .atom name place] line) before
          = .ok (.temp register) after
        ∧ after.names.lookup name = some register
        ∧ ∀ earlier, before.names.lookup name = some earlier → earlier = register := by
  have isNamed
      : exp register? (.list [.atom "temp" start, .atom name place] line)
        = (do return .temp (← named name)) := by
    rw [exp.eq_def]
    simp [ExpForm.ofKeyword?, temporary, temporaryName, plain]
  have run {register : Temp} {after : Reading} (answered : named name before = .ok register after)
      : exp register? (.list [.atom "temp" start, .atom name place] line) before
        = .ok (.temp register) after := by
    rw [isNamed]
    change EStateM.bind (named name) _ before = _
    unfold EStateM.bind
    rw [answered]
    rfl
  have answered := named_eq name before
  cases found : before.names.lookup name with
  | some register =>
      rw [found] at answered
      exact ⟨register, before, run answered, found, fun _ same => (Option.some.inj same).symm⟩
  | none =>
      rw [found] at answered
      refine ⟨_, _, run answered, List.lookup_cons_self, fun _ same => ?_⟩
      cases same

----------------------------------------------------------------------------------------------
-- Everything that is read
----------------------------------------------------------------------------------------------

/-- The machine's registers are machine registers. -/
def NamesFixed (register? : String → Option Temp) : Prop :=
  ∀ name register, register? name = some register → register.isFixed = true

/-- Whatever is read keeps the accounts of the reader. -/
def keepsLogic (machine : NamesFixed register?) : ReaderLogic register? where
  Holds := ledger.Keeps
  pure subset := .pure (.of_subset subset)
  throw := .throw
  bind := .bind
  named := named_keeps
  machine found := .pure (List.forall_mem_singleton.mpr (.inl (machine _ _ found)))

theorem readFragments_keeps (machine : NamesFixed register?) (source : String)
    : ledger.Keeps known (fun parts => parts.flatMap Fragment.temps)
        (readFragments register? source) :=
  (keepsLogic machine).readFragments source

theorem readStm_keeps (machine : NamesFixed register?) (source : String)
    : ledger.Keeps known Stm.temps (readStm register? source) :=
  (keepsLogic machine).readStm source

theorem readExp_keeps (machine : NamesFixed register?) (source : String)
    : ledger.Keeps known Exp.temps (readExp register? source) :=
  (keepsLogic machine).readExp source

----------------------------------------------------------------------------------------------
-- What a text can name
----------------------------------------------------------------------------------------------

/-- A temporary, or the machine register of a name. -/
inductive Nameable (register? : String → Option Temp) : Temp → Prop where
  | temporary (number : Nat) : Nameable register? (.virtual number)
  | machine {name : String} {register : Temp} (found : register? name = some register)
    : Nameable register? register

/-- All registers of a list can be named. -/
def AllNameable (register? : String → Option Temp) (registers : List Temp) : Prop :=
  ∀ register ∈ registers, Nameable register? register

theorem Reading.Sound.nameable {reading : Reading} (sound : reading.Sound)
    : AllNameable register? reading.names.temps := by
  intro register isNamed
  obtain ⟨number, -, -, rfl⟩ := mem_takenBetween.mp (sound.below isNamed)
  exact .temporary number

/-- The end of a reader that has read and named only what can be named. -/
def EndsNameable {α : Type} (register? : String → Option Temp) (results : α → List Temp)
    : EStateM.Result Error Reading α → Prop
  | .ok result after =>
      AllNameable register? (results result) ∧ AllNameable register? after.names.temps
  | .error _ _ => True

/-- Whatever is read names only what can be named. -/
def nameableLogic (register? : String → Option Temp) : ReaderLogic register? where
  Holds known results reader :=
    ∀ before,
      AllNameable register? known
      → AllNameable register? before.names.temps
      → EndsNameable register? results (reader before)
  pure subset := fun _ nameable names =>
    ⟨fun register member => nameable register (subset member), names⟩
  throw _ := fun _ _ _ => trivial
  bind {_ _ _ _ others reader next} holds holdsNext := by
    intro before nameable names
    have ended := holds before nameable names
    change EndsNameable register? others (EStateM.bind reader next before)
    unfold EStateM.bind
    cases outcome : reader before with
    | error error middle => trivial
    | ok result middle =>
        rw [outcome] at ended
        obtain ⟨answered, namesThen⟩ := ended
        exact holdsNext result middle (List.forall_mem_append.mpr ⟨answered, nameable⟩) namesThen
  named name := by
    intro before _ names
    rw [named_eq]
    cases found : before.names.lookup name with
    | some register =>
        have isNamed : register ∈ before.names.temps := List.mem_map_of_mem (mem_of_lookup found)
        exact ⟨List.forall_mem_singleton.mpr (names register isNamed), names⟩
    | none =>
        exact ⟨List.forall_mem_singleton.mpr (.temporary _),
          List.forall_mem_cons.mpr ⟨.temporary _, names⟩⟩
  machine found := fun _ _ names => ⟨List.forall_mem_singleton.mpr (.machine found), names⟩

theorem readFragments_nameable {source : String} {before after : Reading}
    {fragments : List Fragment} (names : AllNameable register? before.names.temps)
    (read : readFragments register? source before = .ok fragments after)
    : AllNameable register? (fragments.flatMap Fragment.temps) := by
  have ended := (nameableLogic register?).readFragments source before (List.forall_mem_nil _) names
  rw [read] at ended
  exact ended.1

end TreeTiling.Source
