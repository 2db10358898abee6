import TreeTiling.Temp

/-!
Accounts of registers. A phase of compilation changes a state in which some registers are known: a
reader's are those it has named, and the selector's those of the trees at hand and those it has
taken. A computation keeps the accounts if it answers only with registers that are known when it
ends, and no register is forgotten, whether it succeeds or not.
-/

namespace TreeTiling

----------------------------------------------------------------------------------------------
-- Known registers
----------------------------------------------------------------------------------------------

/-- Registers that are machine registers or in a list of known ones. -/
def Covered (known registers : List Temp) : Prop :=
  ∀ register ∈ registers, register.isFixed = true ∨ register ∈ known

namespace Covered

variable {known more registers others : List Temp}

theorem nil : Covered known [] :=
  List.forall_mem_nil _

theorem of_subset (subset : registers ⊆ known) : Covered known registers :=
  fun _ member => .inr (subset member)

theorem trans (covered : Covered more known) (inner : Covered known registers)
    : Covered more registers := by
  intro register member
  rcases inner register member with isFixed | isKnown
  · exact .inl isFixed
  · exact covered register isKnown

theorem mono (covered : Covered known registers) (subset : known ⊆ more)
    : Covered more registers :=
  (of_subset subset).trans covered

theorem append (first : Covered known registers) (second : Covered known others)
    : Covered known (registers ++ others) :=
  List.forall_mem_append.mpr ⟨first, second⟩

theorem left : Covered (registers ++ known) registers :=
  of_subset (List.subset_append_left _ _)

theorem right (covered : Covered known registers) : Covered (others ++ known) registers :=
  covered.mono (List.subset_append_right _ _)

theorem cons (covered : Covered more known) (register : Temp)
    : Covered (register :: more) (register :: known) :=
  List.forall_mem_cons.mpr
    ⟨.inr List.mem_cons_self, covered.mono (List.subset_cons_self register more)⟩

end Covered

/-- The virtual registers with numbers from one up to another. -/
def takenBetween (first count : Nat) : List Temp :=
  (List.range' first (count - first)).map .virtual

theorem mem_takenBetween {first count : Nat} {register : Temp}
    : register ∈ takenBetween first count
      ↔ ∃ number, first ≤ number ∧ number < count ∧ register = .virtual number := by
  simp only [takenBetween, List.mem_map, List.mem_range'_1]
  constructor
  · intro member
    obtain ⟨number, ⟨le, lt⟩, rfl⟩ := member
    exact ⟨number, le, by omega, rfl⟩
  · intro numbered
    obtain ⟨number, le, lt, rfl⟩ := numbered
    exact ⟨number, ⟨le, by omega⟩, rfl⟩

theorem takenBetween_subset {first start count later : Nat} (startLe : start ≤ first)
    (le : count ≤ later)
    : takenBetween first count ⊆ takenBetween start later := by
  intro register member
  obtain ⟨number, firstLe, lt, rfl⟩ := mem_takenBetween.mp member
  exact mem_takenBetween.mpr ⟨number, by omega, by omega, rfl⟩

----------------------------------------------------------------------------------------------
-- Accounts
----------------------------------------------------------------------------------------------

/-- What a state has to satisfy, the registers that are known in it, and how it may change. -/
structure Ledger (σ : Type) where
  Sound : σ → Prop
  known : σ → List Temp
  Grows : σ → σ → Prop
  refl : ∀ state, Grows state state
  trans : ∀ {before middle after}, Grows before middle → Grows middle after → Grows before after
  known_subset : ∀ {before after}, Grows before after → known before ⊆ known after

namespace Ledger

variable {σ ε α β : Type}

/-- The end of a computation that was started in a state. -/
def Ends (ledger : Ledger σ) (results : α → List Temp) (before : σ) : EStateM.Result ε σ α → Prop
  | .ok result after =>
      ledger.Sound after
      ∧ ledger.Grows before after
      ∧ Covered (ledger.known after) (results result)
  | .error _ after => ledger.Sound after ∧ ledger.Grows before after

/-- A computation keeps the accounts where some registers are known. -/
def Keeps (ledger : Ledger σ) (known : List Temp) (results : α → List Temp)
    (computation : EStateM ε σ α)
    : Prop :=
  ∀ before,
    ledger.Sound before
    → Covered (ledger.known before) known
    → ledger.Ends results before (computation before)

namespace Keeps

variable {ledger : Ledger σ} {known : List Temp} {results : α → List Temp}

theorem pure {result : α} (covered : Covered known (results result))
    : ledger.Keeps known results (pure result : EStateM ε σ α) :=
  fun _ sound knownCovered => ⟨sound, ledger.refl _, knownCovered.trans covered⟩

theorem throw (error : ε) : ledger.Keeps known results (throw error : EStateM ε σ α) :=
  fun _ sound _ => ⟨sound, ledger.refl _⟩

/-- Computations in sequence, the second of which finds what the first answers. -/
theorem bind {others : β → List Temp} {computation : EStateM ε σ α} {next : α → EStateM ε σ β}
    (keeps : ledger.Keeps known results computation)
    (keepsNext : ∀ result, ledger.Keeps (results result ++ known) others (next result))
    : ledger.Keeps known others (computation >>= next) := by
  intro before sound knownCovered
  have done := keeps before sound knownCovered
  change ledger.Ends others before (EStateM.bind computation next before)
  unfold EStateM.bind
  cases outcome : computation before with
  | error error middle =>
      rw [outcome] at done
      exact done
  | ok result middle =>
      rw [outcome] at done
      obtain ⟨middleSound, grows, covered⟩ := done
      have middleCovered := knownCovered.mono (ledger.known_subset grows)
      have doneNext := keepsNext result middle middleSound (covered.append middleCovered)
      change ledger.Ends others before (next result middle)
      cases outcomeNext : next result middle with
      | ok answer after =>
          rw [outcomeNext] at doneNext
          exact ⟨doneNext.1, ledger.trans grows doneNext.2.1, doneNext.2.2⟩
      | error error after =>
          rw [outcomeNext] at doneNext
          exact ⟨doneNext.1, ledger.trans grows doneNext.2⟩

theorem of_covered {fewer : List Temp} {computation : EStateM ε σ α}
    (keeps : ledger.Keeps fewer results computation) (covered : Covered known fewer)
    : ledger.Keeps known results computation :=
  fun before sound knownCovered => keeps before sound (knownCovered.trans covered)

/-- A visit to each item in order; by induction on the items. -/
theorem forM {γ : Type} {items : List γ} {visit : γ → EStateM ε σ PUnit}
    (keeps : ∀ item ∈ items, ledger.Keeps known (fun _ => []) (visit item))
    : ledger.Keeps known (fun _ => []) (items.forM visit) := by
  induction items with
  | nil => exact .pure .nil
  | cons item rest ih =>
      obtain ⟨here, later⟩ := List.forall_mem_cons.mp keeps
      rw [List.forM_eq_forM, List.forM_cons]
      exact .bind here fun _ => ih later

/-- An answer for each item in order; by induction on the items. -/
theorem mapM {γ : Type} {items : List γ} {visit : γ → EStateM ε σ α}
    (keeps : ∀ item ∈ items, ledger.Keeps known results (visit item))
    : ledger.Keeps known (fun answers => answers.flatMap results) (items.mapM visit) := by
  induction items generalizing known with
  | nil => exact .pure .nil
  | cons item rest ih =>
      obtain ⟨here, later⟩ := List.forall_mem_cons.mp keeps
      rw [List.mapM_cons]
      have keepsRest (first : α)
          : ledger.Keeps (results first ++ known) (fun answers => answers.flatMap results)
              (rest.mapM visit) :=
        ih fun other member =>
          (later other member).of_covered (.right (.of_subset (List.Subset.refl known)))
      exact .bind here fun first => .bind (keepsRest first) fun answers =>
        .pure (.append (.right .left) .left)

end Keeps

end Ledger

end TreeTiling
