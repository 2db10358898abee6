import TreeTiling.Proofs.X64.Machine

/-!
The registers that the code of an expression leaves alone.

Such code writes no memory and no register but the temporaries that it takes itself and, for a
division, `rax` and `rdx`. All other registers are stable. Stores that agree on them give the same
value to every expression that reads nothing else.
-/

namespace TreeTiling.X64

----------------------------------------------------------------------------------------------
-- Stable registers
----------------------------------------------------------------------------------------------

/-- Registers that the code of expressions leaves alone: temporaries below a number, and the
machine registers, except for the two that a division writes if there are divisions.
-/
def Stable (first : Nat) (divides : Bool) : Temp → Prop
  | .virtual number => number < first
  | .fixed name => divides = true → Temp.fixed name ≠ rax ∧ Temp.fixed name ≠ rdx

section

variable {first next : Nat} {divides : Bool}

theorem Stable.mono {register : Temp} (stable : Stable first divides register) (le : first ≤ next)
    : Stable next divides register := by
  cases register with
  | virtual number => exact Nat.lt_of_lt_of_le stable le
  | fixed name => exact stable

/-- A register that is stable where there are divisions is stable where there are none. -/
theorem Stable.weaken {register : Temp} {fewer : Bool} (stable : Stable first divides register)
    (implies : fewer = true → divides = true)
    : Stable first fewer register := by
  cases register with
  | virtual number => exact stable
  | fixed name => exact fun divided => stable (implies divided)

/-- A temporary that is taken later is not stable now. -/
theorem not_stable_virtual (le : first ≤ next) : ¬ Stable first divides (.virtual next) :=
  Nat.not_lt.mpr le

theorem Stable.ne_virtual {register : Temp} (stable : Stable next divides register)
    : register ≠ .virtual next := by
  rintro rfl
  exact Nat.lt_irrefl _ stable

/-- Where there are divisions, `rax` is not stable. -/
theorem not_stable_rax : ¬ Stable first true rax :=
  fun stable => (stable rfl).1 rfl

/-- Where there are divisions, `rdx` is not stable. -/
theorem not_stable_rdx : ¬ Stable first true rdx :=
  fun stable => (stable rfl).2 rfl

/-- Registers that were there before are stable, if `rax` and `rdx` are not among them where there
are divisions.
-/
theorem stable_of_earlier {temps : List Temp}
    (earlier : ∀ number, .virtual number ∈ temps → number < first)
    (divisions : divides = false ∨ (rax ∉ temps ∧ rdx ∉ temps)) {register : Temp}
    (occurs : register ∈ temps)
    : Stable first divides register := by
  cases register with
  | virtual number => exact earlier number occurs
  | fixed name =>
      intro isDivided
      rcases divisions with none | ⟨raxFree, rdxFree⟩
      · rw [none] at isDivided
        cases isDivided
      · exact ⟨fun same => raxFree (same ▸ occurs), fun same => rdxFree (same ▸ occurs)⟩

/-- A machine register is stable if there are no divisions or a division does not write it. -/
theorem stable_fixed {name : String}
    (spared : divides = false ∨ (Temp.fixed name ≠ rax ∧ Temp.fixed name ≠ rdx))
    : Stable first divides (.fixed name) := by
  intro isDivided
  rcases spared with none | others
  · rw [none] at isDivided
    cases isDivided
  · exact others

/-- Two stores have the same memory and the same values in all stable registers. -/
structure Agrees (first : Nat) (divides : Bool) (left right : Store) : Prop where
  memory : right.memory = left.memory
  register
    : ∀ {register : Temp},
        Stable first divides register → right.register register = left.register register

namespace Agrees

variable {left middle right : Store}

theorem refl (store : Store) : Agrees first divides store store :=
  ⟨rfl, fun _ => rfl⟩

theorem trans (agrees : Agrees first divides left middle)
    (later : Agrees first divides middle right)
    : Agrees first divides left right :=
  ⟨later.memory.trans agrees.memory,
    fun stable => (later.register stable).trans (agrees.register stable)⟩

/-- Stores that agree on more temporaries agree on fewer. -/
theorem mono (agrees : Agrees next divides left right) (le : first ≤ next)
    : Agrees first divides left right :=
  ⟨agrees.memory, fun stable => agrees.register (stable.mono le)⟩

theorem weaken {more : Bool} (agrees : Agrees first divides left right)
    (implies : divides = true → more = true)
    : Agrees first more left right :=
  ⟨agrees.memory, fun stable => agrees.register (stable.weaken implies)⟩

/-- Assigning the same value to the same register keeps agreement. -/
theorem assign (agrees : Agrees first divides left right) (dst : Temp) (value : Word)
    : Agrees first divides (left.assign dst value) (right.assign dst value) := by
  refine ⟨agrees.memory, ?_⟩
  intro register stable
  by_cases same : register = dst
  · rw [same, Store.register_assign_self, Store.register_assign_self]
  · rw [Store.register_assign_of_ne _ _ same, Store.register_assign_of_ne _ _ same]
    exact agrees.register stable

/-- Assigning to a register that is not stable keeps agreement. -/
theorem assign_right (agrees : Agrees first divides left right) {dst : Temp}
    (unstable : ¬ Stable first divides dst) (value : Word)
    : Agrees first divides left (right.assign dst value) := by
  refine ⟨agrees.memory, ?_⟩
  intro register stable
  have other : register ≠ dst := by
    rintro rfl
    exact unstable stable
  rw [Store.register_assign_of_ne _ _ other]
  exact agrees.register stable

/-- Writing the same value to the same place keeps agreement. -/
theorem write (agrees : Agrees first divides left right) (place value : Word)
    : Agrees first divides (left.write place value) (right.write place value) := by
  refine ⟨?_, agrees.register⟩
  simp only [Store.write, agrees.memory]

/-- An address whose registers are stable keeps its place. -/
theorem locate (agrees : Agrees first divides left right) {address : Address}
    (stable : ∀ register ∈ address.registers, Stable first divides register)
    : address.locate right = address.locate left := by
  cases address with
  | direct base | displaced _ base =>
      simp only [Address.locate, agrees.register (stable base (by simp [Address.registers]))]
  | indexed base index | scaled base index _ =>
      simp only [Address.locate, agrees.register (stable base (by simp [Address.registers])),
        agrees.register (stable index (by simp [Address.registers]))]

end Agrees

/-- An expression that can be read after other code has run: its temporaries are stable, and its
divisions are accounted for.
-/
structure Readable (first : Nat) (divides : Bool) (tree : Exp) : Prop where
  temps : ∀ register ∈ tree.temps, Stable first divides register
  division : tree.hasDivision = true → divides = true

namespace Readable

theorem mono {tree : Exp} (readable : Readable first divides tree) (le : first ≤ next)
    : Readable next divides tree :=
  ⟨fun register occurs => (readable.temps register occurs).mono le, readable.division⟩

theorem address {tree : Exp} (readable : Readable first divides (.mem tree))
    : Readable first divides tree := by
  obtain ⟨temps, division⟩ := readable
  rw [Exp.temps_mem] at temps
  rw [Exp.hasDivision_mem] at division
  exact ⟨temps, division⟩

theorem left {op : BinOp} {left right : Exp}
    (readable : Readable first divides (.binop op left right))
    : Readable first divides left := by
  refine ⟨fun register occurs => readable.temps register ?_, fun found => readable.division ?_⟩
  · rw [Exp.temps_binop]
    exact List.mem_append_left _ occurs
  · simp [found]

theorem right {op : BinOp} {left right : Exp}
    (readable : Readable first divides (.binop op left right))
    : Readable first divides right := by
  refine ⟨fun register occurs => readable.temps register ?_, fun found => readable.division ?_⟩
  · rw [Exp.temps_binop]
    exact List.mem_append_right _ occurs
  · simp [found]

end Readable

/-- An expression whose temporaries are stable has the same value in stores that agree; by induction
on it.
-/
theorem Agrees.eval?_of_stable {symbols : Label → Word} {left right : Store} {tree : Exp}
    (agrees : Agrees first divides left right)
    (stable : ∀ register ∈ tree.temps, Stable first divides register)
    : tree.eval? symbols right = tree.eval? symbols left := by
  fun_induction Exp.eval? symbols left tree with
  | case1 value => rfl
  | case2 label => rfl
  | case3 register => rw [Exp.eval?, agrees.register (stable register (by simp))]
  | case4 address ih =>
      rw [Exp.temps_mem] at stable
      rw [Exp.eval?, ih stable, agrees.memory]
  | case5 op l r leftIh rightIh =>
      rw [Exp.temps_binop, List.forall_mem_append] at stable
      rw [Exp.eval?, leftIh stable.1]
      simp only [rightIh stable.2]
  | case6 function args => rfl

theorem Agrees.eval? {symbols : Label → Word} {left right : Store} {tree : Exp}
    (agrees : Agrees first divides left right) (readable : Readable first divides tree)
    : tree.eval? symbols right = tree.eval? symbols left :=
  agrees.eval?_of_stable readable.temps

end

end TreeTiling.X64
