import Mathlib.Algebra.GroupWithZero.Nat
import Mathlib.Data.List.Basic
import TreeTiling.Flow.Adjacency

/-!
Lists stored one after the other can be read back, and turned around.

The offset of a node is the length of all lists before its own, so the parts of the array that
belong to different nodes do not overlap. While the lists of the other direction are filled, the
cursor of a node stands behind what its list has so far, and that is still inside its part.
-/

namespace TreeTiling.Adjacency

----------------------------------------------------------------------------------------------
-- Tables
----------------------------------------------------------------------------------------------

/-- The first values of a function. -/
def table (size : Nat) (entry : Nat → Nat) : Array Nat :=
  (Array.range size).map entry

@[simp]
theorem size_table (size : Nat) (entry : Nat → Nat) : (table size entry).size = size := by
  simp [table]

theorem table_zero (entry : Nat → Nat) : table 0 entry = #[] :=
  Array.eq_empty_of_size_eq_zero (size_table 0 entry)

theorem table_const (size value : Nat)
    : table size (fun _ => value) = Array.replicate size value := by
  apply Array.ext
  · simp
  · intro place _ _
    simp [table]

theorem getElem?_table {size place : Nat} (entry : Nat → Nat) (inside : place < size)
    : (table size entry)[place]? = some (entry place) := by
  simp [table, inside]

theorem push_table (size : Nat) (entry : Nat → Nat)
    : (table size entry).push (entry size) = table (size + 1) entry := by
  simp [table, Array.range_succ]

theorem table_congr {size : Nat} {left right : Nat → Nat}
    (same : ∀ place < size, left place = right place)
    : table size left = table size right := by
  apply Array.ext
  · simp
  · intro place inside _
    rw [size_table] at inside
    simpa [table] using same place inside

theorem slice?_table (size : Nat) (entry : Nat → Nat)
    : slice? (table (size + 1) entry) 0 size = some (table size entry) := by
  rw [slice?, if_pos (by simp)]
  congr 1
  apply Array.ext
  · simp
  · intro place _ _
    simp [table]

/-- Adding one at a place of a table. -/
theorem increment?_table {size place : Nat} (entry : Nat → Nat) (inside : place < size)
    : increment? (table size entry) place
      = some (table size fun other => entry other + if place = other then 1 else 0) := by
  rw [increment?, getElem?_table entry inside]
  show write? (table size entry) place (entry place + 1) = _
  rw [write?, size_table, if_pos inside]
  congr 1
  apply Array.ext
  · simp
  · intro other otherInside _
    rw [Array.size_setIfInBounds, size_table] at otherInside
    rw [Array.getElem_setIfInBounds (by simpa using otherInside)]
    by_cases same : place = other
    · simp [table, same]
    · simp [table, same]

/-- Adding one at each of several places counts them, by induction on the places. -/
theorem incrementAll_table {size : Nat} {places : List Nat} (entry : Nat → Nat)
    (inside : ∀ place ∈ places, place < size)
    : places.foldlM increment? (table size entry)
      = some (table size fun other => entry other + places.count other) := by
  induction places generalizing entry with
  | nil => simp
  | cons place places ih =>
      rw [List.foldlM_cons, increment?_table entry (inside place List.mem_cons_self)]
      have later := ih (fun other => entry other + if place = other then 1 else 0)
        fun other member => inside other (List.mem_cons_of_mem _ member)
      refine later.trans (congrArg some (table_congr ?_))
      intro other _
      rw [List.count_cons]
      simp only [beq_iff_eq]
      omega

----------------------------------------------------------------------------------------------
-- Offsets
----------------------------------------------------------------------------------------------

/-- Where the list of a node begins, if each list has a given length. -/
def offset (length : Nat → Nat) (node : Nat) : Nat :=
  ((List.range node).map length).sum

theorem offset_succ (length : Nat → Nat) (node : Nat)
    : offset length (node + 1) = offset length node + length node := by
  simp [offset, List.range_succ]

/-- The list of a node ends before that of any later node begins, by induction on the later one. -/
theorem offset_add_le (length : Nat → Nat) {node later : Nat} (lt : node < later)
    : offset length node + length node ≤ offset length later := by
  induction lt with
  | refl => exact Nat.le_of_eq (offset_succ length node).symm
  | @step later _ ih =>
      rw [offset_succ]
      exact Nat.le_add_right_of_le ih

theorem starts_table (size : Nat) (length : Nat → Nat)
    : starts (table size length) = (table size (offset length), offset length size) := by
  induction size with
  | zero =>
      rw [table_zero, table_zero]
      rfl
  | succ size ih =>
      rw [starts] at ih ⊢
      rw [← push_table, Array.foldl_push, ih, ← push_table, offset_succ]

----------------------------------------------------------------------------------------------
-- Lists one after the other
----------------------------------------------------------------------------------------------

/-- How long the list of each node is. -/
def lengths (items : Nat → List Nat) (node : Nat) : Nat :=
  (items node).length

/-- An array holds the lists of the first nodes one after the other. -/
structure Packed (targets : Array Nat) (size : Nat) (items : Nat → List Nat) : Prop where
  size_eq : targets.size = offset (lengths items) size
  entries
    : ∀ node < size, ∀ place < lengths items node,
        targets[offset (lengths items) node + place]? = (items node)[place]?

/-- The lists of the first nodes are stored with their offsets. -/
structure Represents (lists : Adjacency) (size : Nat) (items : Nat → List Nat) : Prop where
  offsets : lists.offsets = table (size + 1) (offset (lengths items))
  packed : Packed lists.targets size items

theorem slice?_eq {table : Array Nat} {start stop : Nat} (le : start ≤ stop)
    (inside : stop ≤ table.size)
    : slice? table start stop = some (table.extract start stop) :=
  if_pos ⟨le, inside⟩

/-- The end of an array behind its first entries. -/
theorem slice?_end {table : Array Nat} {first rest : List Nat}
    (stored : table.toList = first ++ rest)
    : slice? table first.length table.size = some rest.toArray := by
  have size_eq : table.size = first.length + rest.length := by
    rw [← Array.length_toList, stored, List.length_append]
  rw [slice?_eq (by omega) (Nat.le_refl _)]
  congr 1
  apply Array.ext'
  simp [stored, size_eq, List.extract_eq_take_drop]

/-- The part of the array between a node's offsets is its list. -/
theorem Packed.slice? {targets : Array Nat} {size : Nat} {items : Nat → List Nat}
    (packed : Packed targets size items) {node : Nat} (inside : node < size)
    : slice? targets (offset (lengths items) node) (offset (lengths items) (node + 1))
      = some (items node).toArray := by
  have stop_eq := offset_succ (lengths items) node
  have stopInside : offset (lengths items) (node + 1) ≤ targets.size := by
    rw [packed.size_eq, stop_eq]
    exact offset_add_le _ inside
  rw [slice?_eq (by omega) stopInside]
  congr 1
  apply Array.ext_getElem?
  intro place
  rw [Array.getElem?_extract, Nat.min_eq_left stopInside, stop_eq, Nat.add_sub_cancel_left]
  by_cases within : place < lengths items node
  · rw [if_pos within, packed.entries node inside place within]
    exact List.getElem?_toArray.symm
  · rw [if_neg within]
    exact (Array.getElem?_eq_none (Nat.le_of_not_lt within)).symm

/-- A node's list can be read back. -/
theorem Represents.list? {lists : Adjacency} {size : Nat} {items : Nat → List Nat}
    (represents : lists.Represents size items) {node : Nat} (inside : node < size)
    : lists.list? node = some (items node) := by
  have startFound := getElem?_table (offset (lengths items)) (show node < size + 1 by omega)
  have stopFound := getElem?_table (offset (lengths items)) (show node + 1 < size + 1 by omega)
  simp [Adjacency.list?, represents.offsets, startFound, stopFound,
    represents.packed.slice? inside]

theorem Represents.list?_eq_none {lists : Adjacency} {size : Nat} {items : Nat → List Nat}
    (represents : lists.Represents size items) {node : Nat} (outside : size ≤ node)
    : lists.list? node = none := by
  have missing : lists.offsets[node + 1]? = none := by
    rw [represents.offsets]
    apply Array.getElem?_eq_none
    rw [size_table]
    omega
  cases found : lists.offsets[node]? with
  | none => simp [Adjacency.list?, found]
  | some start => simp [Adjacency.list?, found, missing]

theorem packed_empty (items : Nat → List Nat) : Packed #[] 0 items where
  size_eq := rfl
  entries := by
    intro node impossible
    cases impossible

/-- A list goes behind all others. -/
theorem Packed.push {targets after : Array Nat} {size : Nat} {items : Nat → List Nat}
    (packed : Packed targets size items) (appended : after.toList = targets.toList ++ items size)
    : Packed after (size + 1) items where
  size_eq := by
    have length_eq := congrArg List.length appended
    rw [List.length_append, Array.length_toList, Array.length_toList, packed.size_eq] at length_eq
    rw [length_eq, offset_succ]
    rfl
  entries := by
    intro node lt place within
    rw [← Array.getElem?_toList, appended]
    rcases Nat.lt_succ_iff_lt_or_eq.mp lt with earlier | rfl
    · have bound := offset_add_le (lengths items) earlier
      rw [List.getElem?_append_left, Array.getElem?_toList]
      · exact packed.entries node earlier place within
      · rw [Array.length_toList, packed.size_eq]
        omega
    · rw [List.getElem?_append_right, Array.length_toList, packed.size_eq, Nat.add_sub_cancel_left]
      rw [Array.length_toList, packed.size_eq]
      omega

----------------------------------------------------------------------------------------------
-- The other direction
----------------------------------------------------------------------------------------------

/-- The sources of edges into a node, in order. -/
def into (edges : List (Nat × Nat)) (target : Nat) : List Nat :=
  (edges.filter fun edge => edge.2 == target).map Prod.fst

theorem into_append (first second : List (Nat × Nat)) (target : Nat)
    : into (first ++ second) target = into first target ++ into second target := by
  simp [into]

/-- The edges from the first nodes to the members of their lists. -/
def edgesFrom (items : Nat → List Nat) (size : Nat) : List (Nat × Nat) :=
  (List.range size).flatMap fun source => (items source).map (source, ·)

theorem edgesFrom_succ (items : Nat → List Nat) (size : Nat)
    : edgesFrom items (size + 1) = edgesFrom items size ++ (items size).map (size, ·) := by
  simp [edgesFrom, List.range_succ]

/-- The edges from one source into a node. -/
theorem into_map (source : Nat) (targets : List Nat) (target : Nat)
    : into (targets.map (source, ·)) target
      = List.replicate (targets.count target) source := by
  induction targets with
  | nil => rfl
  | cons first targets ih =>
      by_cases same : first = target
      · simpa [into, same, List.replicate_succ] using ih
      · simpa [into, same] using ih

/-- The next source makes the list of a node longer by how often it has the node. -/
theorem lengths_into_edgesFrom_succ (items : Nat → List Nat) (size target : Nat)
    : lengths (into (edgesFrom items (size + 1))) target
      = lengths (into (edgesFrom items size)) target + (items size).count target := by
  rw [edgesFrom_succ, lengths, into_append, List.length_append, into_map, List.length_replicate]
  rfl

/-- If no list has a node twice, the sources of edges into a node are the nodes that have it in
their lists.
-/
theorem into_edgesFrom {items : Nat → List Nat} (nodup : ∀ source, (items source).Nodup)
    (size target : Nat)
    : into (edgesFrom items size) target
      = (List.range size).filter fun source => decide (target ∈ items source) := by
  induction size with
  | zero => rfl
  | succ size ih =>
      rw [edgesFrom_succ, into_append, ih, List.range_succ, List.filter_append, into_map,
        (nodup size).count]
      by_cases member : target ∈ items size
      · simp [member]
      · simp [member]

theorem offset_add (left right : Nat → Nat) (size : Nat)
    : offset (fun node => left node + right node) size = offset left size + offset right size := by
  induction size with
  | zero => rfl
  | succ size ih =>
      rw [offset_succ, offset_succ, offset_succ, ih]
      omega

/-- One entry for one node is one entry altogether. -/
theorem offset_single (target size : Nat)
    : offset (fun node => if target = node then 1 else 0) size
      = if target < size then 1 else 0 := by
  induction size with
  | zero => rfl
  | succ size ih =>
      rw [offset_succ, ih]
      split_ifs <;> omega

/-- The lists of sources are together as long as there are edges, by induction on these. -/
theorem offset_into {edges : List (Nat × Nat)} {size : Nat} (inside : ∀ edge ∈ edges, edge.2 < size)
    : offset (lengths (into edges)) size = edges.length := by
  induction edges with
  | nil =>
      have lengths_nil : lengths (into []) = fun _ => 0 := rfl
      simp [offset, lengths_nil]
  | cons edge edges ih =>
      have lengths_cons : lengths (into (edge :: edges))
          = fun node => (if edge.2 = node then 1 else 0) + lengths (into edges) node := by
        funext node
        by_cases same : edge.2 = node
        · simp [lengths, into, same, Nat.add_comm]
        · simp [lengths, into, same]
      rw [lengths_cons, offset_add, offset_single, if_pos (inside edge List.mem_cons_self),
        ih fun other member => inside other (List.mem_cons_of_mem _ member), List.length_cons,
        Nat.add_comm]

/-- Edges are as many from either end. -/
theorem offset_into_edgesFrom {items : Nat → List Nat} {size : Nat}
    (inside : ∀ source < size, ∀ target ∈ items source, target < size)
    : offset (lengths (into (edgesFrom items size))) size = offset (lengths items) size := by
  rw [offset_into]
  · rw [edgesFrom, List.length_flatMap]
    simp only [List.length_map]
    rfl
  · intro edge member
    obtain ⟨source, isSource, fromSource⟩ := List.mem_flatMap.mp member
    obtain ⟨target, isTarget, rfl⟩ := List.mem_map.mp fromSource
    exact inside source (List.mem_range.mp isSource) target isTarget

/-- The lists have some of the edges, in their places. -/
structure Filled (filling : Filling) (size : Nat) (whole filled : List (Nat × Nat)) : Prop where
  cursor
    : filling.cursor
      = table size fun target => offset (lengths (into whole)) target + lengths (into filled) target
  size_eq : filling.targets.size = offset (lengths (into whole)) size
  entries
    : ∀ target < size, ∀ place < lengths (into filled) target,
        filling.targets[offset (lengths (into whole)) target + place]?
        = (into filled target)[place]?

/-- An edge into a node makes the node's list longer by its source, and no other list. -/
theorem into_append_singleton (edges : List (Nat × Nat)) (source target other : Nat)
    : into (edges ++ [(source, target)]) other
      = into edges other ++ if target = other then [source] else [] := by
  rw [into_append]
  by_cases same : target = other
  · simp [into, same]
  · simp [into, same]

theorem lengths_into_append_singleton (edges : List (Nat × Nat)) (source target other : Nat)
    : lengths (into (edges ++ [(source, target)])) other
      = lengths (into edges) other + if target = other then 1 else 0 := by
  rw [lengths, into_append_singleton, List.length_append, lengths]
  split <;> rfl

/-- No list of the first edges is longer than that of all edges. -/
theorem lengths_into_le {whole first rest : List (Nat × Nat)} (split : whole = first ++ rest)
    (target : Nat)
    : lengths (into first) target ≤ lengths (into whole) target := by
  rw [split, lengths, lengths, into_append, List.length_append]
  exact Nat.le_add_right _ _

/-- The next edge finds room in the list of its target, and goes behind what the list has. -/
theorem Filled.place {filling : Filling} {size source target : Nat}
    {whole filled rest : List (Nat × Nat)} (state : Filled filling size whole filled)
    (split : whole = filled ++ (source, target) :: rest) (inside : target < size)
    : ∃ after,
        place? source filling target = some after
        ∧ Filled after size whole (filled ++ [(source, target)]) := by
  have fits := lengths_into_le split
  have room : lengths (into filled) target < lengths (into whole) target := by
    have withNext := lengths_into_le (split.trans (List.append_cons _ _ _)) target
    rw [lengths_into_append_singleton, if_pos rfl] at withNext
    exact withNext
  have positionInside
      : offset (lengths (into whole)) target + lengths (into filled) target
        < filling.targets.size := by
    have bound := offset_add_le (lengths (into whole)) inside
    rw [state.size_eq]
    omega
  refine ⟨{
      cursor := table size fun other =>
        offset (lengths (into whole)) other + lengths (into filled) other
          + if target = other then 1 else 0
      targets := filling.targets.setIfInBounds
        (offset (lengths (into whole)) target + lengths (into filled) target) source },
    ?_, ?_, ?_, ?_⟩
  · simp [place?, state.cursor, getElem?_table _ inside, write?, positionInside,
      increment?_table _ inside]
  · apply table_congr
    intro other _
    rw [lengths_into_append_singleton, Nat.add_assoc]
  · rw [Array.size_setIfInBounds, state.size_eq]
  · intro other otherInside place within
    rw [lengths_into_append_singleton] at within
    rw [Array.getElem?_setIfInBounds, into_append_singleton]
    by_cases same : target = other
    · subst other
      rw [if_pos rfl] at within ⊢
      by_cases last : place = lengths (into filled) target
      · rw [last, if_pos rfl, if_pos positionInside]
        exact List.getElem?_concat_length.symm
      · have before : place < (into filled target).length :=
          Nat.lt_of_le_of_ne (Nat.le_of_lt_succ within) last
        rw [if_neg (by omega), List.getElem?_append_left before]
        exact state.entries target inside place before
    · -- the parts of two nodes do not overlap
      rw [if_neg same, Nat.add_zero] at within
      have apart : offset (lengths (into whole)) target + lengths (into filled) target
          ≠ offset (lengths (into whole)) other + place := by
        have otherFits := fits other
        rcases Nat.lt_or_gt_of_ne same with before | behind
        · have bound := offset_add_le (lengths (into whole)) before
          omega
        · have bound := offset_add_le (lengths (into whole)) behind
          omega
      rw [if_neg apart, if_neg same, List.append_nil]
      exact state.entries other otherInside place within

/-- The edges from one source are placed one after the other, by induction on its targets. -/
theorem Filled.placeEach {filling : Filling} {size source : Nat} {targets : List Nat}
    {whole filled rest : List (Nat × Nat)} (state : Filled filling size whole filled)
    (split : whole = filled ++ targets.map (source, ·) ++ rest)
    (inside : ∀ target ∈ targets, target < size)
    : ∃ after,
        targets.foldlM (place? source) filling = some after
        ∧ Filled after size whole (filled ++ targets.map (source, ·)) := by
  induction targets generalizing filling filled with
  | nil => exact ⟨filling, rfl, by simpa using state⟩
  | cons target targets ih =>
      rw [List.map_cons, List.append_assoc] at split
      obtain ⟨middle, placed, middleState⟩ :=
        state.place split (inside target List.mem_cons_self)
      rw [List.cons_append, List.append_cons, ← List.append_assoc] at split
      obtain ⟨after, placedAll, afterState⟩ :=
        ih middleState split fun other member => inside other (List.mem_cons_of_mem _ member)
      refine ⟨after, ?_, ?_⟩
      · rw [List.foldlM_cons, placed]
        exact placedAll
      · rw [List.map_cons, List.append_cons]
        exact afterState

/-- The edges of the first nodes are the first edges of all. -/
theorem edgesFrom_split (items : Nat → List Nat) {count size : Nat} (le : count ≤ size)
    : ∃ rest, edgesFrom items size = edgesFrom items count ++ rest := by
  induction le with
  | refl => exact ⟨[], (List.append_nil _).symm⟩
  | @step size _ ih =>
      obtain ⟨rest, split⟩ := ih
      exact ⟨rest ++ (items size).map (size, ·), by rw [edgesFrom_succ, split, List.append_assoc]⟩

/-- The sources are gone through one after the other, by induction on how many. -/
theorem Filled.placeAll {lists : Adjacency} {filling : Filling} {size count : Nat}
    {items : Nat → List Nat} (represents : lists.Represents size items)
    (inside : ∀ source < size, ∀ target ∈ items source, target < size)
    (state : Filled filling size (edgesFrom items size) []) (le : count ≤ size)
    : ∃ after,
        (List.range count).foldlM (placeAll? lists) filling = some after
        ∧ Filled after size (edgesFrom items size) (edgesFrom items count) := by
  induction count with
  | zero => exact ⟨filling, rfl, state⟩
  | succ count ih =>
      obtain ⟨middle, placed, middleState⟩ := ih (Nat.le_of_succ_le le)
      obtain ⟨rest, split⟩ := edgesFrom_split items le
      rw [edgesFrom_succ] at split
      obtain ⟨after, placedEach, afterState⟩ := middleState.placeEach split (inside count le)
      refine ⟨after, ?_, ?_⟩
      · rw [List.range_succ, List.foldlM_append, placed]
        simpa [placeAll?, represents.list? le] using placedEach
      · rw [edgesFrom_succ]
        exact afterState

/-- Turning lists around succeeds, and gives each node the nodes that have it in their lists. -/
theorem Represents.reverse? {lists : Adjacency} {size : Nat} {items : Nat → List Nat}
    (represents : lists.Represents size items)
    (inside : ∀ source < size, ∀ target ∈ items source, target < size)
    : ∃ reversed,
        lists.reverse? (table size (lengths (into (edgesFrom items size)))) = some reversed
        ∧ reversed.Represents size (into (edgesFrom items size)) := by
  have offsets := push_table size (offset (lengths (into (edgesFrom items size))))
  have cursor := slice?_table size (offset (lengths (into (edgesFrom items size))))
  have start : Filled
      { cursor := table size (offset (lengths (into (edgesFrom items size))))
        targets := Array.replicate (offset (lengths (into (edgesFrom items size))) size) 0 }
      size (edgesFrom items size) [] := by
    refine ⟨?_, Array.size_replicate, ?_⟩
    · exact table_congr fun _ _ => rfl
    · intro target _ place impossible
      cases impossible
  obtain ⟨filling, placed, state⟩ := Filled.placeAll represents inside start (Nat.le_refl size)
  refine ⟨⟨table (size + 1) (offset (lengths (into (edgesFrom items size)))), filling.targets⟩,
    ?_, rfl, state.size_eq, state.entries⟩
  simp only [Adjacency.reverse?, starts_table, size_table, offsets, cursor, Option.bind_eq_bind,
    Option.bind_some, placed]
  rfl

end TreeTiling.Adjacency
