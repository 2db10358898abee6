import TreeTiling.Flow.Dot
import TreeTiling.Proofs.Instr.Rendering

/-!
Quoted strings in the document of a flow graph.

A reader of the document is inside a string from one quote to the next, where a backslash takes the
character behind it literally. Escaped text keeps the reader inside and is read as the text. So
does text without quotes and backslashes, like numbers and live sets. Main statement: if the live
registers have such names, every string of the document ends where it is meant to.
-/

namespace TreeTiling.Dot

----------------------------------------------------------------------------------------------
-- Between quotes
----------------------------------------------------------------------------------------------

/-- What is read between the quotes of a string: a backslash takes the next character literally.
Nothing is read if a quote stands bare or the text ends in the middle of an escape.
-/
def unescape? : List Char → Option (List Char)
  | [] => some []
  | '\\' :: [] => none
  | '\\' :: c :: rest => (unescape? rest).map (c :: ·)
  | '"' :: _ => none
  | c :: rest => (unescape? rest).map (c :: ·)

theorem unescape?_guarded (c : Char) (rest : List Char)
    : unescape? ('\\' :: c :: rest) = (unescape? rest).map (c :: ·) := by
  rw [unescape?]

theorem unescape?_literal {c : Char} (notBackslash : c ≠ '\\') (notQuote : c ≠ '"')
    (rest : List Char)
    : unescape? (c :: rest) = (unescape? rest).map (c :: ·) := by
  rw [unescape?]
  · exact fun isBackslash _ => notBackslash isBackslash
  · exact fun _ _ isBackslash _ => notBackslash isBackslash
  · exact notQuote

/-- The inside of a string and what is read there. -/
inductive Reads : (body text : List Char) → Prop where
  | nil : Reads [] []
  | guarded {body text : List Char} (c : Char) (rest : Reads body text)
    : Reads ('\\' :: c :: body) (c :: text)
  | literal {c : Char} {body text : List Char} (notBackslash : c ≠ '\\') (notQuote : c ≠ '"')
    (rest : Reads body text)
    : Reads (c :: body) (c :: text)

/-- By recursion on the inside, as it is read. -/
theorem unescape?_eq_some_iff {body text : List Char}
    : unescape? body = some text ↔ Reads body text := by
  constructor
  · intro read
    fun_induction unescape? body generalizing text with
    | case1 =>
        cases read
        exact .nil
    | case2 | case4 => cases read
    | case3 c body ih =>
        obtain ⟨rest, restRead, rfl⟩ := Option.map_eq_some_iff.mp read
        exact .guarded c (ih restRead)
    | case5 c body notLast notFollowed notQuote ih =>
        obtain ⟨rest, restRead, rfl⟩ := Option.map_eq_some_iff.mp read
        refine .literal ?_ notQuote (ih restRead)
        intro isBackslash
        cases body with
        | nil => exact notLast isBackslash rfl
        | cons next body => exact notFollowed next body isBackslash rfl
  · intro reads
    induction reads with
    | nil => rfl
    | guarded c rest ih => rw [unescape?_guarded, ih, Option.map_some]
    | literal notBackslash notQuote rest ih =>
        rw [unescape?_literal notBackslash notQuote, ih, Option.map_some]

namespace Reads

variable {body text : List Char}

theorem append (reads : Reads body text) {others rest : List Char} (readsRest : Reads others rest)
    : Reads (body ++ others) (text ++ rest) := by
  induction reads with
  | nil => exact readsRest
  | guarded c _ ih => exact .guarded c ih
  | literal notBackslash notQuote _ ih => exact .literal notBackslash notQuote ih

/-- Text without quotes and backslashes is read as it is. -/
theorem of_clean (noQuote : '"' ∉ text) (noBackslash : '\\' ∉ text) : Reads text text := by
  induction text with
  | nil => exact .nil
  | cons c text ih =>
      rw [List.mem_cons, not_or] at noQuote noBackslash
      exact .literal (Ne.symm noBackslash.1) (Ne.symm noQuote.1) (ih noQuote.2 noBackslash.2)

end Reads

/-- A character as it is escaped. -/
def escapeChar (c : Char) : List Char :=
  if c = '\\' ∨ c = '"' then ['\\', c] else [c]

/-- The two passes over a text come to one, since the backslashes of the first are no quotes. -/
theorem guardWith_guardWith (text : List Char)
    : guardWith '"' (guardWith '\\' text) = text.flatMap escapeChar := by
  unfold guardWith
  rw [List.flatMap_assoc]
  congr 1
  funext c
  by_cases isBackslash : c = '\\'
  · subst isBackslash
    rfl
  · by_cases isQuote : c = '"'
    · subst isQuote
      rfl
    · simp [escapeChar, isBackslash, isQuote]

theorem reads_escapeChar (c : Char) : Reads (escapeChar c) [c] := by
  unfold escapeChar
  split
  next => exact .guarded c .nil
  next isOther =>
    rw [not_or] at isOther
    exact .literal isOther.1 isOther.2 .nil

/-- Escaped text is read as the text; by induction on it. -/
theorem reads_escape (text : String) : Reads (escape text).toList text.toList := by
  rw [escape, String.toList_ofList, guardWith_guardWith]
  generalize text.toList = chars
  induction chars with
  | nil => exact .nil
  | cons c rest ih => exact (reads_escapeChar c).append ih

----------------------------------------------------------------------------------------------
-- Plain text
----------------------------------------------------------------------------------------------

/-- A text has neither quotes nor backslashes. -/
structure Clean (text : String) : Prop where
  noQuote : '"' ∉ text.toList
  noBackslash : '\\' ∉ text.toList

instance (text : String) : Decidable (Clean text) :=
  decidable_of_iff ('"' ∉ text.toList ∧ '\\' ∉ text.toList)
    ⟨fun both => ⟨both.1, both.2⟩, fun clean => ⟨clean.noQuote, clean.noBackslash⟩⟩

namespace Clean

theorem append {first second : String} (firstClean : Clean first) (secondClean : Clean second)
    : Clean (first ++ second) := by
  constructor
  · simp [firstClean.noQuote, secondClean.noQuote]
  · simp [firstClean.noBackslash, secondClean.noBackslash]

theorem reads {text : String} (clean : Clean text) : Reads text.toList text.toList :=
  .of_clean clean.noQuote clean.noBackslash

theorem repr (number : Nat) : Clean number.repr := by
  rw [Nat.repr]
  constructor
  · rw [String.toList_ofList]
    exact Text.notMem_toDigits (by decide) number
  · rw [String.toList_ofList]
    exact Text.notMem_toDigits (by decide) number

theorem twoPlaces (x : Float) : Clean (Decimal.twoPlaces x) :=
  (((repr _).append (by decide)).append (repr _)).append (repr _)

theorem commaSeparated {texts : List String} (clean : ∀ text ∈ texts, Clean text)
    : Clean (", ".intercalate texts) where
  noQuote := Text.notMem_commaSeparated (by decide) fun text member => (clean text member).noQuote
  noBackslash :=
    Text.notMem_commaSeparated (by decide) fun text member => (clean text member).noBackslash

theorem setText {registers : List Temp} (clean : ∀ register ∈ registers, Clean register.text)
    : Clean (Temp.setText registers) := by
  have texts : ∀ text ∈ (Temp.sorted registers).map Temp.text, Clean text := by
    intro text member
    obtain ⟨register, isSorted, rfl⟩ := List.mem_map.mp member
    exact clean register (List.mem_mergeSort.mp isSorted)
  unfold Temp.setText
  exact (append (by decide) (commaSeparated texts)).append (by decide)

end Clean

----------------------------------------------------------------------------------------------
-- Where strings begin and end
----------------------------------------------------------------------------------------------

/-- Where a character of a document stands. -/
inductive Place where
  | outside
  | opening
  | inside
  | closing
deriving DecidableEq

/-- Where a reader of a document is: outside of strings, inside of one, or behind a backslash there.
-/
inductive Mode where
  | outside
  | inside
  | guarded

/-- The place of the next character, and where the reader is behind it. -/
def Mode.next : Mode → Char → Place × Mode
  | outside, '"' => (.opening, .inside)
  | outside, _ => (.outside, .outside)
  | inside, '"' => (.closing, .outside)
  | inside, '\\' => (.inside, .guarded)
  | inside, _ => (.inside, .inside)
  | guarded, _ => (.inside, .inside)

/-- The places of the characters of a text, if its last string ends. -/
def places? : Mode → List Char → Option (List Place)
  | .outside, [] => some []
  | .inside, [] => none
  | .guarded, [] => none
  | mode, c :: rest => (places? (mode.next c).2 rest).map ((mode.next c).1 :: ·)

theorem places?_cons (mode : Mode) (c : Char) (rest : List Char)
    : places? mode (c :: rest)
      = (places? (mode.next c).2 rest).map ((mode.next c).1 :: ·) := by
  cases mode <;> rfl

/-- Text without quotes is outside; by induction on it. -/
theorem places?_plain {text : List Char} (noQuote : '"' ∉ text) (rest : List Char)
    : places? .outside (text ++ rest)
      = (places? .outside rest).map (text.map (fun _ => .outside) ++ ·) := by
  induction text with
  | nil => simp
  | cons c text ih =>
      rw [List.mem_cons, not_or] at noQuote
      have stays : Mode.next .outside c = (.outside, .outside) := by
        rw [Mode.next]
        exact Ne.symm noQuote.1
      rw [List.cons_append, places?_cons, stays, ih noQuote.2, Option.map_map]
      rfl

/-- What is read between quotes is inside; by induction on how it is read. -/
theorem places?_body {body text : List Char} (reads : Reads body text) (rest : List Char)
    : places? .inside (body ++ rest)
      = (places? .inside rest).map (body.map (fun _ => .inside) ++ ·) := by
  induction reads with
  | nil => simp
  | guarded c _ ih =>
      have guards : Mode.next .inside '\\' = (.inside, .guarded) := rfl
      have taken : Mode.next .guarded c = (.inside, .inside) := rfl
      rw [List.cons_append, List.cons_append, places?_cons, guards, places?_cons, taken, ih,
        Option.map_map, Option.map_map]
      rfl
  | @literal c _ _ notBackslash notQuote _ ih =>
      have stays : Mode.next .inside c = (.inside, .inside) := by
        rw [Mode.next]
        · exact notQuote
        · exact notBackslash
      rw [List.cons_append, places?_cons, stays, ih, Option.map_map]
      rfl

/-- A stretch of a document: text outside of strings, or a string with its inside. -/
inductive Stretch where
  | plain (text : String)
  | quoted (body : String)

namespace Stretch

def text : Stretch → List Char
  | plain text => text.toList
  | quoted body => '"' :: body.toList ++ ['"']

/-- The places that the characters of a stretch are meant to have. -/
def places : Stretch → List Place
  | plain text => text.toList.map fun _ => .outside
  | quoted body => .opening :: body.toList.map (fun _ => .inside) ++ [.closing]

/-- No string begins in plain text, and none ends before its closing quote. -/
inductive Proper : Stretch → Prop where
  | plain {text : String} (noQuote : '"' ∉ text.toList) : Proper (plain text)
  | quoted {body : String} {text : List Char} (reads : Reads body.toList text)
    : Proper (quoted body)

theorem Proper.places?_append {stretch : Stretch} (proper : stretch.Proper) (rest : List Char)
    : places? .outside (stretch.text ++ rest)
      = (places? .outside rest).map (stretch.places ++ ·) := by
  cases proper with
  | plain noQuote => exact places?_plain noQuote rest
  | @quoted body _ reads =>
      have opens : Mode.next .outside '"' = (.opening, .inside) := rfl
      have closes : Mode.next .inside '"' = (.closing, .outside) := rfl
      rw [text, List.append_assoc, List.cons_append, places?_cons, opens, places?_body reads,
        List.singleton_append, places?_cons, closes]
      simp [Option.map_map, Function.comp_def, places]

/-- The characters of proper stretches have the places they are meant to have; by induction on the
stretches.
-/
theorem places?_flatMap {stretches : List Stretch} (proper : ∀ part ∈ stretches, part.Proper)
    : places? .outside (stretches.flatMap text) = some (stretches.flatMap places) := by
  induction stretches with
  | nil => rfl
  | cons part rest ih =>
      obtain ⟨here, later⟩ := List.forall_mem_cons.mp proper
      rw [List.flatMap_cons, here.places?_append, ih later, Option.map_some, List.flatMap_cons]

-- A quote behind a backslash does not end the string that it stands in.
example
    : places? .outside ['=', '"', '\\', '"', '"', ';']
      = some [.outside, .opening, .inside, .inside, .closing, .outside] := by
  decide

end Stretch

----------------------------------------------------------------------------------------------
-- Documents
----------------------------------------------------------------------------------------------

section

variable (style : Style) (liveness : Liveness)

/-- The inside of the string that a line is drawn with. -/
def penBody : String :=
  "setlinewidth(" ++ Decimal.twoPlaces style.lineWidth ++ ")"

/-- The inside of the label of a node. -/
def labelBody (node : Nat) (instr : Instr) : String :=
  Temp.setText (liveness.liveIn node) ++ "\\n" ++ node.repr ++ ": " ++ escape instr.text ++ "\\n"
    ++ Temp.setText (liveness.liveOut node)

def nodeStretches (node : Nat) (instr : Instr) : List Stretch :=
  [.plain ("  n" ++ node.repr ++ " [label="),
    .quoted (labelBody liveness node instr),
    .plain (", fontsize=" ++ Decimal.twoPlaces style.fontSize ++ ", style="),
    .quoted (penBody style),
    .plain (", color=" ++ (if instr.isMove then "green" else "blue") ++ "];\n")]

def edgeStretches (source target : Nat) : List Stretch :=
  [.plain
      ("  n" ++ source.repr ++ " -> n" ++ target.repr ++ " [arrowhead=normal, arrowsize="
        ++ Decimal.twoPlaces style.arrowSize ++ ", style="),
    .quoted (penBody style),
    .plain "];\n"]

/-- The strings of a document, and the text between them. -/
def stretches (title : String) : List Stretch :=
  let graph := liveness.graph
  let style := Style.ofSize graph.size
  [.plain "digraph ", .quoted "Flow graph", .plain " \x7b\nlabelloc=", .quoted "t",
      .plain (";\nfontsize=" ++ Decimal.twoPlaces style.fontSize ++ ";\nlabel="),
      .quoted (escape title), .plain ";\n  graph [size=", .quoted "6.5, 9",
      .plain ", ratio=fill];\n"]
    ++ (graph.instrs.toList.mapIdx (nodeStretches style liveness)).flatten
    ++ graph.nodes.flatMap (fun node =>
      (graph.successors node).flatMap (edgeStretches style node))
    ++ [.plain "\x7d\n"]


theorem toList_nodeLine (node : Nat) (instr : Instr)
    : (nodeLine style liveness node instr).toList
      = (nodeStretches style liveness node instr).flatMap Stretch.text := by
  -- Making the equation of a text with so many parts takes too long, hence `delta` here and below.
  delta nodeLine
  simp [nodeStretches, labelBody, penBody, Stretch.text]

theorem toList_edgeLine (source target : Nat)
    : (edgeLine style source target).toList
      = (edgeStretches style source target).flatMap Stretch.text := by
  delta edgeLine
  simp [edgeStretches, penBody, Stretch.text]

theorem flatMap_toList_nodeLines (instrs : List Instr)
    : (instrs.mapIdx (nodeLine style liveness)).flatMap String.toList
      = (instrs.mapIdx (nodeStretches style liveness)).flatten.flatMap Stretch.text := by
  rw [List.mapIdx_eq_zipIdx_map, List.mapIdx_eq_zipIdx_map, List.flatMap_map, ← List.flatMap_def,
    List.flatMap_assoc]
  simp only [toList_nodeLine]

/-- A document is made of its stretches. -/
theorem toList_document (title : String)
    : (document liveness title).toList = (stretches liveness title).flatMap Stretch.text := by
  delta document stretches
  simp [Stretch.text, flatMap_toList_nodeLines, toList_edgeLine, List.flatMap_assoc,
    List.flatMap_map]

end

section

variable {style : Style} {liveness : Liveness}

theorem proper_penBody : (Stretch.quoted (penBody style)).Proper :=
  .quoted ((Clean.append (by decide) (.twoPlaces _)).append (by decide)).reads

theorem proper_edgeStretches (source target : Nat)
    : ∀ part ∈ edgeStretches style source target, part.Proper := by
  have drawn : Clean ("  n" ++ source.repr ++ " -> n" ++ target.repr) :=
    ((Clean.append (by decide) (.repr source)).append (by decide)).append (.repr target)
  have opens := ((drawn.append (by decide : Clean " [arrowhead=normal, arrowsize=")).append
    (.twoPlaces style.arrowSize)).append (by decide : Clean ", style=")
  simp only [edgeStretches, List.forall_mem_cons]
  exact ⟨.plain opens.noQuote, proper_penBody, .plain (by decide), List.forall_mem_nil _⟩

variable
  (clean : ∀ node register,
    register ∈ liveness.liveIn node ∨ register ∈ liveness.liveOut node → Clean register.text)

include clean

/-- The label of a node is read as its live sets, its number and its text, with the letter of a line
break between them.
-/
theorem reads_labelBody (node : Nat) (instr : Instr)
    : Reads (labelBody liveness node instr).toList
        (Temp.setText (liveness.liveIn node) ++ "n" ++ node.repr ++ ": " ++ instr.text ++ "n"
          ++ Temp.setText (liveness.liveOut node)).toList := by
  have before := Clean.setText fun register live => clean node register (.inl live)
  have after := Clean.setText fun register live => clean node register (.inr live)
  have lineBreak : Reads "\\n".toList "n".toList := .guarded 'n' .nil
  have numbered := (before.reads.append lineBreak).append (Clean.repr node).reads
  have shown := (numbered.append (by decide : Clean ": ").reads).append (reads_escape instr.text)
  simp only [labelBody, String.toList_append]
  exact (shown.append lineBreak).append after.reads

theorem proper_nodeStretches (node : Nat) (instr : Instr)
    : ∀ part ∈ nodeStretches style liveness node instr, part.Proper := by
  have opens : Clean ("  n" ++ node.repr ++ " [label=") :=
    (Clean.append (by decide) (.repr node)).append (by decide)
  have sized : Clean (", fontsize=" ++ Decimal.twoPlaces style.fontSize ++ ", style=") :=
    (Clean.append (by decide) (.twoPlaces _)).append (by decide)
  have colour : Clean (", color=" ++ (if instr.isMove then "green" else "blue") ++ "];\n") := by
    split <;> decide
  simp only [nodeStretches, List.forall_mem_cons]
  exact ⟨.plain opens.noQuote, .quoted (reads_labelBody clean node instr), .plain sized.noQuote,
    proper_penBody, .plain colour.noQuote, List.forall_mem_nil _⟩

theorem proper_stretches (title : String) : ∀ part ∈ stretches liveness title, part.Proper := by
  have heading (size : Float) : Clean (";\nfontsize=" ++ Decimal.twoPlaces size ++ ";\nlabel=") :=
    (Clean.append (by decide) (.twoPlaces _)).append (by decide)
  delta stretches
  refine List.forall_mem_append.mpr ⟨List.forall_mem_append.mpr ⟨List.forall_mem_append.mpr
    ⟨?_, ?_⟩, ?_⟩, ?_⟩
  · simp only [List.forall_mem_cons]
    exact ⟨.plain (by decide), .quoted (by decide : Clean _).reads, .plain (by decide),
      .quoted (by decide : Clean _).reads, .plain (heading _).noQuote,
      .quoted (reads_escape title), .plain (by decide), .quoted (by decide : Clean _).reads,
      .plain (by decide), List.forall_mem_nil _⟩
  · intro part member
    obtain ⟨line, isLine, inLine⟩ := List.mem_flatten.mp member
    obtain ⟨node, inside, rfl⟩ := List.mem_mapIdx.mp isLine
    exact proper_nodeStretches clean _ _ part inLine
  · intro part member
    obtain ⟨node, -, inNode⟩ := List.mem_flatMap.mp member
    obtain ⟨target, -, inLine⟩ := List.mem_flatMap.mp inNode
    exact proper_edgeStretches node target part inLine
  · exact List.forall_mem_singleton.mpr (.plain (by decide))

/-- If the live registers have clean names, strings begin and end where they are meant to. -/
theorem places?_document (title : String)
    : places? .outside (document liveness title).toList
      = some ((stretches liveness title).flatMap Stretch.places) := by
  rw [toList_document]
  exact Stretch.places?_flatMap (proper_stretches clean title)

end

end TreeTiling.Dot
