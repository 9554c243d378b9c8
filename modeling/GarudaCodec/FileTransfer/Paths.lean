import Mathlib.Data.List.Basic

/-! # Paths

A path is a sequence of bytes, read as `std::path` reads it on Unix: its components are what
stands between separators, without empty segments, without `.` except in front, and with `..`
kept.  The main result is `directChild_join`: joining a name to a directory gives a direct child of
it exactly for plain names and for absolute paths of direct children.
-/

namespace GarudaCodec.FileTransfer

abbrev Path := List UInt8

def separator : UInt8 := 0x2F
def dot : UInt8 := 0x2E

inductive Component where
  | rootDir
  | curDir
  | parentDir
  | normal (name : List UInt8)
deriving DecidableEq, Repr

namespace Path

/-- What a segment between two separators stands for. -/
def segmentComponent (segment : List UInt8) : Option Component :=
  if segment = [] ∨ segment = [dot] then none
  else if segment = [dot, dot] then some .parentDir
  else some (.normal segment)

/-- Only the beginning of a path can be its root or a kept `.`. -/
def firstComponent (path : Path) : List Component :=
  if path.head? = some separator then [.rootDir]
  else if (path.splitOn separator).head? = some [dot] then [.curDir]
  else []

/-- `Path::components`. -/
def components (path : Path) : List Component :=
  firstComponent path ++ (path.splitOn separator).filterMap segmentComponent

/-- `Path::file_name`: the last component, if it is a normal one. -/
def fileName (path : Path) : Option (List UInt8) :=
  match (components path).getLast? with
  | some (.normal name) => some name
  | _ => none

def isAbsolute (path : Path) : Bool := path.head? == some separator

/-- `Path::join`: an absolute path replaces the base. -/
def join (base path : Path) : Path :=
  if isAbsolute path then path
  else if base = [] ∨ base.getLast? = some separator then base ++ path
  else base ++ separator :: path

end Path

/-- A name that a directory entry can have. -/
structure PlainName (name : List UInt8) : Prop where
  nonempty : name ≠ []
  noSeparator : separator ∉ name
  noNul : 0 ∉ name
  notDot : name ≠ [dot]
  notDotDot : name ≠ [dot, dot]

instance (name : List UInt8) : Decidable (PlainName name) :=
  decidable_of_iff (name ≠ [] ∧ separator ∉ name ∧ 0 ∉ name ∧ name ≠ [dot] ∧ name ≠ [dot, dot])
    ⟨fun ⟨nonempty, noSeparator, noNul, notDot, notDotDot⟩ =>
      ⟨nonempty, noSeparator, noNul, notDot, notDotDot⟩,
    fun plain =>
      ⟨plain.nonempty, plain.noSeparator, plain.noNul, plain.notDot, plain.notDotDot⟩⟩

/-- The path extends the base by exactly one normal component and by no further separator. -/
def DirectChild (base path : Path) : Prop :=
  ∃ name, PlainName name ∧
    Path.components path = Path.components base ++ [.normal name] ∧
    (path = base ++ name ∨ path = base ++ separator :: name)

namespace Path

/-! ## Components -/

theorem segmentComponent_plain {name : List UInt8} (plain : PlainName name) :
    segmentComponent name = some (.normal name) := by
  rw [segmentComponent, if_neg (not_or.mpr ⟨plain.nonempty, plain.notDot⟩),
    if_neg plain.notDotDot]

theorem splitOn_plain {name : List UInt8} (noSeparator : separator ∉ name) :
    name.splitOn separator = [name] := by
  apply List.splitOnP_eq_singleton
  intro byte member
  simp only [beq_eq_false_iff_ne, ne_eq]
  rintro rfl
  exact noSeparator member

theorem splitOn_ne_nil (path : List UInt8) : path.splitOn separator ≠ [] :=
  List.splitOnP_ne_nil _ _

theorem splitOn_append (front back : List UInt8) :
    (front ++ separator :: back).splitOn separator =
      front.splitOn separator ++ back.splitOn separator :=
  List.splitOnP_append_cons front back (by simp)

/-- What follows a separator does not matter for the beginning of a path. -/
theorem firstComponent_append (front back : List UInt8) :
    firstComponent (front ++ separator :: back) = firstComponent (front ++ [separator]) := by
  have segments : ∀ rest : List UInt8,
      ((front ++ separator :: rest).splitOn separator).head? =
        (front.splitOn separator).head? := by
    intro rest
    rw [splitOn_append, List.head?_append_of_ne_nil _ (splitOn_ne_nil front)]
  have heads : (front ++ separator :: back).head? = (front ++ [separator]).head? := by
    cases front with
    | nil => rfl
    | cons byte front => rfl
  rw [firstComponent, firstComponent, segments, segments, heads]

theorem firstComponent_separator {front : List UInt8} (nonempty : front ≠ []) :
    firstComponent (front ++ [separator]) = firstComponent front := by
  have heads : (front ++ [separator]).head? = front.head? := by
    cases front with
    | nil => exact absurd rfl nonempty
    | cons byte front => rfl
  rw [firstComponent, firstComponent, splitOn_append, heads,
    List.head?_append_of_ne_nil _ (splitOn_ne_nil front)]

theorem components_plain {name : List UInt8} (plain : PlainName name) :
    components name = [.normal name] := by
  have relative : name.head? ≠ some separator := by
    intro absolute
    exact plain.noSeparator (List.mem_of_mem_head? absolute)
  have first : firstComponent name = [] := by
    rw [firstComponent, if_neg relative, splitOn_plain plain.noSeparator, if_neg]
    simpa using plain.notDot
  rw [components, first, splitOn_plain plain.noSeparator]
  simp [segmentComponent_plain plain]

theorem components_append_plain (front : List UInt8) {name : List UInt8} (plain : PlainName name) :
    components (front ++ separator :: name) =
      components (front ++ [separator]) ++ [.normal name] := by
  rw [components, components, firstComponent_append, splitOn_append, splitOn_append,
    splitOn_plain plain.noSeparator]
  simp only [List.filterMap_append, List.filterMap_cons, segmentComponent_plain plain]
  simp [segmentComponent]

/-- A separator at the end of a non-empty path adds no component. -/
theorem components_separator {front : List UInt8} (nonempty : front ≠ []) :
    components (front ++ [separator]) = components front := by
  rw [components, components, firstComponent_separator nonempty, splitOn_append]
  simp [segmentComponent]

/-! ## Joining -/

theorem isAbsolute_plain {name : List UInt8} (plain : PlainName name) :
    isAbsolute name = false := by
  rw [isAbsolute, beq_eq_false_iff_ne]
  intro absolute
  exact plain.noSeparator (List.mem_of_mem_head? absolute)

theorem components_join (base : Path) {name : List UInt8} (plain : PlainName name) :
    components (join base name) = components base ++ [.normal name] := by
  rw [join, isAbsolute_plain plain]
  simp only [Bool.false_eq_true, if_false]
  rcases List.eq_nil_or_concat base with rfl | ⟨front, last, rfl⟩
  · rw [if_pos (Or.inl rfl), List.nil_append, components_plain plain]
    rfl
  · by_cases trailing : last = separator
    · subst trailing
      rw [if_pos (Or.inr (by simp)), List.concat_eq_append, List.append_assoc]
      exact components_append_plain front plain
    · rw [if_neg (by simpa using trailing), components_append_plain _ plain,
        components_separator (by simp)]

/-- Different plain names lead to different places. -/
theorem components_join_inj {base : Path} {left right : List UInt8} (plainLeft : PlainName left)
    (plainRight : PlainName right)
    (same : components (join base left) = components (join base right)) : left = right := by
  rw [components_join base plainLeft, components_join base plainRight] at same
  simpa using same

theorem directChild_of_plain (base : Path) {name : List UInt8} (plain : PlainName name) :
    DirectChild base (join base name) := by
  refine ⟨name, plain, components_join base plain, ?_⟩
  rw [join, isAbsolute_plain plain]
  simp only [Bool.false_eq_true, if_false]
  split
  · exact Or.inl rfl
  · exact Or.inr rfl

/-- A joined name leads to a direct child of the base exactly when it is plain, or is itself the
    absolute path of a direct child. -/
theorem directChild_join (base : Path) (name : List UInt8) :
    DirectChild base (join base name) ↔
      PlainName name ∨ isAbsolute name = true ∧ DirectChild base name := by
  constructor
  · intro child
    by_cases absolute : isAbsolute name = true
    · rw [join, if_pos absolute] at child
      exact Or.inr ⟨absolute, child⟩
    · left
      obtain ⟨plainName, plain, -, text⟩ := child
      have relative : name.head? ≠ some separator := by
        simpa [isAbsolute] using absolute
      rw [join, if_neg absolute] at text
      -- the text of the joined path leaves only the plain name itself
      split at text
      · rcases text with same | same
        · rw [List.append_cancel_left same]
          exact plain
        · rw [List.append_cancel_left same] at relative
          exact absurd rfl relative
      · rcases text with same | same
        · rw [← List.append_cancel_left same] at plain
          exact absurd List.mem_cons_self plain.noSeparator
        · obtain ⟨-, rfl⟩ := List.cons.inj (List.append_cancel_left same)
          exact plain
  · rintro (plain | ⟨absolute, child⟩)
    · exact directChild_of_plain base plain
    · rw [join, if_pos absolute]
      exact child

end Path

end GarudaCodec.FileTransfer
