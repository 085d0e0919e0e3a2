import Mathlib.Data.List.Basic
import Mathlib.Tactic.Common

/-!
# Paths

A path as its parts between the separators, and the place it leads to from a directory: an empty
part and a dot stay, two dots go up, anything else is a name to go down. There are no links.

A path that never goes above where it starts leads to the same place below every directory
(`follow_of_below`); a path that does leaves a directory whose name it does not know
(`not_mem_follow`).
-/

namespace Knolo.Library.Paths

/-- A name of a file or a directory. -/
abbrev Name := List Char

/-- A path by its parts. -/
abbrev Path := List Name

/-- A place by the names that lead to it from the top. -/
abbrev Location := List Name

/-- Parts that stay where they are. -/
def stays (part : Name) : Bool := part == [] || part == ".".toList

/-- The part that goes up. -/
def up : Name := "..".toList

namespace Path

/-- The parts of a text. -/
def ofText (cs : List Char) : Path := cs.splitOn '/'

/-- A path that begins with a separator. -/
def isAbsolute : Path → Bool
  | part :: _ :: _ => part == []
  | _ => false

/-- A name without its extension: what is before its last dot, if anything is. -/
def stem (name : Name) : Name :=
  let before := ((name.reverse.dropWhile (· ≠ '.')).drop 1).reverse
  if before = [] then name else before

/-- `with_extension`: the last name of a path, if it ends in one, has another extension. -/
def withExtension (path : Path) (ext : List Char) : Path :=
  match path.reverse.dropWhile stays with
  | [] => path
  | name :: dirs => if name = up then path else dirs.reverse ++ [stem name ++ '.' :: ext]

end Path

/-- The place a part leads to. -/
def enter (l : Location) (part : Name) : Location :=
  if stays part then l else if part = up then l.dropLast else l ++ [part]

/-- The place a path leads to. -/
def follow (l : Location) (path : Path) : Location := path.foldl enter l

/-- The place of a path that is looked up in a directory. -/
def locate (root : Location) (path : Path) : Location := follow (if Path.isAbsolute path then [] else root) path

/-- The names below the start after one more part. -/
def enterBelow (names : List Name) (part : Name) : Option (List Name) :=
  if stays part then some names
  else if part = up then if names = [] then none else some names.dropLast
  else some (names ++ [part])

/-- The names below the start that a path leads to, unless it goes above the start on its way. -/
def below (path : Path) : Option (List Name) := path.foldlM enterBelow []

/-! ### Texts that end in a name -/

/-- A text without a separator lengthens the last part. -/
theorem ofText_append (cs : List Char) {suffix : List Char} (h : '/' ∉ suffix) : ∃ dirs last,
    Path.ofText cs = dirs ++ [last] ∧ Path.ofText (cs ++ suffix) = dirs ++ [last ++ suffix] := by
  induction cs with
  | nil => exact ⟨[], [], rfl, List.splitOn_eq_singleton h⟩
  | cons c cs ih =>
    obtain ⟨dirs, last, hcs, hlong⟩ := ih
    simp only [Path.ofText] at hcs hlong ⊢
    simp only [List.cons_append, List.splitOn_cons_eq_if_modifyHead, hcs, hlong]
    by_cases hc : (c == '/') = true
    · exact ⟨[] :: dirs, last, by simp [hc], by simp [hc]⟩
    · simp only [if_neg hc]
      cases dirs with
      | nil => exact ⟨[], c :: last, rfl, rfl⟩
      | cons d dirs => exact ⟨(c :: d) :: dirs, last, rfl, rfl⟩

/-- A part of three characters is a name. -/
theorem name_of_length {name : Name} (h : 3 ≤ name.length) : stays name = false ∧ name ≠ up := by
  constructor
  · by_contra hstays
    simp only [stays, Bool.not_eq_false, Bool.or_eq_true, beq_iff_eq] at hstays
    rcases hstays with rfl | rfl
    · exact absurd h (by decide)
    · exact absurd h (by decide)
  · rintro rfl
    exact absurd h (by decide)

/-- Whether a path is absolute does not depend on its last part. -/
theorem isAbsolute_append (dirs : Path) (name last : Name) :
    Path.isAbsolute (dirs ++ [name]) = Path.isAbsolute (dirs ++ [last]) := by
  match dirs with
  | [] => rfl
  | [_] => rfl
  | _ :: _ :: _ => rfl

variable {l : Location} {path dirs : Path} {name : Name}

theorem enter_of_stays (h : stays name = true) : enter l name = l := if_pos h

theorem enter_up : enter l up = l.dropLast := rfl

theorem enter_name (hstays : stays name = false) (hup : name ≠ up) : enter l name = l ++ [name] := by
  rw [enter, hstays, if_neg Bool.false_ne_true, if_neg hup]

/-- What a path that ends in a name leads to. -/
theorem follow_name (hstays : stays name = false) (hup : name ≠ up) :
    follow l (dirs ++ [name]) = follow l dirs ++ [name] := by
  rw [follow, List.foldl_append]
  exact enter_name hstays hup

/-- Another extension for a path that ends in a name. -/
theorem withExtension_append (hstays : stays name = false) (hup : name ≠ up) (ext : List Char) :
    Path.withExtension (dirs ++ [name]) ext = dirs ++ [Path.stem name ++ '.' :: ext] := by
  simp [Path.withExtension, hstays, hup]

/-! ### Paths that stay below, and paths that do not -/

/-- A path that never goes above its start leads to its names. -/
theorem follow_of_below (root : Location) {names dir : List Name} (h : path.foldlM enterBelow names = some dir) :
    follow (root ++ names) path = root ++ dir := by
  induction path generalizing names with
  | nil =>
    cases h
    rfl
  | cons part path ih =>
    rw [List.foldlM_cons] at h
    obtain ⟨names', hpart, hpath⟩ := Option.bind_eq_some_iff.mp h
    suffices henter : enter (root ++ names) part = root ++ names' by
      rw [follow, List.foldl_cons, henter]
      exact ih hpath
    rw [enterBelow] at hpart
    split_ifs at hpart with hstays hup hnames
    · cases hpart
      exact enter_of_stays hstays
    · cases hpart
      rw [hup, enter_up, List.dropLast_append_of_ne_nil hnames]
    · cases hpart
      rw [enter_name (by simpa using hstays) hup, List.append_assoc]

/-- Every name of the place was there or is in the path. -/
theorem mem_follow {z : Name} (h : z ∈ follow l path) : z ∈ l ∨ z ∈ path := by
  induction path generalizing l with
  | nil => exact .inl h
  | cons part path ih =>
    rcases ih h with hz | hz
    · rw [enter] at hz
      split_ifs at hz with hstays hup
      · exact .inl hz
      · exact .inl (List.dropLast_subset _ hz)
      · rcases List.mem_append.mp hz with hz | hz
        · exact .inl hz
        · exact .inr (List.mem_singleton.mp hz ▸ .head _)
    · exact .inr (.tail _ hz)

/-- A path that goes above its start leaves a directory whose name is not in it. -/
theorem not_mem_follow {z : Name} {names : List Name} (h : path.foldlM enterBelow names = none) (hz : z ∉ path)
    (hnames : z ∉ names) : z ∉ follow ([z] ++ names) path := by
  induction path generalizing names with
  | nil => cases h
  | cons part path ih =>
    rw [List.foldlM_cons] at h
    obtain ⟨hpart, hpath⟩ := not_or.mp fun hor => hz (List.mem_cons.mpr hor)
    show z ∉ follow (enter ([z] ++ names) part) path
    by_cases hstays : stays part = true
    · rw [enterBelow, if_pos hstays] at h
      rw [enter_of_stays hstays]
      exact ih h hpath hnames
    by_cases hup : part = up
    · rw [enterBelow, if_neg hstays, if_pos hup] at h
      rw [hup, enter_up]
      by_cases hnil : names = []
      · intro hmem
        rcases mem_follow hmem with hmem | hmem
        · rw [hnil] at hmem
          cases hmem
        · exact hpath hmem
      · rw [if_neg hnil] at h
        rw [List.dropLast_append_of_ne_nil hnil]
        exact ih h hpath fun hmem => hnames (List.dropLast_subset _ hmem)
    · rw [enterBelow, if_neg hstays, if_neg hup] at h
      rw [enter_name (by simpa using hstays) hup, List.append_assoc]
      refine ih h hpath fun hmem => ?_
      rcases List.mem_append.mp hmem with hmem | hmem
      · exact hnames hmem
      · exact hpart (List.mem_singleton.mp hmem)

end Knolo.Library.Paths
