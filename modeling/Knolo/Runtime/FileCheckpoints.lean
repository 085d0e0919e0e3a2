import Knolo.Icp.Documents
import Knolo.Library.Paths
import Mathlib.Data.Fintype.EquivFin

/-!
# Checkpoints in files

`FilesystemCheckpointStore` of `knolo-agent/src/checkpoint/mod.rs` beside `InMemoryCheckpointStore`:
a checkpoint is written to a temporary file, which is then renamed to `<id>.json` under the root.

An execution id may have separators and dots, and is a path of its own: two ids may lead to one file,
and an id may lead out of the root. The directories on the way are there, and writes succeed.

* `refines_iff` — for which ids the files do what the memory does, within the root.
-/

namespace Knolo.Runtime

open Core Icp Library Library.Fallible Library.Paths

/-! ### Files -/

/-- The files there are, by their places. -/
abbrev FileSystem := Location → Option String

namespace FileSystem

/-- `fs::write`. -/
def write (fs : FileSystem) (place : Location) (content : String) : FileSystem :=
  fun l => if l = place then some content else fs l

/-- `fs::rename`. -/
def rename (fs : FileSystem) (source target : Location) : FileSystem :=
  fun l => if l = source then none else if l = target then fs source else fs l

/-- A file that is written beside its place and then moved there. -/
theorem rename_write (fs : FileSystem) (tmp target : Location) (content : String) :
    (fs.write tmp content).rename tmp target =
      fun l => if l = tmp then none else if l = target then some content else fs l := by
  funext l
  by_cases htmp : l = tmp
  · rw [rename, if_pos htmp, if_pos htmp]
  · simp only [rename, write, if_neg htmp, if_pos]

end FileSystem

/-! ### The store -/

/-- The path of a checkpoint in its root. -/
def checkpointPath (id : ExecutionId) : Path := Path.ofText (id.text.toList ++ ".json".toList)

/-- A store of checkpoints in files. -/
structure FilesystemCheckpointStore where
  root : Location
  files : FileSystem

namespace FilesystemCheckpointStore

/-- The place of a checkpoint. -/
def location (root : Location) (id : ExecutionId) : Location := locate root (checkpointPath id)

/-- `save`. -/
def save (f : Format CheckpointV1) (s : FilesystemCheckpointStore) (cp : CheckpointV1) :
    Except CoreError FilesystemCheckpointStore := do
  let path := checkpointPath cp.executionId
  let tmp := locate s.root (path.withExtension "json.tmp".toList)
  let bytes ← (f.write cp).mapError .host
  return { s with files := (s.files.write tmp bytes).rename tmp (locate s.root path) }

/-- `load`. -/
def load (f : Format CheckpointV1) (s : FilesystemCheckpointStore) (id : ExecutionId) :
    Except CoreError (Option CheckpointV1) :=
  match s.files (location s.root id) with
  | none => .ok none
  | some bytes => some <$> (f.read bytes).mapError .checkpointIncompatible

end FilesystemCheckpointStore

/-! ### Histories -/

/-- What is asked of a store. -/
inductive StoreCall where
  | save (cp : CheckpointV1)
  | load (id : ExecutionId)

/-- What a store answers; nothing is answered to a save. -/
abbrev StoreAnswer := Except CoreError (Option CheckpointV1)

/-- A call of the files. -/
def fileCall (f : Format CheckpointV1) (s : FilesystemCheckpointStore) :
    StoreCall → StoreAnswer × FilesystemCheckpointStore
  | .save cp =>
    match s.save f cp with
    | .ok s' => (.ok none, s')
    | .error e => (.error e, s)
  | .load id => (s.load f id, s)

/-- A call of the memory. -/
def memoryCall (s : InMemoryCheckpointStore) : StoreCall → StoreAnswer × InMemoryCheckpointStore
  | .save cp => (.ok none, s.save cp)
  | .load id => (.ok (s.load id), s)

/-- The answers to calls, in order, and the store after them. -/
def serve {σ : Type} (call : σ → StoreCall → StoreAnswer × σ) (s : σ) : List StoreCall → List StoreAnswer × σ
  | [] => ([], s)
  | c :: cs =>
    let r := call s c
    let rest := serve call r.2 cs
    (r.1 :: rest.1, rest.2)

/-- Calls about these checkpoints, and their ids. -/
def StoreCall.About (C : Set CheckpointV1) : StoreCall → Prop
  | .save cp => cp ∈ C
  | .load id => ∃ cp ∈ C, cp.executionId = id

/-- In this root the files do what the memory does, for these checkpoints. -/
structure Refines (f : Format CheckpointV1) (C : Set CheckpointV1) (root : Location) : Prop where
  /-- Every load returns what it returns from the memory. -/
  answers : ∀ calls, (∀ c ∈ calls, c.About C) →
    (serve (fileCall f) ⟨root, fun _ => none⟩ calls).1 = (serve memoryCall .empty calls).1
  /-- No two ids share a checkpoint. -/
  apart : ∀ cp ∈ C, ∀ cp' ∈ C, cp.executionId ≠ cp'.executionId →
    FilesystemCheckpointStore.location root cp.executionId ≠ FilesystemCheckpointStore.location root cp'.executionId
  /-- Every file is in the root. -/
  inside : ∀ calls, (∀ c ∈ calls, c.About C) → ∀ l,
    (serve (fileCall f) ⟨root, fun _ => none⟩ calls).2.files l ≠ none → ∃ names, names ≠ [] ∧ l = root ++ names

/-! ### Ids as paths -/

/-- The names that an id stands for below the root: what is before its last separator is followed as a
path, the rest is a name. An id that begins with a separator, or goes above the root, has none. -/
def relativeNames (id : ExecutionId) : Option (List Name) :=
  let parts := Path.ofText id.text.toList
  if parts.isAbsolute then none else (below parts.dropLast).map (· ++ [parts.getLast?.getD []])

section Places

open FilesystemCheckpointStore

variable {root : Location} {id id' : ExecutionId}

/-- The path of a checkpoint is the id with a longer last part. -/
theorem checkpointPath_eq (id : ExecutionId) : ∃ dirs last, Path.ofText id.text.toList = dirs ++ [last] ∧
    checkpointPath id = dirs ++ [last ++ ".json".toList] :=
  ofText_append id.text.toList (by decide)

/-- What a path that ends in a name leads to. -/
theorem locate_name (dirs : Path) (last name : Name) (h : 3 ≤ name.length) :
    locate root (dirs ++ [name]) = follow (if Path.isAbsolute (dirs ++ [last]) then [] else root) dirs ++ [name] := by
  obtain ⟨hstays, hup⟩ := name_of_length h
  rw [locate, isAbsolute_append dirs name last, follow_name hstays hup]

/-- The temporary file is no checkpoint's file. -/
theorem tmp_ne_location : locate root ((checkpointPath id).withExtension "json.tmp".toList) ≠ location root id' := by
  obtain ⟨dirs, last, -, hpath⟩ := checkpointPath_eq id
  obtain ⟨dirs', last', -, hpath'⟩ := checkpointPath_eq id'
  have hlength : 3 ≤ (last ++ ".json".toList).length := by simp
  obtain ⟨hstays, hup⟩ := name_of_length hlength
  rw [location, hpath, hpath', withExtension_append hstays hup, locate_name dirs last _ (by simp),
    locate_name dirs' last' _ (by simp)]
  intro h
  have hname := (List.append_inj' h rfl).2
  have hend := congrArg (fun names : List Name => (names.getLast?.bind List.getLast?)) hname
  simp [List.getLast?_append] at hend

/-- Where a checkpoint is, from the names of its id. -/
theorem location_of_relativeNames {names : List Name} (h : relativeNames id = some names) :
    ∃ dir last, names = dir ++ [last] ∧ ∀ root, location root id = root ++ (dir ++ [last ++ ".json".toList]) := by
  obtain ⟨dirs, last, hid, hpath⟩ := checkpointPath_eq id
  simp only [relativeNames, hid] at h
  by_cases habs : Path.isAbsolute (dirs ++ [last]) = true
  · rw [if_pos habs] at h
    cases h
  · rw [if_neg habs, List.dropLast_concat] at h
    obtain ⟨dir, hbelow, rfl⟩ := Option.map_eq_some_iff.mp h
    refine ⟨dir, last, by simp, fun root => ?_⟩
    rw [location, hpath, locate_name dirs last _ (by simp), if_neg habs]
    rw [show follow root dirs = root ++ dir by simpa using follow_of_below root hbelow, List.append_assoc]

/-- An id that has no names below the root leads out of some root. -/
theorem exists_outside (h : relativeNames id = none) : ∃ root, ∀ names, location root id ≠ root ++ names := by
  obtain ⟨dirs, last, hid, hpath⟩ := checkpointPath_eq id
  obtain ⟨z, hz⟩ := Infinite.exists_notMem_finset (checkpointPath id).toFinset
  have hz' : z ∉ dirs ++ [last ++ ".json".toList] := by
    rw [← hpath]
    simpa using hz
  refine ⟨[z], fun names heq => ?_⟩
  have hmem : z ∈ location [z] id := by simp [heq]
  rw [location, hpath, locate_name dirs last _ (by simp)] at hmem
  simp only [List.mem_append, not_or] at hz' hmem
  rcases hmem with hmem | hmem
  · simp only [relativeNames, hid, List.dropLast_concat] at h
    by_cases habs : Path.isAbsolute (dirs ++ [last]) = true
    · rw [if_pos habs] at hmem
      rcases mem_follow hmem with hmem | hmem
      · cases hmem
      · exact hz'.1 hmem
    · rw [if_neg habs] at h hmem
      exact not_mem_follow (Option.map_eq_none_iff.mp h) hz'.1 (List.not_mem_nil) hmem
  · exact hz'.2 hmem

end Places

/-! ### The simulation -/

section Simulation

open FilesystemCheckpointStore

variable {f : Format CheckpointV1} {C : Set CheckpointV1} {root : Location} {files : FileSystem}
  {memory : InMemoryCheckpointStore}

/-- The files hold what the memory holds, and nothing else. -/
structure Mirrors (f : Format CheckpointV1) (C : Set CheckpointV1) (root : Location) (files : FileSystem)
    (memory : InMemoryCheckpointStore) : Prop where
  held : ∀ cp ∈ C, ∀ c, memory.load cp.executionId = some c →
    ∃ t, files (location root cp.executionId) = some t ∧ f.read t = .ok c
  missing : ∀ cp ∈ C, memory.load cp.executionId = none → files (location root cp.executionId) = none
  placed : ∀ l, files l ≠ none → ∃ cp ∈ C, l = location root cp.executionId

/-- Ids have files of their own. -/
def Apart (C : Set CheckpointV1) (root : Location) : Prop := ∀ cp ∈ C, ∀ cp' ∈ C,
  cp.executionId ≠ cp'.executionId → location root cp.executionId ≠ location root cp'.executionId

theorem mirrors_empty : Mirrors f C root (fun _ => none) .empty where
  held := by
    intro cp _ c hc
    simp [InMemoryCheckpointStore.load, InMemoryCheckpointStore.empty] at hc
  missing := fun _ _ _ => rfl
  placed := fun _ h => absurd rfl h

/-- A save writes the file of its checkpoint and no other. -/
theorem save_eq (root : Location) (files : FileSystem) {cp : CheckpointV1} {t : String} (hw : f.write cp = .ok t) :
    ∃ files', (FilesystemCheckpointStore.mk root files).save f cp = .ok ⟨root, files'⟩ ∧
      files' (location root cp.executionId) = some t ∧
      (∀ id, location root id ≠ location root cp.executionId → files' (location root id) = files (location root id)) ∧
      ∀ l, files' l ≠ none → l = location root cp.executionId ∨ files l ≠ none := by
  have hsave : (FilesystemCheckpointStore.mk root files).save f cp = .ok ⟨root, fun l =>
      if l = locate root ((checkpointPath cp.executionId).withExtension "json.tmp".toList) then none
      else if l = location root cp.executionId then some t else files l⟩ := by
    simp only [FilesystemCheckpointStore.save, hw, FileSystem.rename_write]
    rfl
  refine ⟨_, hsave, ?_, ?_, ?_⟩
  · rw [if_neg tmp_ne_location.symm, if_pos rfl]
  · intro id hid
    rw [if_neg tmp_ne_location.symm, if_neg hid]
  · intro l hl
    by_contra h
    rw [not_or, not_not] at h
    by_cases htmp : l = locate root ((checkpointPath cp.executionId).withExtension "json.tmp".toList)
    · exact hl (if_pos htmp)
    · exact hl (by rw [if_neg htmp, if_neg h.1, h.2])

theorem load_save_same (memory : InMemoryCheckpointStore) (cp : CheckpointV1) :
    (memory.save cp).load cp.executionId = some cp := by
  simp [InMemoryCheckpointStore.load, InMemoryCheckpointStore.save]

theorem load_save_ne (memory : InMemoryCheckpointStore) {cp : CheckpointV1} {id : ExecutionId}
    (h : cp.executionId ≠ id) : (memory.save cp).load id = memory.load id := by
  rw [InMemoryCheckpointStore.load, InMemoryCheckpointStore.save, Std.ExtTreeMap.getElem?_insert, if_neg]
  · rfl
  · rw [Std.LawfulEqCmp.compare_eq_iff_eq]
    exact h

/-- One call has the same answer from both, and leaves them alike. -/
theorem Mirrors.call (hf : ∀ cp ∈ C, f.Keeps cp) (hapart : Apart C root) (hm : Mirrors f C root files memory)
    {c : StoreCall} (hc : c.About C) : ∃ files',
      fileCall f ⟨root, files⟩ c = ((memoryCall memory c).1, ⟨root, files'⟩) ∧
        Mirrors f C root files' (memoryCall memory c).2 := by
  cases c with
  | load id =>
    obtain ⟨cp, hcp, rfl⟩ := hc
    refine ⟨files, ?_, hm⟩
    simp only [fileCall, memoryCall, FilesystemCheckpointStore.load]
    cases hload : memory.load cp.executionId with
    | none => rw [hm.missing cp hcp hload]
    | some c =>
      obtain ⟨t, ht, hread⟩ := hm.held cp hcp c hload
      simp only [ht, hread]
      rfl
  | save cp =>
    obtain ⟨t, hw, hread, -⟩ := hf cp hc
    obtain ⟨files', hsave, hsame, hother, hplaced⟩ := save_eq root files hw
    refine ⟨files', by simp only [fileCall, hsave, memoryCall], ?_⟩
    simp only [memoryCall]
    exact {
      held := by
        intro cp' hcp' c hload
        by_cases hid : cp.executionId = cp'.executionId
        · rw [← hid] at hload ⊢
          rw [load_save_same] at hload
          cases hload
          exact ⟨t, hsame, hread⟩
        · rw [load_save_ne memory hid] at hload
          rw [hother _ (hapart cp' hcp' cp hc (Ne.symm hid))]
          exact hm.held cp' hcp' c hload
      missing := by
        intro cp' hcp' hload
        by_cases hid : cp.executionId = cp'.executionId
        · rw [← hid, load_save_same] at hload
          cases hload
        · rw [load_save_ne memory hid] at hload
          rw [hother _ (hapart cp' hcp' cp hc (Ne.symm hid))]
          exact hm.missing cp' hcp' hload
      placed := by
        intro l hl
        rcases hplaced l hl with rfl | hold
        · exact ⟨cp, hc, rfl⟩
        · exact hm.placed l hold }

/-- Any calls have the same answers from both, and leave them alike. -/
theorem Mirrors.serve (hf : ∀ cp ∈ C, f.Keeps cp) (hapart : Apart C root) (hm : Mirrors f C root files memory)
    {calls : List StoreCall} (hcalls : ∀ c ∈ calls, c.About C) : ∃ files',
      serve (fileCall f) ⟨root, files⟩ calls = ((serve memoryCall memory calls).1, ⟨root, files'⟩) ∧
        Mirrors f C root files' (serve memoryCall memory calls).2 := by
  induction calls generalizing files memory with
  | nil => exact ⟨files, rfl, hm⟩
  | cons c calls ih =>
    obtain ⟨files', hcall, hm'⟩ := hm.call hf hapart (hcalls c (.head _))
    obtain ⟨files'', hserve, hm''⟩ := ih hm' fun c' hc' => hcalls c' (.tail _ hc')
    refine ⟨files'', ?_, hm''⟩
    simp only [Runtime.serve, hcall, hserve]

end Simulation

/-! ### The condition -/

/-- **Files refine memory** below every root exactly for those ids that are relative, never go above where
they start, and are still different when empty parts, dots and what two dots undo are left out. -/
theorem refines_iff {f : Format CheckpointV1} {C : Set CheckpointV1} (hf : ∀ cp ∈ C, f.Keeps cp) :
    (∀ root, Refines f C root) ↔ (∀ cp ∈ C, relativeNames cp.executionId ≠ none) ∧
      ∀ cp ∈ C, ∀ cp' ∈ C, relativeNames cp.executionId = relativeNames cp'.executionId →
        cp.executionId = cp'.executionId := by
  have hnames {cp : CheckpointV1} (h : relativeNames cp.executionId ≠ none) :
      ∃ dir last, relativeNames cp.executionId = some (dir ++ [last]) ∧
        ∀ root, FilesystemCheckpointStore.location root cp.executionId = root ++ (dir ++ [last ++ ".json".toList]) := by
    obtain ⟨names, hn⟩ := Option.ne_none_iff_exists'.mp h
    obtain ⟨dir, last, rfl, hloc⟩ := location_of_relativeNames hn
    exact ⟨dir, last, hn, hloc⟩
  constructor
  · intro h
    have hbelow : ∀ cp ∈ C, relativeNames cp.executionId ≠ none := by
      intro cp hcp hnone
      obtain ⟨root, hout⟩ := exists_outside hnone
      obtain ⟨t, hw, -⟩ := hf cp hcp
      obtain ⟨files', hsave, hsame, -⟩ := save_eq root (fun _ => none) hw
      have habout : ∀ c ∈ [StoreCall.save cp], c.About C := by simpa [StoreCall.About] using hcp
      obtain ⟨names, -, hl⟩ := (h root).inside [.save cp] habout
        (FilesystemCheckpointStore.location root cp.executionId) (by simp [serve, fileCall, hsave, hsame])
      exact hout names hl
    refine ⟨hbelow, fun cp hcp cp' hcp' heq => ?_⟩
    by_contra hne
    obtain ⟨dir, last, hn, hloc⟩ := hnames (hbelow cp hcp)
    obtain ⟨dir', last', hn', hloc'⟩ := hnames (hbelow cp' hcp')
    rw [hn, hn', Option.some.injEq] at heq
    obtain ⟨rfl, hlast⟩ := List.append_inj' heq rfl
    cases hlast
    exact (h []).apart cp hcp cp' hcp' hne (by rw [hloc, hloc'])
  · rintro ⟨hbelow, hinj⟩ root
    have hapart : Apart C root := by
      intro cp hcp cp' hcp' hne hsame
      refine hne (hinj cp hcp cp' hcp' ?_)
      obtain ⟨dir, last, hn, hloc⟩ := hnames (hbelow cp hcp)
      obtain ⟨dir', last', hn', hloc'⟩ := hnames (hbelow cp' hcp')
      rw [hloc, hloc'] at hsame
      obtain ⟨rfl, hlast⟩ := List.append_inj' (List.append_cancel_left hsame) rfl
      rw [hn, hn', List.append_cancel_right (List.singleton_inj.mp hlast)]
    refine ⟨fun calls hcalls => ?_, hapart, fun calls hcalls l hl => ?_⟩
    · obtain ⟨files', hserve, -⟩ := mirrors_empty.serve hf hapart hcalls
      rw [hserve]
    · obtain ⟨files', hserve, hm⟩ := mirrors_empty.serve hf hapart hcalls
      rw [hserve] at hl
      obtain ⟨cp, hcp, rfl⟩ := hm.placed l hl
      obtain ⟨dir, last, -, hloc⟩ := hnames (hbelow cp hcp)
      exact ⟨_, by simp, hloc root⟩

/-- Ids without a separator are such ids. -/
theorem relativeNames_of_no_separator {id : ExecutionId} (h : '/' ∉ id.text.toList) :
    relativeNames id = some [id.text.toList] := by
  have hparts : Path.ofText id.text.toList = [id.text.toList] := List.splitOn_eq_singleton h
  simp only [relativeNames, hparts, Path.isAbsolute]
  rfl

/-! ### Two ids for one file -/

/-- A checkpoint of the repository's test graph. -/
def checkpointOf (id : ExecutionId) : CheckpointV1 where
  version := 1
  executionId := id
  graphHash := "sha256:graph"
  packHash := "sha256:pack"
  policyHash := "sha256:policy"
  nodeImplementationHash := "sha256:nodes"
  contractHash := "sha256:contract"
  state := setupState
  pendingNode := testId "b"
  eventCursor := 2
  steps := 1
  tokens := 0
  costMicros := 0

/-- The text layer of checkpoints for these ids. -/
def formatOf (ids : List ExecutionId) : Format CheckpointV1 :=
  .of (fun _ => "") checkpointJson (ids.map checkpointOf)

theorem formatOf_keeps (ids : List ExecutionId) (h : (texts (fun _ => "") checkpointJson (ids.map checkpointOf)).Nodup ∧
    "" ∉ texts (fun _ => "") checkpointJson (ids.map checkpointOf)) :
    ∀ cp ∈ {cp | cp ∈ ids.map checkpointOf}, (formatOf ids).Keeps cp :=
  fun _ hcp => Format.of_keeps h hcp

/-- Runs that are numbered within their day. -/
def dayIds : List ExecutionId := [testId "monday/1", testId "tuesday/1", testId "monday..1"]

theorem refines_iff_days :
    Refines (formatOf dayIds) {cp | cp ∈ dayIds.map checkpointOf} ["root".toList] :=
  (refines_iff (formatOf_keeps dayIds (by decide +kernel))).mpr (by
    constructor
    · show ∀ cp ∈ dayIds.map checkpointOf, relativeNames cp.executionId ≠ none
      decide +kernel
    · show ∀ cp ∈ dayIds.map checkpointOf, ∀ cp' ∈ dayIds.map checkpointOf,
        relativeNames cp.executionId = relativeNames cp'.executionId → cp.executionId = cp'.executionId
      decide +kernel) ["root".toList]

/-- Ids that differ by an empty part. -/
def slashIds : List ExecutionId := [testId "a/b", testId "a//b"]

/-- What is saved under one id is loaded under the other, of which the memory has nothing. -/
theorem files_shared : ¬ ∀ (f : Format CheckpointV1) (C : Set CheckpointV1) (root : Location),
    (∀ cp ∈ C, f.Keeps cp) → Refines f C root := by
  intro h
  have hkeeps := formatOf_keeps slashIds (by decide +kernel)
  have hanswers := (h (formatOf slashIds) {cp | cp ∈ slashIds.map checkpointOf} ["root".toList] hkeeps).answers
    [.save (checkpointOf (testId "a/b")), .load (testId "a//b")] (by simp [StoreCall.About, slashIds, checkpointOf])
  revert hanswers
  decide +kernel

end Knolo.Runtime
