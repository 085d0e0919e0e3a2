import Knolo.Experience.Store
import Knolo.Library.Scatter

/-!
# The identity of experiences

`record` numbers an experience by how many the store retains, and names it after its run and this number.
A store that is full retains as many as before: from then on every experience gets the same number.

* `created_sequence` — the numbers of the experiences that are created.
* `records_after` — a store retains the last of them.
* `identified_iff` — when experiences are told apart, in every state of a store.
-/

namespace Knolo.Experience

open Script Harness Skills Library Library.Fallible

/-! ### Names -/

/-- The name of an experience says its run and its number. -/
theorem experienceId_inj {a b : String} {m n : ℕ} (h : s!"experience/{a}/{m}" = s!"experience/{b}/{n}") : a = b ∧ m = n := by
  have hslash : ∀ k : ℕ, '/' ∉ Nat.toDigits 10 k := fun k hk =>
    absurd (Nat.isDigit_of_mem_toDigits (by decide) (by decide) hk) (by decide)
  have htext : ∀ (t : String) (k : ℕ), s!"experience/{t}/{k}".toList =
      "experience/".toList ++ (t.toList ++ '/' :: Nat.toDigits 10 k) := by
    intro t k
    have hk : (toString k).toList = Nat.toDigits 10 k := Nat.toList_repr
    have ht : (toString t).toList = t.toList := rfl
    simp only [String.toList_append, hk, ht, List.append_assoc]
    rfl
  have hlist := congrArg String.toList h
  rw [htext, htext, List.append_cancel_left_eq] at hlist
  have hreverse : (Nat.toDigits 10 m).reverse ++ ['/'] <+: (b.toList ++ '/' :: Nat.toDigits 10 n).reverse := by
    rw [← hlist]
    simp
  have hdigits : (Nat.toDigits 10 m).reverse = (Nat.toDigits 10 n).reverse :=
    stem_unique (by simpa using hslash m) (by simpa using hslash n) hreverse (by simp)
  have hdigits := List.reverse_injective hdigits
  rw [hdigits, List.append_cancel_right_eq] at hlist
  refine ⟨String.toList_inj.mp hlist, ?_⟩
  rw [← @Nat.ofDigitChars_ten_toDigits m, hdigits, Nat.ofDigitChars_ten_toDigits]

/-! ### What is created -/

section Created

variable (p : Platform)

/-- The experiences that an operation creates. -/
def LocalExperience.creates (s : LocalExperience) : Operation → List ExperienceRecordV1
  | .record input _ =>
    if s.policy.enabled then [experienceRecord p (patternKey p input.task) input (s.records.length + 1)] else []
  | .approve _ => []

/-- The experiences that operations create, in order. -/
def LocalExperience.created (s : LocalExperience) : List Operation → List ExperienceRecordV1
  | [] => []
  | op :: ops => s.creates p op ++ (s.after p [op]).created ops

/-- The runs that are recorded. -/
def recordedRuns (policy : NormalizedPolicy) (ops : List Operation) : List String :=
  if policy.enabled then
    ops.filterMap fun op => match op with
      | .record input _ => some input.runId
      | .approve _ => none
  else []

/-- A lesson is drawn from some of the experiences, and counts them. -/
def Drawn (records : List ExperienceRecordV1) (lesson : LessonCandidateV1) : Prop :=
  ∃ useful : List ExperienceRecordV1, useful.Sublist records ∧ lesson.experienceIds = useful.map (·.id) ∧ lesson.usefulness = useful.length

variable {p} {s : LocalExperience} {op : Operation} {ops : List Operation}

theorem after_cons : s.after p (op :: ops) = (s.after p [op]).after p ops := by
  have hlog : Session.after (perform p) ⟨s, []⟩ op = ⟨(Session.after (perform p) ⟨s, []⟩ op).state, []⟩ :=
    Session.ext rfl (Subsingleton.elim _ _)
  exact congrArg (fun session => (Session.run (perform p) session ops).state) hlog

theorem Drawn.mono {records records' : List ExperienceRecordV1} (hsub : records.Sublist records')
    {lesson : LessonCandidateV1} (h : Drawn records lesson) : Drawn records' lesson := by
  obtain ⟨useful, huseful, hids, hcount⟩ := h
  exact ⟨useful, huseful.trans hsub, hids, hcount⟩

theorem drawn_of_lessonFromUseful {records : List ExperienceRecordV1} {lesson : LessonCandidateV1}
    (h : lessonFromUseful records = some lesson) : Drawn records lesson := by
  unfold lessonFromUseful at h
  split at h
  · cases h
  · rename_i first rest huseful
    cases h
    exact ⟨first :: rest, huseful ▸ List.filter_sublist, rfl, rfl⟩

/-- What an operation does to what is retained, and to the lessons. -/
structure Retains (p : Platform) (s : LocalExperience) (op : Operation) (s' : LocalExperience) : Prop where
  policy : s'.policy = s.policy
  records : s'.records = (s.records ++ s.creates p op).rtake s.policy.maxRecords
  lessons : ∀ e ∈ s'.lessonsByKey, e ∈ s.lessonsByKey ∨ Drawn s'.records e.2

/-- A store retains no more than its policy says. -/
def LocalExperience.Trimmed (s : LocalExperience) : Prop := s.records.length ≤ s.policy.maxRecords

theorem rtake_of_length_le {α : Type} {l : List α} {n : ℕ} (h : l.length ≤ n) : l.rtake n = l := by
  rw [List.rtake, Nat.sub_eq_zero_of_le h, List.drop_zero]

theorem retains_of_eq {s' : LocalExperience} (htrim : s.Trimmed) (hnone : s.creates p op = []) (hpolicy : s'.policy = s.policy)
    (hrecords : s'.records = s.records) (hlessons : s'.lessonsByKey = s.lessonsByKey) : Retains p s op s' where
  policy := hpolicy
  records := by rw [hnone, List.append_nil, rtake_of_length_le htrim, hrecords]
  lessons := fun e he => .inl (hlessons ▸ he)

theorem record_retains (input : RecordExperienceInput) (remember : Except String Unit) (htrim : s.Trimmed) :
    (record p input remember).Sat s fun _ s' _ => Retains p s (.record input remember) s' := by
  unfold record
  refine Method.sat_read_bind.mpr ?_
  by_cases henabled : s.policy.enabled = false
  · rw [if_pos henabled]
    refine Method.sat_pure.mpr (retains_of_eq htrim ?_ rfl rfl rfl)
    exact if_neg (by rw [henabled]; decide)
  rw [if_neg henabled]
  refine Method.sat_modify_bind.mpr ?_
  have hcreates : s.creates p (.record input remember) =
      [experienceRecord p (patternKey p input.task) input (s.records.length + 1)] :=
    if_pos (Bool.eq_true_of_not_eq_false henabled)
  -- the experience is retained, whatever the callback answers
  have hretains : Retains p s (.record input remember)
      (s.addRecord (experienceRecord p (patternKey p input.task) input (s.records.length + 1))) :=
    ⟨rfl, by rw [hcreates]; rfl, fun e he => .inl he⟩
  generalize s.addRecord _ = s₁ at hretains ⊢
  refine Method.Sat.ofExcept_bind (fun _ _ => ?_) fun e _ => hretains
  refine Method.sat_read_bind.mpr ?_
  cases hlesson : lessonFromUseful (s₁.records.filter (·.patternKey = patternKey p input.task)) with
  | none => exact Method.sat_pure.mpr hretains
  | some lesson =>
    have hdrawn : Drawn s₁.records lesson := (drawn_of_lessonFromUseful hlesson).mono List.filter_sublist
    refine Method.sat_modify_bind.mpr ?_
    have hretains₂ : Retains p s (.record input remember) (s₁.setLesson (patternKey p input.task) lesson) := by
      refine ⟨hretains.policy, hretains.records, fun e he => ?_⟩
      rcases mem_setProperty he with hold | rfl
      · exact hretains.lessons e hold
      · exact .inr hdrawn
    by_cases hpromote : s₁.policy.promote = .disabled
    · rw [if_pos hpromote]
      exact Method.sat_pure.mpr hretains₂
    · rw [if_neg hpromote]
      refine Method.Sat.bind (syncCandidate_sat _ lesson) ?_ ?_
      · rintro c s' l ⟨c', skills, -, rfl⟩
        exact Method.sat_pure.mpr ⟨hretains₂.policy, hretains₂.records, hretains₂.lessons⟩
      · rintro e s' l ⟨c', skills, -, rfl⟩
        exact ⟨hretains₂.policy, hretains₂.records, hretains₂.lessons⟩

theorem approve_retains (id : String) (htrim : s.Trimmed) :
    (approve p id).Sat s fun _ s' _ => Retains p s (.approve id) s' := by
  unfold approve
  refine Method.sat_modify_bind.mpr (Method.sat_read_bind.mpr ?_)
  cases ((s.addApproval id).lessonsByKey.map Prod.snd).find? (·.id = id) with
  | none => exact Method.sat_pure.mpr (retains_of_eq htrim rfl rfl rfl rfl)
  | some lesson =>
    refine Method.Sat.bind (syncCandidate_sat _ lesson) ?_ ?_
    · rintro c s' l ⟨c', skills, -, rfl⟩
      exact Method.sat_pure.mpr (retains_of_eq htrim rfl rfl rfl rfl)
    · rintro e s' l ⟨c', skills, -, rfl⟩
      exact retains_of_eq htrim rfl rfl rfl rfl

/-- One operation. -/
theorem retains_after (htrim : s.Trimmed) (op : Operation) : Retains p s op (s.after p [op]) := by
  have hstep : (perform p op).Sat s fun _ s' _ => Retains p s op s' := by
    cases op with
    | record input remember =>
      refine Method.Sat.bind (record_retains input remember htrim) ?_ ?_
      · exact fun _ _ _ h => Method.sat_pure.mpr h
      · exact fun _ _ _ h => h
    | approve id =>
      refine Method.Sat.bind (approve_retains id htrim) ?_ ?_
      · exact fun _ _ _ h => Method.sat_pure.mpr h
      · exact fun _ _ _ h => h
  exact Session.after_of_sat_of_isEmpty (s := ⟨s, []⟩) (T := fun s' _ => Retains p s op s') hstep

theorem Retains.trimmed {s' : LocalExperience} (h : Retains p s op s') : s'.Trimmed := by
  rw [LocalExperience.Trimmed, h.records, h.policy, List.rtake, List.length_drop]
  omega

/-! ### Runs -/

/-- **A store retains the last experiences that were created**, and its lessons are drawn from them. -/
theorem records_after (ops : List Operation) : ∀ {s : LocalExperience} {earlier : List ExperienceRecordV1}, s.Trimmed →
    s.records = earlier.rtake s.policy.maxRecords → (∀ e ∈ s.lessonsByKey, Drawn earlier e.2) →
    (s.after p ops).policy = s.policy ∧
      (s.after p ops).records = (earlier ++ s.created p ops).rtake s.policy.maxRecords ∧
        ∀ e ∈ (s.after p ops).lessonsByKey, Drawn (earlier ++ s.created p ops) e.2 := by
  induction ops with
  | nil =>
    intro s earlier _ hrecords hlessons
    rw [LocalExperience.created, List.append_nil]
    exact ⟨rfl, hrecords, hlessons⟩
  | cons op ops ih =>
    intro s earlier htrim hrecords hlessons
    have hone := retains_after (p := p) htrim op
    have hrecords' : (s.after p [op]).records = (earlier ++ s.creates p op).rtake (s.after p [op]).policy.maxRecords := by
      rw [hone.records, hrecords, hone.policy, rtake_rtake_append]
    have hlessons' : ∀ e ∈ (s.after p [op]).lessonsByKey, Drawn (earlier ++ s.creates p op) e.2 := by
      intro e he
      rcases hone.lessons e he with hold | hnew
      · exact (hlessons e hold).mono (List.sublist_append_left _ _)
      · rw [hrecords'] at hnew
        exact hnew.mono (List.drop_sublist _ _)
    obtain ⟨hpolicy, hr, hl⟩ := ih hone.trimmed hrecords' hlessons'
    rw [after_cons, LocalExperience.created, ← List.append_assoc]
    exact ⟨hpolicy.trans hone.policy, by rw [hr, hone.policy], hl⟩

/-- The number of an experience: one more than how many were retained. -/
def sequenceOf (m k : ℕ) : ℕ := min k m + 1

theorem recordedRuns_cons_record {policy : NormalizedPolicy} (henabled : policy.enabled = true) (input : RecordExperienceInput)
    (remember : Except String Unit) (ops : List Operation) :
    recordedRuns policy (.record input remember :: ops) = input.runId :: recordedRuns policy ops := by
  simp [recordedRuns, henabled]

theorem recordedRuns_cons_approve {policy : NormalizedPolicy} (id : String) (ops : List Operation) :
    recordedRuns policy (.approve id :: ops) = recordedRuns policy ops := by
  simp [recordedRuns]

/-- **The names of the experiences that are created**: the run, and a number that stays the same when the
store is full. -/
theorem created_sequence (ops : List Operation) : ∀ {s : LocalExperience} (k : ℕ), s.Trimmed →
    s.records.length = min k s.policy.maxRecords →
    (s.created p ops).map (fun r => (r.runId, r.sequence)) =
      (recordedRuns s.policy ops).zip
        ((List.range' k (recordedRuns s.policy ops).length).map (sequenceOf s.policy.maxRecords)) := by
  induction ops with
  | nil => intro s k _ _; simp [LocalExperience.created, recordedRuns]
  | cons op ops ih =>
    intro s k htrim hlength
    have hone := retains_after (p := p) htrim op
    rw [LocalExperience.created, List.map_append]
    by_cases henabled : s.policy.enabled = true
    · cases op with
      | approve id =>
        have hlength' : (s.after p [.approve id]).records.length = min k (s.after p [.approve id]).policy.maxRecords := by
          rw [hone.records, hone.policy, LocalExperience.creates, List.append_nil, rtake_of_length_le htrim, hlength]
        rw [ih k hone.trimmed hlength', hone.policy, recordedRuns_cons_approve]
        rfl
      | record input remember =>
        have hcreates : s.creates p (.record input remember) =
            [experienceRecord p (patternKey p input.task) input (s.records.length + 1)] := if_pos henabled
        have hlength' : (s.after p [.record input remember]).records.length =
            min (k + 1) (s.after p [.record input remember]).policy.maxRecords := by
          rw [hone.records, hone.policy, hcreates, List.rtake, List.length_drop, List.length_append, hlength,
            List.length_singleton]
          have := s.policy.maxRecords.pos
          omega
        rw [ih (k + 1) hone.trimmed hlength', hone.policy, recordedRuns_cons_record henabled, List.length_cons,
          List.range'_succ, List.map_cons, List.zip_cons_cons, hcreates, List.map_singleton, List.singleton_append]
        simp only [experienceRecord, sequenceOf, hlength]
    · have hnone : s.creates p op = [] := by
        cases op with
        | approve id => rfl
        | record input remember => exact if_neg henabled
      have hlength' : (s.after p [op]).records.length = min k (s.after p [op]).policy.maxRecords := by
        rw [hone.records, hone.policy, hnone, List.append_nil, rtake_of_length_le htrim, hlength]
      have hruns : ∀ ops, recordedRuns s.policy ops = [] := fun ops => if_neg henabled
      rw [ih k hone.trimmed hlength', hone.policy, hruns, hruns, hnone]
      rfl

/-- The name of an experience. -/
theorem created_id (ops : List Operation) : ∀ {s : LocalExperience}, ∀ r ∈ s.created p ops,
    r.id = s!"experience/{r.runId}/{r.sequence}" := by
  induction ops with
  | nil => intro s r hr; cases hr
  | cons op ops ih =>
    intro s r hr
    rcases List.mem_append.mp hr with hr | hr
    · cases op with
      | approve id => cases hr
      | record input remember =>
        simp only [LocalExperience.creates] at hr
        split_ifs at hr with henabled
        · rw [List.mem_singleton.mp hr]
          rfl
        · cases hr
    · exact ih r hr

/-- Experiences have different names when their runs or their numbers differ. -/
theorem nodup_id_iff {records : List ExperienceRecordV1} (hid : ∀ r ∈ records, r.id = s!"experience/{r.runId}/{r.sequence}") :
    (records.map (·.id)).Nodup ↔ (records.map fun r => (r.runId, r.sequence)).Nodup := by
  have hmap : records.map (·.id) = (records.map fun r => (r.runId, r.sequence)).map fun n => s!"experience/{n.1}/{n.2}" := by
    rw [List.map_map]
    exact List.map_congr_left hid
  rw [hmap]
  constructor
  · exact List.Nodup.of_map _
  · intro h
    refine h.map fun a b hab => ?_
    obtain ⟨hrun, hsequence⟩ := experienceId_inj hab
    exact Prod.ext hrun hsequence

end Created

/-! ### Telling experiences apart -/

/-- Experiences are told apart in a state: what is retained has increasing numbers, no two experiences that
were ever created have one name, and a lesson names different experiences and counts them. -/
structure Identified (p : Platform) (store : LocalExperience) (ops : List Operation) : Prop where
  increasing : ((store.after p ops).records.map (·.sequence)).Pairwise (· < ·)
  distinct : ((store.created p ops).map (·.id)).Nodup
  lessons : ∀ e ∈ (store.after p ops).lessonsByKey, e.2.experienceIds.Nodup ∧
    e.2.usefulness = e.2.experienceIds.length ∧ ∀ id ∈ e.2.experienceIds, ∃ r ∈ store.created p ops, r.id = id

/-- The runs for which experiences are told apart: no more than a store retains, and one; or, where it
retains one, runs that differ from the second on. -/
def Distinguishable (m : ℕ) (runs : List String) : Prop := runs.length ≤ m + 1 ∨ (m = 1 ∧ runs.tail.Nodup)

section Numbers

variable {m : ℕ} {runs : List String}

theorem sequences_increasing (h : runs.length ≤ m + 1) :
    ((List.range' 0 runs.length).map (sequenceOf m)).Pairwise (· < ·) := by
  rw [List.pairwise_map]
  refine List.Pairwise.imp_of_mem (fun {a b} ha hb hab => ?_) List.pairwise_lt_range'
  have ha := List.mem_range'_1.mp ha
  have hb := List.mem_range'_1.mp hb
  unfold sequenceOf
  omega

/-- Runs that are numbered differently have different names. -/
theorem nodup_zip {numbers : List ℕ} (hlength : numbers.length ≤ runs.length) (h : numbers.Nodup) : (runs.zip numbers).Nodup := by
  refine List.Nodup.of_map Prod.snd ?_
  rw [List.map_snd_zip hlength]
  exact h

/-- Where one experience is retained, all but the first have number two. -/
theorem sequences_one (n : ℕ) : (List.range' 1 n).map (sequenceOf 1) = List.replicate n 2 := by
  refine List.eq_replicate_iff.mpr ⟨by simp, fun k hk => ?_⟩
  obtain ⟨i, hi, rfl⟩ := List.mem_map.mp hk
  have hi := List.mem_range'_1.mp hi
  unfold sequenceOf
  omega

theorem nodup_names_one : (runs.zip ((List.range' 0 runs.length).map (sequenceOf 1))).Nodup ↔ runs.tail.Nodup := by
  cases runs with
  | nil => simp
  | cons first rest =>
    have hzip : ∀ l : List String, l.zip (List.replicate l.length 2) = l.map fun r => (r, 2) := by
      intro l
      induction l with
      | nil => rfl
      | cons r l ih => rw [List.length_cons, List.replicate_succ, List.zip_cons_cons, ih, List.map_cons]
    rw [List.length_cons, List.range'_succ, List.map_cons, List.zip_cons_cons, sequences_one, hzip, List.nodup_cons,
      List.tail_cons, List.nodup_map_iff fun a b hab => congrArg Prod.fst hab]
    refine and_iff_right fun hmem => ?_
    obtain ⟨r, -, hr⟩ := List.mem_map.mp hmem
    exact absurd (congrArg Prod.snd hr) (by simp [sequenceOf])

/-- Too many runs: the last two that a store retains have the same number. -/
theorem sequences_not_increasing (hm : 2 ≤ m) (h : m + 2 ≤ runs.length) :
    ¬(((List.range' 0 runs.length).map (sequenceOf m)).rtake m).Pairwise (· < ·) := by
  intro hincreasing
  have hlength : (((List.range' 0 runs.length).map (sequenceOf m)).rtake m).length = m := by
    rw [List.rtake, List.length_drop, List.length_map, List.length_range']
    omega
  have hlast := List.pairwise_iff_getElem.mp hincreasing (m - 2) (m - 1) (by omega) (by omega) (by omega)
  simp only [List.rtake, List.getElem_drop, List.getElem_map, List.getElem_range', List.length_map, List.length_range',
    sequenceOf] at hlast
  omega

end Numbers

/-- Runs that can be told apart can be from the start. -/
theorem Distinguishable.of_prefix {m : ℕ} {runs runs' : List String} (h : Distinguishable m runs) (hpre : runs' <+: runs) :
    Distinguishable m runs' := by
  rcases h with hfew | ⟨hm, hnodup⟩
  · exact .inl (hpre.length_le.trans hfew)
  · exact .inr ⟨hm, hnodup.sublist (List.Sublist.tail hpre.sublist)⟩

theorem recordedRuns_mono {policy : NormalizedPolicy} {pre ops : List Operation} (h : pre <+: ops) :
    recordedRuns policy pre <+: recordedRuns policy ops := by
  unfold recordedRuns
  split
  · exact h.filterMap _
  · exact List.prefix_rfl

/-- A store that retains two experiences. -/
def twoRetained : LocalExperience where
  policy := { enabled := true, promote := .requireApproval, minUsefulness := Nat.succPNat 1, maxRecords := Nat.succPNat 1 }
  authorityCapabilities := []

section Identity

variable {p : Platform} {options : ExperiencePolicyV1} {authorityCapabilities : List String} {memoryOn : Bool}
  {store : LocalExperience}

theorem localExperience_new (hnew : localExperience options authorityCapabilities memoryOn = .ok store) :
    store.records = [] ∧ store.lessonsByKey = [] := by
  obtain ⟨policy, -, hstore⟩ := bind_eq_ok.mp hnew
  cases hstore
  exact ⟨rfl, rfl⟩

/-- Experiences are told apart in one state of a store. -/
theorem identified_after_iff (hnew : localExperience options authorityCapabilities memoryOn = .ok store) (ops : List Operation) :
    Identified p store ops ↔ Distinguishable store.policy.maxRecords (recordedRuns store.policy ops) := by
  obtain ⟨hnone, hnolessons⟩ := localExperience_new hnew
  set m : ℕ := (store.policy.maxRecords : ℕ) with hm
  have hpos : 0 < m := store.policy.maxRecords.pos
  have htrim : store.Trimmed := by
    rw [LocalExperience.Trimmed, hnone]
    exact Nat.zero_le _
  have hrtake : store.records = ([] : List ExperienceRecordV1).rtake store.policy.maxRecords := by
    rw [hnone, List.rtake_nil]
  obtain ⟨-, hrecords, hlessons⟩ := records_after (p := p) ops htrim hrtake fun e he => by
    rw [hnolessons] at he
    cases he
  rw [List.nil_append] at hrecords hlessons
  have hnames := created_sequence (p := p) ops 0 htrim (by rw [hnone]; simp)
  have hnumbers : (store.created p ops).map (·.sequence) =
      (List.range' 0 (recordedRuns store.policy ops).length).map (sequenceOf m) := by
    have hsnd := congrArg (List.map Prod.snd) hnames
    rwa [List.map_map, List.map_snd_zip (by simp)] at hsnd
  have hretained : (store.after p ops).records.map (·.sequence) =
      ((List.range' 0 (recordedRuns store.policy ops).length).map (sequenceOf m)).rtake m := by
    rw [hrecords, ← hnumbers, List.rtake, List.rtake, List.map_drop, List.length_map]
  have hdistinct := nodup_id_iff (created_id (p := p) (s := store) ops)
  rw [hnames] at hdistinct
  generalize recordedRuns store.policy ops = runs at *
  constructor
  · intro h
    by_cases hfew : runs.length ≤ m + 1
    · exact .inl hfew
    · have hincreasing := h.increasing
      rw [hretained] at hincreasing
      have hone : m = 1 := by
        by_contra hmany
        exact sequences_not_increasing (by omega) (by omega) hincreasing
      have hnodup := hdistinct.mp h.distinct
      rw [← hm, hone] at hnodup
      exact .inr ⟨hone, nodup_names_one.mp hnodup⟩
  · intro h
    have hnodup : ((store.created p ops).map (·.id)).Nodup := by
      refine hdistinct.mpr ?_
      rcases h with hfew | ⟨hone, htail⟩
      · refine nodup_zip (by simp) ?_
        exact (sequences_increasing hfew).imp fun hlt => hlt.ne
      · rw [← hm, hone]
        exact nodup_names_one.mpr htail
    refine ⟨?_, hnodup, fun e he => ?_⟩
    · rw [hretained]
      rcases h with hfew | ⟨hone, -⟩
      · exact (sequences_increasing hfew).sublist (List.drop_sublist _ _)
      · have hlength : (((List.range' 0 runs.length).map (sequenceOf m)).rtake m).length ≤ 1 := by
          rw [List.rtake, List.length_drop]
          omega
        exact List.pairwise_iff_getElem.mpr fun i j hi hj hij => by omega
    · obtain ⟨useful, huseful, hids, hcount⟩ := hlessons e he
      have hsub : e.2.experienceIds.Sublist ((store.created p ops).map (·.id)) := by
        rw [hids]
        exact huseful.map _
      refine ⟨hnodup.sublist hsub, by rw [hids, List.length_map, hcount], fun id hid => ?_⟩
      exact List.mem_map.mp (hsub.subset hid)

/-- **Experiences are told apart in every state of a store exactly when no more runs are recorded than it
retains, and one; or, where it retains one, when the runs differ from the second on.** -/
theorem identified_iff (hnew : localExperience options authorityCapabilities memoryOn = .ok store) (ops : List Operation) :
    (∀ pre, pre <+: ops → Identified p store pre) ↔
      Distinguishable store.policy.maxRecords (recordedRuns store.policy ops) := by
  constructor
  · intro h
    exact (identified_after_iff hnew ops).mp (h ops List.prefix_rfl)
  · intro h pre hpre
    exact (identified_after_iff hnew pre).mpr (h.of_prefix (recordedRuns_mono hpre))

/-- Three runs of one name, in a store that retains two experiences. -/
theorem identified_three :
    (∀ pre, pre <+: [usefulRun "a", usefulRun "a", usefulRun "a"] → Identified taskPlatform twoRetained pre) ↔
      Distinguishable 2 ["a", "a", "a"] :=
  @identified_iff taskPlatform { maxRecords := some (.finite 2) } [] true twoRetained rfl _

/-- The fourth run takes the name of the third, and the lesson counts one name twice. -/
theorem identity_lost : localExperience { maxRecords := some (.finite 2) } [] true = .ok twoRetained ∧
    ¬Identified taskPlatform twoRetained [usefulRun "a", usefulRun "a", usefulRun "a", usefulRun "a"] ∧
    (twoRetained.after taskPlatform [usefulRun "a", usefulRun "a", usefulRun "a", usefulRun "a"]).lessonsByKey.map
      (fun e => (e.2.experienceIds, e.2.usefulness)) = [(["experience/a/3", "experience/a/3"], 2)] := by
  refine ⟨rfl, fun h => absurd h.distinct ?_, ?_⟩
  · decide +kernel
  · decide +kernel

end Identity

end Knolo.Experience
