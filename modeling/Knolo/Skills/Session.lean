import Knolo.Library.Sharing
import Knolo.Skills.Acquire

/-!
# Skills in a session

`packages/agents/src/harness/session.ts`, up to the compiled context: a run of a harness resolves its
skills, freezes its dependencies, acquires packs for later runs and compiles its context. The runs of
one session share the packs that were acquired. They may overlap: every call of a run may come
between any two calls of another (`Session`).

* `run_sat` — what one run does, whatever it is answered.
* `pulls_justified` — when and what the runs of a session pull.
* `skills_authorized` — where the skills of a compiled context come from.
-/

namespace Knolo.Skills

open Script Harness Library Library.Fallible Library.Traverse

/-! ### The code -/

/-- What a session is created with. -/
structure SessionOptions where
  task : TaskV1
  authority : Option JsValue := none
  skills : HarnessSkillsInput := .absent
  /-- Is there a registry? -/
  registry : Bool := false
  /-- Is there a learner? -/
  learner : Bool := false
  evidence : Option EvidenceOption := none
  memories : List MemoryOption := []
  contextBudget : Option ContextBudgetV1 := none
  semanticRerank : Bool := false

/-- The skills of a run: items, the receipt, and the options they were resolved with. -/
structure HarnessSkills where
  items : List SkillItemV1 := []
  receipt : Option SkillSelectionReceiptV1 := none
  options : Option SkillResolutionOptions := none

variable (p : Platform) (o : SessionOptions)

/-- What a run may use, with what its adapter can do. -/
def SessionOptions.effectiveAuthority (agent : AgentCapabilitiesV1) : EffectiveAuthorityV1 :=
  intersectAuthority (parseAuthorityGrant o.authority) (some agent) none none

/-- The message where there is no registry. -/
def noRegistry : String := "skill registry is not configured; Hub acquisition requires PackRegistryCapabilityV1"

/-- The skills that are promoted and not in the index. -/
def fresh (index : CapabilityIndex) (promoted : List JsValue) : Except String (List JsValue) :=
  promoted.filterM fun skill => do return (index.entry (← property skill "id")).isNone

/-- Promoted skills are added, as a pack. -/
def addPromoted (index : CapabilityIndex) (promoted : List JsValue) : Except String CapabilityIndex := do
  match ← fresh index promoted with
  | [] => return index
  | skill :: skills =>
    let id := text p.toLanguage (← property skill "id")
    index.tryAdd p {
      packId := if index.hasPack "local-experience" then s!"local-experience/{id}" else "local-experience"
      role := .skill, capabilities := [], tools := [], namespaces := [], skills := skill :: skills }

/-- The index of a run: what is configured and what was acquired. -/
def sessionIndex (options : SkillResolutionOptions) (acquired : List CapabilityMetadataV1) :
    Except String CapabilityIndex := do
  acquired.foldlM (·.tryAdd p ·) (← indexFromOptions p options)

/-- `resolveHarnessSkills`. -/
def resolveHarnessSkills (acquired : List CapabilityMetadataV1) (promoted : List JsValue) : SessionM HarnessSkills := do
  let parsed ← Prog.ofExcept (parseHarnessSkills o.skills)
  match parsed.passthrough with
  | some items => return { items := items }
  | none =>
    if parsed.options.isNone ∧ promoted.isEmpty then return {}
    else
      let options := parsed.options.getD { resolution := some .local, registry := some (.mode .disabled) }
      let trust := normalizeTrust (some options)
      let resolution := options.resolution.getD .local
      Prog.ofExcept (ensure (¬ (resolution = .auto ∧ trust.registry ≠ .disabled ∧ o.registry = false)) noRegistry)
      let index ← Prog.ofExcept (do addPromoted p (← sessionIndex p options acquired) promoted)
      let agent ← Prog.ask SessionCall.capabilities
      let resolved ← Prog.ofExcept (resolveSkills p o.task index (o.effectiveAuthority agent) trust resolution)
      return { items := resolved.items, receipt := some resolved.receipt, options := some options }

/-- `maybeAcquireSkills`: the packs. -/
def maybeAcquireSkills (resolved : HarnessSkills) : SessionM (List CapabilityMetadataV1) :=
  let trust := normalizeTrust resolved.options
  let resolution := (resolved.options.bind (·.resolution)).getD .local
  if resolution ≠ .auto ∨ trust.registry = .disabled then return []
  else do
    Prog.ofExcept (ensure (o.registry = true) noRegistry)
    let acquired ← Prog.ask SessionCall.acquiredPacks
    let index ← Prog.ofExcept (sessionIndex p (resolved.options.getD {}) acquired)
    let agent ← Prog.ask SessionCall.capabilities
    let (_, packs) ← acquireSkills p {
      task := o.task, index := index, authority := o.effectiveAuthority agent, trust := trust
      selected := (resolved.receipt.map (·.selected)).getD [] }
    return packs

/-- The skills that the learner has promoted. -/
def promotedSkills : SessionM (List JsValue) :=
  match o.learner with
  | true => Prog.ask SessionCall.promoted
  | false => return []

/-- The packs are kept for later runs. -/
def recordPacks : List CapabilityMetadataV1 → SessionM Unit
  | [] => return ()
  | packs => Prog.ask (SessionCall.record packs)

/-- `run`, from its resolved skills to the compiled context. -/
def HarnessSession.compileWith (resolved : HarnessSkills) : SessionM ContextEnvelopeV1 := do
  let root ← perform (.freeze ((resolved.receipt.map (·.selected)).getD [])) rfl
  let packs ← maybeAcquireSkills p o resolved
  recordPacks packs
  let agent ← Prog.ask SessionCall.capabilities
  perform (.hook .beforeRun) rfl
  perform (.hook .beforeContext) rfl
  compileContext p {
    task := o.task, capabilities := agent, dependencyRoot := root, evidence := o.evidence, memories := o.memories
    skills := resolved.items, contextBudget := o.contextBudget, semanticRerank := o.semanticRerank }

/-- `run`, to the compiled context. -/
def HarnessSession.compile : SessionM ContextEnvelopeV1 := do
  perform .activateStaged rfl
  let promoted ← promotedSkills o
  let acquired ← Prog.ask SessionCall.acquiredPacks
  HarnessSession.compileWith p o (← resolveHarnessSkills p o acquired promoted)

/-- How a session answers its runs: with the packs it has, to which those that a run records are
added. Everything else is answered in any way. -/
inductive SessionAnswers : (c : SessionCall) → List CapabilityMetadataV1 → c.Answer → List CapabilityMetadataV1 → Prop
  | acquiredPacks {acquired : List CapabilityMetadataV1} : SessionAnswers .acquiredPacks acquired acquired acquired
  | record {packs acquired : List CapabilityMetadataV1} :
      SessionAnswers (.record packs) acquired () (acquired ++ packs)
  | other {c : SessionCall} {acquired : List CapabilityMetadataV1} {r : c.Answer} :
      c ≠ .acquiredPacks → (∀ packs, c ≠ .record packs) → SessionAnswers c acquired r acquired

/-- The runs of a session, numbered, have made the calls of the log, and the session has the packs. -/
def Session : List (ℕ × Answered SessionCall SessionCall.Answer) → List CapabilityMetadataV1 → Prop :=
  Shared (fun _ => HarnessSession.compile p o) SessionAnswers []

/-! ### Where skills come from -/

/-- The skill is in the index that is configured. -/
def Configured (v : JsValue) : Prop :=
  ∃ options index, parseHarnessSkills o.skills = .ok { options := some options } ∧
    indexFromOptions p options = .ok index ∧ ∃ e ∈ index.bySkillId, e.2.skill = v

/-- The skill is configured, promoted or acquired. -/
def Origin (acquired : List CapabilityMetadataV1) (promoted : List JsValue) (v : JsValue) : Prop :=
  Configured p o v ∨ v ∈ promoted ∨ ∃ m ∈ acquired, v ∈ m.skills

/-- The item is of a well-formed skill that the adapter's authority covers. -/
def Authorized (agent : AgentCapabilitiesV1) (v : JsValue) (id instructions : String) : Prop :=
  ∃ skill, normalizeSkillDefinition p v = .ok skill ∧ authorized skill (o.effectiveAuthority agent) = true ∧
    id = skill.id ∧ instructions = skill.instructions

/-- Packs may be pulled, and this one. -/
def MayPull (hit : PackSearchHitV1) : Prop :=
  ∃ options, parseHarnessSkills o.skills = .ok { options := some options } ∧ options.resolution = some .auto ∧
    Allowed (normalizeTrust (some options)) hit

variable {p o} {P : JsValue → Prop} {index index' : CapabilityIndex} {acquired : List CapabilityMetadataV1}
  {promoted : List JsValue} {options : SkillResolutionOptions}

theorem addPromoted_within (h : index.Within P) (hp : ∀ v ∈ promoted, P v)
    (hadd : addPromoted p index promoted = .ok index') : index'.Within P := by
  obtain ⟨skills, hskills, hadd⟩ := bind_eq_ok.mp hadd
  cases skills with
  | nil =>
    cases hadd
    exact h
  | cons skill skills =>
    obtain ⟨id, -, hadd⟩ := bind_eq_ok.mp hadd
    exact CapabilityIndex.tryAdd_within h (fun v hv => hp v ((mem_filterM hskills v).mp hv).1) hadd

theorem sessionIndex_within (hc : ∀ index, indexFromOptions p options = .ok index → index.Within P)
    (hm : ∀ m ∈ acquired, ∀ v ∈ m.skills, P v) (h : sessionIndex p options acquired = .ok index') : index'.Within P := by
  obtain ⟨index, hindex, h⟩ := bind_eq_ok.mp h
  exact foldlM_keeps (fun m hmem i i' hi hadd => CapabilityIndex.tryAdd_within hi (hm m hmem) hadd) (hc index hindex) h

/-- What is parsed is passed through, or has options, or neither. -/
theorem parsed_cases {input : HarnessSkillsInput} {parsed : ParsedSkills} (h : parseHarnessSkills input = .ok parsed) :
    (∃ items, parsed = { passthrough := some items }) ∨ (∃ options, parsed = { options := some options }) ∨ parsed = {} := by
  unfold parseHarnessSkills at h
  split at h
  · cases h
    exact .inr (.inr rfl)
  · cases h
    exact .inl ⟨_, rfl⟩
  · split at h
    · cases h
      exact .inr (.inl ⟨_, rfl⟩)
    · split at h
      · cases h
        exact .inl ⟨_, rfl⟩
      · cases h
  · cases h
    exact .inr (.inl ⟨_, rfl⟩)
  · cases h

/-- The options of a run are those that are configured, or the default ones. -/
theorem index_origin {parsed : ParsedSkills} (hparsed : parseHarnessSkills o.skills = .ok parsed)
    (hnone : parsed.passthrough = none)
    (h : (do addPromoted p (← sessionIndex p
      (parsed.options.getD { resolution := some .local, registry := some (.mode .disabled) }) acquired) promoted) =
        .ok index) : index.Within (Origin p o acquired promoted) := by
  obtain ⟨base, hbase, h⟩ := bind_eq_ok.mp h
  refine addPromoted_within (sessionIndex_within (fun index hindex => ?_) (fun m hm v hv => .inr (.inr ⟨m, hm, hv⟩)) hbase)
    (fun v hv => .inr (.inl hv)) h
  rcases parsed_cases hparsed with ⟨items, rfl⟩ | ⟨options, rfl⟩ | rfl
  · cases hnone
  · exact fun e he => .inl ⟨options, index, hparsed, hindex, e, he, rfl⟩
  · cases hindex
    exact CapabilityIndex.within_empty

/-! ### One run -/

/-- What a run has resolved: items that are passed through, or skills that are allowed. -/
structure Resolution (p : Platform) (o : SessionOptions) (acquired : List CapabilityMetadataV1)
    (promoted : List JsValue) (tr : Calls) (resolved : HarnessSkills) : Prop where
  items : parseHarnessSkills o.skills = .ok { passthrough := some resolved.items } ∨
    ∀ item ∈ resolved.items, ∃ v agent, Origin p o acquired promoted v ∧
      ⟨.capabilities, agent⟩ ∈ tr ∧ Authorized p o agent v item.id item.text
  options : ∀ options, resolved.options = some options → options.resolution = some .auto →
    parseHarnessSkills o.skills = .ok { options := some options }

variable {pre : Calls} {A : PackSearchHitV1 → Prop}

theorem resolveHarnessSkills_careful :
    Careful p (MayPull o) 0 pre (resolveHarnessSkills p o acquired promoted) (Resolution p o acquired promoted) := by
  unfold resolveHarnessSkills
  refine Careful.ofExcept_bind fun parsed hparsed => ?_
  split
  · rename_i items hitems
    refine Careful.ret ?_
    rcases parsed_cases hparsed with ⟨items', rfl⟩ | ⟨options, rfl⟩ | rfl
    · cases hitems
      exact ⟨.inl hparsed, by rintro _ ⟨⟩⟩
    · cases hitems
    · cases hitems
  rename_i hnone
  split
  · exact Careful.ret ⟨.inr (by simp), by rintro _ ⟨⟩⟩
  dsimp only
  refine Careful.ofExcept_bind fun _ _ => ?_
  refine Careful.ofExcept_bind fun index hindex => ?_
  refine Careful.ask_bind rfl (fun _ => trivial) fun agent => ?_
  refine Careful.ofExcept_bind fun found hfound => ?_
  refine Careful.ret ⟨.inr fun item hitem => ?_, fun options hoptions hauto => ?_⟩
  · obtain ⟨v, skill, hv, hskill, hauth, hid, htext⟩ :=
      resolveSkills_items (index_origin hparsed hnone hindex) hfound item hitem
    exact ⟨v, agent, hv, List.mem_append_right _ (.head _), skill, hskill, hauth, hid, htext⟩
  · rcases parsed_cases hparsed with ⟨items, rfl⟩ | ⟨options', rfl⟩ | rfl
    · cases hnone
    · cases hoptions
      exact hparsed
    · cases hoptions
      cases hauto

theorem maybeAcquireSkills_careful {resolved : HarnessSkills}
    (hresolved : ∀ options, resolved.options = some options → options.resolution = some .auto →
      parseHarnessSkills o.skills = .ok { options := some options }) :
    Careful p (MayPull o) maxPulls pre (maybeAcquireSkills p o resolved) fun tr packs => ∀ m ∈ packs, Pulled p tr m := by
  unfold maybeAcquireSkills
  dsimp only
  split
  · exact Careful.ret (by simp)
  rename_i hgo
  obtain ⟨options, hoptions, hauto⟩ : ∃ options, resolved.options = some options ∧ options.resolution = some .auto := by
    cases hopt : resolved.options with
    | none => simp [hopt] at hgo
    | some options =>
      refine ⟨options, rfl, ?_⟩
      cases hres : options.resolution with
      | none => simp [hopt, hres] at hgo
      | some mode =>
        simp only [hopt, hres, Option.bind_some, Option.getD_some, not_or, not_not] at hgo
        rw [hgo.1]
  have hmay : ∀ hit, Allowed (normalizeTrust resolved.options) hit → MayPull o hit := fun hit h =>
    ⟨options, hresolved options hoptions hauto, hauto, hoptions ▸ h⟩
  refine Careful.ofExcept_bind fun _ _ => Careful.ask_bind rfl (fun _ => trivial) fun acquired => ?_
  refine Careful.ofExcept_bind fun index _ => Careful.ask_bind rfl (fun _ => trivial) fun agent => ?_
  exact (acquireSkills_careful.weaken hmay).bind (k := 0) fun tr x hx => Careful.ret hx

theorem recordPacks_careful {packs : List CapabilityMetadataV1} (h : ∀ m ∈ packs, Pulled p pre m) :
    Careful p (MayPull o) 0 pre (recordPacks packs) fun _ _ => True := by
  cases packs with
  | nil => exact Careful.ret trivial
  | cons m packs => exact Careful.ask_bind rfl (fun _ => h) fun _ => Careful.ret trivial

/-- What a run does with its resolved skills, and what its context has. -/
theorem compileWith_careful {resolved : HarnessSkills}
    (hresolved : ∀ options, resolved.options = some options → options.resolution = some .auto →
      parseHarnessSkills o.skills = .ok { options := some options }) :
    Careful p (MayPull o) maxPulls pre (HarnessSession.compileWith p o resolved) fun _ envelope =>
      ∀ item ∈ envelope.skills, ∃ skill ∈ resolved.items, item.id = skill.id ∧ item.text = skill.text := by
  refine (Careful.of_only (only_perform rfl rfl)).bind (n := 0) (k := maxPulls) fun tr root _ => ?_
  refine (maybeAcquireSkills_careful hresolved).bind (k := 0) fun tr packs hpacks => ?_
  refine (recordPacks_careful hpacks).bind (k := 0) fun tr _ _ => ?_
  refine Careful.ask_bind rfl (fun _ => trivial) fun agent => ?_
  refine (Careful.of_only (only_perform rfl rfl)).bind (k := 0) fun tr _ _ => ?_
  refine (Careful.of_only (only_perform rfl rfl)).bind (k := 0) fun tr _ _ => ?_
  exact (Careful.of_only compileContext_skills).imp fun _ _ _ h => h.2

/-- How the context of a run comes about: the run has read the packs of the session before it could
pull any, and its skills are given items, or allowed. -/
def Compiled (p : Platform) (o : SessionOptions) (tr : Calls) (envelope : ContextEnvelopeV1) : Prop :=
  ∃ before acquired after, tr = before ++ ⟨.acquiredPacks, acquired⟩ :: after ∧ (∀ c ∈ before, c.1.quiet = true) ∧
    ((∃ items, parseHarnessSkills o.skills = .ok { passthrough := some items } ∧
        ∀ item ∈ envelope.skills, ∃ skill ∈ items, item.id = skill.id ∧ item.text = skill.text) ∨
      ∃ promoted, (promoted = [] ∨ ⟨.promoted, promoted⟩ ∈ before) ∧
        ∀ item ∈ envelope.skills, ∃ v agent, Origin p o acquired promoted v ∧
          ⟨.capabilities, agent⟩ ∈ tr ∧ Authorized p o agent v item.id item.text)

theorem promotedSkills_careful : Careful p A 0 pre (promotedSkills o) fun tr promoted =>
    (∃ tr', tr = pre ++ tr' ∧ ∀ c ∈ tr', c.1.quiet = true) ∧ (promoted = [] ∨ ⟨.promoted, promoted⟩ ∈ tr) := by
  unfold promotedSkills
  cases o.learner with
  | true =>
    exact Careful.ask_bind rfl (fun _ => trivial) fun promoted =>
      Careful.ret ⟨⟨_, rfl, by simp [SessionCall.quiet]⟩, .inr (List.mem_append_right _ (.head _))⟩
  | false => exact Careful.ret ⟨⟨[], by simp⟩, .inl rfl⟩

/-- **One run**, whatever it is answered. -/
theorem compile_careful :
    Careful p (MayPull o) maxPulls [] (HarnessSession.compile p o) (Compiled p o) := by
  refine (Careful.of_only (only_perform rfl rfl)).bind (n := 0) (k := maxPulls) fun tr _ htr => ?_
  refine promotedSkills_careful.bind (n := 0) (k := maxPulls) fun before promoted hbefore => ?_
  refine Careful.ask_bind rfl (fun _ => trivial) fun acquired => ?_
  have hresolve := (@resolveHarnessSkills_careful p o acquired promoted (before ++ [⟨.acquiredPacks, acquired⟩])).imp
    fun tr resolved hpre h => And.intro hpre h
  refine hresolve.bind (k := maxPulls) fun tr' resolved ⟨hpre, hresolved⟩ => ?_
  refine (compileWith_careful hresolved.options).imp fun tr'' envelope hpre' henvelope => ?_
  obtain ⟨after, rfl⟩ := hpre.trans hpre'
  refine ⟨before, acquired, after, by simp, ?_, ?_⟩
  · obtain ⟨⟨tr', rfl, htr'⟩, -⟩ := hbefore
    obtain ⟨⟨tr₀, rfl, htr₀⟩, -⟩ := htr
    simpa [or_imp, forall_and] using ⟨htr₀, htr'⟩
  · rcases hresolved.items with hitems | hitems
    · exact .inl ⟨_, hitems, henvelope⟩
    · refine .inr ⟨promoted, hbefore.2, fun item hitem => ?_⟩
      obtain ⟨skill, hskill, hid, htext⟩ := henvelope item hitem
      obtain ⟨v, agent, hv, hagent, hauth⟩ := hitems skill hskill
      exact ⟨v, agent, hv, hpre'.subset hagent, hid ▸ htext ▸ hauth⟩

/-! ### All runs of a session -/

variable {log : List (ℕ × Answered SessionCall SessionCall.Answer)} {packs : List CapabilityMetadataV1}
  {envelope : ContextEnvelopeV1} {m : CapabilityMetadataV1}

/-- What a run of a session has done so far. -/
theorem own_justified (h : Session p o log packs) (i : ℕ) :
    Each (Justified p (MayPull o)) [] (own i log) ∧ pullsOf (own i log) ≤ maxPulls := by
  obtain ⟨q, hq⟩ := h.reaches i
  refine Prog.Sat.reaches (Q := fun tr => Each (Justified p (MayPull o)) [] tr ∧ pullsOf tr ≤ maxPulls)
    (compile_careful.mono fun tr _ h => ⟨h.1, h.2.1⟩) (fun tr tr' h => ⟨((each_append ..).mp h.1).1, ?_⟩) hq
  have hle := h.2
  rw [pullsOf_append] at hle
  omega

/-- How the context of a run of a session came about. -/
theorem compiled_of_reaches {i : ℕ} (hi : (HarnessSession.compile p o).Reaches (own i log) (.ret envelope)) :
    Compiled p o (own i log) envelope := by
  have hrun := hi.runs (.ret : Prog.Runs (.ret envelope) [] _)
  rw [List.append_nil] at hrun
  exact (Prog.sat_iff_runs.mp compile_careful _ _ hrun).2.2 envelope rfl

/-- Every pack of a session was pulled by one of its runs. -/
theorem packs_pulled (h : Session p o log packs) : ∀ m ∈ packs, ∃ j, Pulled p (own j log) m := by
  induction h with
  | nil => simp
  | @snoc log s s' i c k r hlog hp ha ih =>
    have hold : ∀ m ∈ s, ∃ j, Pulled p (own j (log ++ [(i, ⟨c, r⟩)])) m := fun m hm => by
      obtain ⟨j, hj⟩ := ih m hm
      refine ⟨j, hj.mono ?_⟩
      rw [own_append]
      exact List.subset_append_left ..
    have hdone := (own_justified (.snoc hlog hp ha) i).1
    rw [own_append, own_cons_self, own_nil, each_append] at hdone
    cases ha with
    | acquiredPacks => exact hold
    | other _ _ => exact hold
    | @record packs _ =>
      intro m hm
      rcases List.mem_append.mp hm with hm | hm
      · exact hold m hm
      · refine ⟨i, (hdone.2.1 m hm).mono ?_⟩
        rw [own_append]
        exact List.subset_append_left ..

/-- Where the skill of run `i` comes from: it is configured, or promoted, or in a pack that another run
had pulled before run `i` read the packs of the session. -/
def ComesFrom (p : Platform) (o : SessionOptions) (log : List (ℕ × Answered SessionCall SessionCall.Answer)) (i : ℕ)
    (v : JsValue) : Prop :=
  Configured p o v ∨ (∃ promoted : List JsValue, (i, ⟨.promoted, promoted⟩) ∈ log ∧ v ∈ promoted) ∨
    ∃ before acquired after, log = before ++ (i, ⟨.acquiredPacks, acquired⟩) :: after ∧ pullsOf (own i before) = 0 ∧
      ∃ j m, j ≠ i ∧ Pulled p (own j before) m ∧ v ∈ m.skills

theorem comesFrom (h : Session p o log packs) {i : ℕ}
    (hskills : ∀ items, parseHarnessSkills o.skills = .ok { passthrough := some items } → items = [])
    (hi : (HarnessSession.compile p o).Reaches (own i log) (.ret envelope)) :
    ∀ item ∈ envelope.skills, ∃ v agent, (i, ⟨.capabilities, agent⟩) ∈ log ∧
      Authorized p o agent v item.id item.text ∧ ComesFrom p o log i v := by
  obtain ⟨before, acquired, after, hown, hquiet, hitems⟩ := compiled_of_reaches hi
  intro item hitem
  rcases hitems with ⟨items, hparse, hitems⟩ | ⟨promoted, hpromoted, hitems⟩
  · obtain ⟨skill, hskill, -⟩ := hitems item hitem
    rw [hskills items hparse] at hskill
    cases hskill
  obtain ⟨v, agent, hv, hagent, hauth⟩ := hitems item hitem
  refine ⟨v, agent, mem_own.mp hagent, hauth, ?_⟩
  rcases hv with hv | hv | ⟨m, hm, hv⟩
  · exact .inl hv
  · rcases hpromoted with rfl | hpromoted
    · cases hv
    · refine .inr (.inl ⟨promoted, mem_own.mp ?_, hv⟩)
      rw [hown]
      exact List.mem_append_left _ hpromoted
  · obtain ⟨start, rest, hlog, rfl, -⟩ := own_eq_append_cons hown
    obtain ⟨s, s', hstart, hanswer⟩ := Shared.answered h hlog
    obtain rfl : acquired = s := by
      cases hanswer with
      | acquiredPacks => rfl
      | other hne => exact absurd rfl hne
    obtain ⟨j, hj⟩ := packs_pulled hstart m hm
    obtain ⟨-, hnone⟩ : Each (Justified p (MayPull o)) [] (own i start) ∧ pullsOf (own i start) = 0 := each_of_quiet hquiet
    refine .inr (.inr ⟨start, acquired, rest, hlog, hnone, j, m, ?_, hj, hv⟩)
    rintro rfl
    obtain ⟨hit, bytes, hmem, -⟩ := hj
    have := hquiet _ hmem
    cases this

/-- **Skill authority.** Whatever the registry answers, a run of a session pulls a pack only when the
options say `auto` and an acquiring mode, for a hit of a search of this run that is not yanked and, in
the approved mode, is on the allow-list; it pulls at most `maxPulls` times, and never in the other
modes. And every skill of its context is well formed, allowed by the run's authority, and configured,
promoted, or in a pack that another run had pulled before. -/
theorem skill_authority (h : Session p o log packs) (i : ℕ)
    (hskills : ∀ items, parseHarnessSkills o.skills = .ok { passthrough := some items } → items = []) :
    (∀ before spec answer after, own i log = before ++ ⟨.pull spec, answer⟩ :: after →
      ∃ hit, Found before hit ∧ spec = hit.spec ∧ MayPull o hit) ∧
    pullsOf (own i log) ≤ maxPulls ∧
    (∀ options, parseHarnessSkills o.skills = .ok { options := some options } →
      (normalizeTrust (some options)).registry = .discover ∨ (normalizeTrust (some options)).registry = .disabled →
        pullsOf (own i log) = 0) ∧
    ∀ envelope, (HarnessSession.compile p o).Reaches (own i log) (.ret envelope) →
      ∀ item ∈ envelope.skills, ∃ v agent, (i, ⟨.capabilities, agent⟩) ∈ log ∧
        Authorized p o agent v item.id item.text ∧ ComesFrom p o log i v := by
  obtain ⟨hjustified, hcount⟩ := own_justified h i
  have hpull : ∀ before spec answer after, own i log = before ++ ⟨.pull spec, answer⟩ :: after →
      ∃ hit, Found before hit ∧ spec = hit.spec ∧ MayPull o hit := fun before spec answer after heq =>
    (each_iff_split _ _).mp hjustified before ⟨.pull spec, answer⟩ after heq
  refine ⟨hpull, hcount, fun options hoptions hmode => ?_, fun envelope hi => comesFrom h hskills hi⟩
  refine List.countP_eq_zero.mpr fun a ha hpulled => ?_
  obtain ⟨before, after, heq⟩ := List.append_of_mem ha
  obtain ⟨c, answer⟩ := a
  cases c <;> cases hpulled
  obtain ⟨hit, -, -, options', hoptions', -, hallowed⟩ := hpull before _ answer after heq
  obtain rfl : options = options' := by
    rw [hoptions] at hoptions'
    injection hoptions' with hoptions'
    injection hoptions' with _ hoptions'
    injection hoptions'
  rcases hmode with hmode | hmode <;> rcases hallowed.acquiring with hacq | hacq <;> rw [hmode] at hacq <;> cases hacq

/-! ### A session of two runs -/

/-- A skill that cites. -/
def sampleSkill : JsValue :=
  .object [("version", .number (.finite 1)), ("id", .string "cite"), ("skillVersion", .string "1.0.0"),
    ("triggers", .array []), ("domains", .array []), ("instructions", .string "Cite every source."),
    ("requiredCapabilities", .array [.string "web"]), ("requiredTools", .array []), ("knowledgeRefs", .array [])]

/-- The text of every pack is that of one with this skill. -/
def samplePlatform : Platform where
  toLowerCase s := s
  stringify _ := ""
  numberText _ := ""
  collate := compare
  parse _ := .ok (.object [("id", .string "acme/cite"), ("skills", .array [sampleSkill])])
  decode _ := "\x7b\x7d"
  sha256Hex _ := "digest"
  verifyImage _ := .error ""
  mountImage _ := .error ""

/-- A task that needs the skill, and a registry that may be used. -/
def sampleOptions : SessionOptions where
  task := { successCriteria := [], objective := "", requiredCapabilities := ["web"], preferredSkills := ["cite"] }
  authority := some (.object [("capabilities", .array [.string "web"])])
  skills := .options { resolution := some .auto, registry := some (.mode .acquireAnyVerified) }
  registry := true

/-- The manifest of the pack. -/
def sampleManifest : Registry.PackManifestV1 where
  name := "acme/cite"
  version := "1.0.0"
  sha256 := String.ofList (List.replicate 64 'a')
  url := ""
  sizeBytes := .finite 0
  yanked := false

/-- A registry that finds the pack. -/
def sampleHost : Host SessionCall SessionCall.Answer (List CapabilityMetadataV1) := fun c acquired =>
  match c with
  | .acquiredPacks => (acquired, acquired)
  | .record packs => ((), acquired ++ packs)
  | .capabilities => (⟨true⟩, acquired)
  | .promoted => (([] : List JsValue), acquired)
  | .freeze _ => (.ok "root", acquired)
  | .search _ =>
    (.ok [{ name := "acme/cite", publisher := "acme", slug := "cite", version := "1.0.0"
            sha256 := String.ofList (List.replicate 64 'a') }], acquired)
  | .pull _ => (.ok { manifest := sampleManifest, bytes := ([] : List UInt8) }, acquired)
  | .activateStaged | .stage _ | .hook _ => (.ok (), acquired)
  | .retrieve _ | .semanticRerank _ _ => (.ok ([] : List EvidenceItemV1), acquired)
  | .recall _ _ => (.ok ([] : List MemoryItemV1), acquired)

theorem sampleHost_answers (c : SessionCall) (acquired : List CapabilityMetadataV1) :
    SessionAnswers c acquired (sampleHost c acquired).1 (sampleHost c acquired).2 := by
  cases c <;> first
    | exact .acquiredPacks
    | exact .record
    | exact .other (by simp) (by simp)

/-- The run of the session. -/
def sampleRun : SessionM ContextEnvelopeV1 := HarnessSession.compile samplePlatform sampleOptions

/-- The packs after the first run. -/
def samplePacks : List CapabilityMetadataV1 := (sampleRun.run sampleHost []).2

/-- The calls of two runs, one after the other. -/
def sampleLog : List (ℕ × Answered SessionCall SessionCall.Answer) :=
  (sampleRun.trace sampleHost []).map (fun a => (0, a)) ++ (sampleRun.trace sampleHost samplePacks).map fun a => (1, a)

theorem session_sample : Session samplePlatform sampleOptions sampleLog (sampleRun.run sampleHost samplePacks).2 := by
  have hstart : Session samplePlatform sampleOptions [] [] := .nil
  have hfirst := hstart.run sampleHost_answers (i := 0) .refl
  refine hfirst.run sampleHost_answers ?_
  rw [List.nil_append, own_map_ne (by decide)]
  exact .refl

/-- The second run has the skill that the first has acquired. -/
theorem skill_authority_sample : ∃ v agent, (1, ⟨.capabilities, agent⟩) ∈ sampleLog ∧
    Authorized samplePlatform sampleOptions agent v "cite" "Cite every source." ∧
      ComesFrom samplePlatform sampleOptions sampleLog 1 v := by
  obtain ⟨envelope, hrun, hitems⟩ : ∃ envelope, (sampleRun.run sampleHost samplePacks).1 = .ok envelope ∧
      envelope.skills = [⟨"cite", "Cite every source.", some "acme/cite"⟩] := by
    have h : (sampleRun.run sampleHost samplePacks).1.toOption.map (·.skills) =
        some [⟨"cite", "Cite every source.", some "acme/cite"⟩] := by decide +kernel
    obtain ⟨envelope, henvelope, hitems⟩ := Option.map_eq_some_iff.mp h
    exact ⟨envelope, toOption_eq_some.mp henvelope, hitems⟩
  have hown : own 1 sampleLog = sampleRun.trace sampleHost samplePacks := by
    rw [sampleLog, own_append, own_map_ne (by decide), own_map_self, List.nil_append]
  have hreaches : sampleRun.Reaches (own 1 sampleLog) (.ret envelope) := by
    rw [hown]
    exact Prog.Runs.reaches (hrun ▸ Prog.runs_trace sampleHost sampleRun samplePacks)
  have hall := (skill_authority session_sample 1 fun _ h => nomatch h).2.2.2 envelope hreaches
  rw [hitems] at hall
  exact hall ⟨"cite", "Cite every source.", some "acme/cite"⟩ (.head _)

end Knolo.Skills
