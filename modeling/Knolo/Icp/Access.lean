import Knolo.Icp.Custody

/-!
# Who may run

Controllers, and the callers that the limits allow. The limits are in the engine: while it is away, its
cell has those of a new engine, and they allow everyone.

* `Guarded` — a call is decided by the limits that were set last, and does nothing if they refuse it.
* `access_guarded` — in a settled run the calls are guarded if and only if those that come while the engine
  is away are of callers that the limits allow.
-/

namespace Knolo.Icp

open Core Library Library.Fallible Host Knolo.Runtime

variable {codec : Codec} {principal : String → Except String String} {f : Formats} {c : Canister} {i : Ingress}
  {u : Update} {limits : RuntimeLimitsV1} {ms : List Message}

/-! ### One call -/

/-- Do the limits let the caller run executions? -/
def Ingress.access (i : Ingress) (limits : RuntimeLimitsV1) : Except String Unit :=
  requireRunAccess i.caller i.isController limits

/-- The limits of a new engine let everyone. -/
theorem access_default (i : Ingress) : i.access {} = .ok () := by
  unfold Ingress.access requireRunAccess
  cases i.isController <;> rfl

/-- Controllers are not refused. -/
theorem not_controller_of_refused (h : i.access limits ≠ .ok ()) : i.isController = false := by
  cases hi : i.isController with
  | false => rfl
  | true =>
    refine absurd ?_ h
    simp [Ingress.access, requireRunAccess, hi]

/-- The check that a call begins with. -/
def Update.check (i : Ingress) (limits : RuntimeLimitsV1) (u : Update) : Except String Unit :=
  if u.controllersOnly then requireController i.caller i.isController else i.access limits

/-- A call that does not pass its check does nothing. -/
theorem perform_of_refused (h : u.check i c.engine.limits ≠ .ok ()) :
    (u.perform codec principal f i).Sat c fun _ c' log => c' = c ∧ log = [] := by
  have hcontroller : requireController i.caller i.isController ≠ .ok () → ∀ q : Unit → CanisterM Unit,
      (Method.ofExcept (requireController i.caller i.isController) >>= q).Sat c fun _ c' log => c' = c ∧ log = [] := by
    intro h q
    exact Method.Sat.ofExcept_bind (fun _ hok => absurd hok h) fun _ _ => ⟨rfl, rfl⟩
  have hrun : i.access c.engine.limits ≠ .ok () → ∀ q : Unit → CanisterM Unit,
      (requireRunAuth i >>= q).Sat c fun _ c' log => c' = c ∧ log = [] := by
    intro h q
    have hcheck : (requireRunAuth i).Sat c fun res c' log => c' = c ∧ log = [] ∧ res ≠ .ok () :=
      Method.sat_read_bind.mpr (Method.sat_ofExcept.mpr ⟨rfl, rfl, h⟩)
    refine hcheck.bind (fun _ _ _ hres => ?_) fun _ _ _ hres => ⟨hres.1, hres.2.1⟩
    exact absurd rfl hres.2.2
  cases u with
  | loadDefinition json => exact hcontroller h _
  | clearDefinition => exact hcontroller h _
  | setLimits => exact hcontroller h _
  | startExecution k state => exact hrun h _
  | step k n => exact hrun h _
  | resume k => exact hrun h _
  | continueEffects k => exact hrun h _
  | acceptHandoff k envelope state parent => exact hrun h _
  | forwardHandoff peer k envelope state parent => exact hrun h _

/-- A call is decided by the limits that were set last. If they refuse its caller, it does nothing. -/
structure Guarded (codec : Codec) (principal : String → Except String String) (f : Formats) (s : CanisterSession)
    (i : Ingress) (u : Update) : Prop where
  decided : u.controllersOnly = false → i.access s.state.engine.limits = i.access (promised s.log).limits
  refused : i.access (promised s.log).limits ≠ .ok () → s.after (Message.perform codec principal f) (.update i u) = s

/-- A call that comes while the engine is away is of a caller that the limits allow, unless it is for
controllers only. -/
def Admitted (s : CanisterSession) (i : Ingress) (u : Update) : Prop :=
  u.controllersOnly = false → s.state.tasks ≠ [] → i.access (promised s.log).limits = .ok ()

theorem after_of_refused {s : CanisterSession} (h : u.check i s.state.engine.limits ≠ .ok ()) :
    s.after (Message.perform codec principal f) (.update i u) = s := by
  have hsame : (Message.perform codec principal f (.update i u)).Sat s.state fun _ c' log => c' = s.state ∧ log = [] :=
    perform_of_refused h
  have hafter := Session.after_of_sat (T := fun c' log => c' = s.state ∧ log = []) hsame ⟨rfl, rfl⟩
  refine Session.ext hafter.1 ?_
  rw [Session.after_log, hafter.2, List.append_nil]

/-- **Between two messages, the next call is guarded if and only if it is admitted.** -/
theorem guarded_iff {s : CanisterSession} (h : Intact codec s.log s.state) :
    Guarded codec principal f s i u ↔ Admitted s i u := by
  rcases h with hhome | haway
  · have hlimits : s.state.engine.limits = (promised s.log).limits := hhome.carried.limits
    refine ⟨fun _ _ htasks => absurd hhome.tasks htasks, fun _ => ⟨fun _ => by rw [hlimits], fun hrefused => ?_⟩⟩
    refine after_of_refused ?_
    unfold Update.check
    split
    · rw [not_controller_of_refused hrefused]
      intro hok
      cases hok
    · rwa [hlimits]
  · have hopen : i.access s.state.engine.limits = .ok () := by rw [haway.vacant.limits, access_default]
    obtain ⟨t, htasks, -⟩ := haway.task
    constructor
    · intro hguarded hu _
      rw [← hguarded.decided hu, hopen]
    · intro hadmitted
      refine ⟨fun hu => by rw [hopen, hadmitted hu (by simp [htasks])], fun hrefused => after_of_refused ?_⟩
      have hu : u.controllersOnly = true := by
        by_contra hu
        exact hrefused (hadmitted (by simpa using hu) (by simp [htasks]))
      rw [Update.check, if_pos hu, not_controller_of_refused hrefused]
      intro hok
      cases hok

/-! ### Runs -/

theorem Settled.of_append {ms' : List Message} (h : Settled codec principal f (ms ++ ms')) :
    Settled codec principal f ms := by
  rintro pre m post rfl
  exact h pre m (post ++ ms') (by simp)

/-- **In a settled run every call is decided by the limits that were set last, and those they refuse do
nothing, if and only if the calls that come while the engine is away are of callers they allow.** -/
theorem access_guarded (codec : Codec) (principal : String → Except String String) (f : Formats) (hf : f.Writes)
    (ms : List Message) (hms : Settled codec principal f ms) :
    (∀ pre i u post, ms = pre ++ .update i u :: post →
        Guarded codec principal f (canisterAfter codec principal f pre) i u) ↔
      ∀ pre i u post, ms = pre ++ .update i u :: post → Admitted (canisterAfter codec principal f pre) i u := by
  refine forall_congr' fun pre => forall_congr' fun i => forall_congr' fun u => forall_congr' fun post => ?_
  refine forall_congr' fun hsplit => guarded_iff (intact_run hf ?_)
  rw [hsplit] at hms
  exact hms.of_append

/-! ### An outsider -/

/-- An execution of a closed canister awaits the language model. -/
def closedStart : List Message :=
  [.update (ingress "owner" true) (.loadDefinition promptSample.text), closing,
    .update (ingress "owner" true) (.startExecution "e" (Sample.stateText promptValue))]

/-- **While the engine is away, a caller that the limits refuse passes**, and what was kept is overwritten. -/
theorem outsider_passes :
    let s := canisterAfter promptCodec .ok blankFormats closedStart
    let s' := s.after (Message.perform promptCodec .ok blankFormats)
      (.update (ingress "outsider" false) (.continueEffects "e"))
    (ingress "outsider" false).access (promised s.log).limits ≠ .ok () ∧
      (ingress "outsider" false).access s.state.engine.limits = .ok () ∧
      s.state.stable.definition ≠ "" ∧ s'.state.stable.definition = "" ∧
      ¬Guarded promptCodec .ok blankFormats s (ingress "outsider" false) (.continueEffects "e") := by
  have h : ((ingress "outsider" false).access (promised (canisterAfter promptCodec .ok blankFormats
        closedStart).log).limits).toOption.isSome = false ∧
      ((ingress "outsider" false).access (canisterAfter promptCodec .ok blankFormats
        closedStart).state.engine.limits).toOption.isSome = true ∧
      (canisterAfter promptCodec .ok blankFormats closedStart).state.stable.definition ≠ "" ∧
      ((canisterAfter promptCodec .ok blankFormats closedStart).after (Message.perform promptCodec .ok blankFormats)
        (.update (ingress "outsider" false) (.continueEffects "e"))).state.stable.definition = "" := by
    decide +kernel
  obtain ⟨hrefused, hpasses, hkept, hlost⟩ := h
  refine ⟨fun hok => ?_, ?_, hkept, hlost, fun hguarded => ?_⟩
  · rw [hok] at hrefused
    cases hrefused
  · generalize (ingress "outsider" false).access (canisterAfter promptCodec .ok blankFormats
      closedStart).state.engine.limits = access at hpasses
    cases access with
    | ok _ => rfl
    | error _ => cases hpasses
  · rw [hguarded.decided rfl, hrefused] at hpasses
    cases hpasses

/-- In a run with a call of a controller while the engine is away, that call is guarded. -/
theorem prompt_guarded :
    Guarded promptCodec .ok blankFormats (canisterAfter promptCodec .ok blankFormats promptStart)
      (ingress "owner" true) (.continueEffects "e") := by
  refine (access_guarded promptCodec .ok blankFormats blankFormats_writes _ prompt_settled).mpr ?_
    promptStart _ _ [promptReply] (by simp [asking])
  intro pre i u post hsplit _ _
  have hi : i = ingress "owner" true := by
    have hm : Message.update i u ∈ promptStart ++ [asking] ++ [promptReply] := by simp [hsplit]
    simp [promptStart, asking, promptReply] at hm
    rcases hm with ⟨rfl, -⟩ | ⟨rfl, -⟩ | ⟨rfl, -⟩ <;> rfl
  rw [hi]
  rfl

end Knolo.Icp
