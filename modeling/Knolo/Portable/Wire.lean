import Knolo.Portable.Drive
import Knolo.Runtime.Surroundings

/-!
# One script, on the wire and natively

What the scheduler and the portable engine have in common: the form events, statuses and
requests of the one take on the wire of the other, and the native form of a result.

An outcome is expressible in both if a continuing node has a patch, every patch is an object
of top-level fields, and no failure may be retried. Its fields stand for the operations that
set them (`patchOperations_eq`); a field with no name is refused by both.

`player` is the executor that plays a script, and `scripted` the surroundings it plays in;
sink and store make no difference to what a run returns (`run_player`).
-/

namespace Knolo.Portable

open Core Library Library.Fallible Library.Prog Knolo.Runtime

/-! ### The native form of what is on the wire -/

/-- An event kind, on the wire. -/
def wireKind : EventKindV1 → ProtocolEventKind
  | .executionStarted => .executionStarted
  | .nodeStarted attempt => .nodeStarted attempt
  | .statePatched revision => .statePatched revision
  | .routed route target => .routed route target.text
  | .retrying attempt => .retrying attempt
  | .suspended reason => .suspended reason
  | .terminated => .terminated
  | .failed error => .failed error
  | .cancelled => .cancelled
  | .checkpointed => .checkpointed

/-- An event, on the wire. -/
def wireEvent (e : ExecutionEventV1) : ProtocolEvent :=
  { version := e.version, sequence := e.sequence, executionId := e.executionId.text
    nodeId := e.nodeId.map (·.text), timestampMs := e.timestampMs, kind := wireKind e.kind }

/-- A status, on the wire. -/
def wireStatus : ExecutionStatusV1 → ProtocolStatus
  | .suspended reason => .suspended reason
  | .terminated result => .terminated result
  | .failed error => .failed error
  | .cancelled => .cancelled

/-- A node request, on the wire. -/
def wireRequest (r : NodeRequest) : DispatchRequest :=
  { nodeId := r.nodeId.text, state := r.state.value, attempt := r.attempt }

/-- The operations that set the fields of a patch. -/
def setOperations (members : Members) : Std.ExtTreeMap String PatchOperation :=
  members.foldl (fun ops m => ops.insert ("/" ++ m.1) (.set m.2)) ∅

/-- The native form of a patch made against `revision`. -/
def nativePatch (revision : ℕ) (patch : Json) : StatePatch :=
  { baseRevision := revision, operations := setOperations (patch.asObject.getD []) }

/-- The native form of an outcome. -/
def ProtocolOutcome.native (revision : ℕ) : ProtocolOutcome → NodeOutcomeV1
  | .continue patch => .continue (nativePatch revision (patch.getD .null))
  | .route name patch => .route name (patch.map (nativePatch revision))
  | .suspend reason patch => .suspend reason (patch.map (nativePatch revision))
  | .terminate result patch => .terminate result (patch.map (nativePatch revision))
  | .fail error retryable => .fail error (retryable.getD false)

/-- The native form of a result. -/
def ProtocolNodeExecution.native (revision : ℕ) (x : ProtocolNodeExecution) : NodeExecutionV1 :=
  { outcome := x.outcome.native revision, tokens := x.tokens.getD 0, costMicros := x.costMicros.getD 0 }

/-- A patch of top-level fields. -/
def TopLevel (patch : Json) : Prop :=
  ∃ members, patch = .object members ∧ ∀ m ∈ members, '/' ∉ m.1.toList

/-- An outcome that has a native form: a continuing node has a patch, a patch is of
top-level fields, a failure may not be retried. -/
def ProtocolOutcome.Expressible : ProtocolOutcome → Prop
  | .continue patch => ∃ v, patch = some v ∧ TopLevel v
  | .route _ patch | .suspend _ patch | .terminate _ patch => ∀ v ∈ patch, TopLevel v
  | .fail _ retryable => retryable ≠ some true

theorem ProtocolOutcome.Expressible.topLevel {o : ProtocolOutcome} (h : o.Expressible) :
    ∀ v ∈ o.patch, TopLevel v := by
  cases o with
  | «continue» patch =>
    obtain ⟨v, rfl, hv⟩ := h
    simpa [ProtocolOutcome.patch] using hv
  | fail error retryable => simp [ProtocolOutcome.patch]
  | _ => exact h

theorem ProtocolOutcome.Expressible.not_retried {o : ProtocolOutcome} (h : o.Expressible)
    (revision : ℕ) : (o.native revision).retryableError = none := by
  cases o with
  | fail error retryable =>
    cases retryable with
    | none => rfl
    | some b =>
      cases b with
      | false => rfl
      | true => exact absurd rfl h
  | _ => rfl

/-! ### Patches -/

theorem fold_patchMember {members : Members} (htop : ∀ m ∈ members, '/' ∉ m.1.toList)
    (hne : ∀ m ∈ members, m.1.isEmpty = false) (ops : Std.ExtTreeMap String PatchOperation) :
    members.foldlM patchMember ops =
      .ok (members.foldl (fun ops m => ops.insert ("/" ++ m.1) (.set m.2)) ops) := by
  induction members generalizing ops with
  | nil => rfl
  | cons m ms ih =>
    have hm : patchMember ops m = .ok (ops.insert ("/" ++ m.1) (.set m.2)) := by
      simp [patchMember, hne m (List.mem_cons_self ..), htop m (List.mem_cons_self ..)]
    rw [List.foldlM_cons, hm]
    exact ih (fun m h => htop m (List.mem_cons_of_mem _ h)) (fun m h => hne m (List.mem_cons_of_mem _ h)) _

/-- A patch of named top-level fields stands for the operations that set them. -/
theorem patchOperations_eq {members : Members} (htop : ∀ m ∈ members, '/' ∉ m.1.toList)
    (hne : ∀ m ∈ members, m.1.isEmpty = false) : patchOperations members = .ok (setOperations members) :=
  fold_patchMember htop hne ∅

theorem fold_patchMember_error {members : Members} {m : String × Json} (hm : m ∈ members)
    (he : m.1.isEmpty = true) (ops : Std.ExtTreeMap String PatchOperation) :
    ∃ f, members.foldlM patchMember ops = .error (.failure f) := by
  induction members generalizing ops with
  | nil => simp at hm
  | cons n ms ih =>
    rw [List.foldlM_cons]
    by_cases hn : n.1.isEmpty || '/' ∈ n.1.toList
    · exact ⟨_, by simp only [patchMember, hn, if_true]; rfl⟩
    · rcases List.mem_cons.mp hm with rfl | hm
      · simp [he] at hn
      · have hok : patchMember ops n = .ok (ops.insert ("/" ++ n.1) (.set n.2)) := by
          rw [patchMember, if_neg hn]
        rw [hok]
        exact ih hm _

/-- The operations of a list of fields: the last field of a name counts. -/
theorem mem_fold_insert {members : Members} {key : String} (ops : Std.ExtTreeMap String PatchOperation) :
    key ∈ members.foldl (fun ops m => ops.insert ("/" ++ m.1) (.set m.2)) ops ↔
      key ∈ ops ∨ ∃ m ∈ members, "/" ++ m.1 = key := by
  induction members generalizing ops with
  | nil => simp
  | cons m ms ih => simp [ih, Std.ExtTreeMap.mem_insert, or_assoc, or_left_comm]

theorem mem_setOperations {members : Members} {key : String} :
    key ∈ setOperations members ↔ ∃ m ∈ members, "/" ++ m.1 = key := by
  simp [setOperations, mem_fold_insert]

theorem setOperations_isEmpty {members : Members} : (setOperations members).isEmpty = members.isEmpty := by
  cases members with
  | nil => rfl
  | cons m ms =>
    have hm : "/" ++ m.1 ∈ setOperations (m :: ms) := mem_setOperations.mpr ⟨m, List.mem_cons_self .., rfl⟩
    rw [List.isEmpty_cons, Std.ExtTreeMap.isEmpty_eq_false_iff]
    intro h
    simp [h] at hm

/-- No document has a field with an empty name set by a pointer. -/
theorem applyOp_slash (root : Json) (op : PatchOperation) : ∃ e, applyOp root "/" op = .error e := by
  exact ⟨_, rfl⟩

theorem applyOperations_slash {patch : StatePatch} (allowed : Std.ExtTreeSet String) (value : Json)
    (h : "/" ∈ patch.operations) : ∃ e, applyOperations patch allowed value = .error e := by
  have key : ∀ (entries : List (String × PatchOperation)) (v : Json),
      (∃ op, ("/", op) ∈ entries) → ∃ e, entries.foldlM (applyDeclared allowed) v = .error e := by
    intro entries
    induction entries with
    | nil => rintro v ⟨op, h⟩; simp at h
    | cons entry entries ih =>
      rintro v ⟨op, h⟩
      rw [List.foldlM_cons]
      cases hd : applyDeclared allowed v entry with
      | error e => exact ⟨e, rfl⟩
      | ok v' =>
        rcases List.mem_cons.mp h with rfl | h
        · obtain ⟨e, he⟩ := applyOp_slash v op
          simp only [applyDeclared, he] at hd
          split at hd <;> cases hd
        · exact ih v' ⟨op, h⟩
  refine key _ _ ⟨patch.operations["/"], ?_⟩
  rw [Std.ExtTreeMap.mem_toList_iff_getElem?_eq_some]
  simp [h]

/-! ### Playing a script -/

/-- The executor that plays a script. -/
def player (script : Script) : Executor ℕ := fun r i =>
  (.ok ((script i (wireRequest r)).native r.state.revision), i + 1)

/-- The surroundings of a played run, without sink and store. -/
def scripted (script : Script) (now : ℕ) : Host HostCall Answer ℕ
  | .cancelled, i => (false, i)
  | .nowMs, i => (now, i)
  | .execute r, i => player script r i
  | .emit _, i => (.ok (), i)
  | .save _, i => (.ok (), i)

/-- Sink and store make no difference to what a run returns. -/
theorem run_player {α : Type} (script : Script) (now : ℕ) (p : Run α) (w : World ℕ) :
    (p.run (surroundings (player script) false now) w).1 = (p.run (scripted script now) w.executor).1 := by
  refine run_of_part World.executor (fun c x => ?_) p w
  cases c <;> rfl

/-- Errors that are not the model's own. -/
def NotStuck (e : Abort) (e' : Halt) : Prop := e ≠ .stuck ∧ e' ≠ .stuck

theorem lockstep_fromCore {α : Type} {x : Except Abort α} (hx : ∀ e, x = .error e → e ≠ .stuck) :
    Lockstep NotStuck (fun a b => a = b ∧ x = .ok a) x (fromCore x) := by
  cases x with
  | ok a => exact .ok ⟨rfl, rfl⟩
  | error e =>
    have he := hx e rfl
    cases e with
    | error err => exact .error ⟨by simp, by simp⟩
    | overflow => exact .error ⟨by simp, by simp⟩
    | stuck => exact absurd rfl he

theorem lockstep_checkedAdd (max a b : ℕ) :
    Lockstep NotStuck (fun c c' => c = a + b ∧ c' = a + b) (checkedAdd max a b)
      (fromCore (checkedAdd max a b)) := by
  refine (lockstep_fromCore fun e he => checkedAdd_ne_stuck he).mono fun c c' h => ?_
  obtain ⟨rfl, hc⟩ := h
  exact ⟨(checkedAdd_eq_ok hc).1, (checkedAdd_eq_ok hc).1⟩

end Knolo.Portable
