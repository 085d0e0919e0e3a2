import Mathlib.Data.Finset.Card
import Mathlib.Logic.Relation
import Mathlib.Tactic.Common

/-!
# Exploring a finite graph

A depth-first search with an explicit stack over a graph given as a list of edges,
optionally stopping at a vertex. The search keeps the vertices it has expanded in a
set; every edge is pushed at most once, which bounds the number of iterations by
`potential`.

`explore_closed` says what a search that ran to its end has found: a set closed under
the edges, containing where it started, with no vertex to stop at. So a search from `a`
misses nothing that can be reached from `a` (`explore_complete`), and it finds nothing else
(`explore_sound`).

The same set is found by passes over the edges that add the targets of those whose source is
in the set, until a pass adds nothing (`saturate`, `mem_saturate`).
-/

namespace Knolo.Library.Reach

open Relation

variable {V : Type} [DecidableEq V]

/-- The targets of the edges out of `v`, in order. -/
def targets (edges : List (V × V)) (v : V) : List V :=
  (edges.filter fun e => e.1 = v).map Prod.snd

/-- Pop a vertex; give up at a vertex to stop at; expand a vertex not seen before.
`none` is giving up. -/
def explore (edges : List (V × V)) (stop : V → Bool) : ℕ → List V → Finset V → Option (Finset V)
  | 0, _, seen => some seen
  | _ + 1, [], seen => some seen
  | n + 1, v :: stack, seen =>
    if stop v then none
    else if v ∈ seen then explore edges stop n stack seen
    else explore edges stop n ((targets edges v).reverse ++ stack) (insert v seen)

/-- How many vertices can still be popped: those on the stack, and the targets of the
edges out of vertices not yet expanded. -/
def potential (edges : List (V × V)) (stack : List V) (seen : Finset V) : ℕ :=
  stack.length + (edges.filter fun e => e.1 ∉ seen).length

variable (edges : List (V × V))

/-- `b` is one edge from `a`. -/
def Edge (a b : V) : Prop := (a, b) ∈ edges

theorem mem_targets {v w : V} : w ∈ targets edges v ↔ Edge edges v w := by
  simp [targets, Edge]

/-- Expanding a vertex trades its outgoing edges for their targets. -/
theorem length_filter_insert {seen : Finset V} {v : V} (hv : v ∉ seen) :
    (targets edges v).length + (edges.filter fun e => e.1 ∉ insert v seen).length =
      (edges.filter fun e => e.1 ∉ seen).length := by
  induction edges with
  | nil => rfl
  | cons e es ih =>
    simp only [targets, List.length_map, Finset.mem_insert, not_or, Bool.decide_and] at ih ⊢
    by_cases he : e.1 = v
    · have hs : e.1 ∉ seen := he ▸ hv
      simp only [List.filter_cons, he, hv, decide_true, not_true, decide_false, Bool.false_and,
        Bool.false_eq_true, not_false_eq_true, if_true, if_false, List.length_cons]
      omega
    · by_cases hs : e.1 ∈ seen <;>
        simp only [List.filter_cons, he, hs, decide_false, decide_true, not_true,
          not_false_eq_true, Bool.and_false, Bool.and_true, Bool.false_eq_true, if_true, if_false,
          List.length_cons] <;> omega

theorem potential_expand (stack : List V) {seen : Finset V} {v : V} (hv : v ∉ seen) :
    potential edges ((targets edges v).reverse ++ stack) (insert v seen) + 1 =
      potential edges (v :: stack) seen := by
  have := length_filter_insert edges hv
  simp only [potential, List.length_append, List.length_reverse, List.length_cons]
  omega

/-- The invariant of the search: expanded vertices have their targets expanded or on
the stack, and none of them is one to stop at. -/
structure Inv (stop : V → Bool) (stack : List V) (seen : Finset V) : Prop where
  /-- Targets of expanded vertices are not forgotten. -/
  targets : ∀ v ∈ seen, ∀ w, Edge edges v w → w ∈ seen ∨ w ∈ stack
  /-- The search did not stop at an expanded vertex. -/
  going : ∀ v ∈ seen, stop v = false

variable {edges} {stop : V → Bool}

omit [DecidableEq V] in
theorem Inv.skip {v : V} {stack : List V} {seen : Finset V} (h : Inv edges stop (v :: stack) seen)
    (hv : v ∈ seen) : Inv edges stop stack seen := by
  refine ⟨fun u hu w hw => ?_, h.going⟩
  rcases h.targets u hu w hw with hs | hs
  · exact .inl hs
  · rcases List.mem_cons.mp hs with rfl | hs
    · exact .inl hv
    · exact .inr hs

theorem Inv.expand {v : V} {stack : List V} {seen : Finset V} (h : Inv edges stop (v :: stack) seen)
    (hv : stop v = false) :
    Inv edges stop ((Reach.targets edges v).reverse ++ stack) (insert v seen) := by
  refine ⟨fun u hu w hw => ?_, fun u hu => ?_⟩
  · rcases Finset.mem_insert.mp hu with rfl | hu
    · exact .inr (List.mem_append_left _ (List.mem_reverse.mpr ((mem_targets edges).mpr hw)))
    · rcases h.targets u hu w hw with hs | hs
      · exact .inl (Finset.mem_insert_of_mem hs)
      · rcases List.mem_cons.mp hs with rfl | hs
        · exact .inl (Finset.mem_insert_self ..)
        · exact .inr (List.mem_append_right _ hs)
  · rcases Finset.mem_insert.mp hu with rfl | hu
    · exact hv
    · exact h.going u hu

/-- A search that ran to its end found a set that contains the stack and what was
seen, is closed under the edges and has no vertex to stop at. -/
theorem explore_closed {n : ℕ} : ∀ {stack : List V} {seen found : Finset V},
    Inv edges stop stack seen → potential edges stack seen ≤ n →
    explore edges stop n stack seen = some found →
      seen ⊆ found ∧ (∀ v ∈ stack, v ∈ found) ∧ Inv edges stop [] found := by
  induction n with
  | zero =>
    intro stack seen found hI hp h
    obtain rfl : stack = [] := List.length_eq_zero_iff.mp (by simp only [potential] at hp; omega)
    simp only [explore, Option.some.injEq] at h
    subst h
    exact ⟨Finset.Subset.refl _, by simp, hI⟩
  | succ n ih =>
    intro stack seen found hI hp h
    cases stack with
    | nil =>
      simp only [explore, Option.some.injEq] at h
      subst h
      exact ⟨Finset.Subset.refl _, by simp, hI⟩
    | cons v stack =>
      simp only [explore] at h
      split_ifs at h with hstop hseen
      · have hp' : potential edges stack seen ≤ n := by
          simp only [potential, List.length_cons] at hp ⊢; omega
        obtain ⟨h1, h2, h3⟩ := ih (hI.skip hseen) hp' h
        refine ⟨h1, fun u hu => ?_, h3⟩
        rcases List.mem_cons.mp hu with rfl | hu
        · exact h1 hseen
        · exact h2 u hu
      · have hp' := potential_expand edges stack hseen
        obtain ⟨h1, h2, h3⟩ := ih (hI.expand (by simpa using hstop)) (by omega) h
        refine ⟨fun u hu => h1 (Finset.mem_insert_of_mem hu), fun u hu => ?_, h3⟩
        rcases List.mem_cons.mp hu with rfl | hu
        · exact h1 (Finset.mem_insert_self ..)
        · exact h2 u (List.mem_append_right _ hu)

omit [DecidableEq V] in
/-- A closed set contains what can be reached from it. -/
theorem Inv.mem_of_reach {found : Finset V} (h : Inv edges stop [] found) {a b : V} (ha : a ∈ found)
    (hab : ReflTransGen (Edge edges) a b) : b ∈ found := by
  induction hab with
  | refl => exact ha
  | tail _ hbc ih =>
    rcases h.targets _ ih _ hbc with hs | hs
    · exact hs
    · simp at hs

/-- **Completeness**: a search that ran to its end from `a` found everything that can
be reached from `a`, and no vertex to stop at is among it. -/
theorem explore_complete {n : ℕ} {a : V} {found : Finset V} (hn : edges.length + 1 ≤ n)
    (h : explore edges stop n [a] ∅ = some found) {b : V} (hab : ReflTransGen (Edge edges) a b) :
    b ∈ found ∧ stop b = false := by
  have hp : potential edges [a] ∅ ≤ n := by
    simp only [potential, Finset.notMem_empty, not_false_eq_true, decide_true, List.filter_true,
      List.length_singleton]
    omega
  obtain ⟨-, h2, h3⟩ := explore_closed ⟨by simp, by simp⟩ hp h
  have hb := h3.mem_of_reach (h2 a (by simp)) hab
  exact ⟨hb, h3.going b hb⟩

/-! ### Soundness -/

/-- What holds at the start and is carried along edges holds of all that is found, and of where
the search stops. -/
theorem explore_sound {P : V → Prop} (hP : ∀ v w, P v → Edge edges v w → P w) {n : ℕ} :
    ∀ {stack : List V} {seen : Finset V}, (∀ v ∈ stack, P v) → (∀ v ∈ seen, P v) →
      (∀ found, explore edges stop n stack seen = some found → ∀ v ∈ found, P v) ∧
        (explore edges stop n stack seen = none → ∃ v, P v ∧ stop v = true) := by
  induction n with
  | zero =>
    intro stack seen _ hseen
    refine ⟨fun found h => ?_, fun h => by simp [explore] at h⟩
    cases h
    exact hseen
  | succ n ih =>
    intro stack seen hstack hseen
    cases stack with
    | nil =>
      refine ⟨fun found h => ?_, fun h => by simp [explore] at h⟩
      cases h
      exact hseen
    | cons v stack =>
      obtain ⟨hv, hstack⟩ := List.forall_mem_cons.mp hstack
      simp only [explore]
      split_ifs with hstop hmem
      · exact ⟨fun _ h => (nomatch h), fun _ => ⟨v, hv, hstop⟩⟩
      · exact ih hstack hseen
      · refine ih (fun w hw => ?_) (fun w hw => ?_)
        · rcases List.mem_append.mp hw with hw | hw
          · exact hP v w hv ((mem_targets edges).mp (List.mem_reverse.mp hw))
          · exact hstack w hw
        · rcases Finset.mem_insert.mp hw with rfl | hw
          · exact hv
          · exact hseen w hw

/-- A search without a vertex to stop at finds exactly what can be reached. -/
theorem mem_explore {n : ℕ} {a : V} {found : Finset V} (hn : edges.length + 1 ≤ n)
    (h : explore edges stop n [a] ∅ = some found) {b : V} :
    b ∈ found ↔ ReflTransGen (Edge edges) a b := by
  refine ⟨fun hb => ?_, fun hab => (explore_complete hn h hab).1⟩
  exact (explore_sound (P := ReflTransGen (Edge edges) a) (fun _ _ => .tail)
    (by simp [ReflTransGen.refl]) (by simp)).1 found h b hb

/-- A search that was given up found a vertex to stop at. -/
theorem exists_of_explore_none {n : ℕ} {a : V} (h : explore edges stop n [a] ∅ = none) :
    ∃ b, ReflTransGen (Edge edges) a b ∧ stop b = true :=
  (explore_sound (P := ReflTransGen (Edge edges) a) (fun _ _ => .tail)
    (by simp [ReflTransGen.refl]) (by simp)).2 h

/-! ### Saturation -/

/-- Add the target of an edge whose source is in the set. -/
def addTarget (seen : Finset V) (e : V × V) : Finset V := if e.1 ∈ seen then insert e.2 seen else seen

/-- Passes over the edges until one adds nothing. -/
def saturate (edges : List (V × V)) : ℕ → Finset V → Finset V
  | 0, seen => seen
  | n + 1, seen =>
    let next := edges.foldl addTarget seen
    if next = seen then seen else saturate edges n next

theorem subset_foldl_addTarget (es : List (V × V)) (seen : Finset V) : seen ⊆ es.foldl addTarget seen := by
  induction es generalizing seen with
  | nil => exact Finset.Subset.refl _
  | cons e es ih =>
    refine Finset.Subset.trans ?_ (ih _)
    unfold addTarget
    split_ifs
    · exact Finset.subset_insert ..
    · exact Finset.Subset.refl _

/-- A pass adds only targets of edges out of the set it ends with. -/
theorem foldl_addTarget_sound {P : V → Prop} (hP : ∀ v w, P v → Edge edges v w → P w) :
    ∀ {es : List (V × V)} {seen : Finset V}, es ⊆ edges → (∀ v ∈ seen, P v) →
      ∀ v ∈ es.foldl addTarget seen, P v := by
  intro es
  induction es with
  | nil => intro _ _ h; exact h
  | cons e es ih =>
    intro seen hes h
    obtain ⟨he, hes⟩ := List.cons_subset.mp hes
    refine ih hes fun v hv => ?_
    unfold addTarget at hv
    split_ifs at hv with hmem
    · rcases Finset.mem_insert.mp hv with rfl | hv
      · exact hP _ _ (h _ hmem) he
      · exact h v hv
    · exact h v hv

/-- After a pass that adds nothing the set is closed. -/
theorem closed_of_foldl_eq {seen : Finset V} : ∀ {es : List (V × V)}, es.foldl addTarget seen = seen →
    ∀ e ∈ es, e.1 ∈ seen → e.2 ∈ seen := by
  intro es
  induction es with
  | nil => simp
  | cons e es ih =>
    intro h
    have hadd : addTarget seen e = seen := by
      refine Finset.Subset.antisymm ?_ ?_
      · conv_rhs => rw [← h]
        exact subset_foldl_addTarget es _
      · exact subset_foldl_addTarget [e] seen
    rw [List.foldl_cons, hadd] at h
    refine List.forall_mem_cons.mpr ⟨fun hmem => ?_, ih h⟩
    rw [addTarget, if_pos hmem] at hadd
    rw [← hadd]
    exact Finset.mem_insert_self ..

/-- Every pass but the last adds a target of an edge. -/
theorem saturate_closed {n : ℕ} : ∀ {seen : Finset V},
    (edges.filter fun e => e.2 ∉ seen).length < n →
      ∀ e ∈ edges, e.1 ∈ saturate edges n seen → e.2 ∈ saturate edges n seen := by
  induction n with
  | zero => intro seen h; omega
  | succ n ih =>
    intro seen h
    simp only [saturate]
    split_ifs with hnext
    · exact closed_of_foldl_eq hnext
    · refine ih (lt_of_lt_of_le ?_ (Nat.le_of_lt_succ h))
      have hsub := subset_foldl_addTarget edges seen
      obtain ⟨w, hw, hwseen⟩ := Finset.exists_of_ssubset (hsub.ssubset_of_ne (Ne.symm hnext))
      -- the vertex that was added is the target of an edge
      obtain hmem | ⟨e, he, rfl⟩ := foldl_addTarget_sound
        (P := fun v => v ∈ seen ∨ ∃ e ∈ edges, e.2 = v) (fun _ _ _ hvw => .inr ⟨_, hvw, rfl⟩)
        (List.Subset.refl edges) (fun v hv => .inl hv) w hw
      · exact absurd hmem hwseen
      have hfilter : edges.filter (fun e => e.2 ∉ edges.foldl addTarget seen) =
          (edges.filter fun e => e.2 ∉ seen).filter fun e => e.2 ∉ edges.foldl addTarget seen := by
        rw [List.filter_filter]
        refine List.filter_congr fun e _ => ?_
        by_cases h1 : e.2 ∈ seen
        · simp [h1, hsub h1]
        · simp [h1]
      rw [hfilter]
      exact List.length_filter_lt_length_iff_exists.mpr
        ⟨e, List.mem_filter.mpr ⟨he, by simpa using hwseen⟩, by simpa using hw⟩

theorem saturate_sound {P : V → Prop} (hP : ∀ v w, P v → Edge edges v w → P w) {n : ℕ} :
    ∀ {seen : Finset V}, (∀ v ∈ seen, P v) → ∀ v ∈ saturate edges n seen, P v := by
  induction n with
  | zero => intro _ h; exact h
  | succ n ih =>
    intro seen h
    simp only [saturate]
    split_ifs
    · exact h
    · exact ih (foldl_addTarget_sound hP (List.Subset.refl _) h)

theorem subset_saturate {n : ℕ} : ∀ (seen : Finset V), seen ⊆ saturate edges n seen := by
  induction n with
  | zero => exact fun seen => Finset.Subset.refl seen
  | succ n ih =>
    intro seen
    simp only [saturate]
    split_ifs
    · exact Finset.Subset.refl _
    · exact Finset.Subset.trans (subset_foldl_addTarget ..) (ih _)

/-- **Saturation finds exactly what can be reached.** -/
theorem mem_saturate {n : ℕ} {a b : V} (hn : edges.length + 1 ≤ n) :
    b ∈ saturate edges n {a} ↔ ReflTransGen (Edge edges) a b := by
  refine ⟨fun hb => ?_, fun hab => ?_⟩
  · exact saturate_sound (P := ReflTransGen (Edge edges) a) (fun _ _ => .tail)
      (by simp [ReflTransGen.refl]) b hb
  · have hclosed : ∀ e ∈ edges, e.1 ∈ saturate edges n {a} → e.2 ∈ saturate edges n {a} :=
      saturate_closed (lt_of_le_of_lt (List.length_filter_le ..) hn)
    induction hab with
    | refl => exact subset_saturate _ (Finset.mem_singleton_self a)
    | tail _ hbc ih => exact hclosed _ hbc ih

end Knolo.Library.Reach
