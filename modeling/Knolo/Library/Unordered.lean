import Knolo.Library.JsonText
import Mathlib.Data.List.Perm.Basic

/-!
# JSON up to the order of members

Two values are similar if they are the same but for the order in which the members of their objects stand,
at every depth. To tell similar values from others one arranges the members of every object in an order that
depends on nothing but the members (`Arranges`), and writes what comes of it.

* `arranged_eq_iff` — values are arranged alike if and only if they are similar.
* `text_arranged_eq_iff` — so are their texts.
-/

namespace Knolo.Library.JsonText

/-! ### Similar values -/

mutual

/-- The values differ at most in the order of members. -/
def Similar : Written → Written → Prop
  | .token cs, .token ds => cs = ds
  | .string s, .string t => s = t
  | .array vs, .array ws => ItemsSimilar vs ws
  | .object ms, .object ns => ∃ ns', ns'.Perm ns ∧ MembersSimilar ms ns'
  | _, _ => False
termination_by structural v => v

/-- Item by item. -/
def ItemsSimilar : List Written → List Written → Prop
  | [], [] => True
  | v :: vs, w :: ws => Similar v w ∧ ItemsSimilar vs ws
  | _, _ => False

/-- Member by member, with the same keys. -/
def MembersSimilar : List (String × Written) → List (String × Written) → Prop
  | [], [] => True
  | (k, v) :: ms, (l, w) :: ns => k = l ∧ Similar v w ∧ MembersSimilar ms ns
  | _, _ => False

end

mutual

/-- The keys of every object are distinct. -/
def Distinct : Written → Prop
  | .token _ | .string _ => True
  | .array vs => ItemsDistinct vs
  | .object ms => (ms.map Prod.fst).Nodup ∧ MembersDistinct ms
termination_by structural v => v

/-- The same of all items. -/
def ItemsDistinct : List Written → Prop
  | [] => True
  | v :: vs => Distinct v ∧ ItemsDistinct vs

/-- The same of all members. -/
def MembersDistinct : List (String × Written) → Prop
  | [] => True
  | (_, v) :: ms => Distinct v ∧ MembersDistinct ms

end

/-! ### Arranging members -/

variable (arrange : List (String × Written) → List (String × Written))

mutual

/-- The value with the members of every object arranged. -/
def arranged : Written → Written
  | .token cs => .token cs
  | .string s => .string s
  | .array vs => .array (arrangedItems vs)
  | .object ms => .object (arrange (arrangedMembers ms))
termination_by structural v => v

/-- The same of all items. -/
def arrangedItems : List Written → List Written
  | [] => []
  | v :: vs => arranged v :: arrangedItems vs

/-- The same of all members. -/
def arrangedMembers : List (String × Written) → List (String × Written)
  | [] => []
  | (k, v) :: ms => (k, arranged v) :: arrangedMembers ms

end

/-- Members with distinct keys are arranged in an order that depends on nothing but the members. -/
structure Arranges : Prop where
  perm : ∀ ms, (arrange ms).Perm ms
  eq_of_perm : ∀ {ms ns}, (ms.map Prod.fst).Nodup → ms.Perm ns → arrange ms = arrange ns

variable {arrange} {ms ns : List (String × Written)}

theorem arrangedMembers_eq_map : arrangedMembers arrange ms = ms.map fun m => (m.1, arranged arrange m.2) := by
  induction ms with
  | nil => rfl
  | cons m ms ih => simp [arrangedMembers, ih]

@[simp] theorem keys_arrangedMembers : (arrangedMembers arrange ms).map Prod.fst = ms.map Prod.fst := by
  rw [arrangedMembers_eq_map, List.map_map]
  rfl

/-- Members that are arranged alike come of members in some order. -/
theorem exists_of_perm_arranged {ms' : List (String × Written)} (h : ms'.Perm (arrangedMembers arrange ns)) :
    ∃ ns', ns'.Perm ns ∧ ms' = arrangedMembers arrange ns' := by
  simp only [arrangedMembers_eq_map] at h ⊢
  obtain ⟨ns', hall, hperm⟩ := List.perm_comp_forall₂ (r := fun m n => m = (n.1, arranged arrange n.2)) h
    (List.forall₂_map_left_iff.mpr (List.forall₂_same.mpr fun _ _ => rfl))
  refine ⟨ns', hperm, ?_⟩
  clear h hperm
  induction hall with
  | nil => rfl
  | cons hm _ ih => rw [List.map_cons, ← hm, ← ih]

mutual

/-- **Values are arranged alike if and only if they are similar.** -/
theorem arranged_eq_iff (ha : Arranges arrange) : ∀ {v w : Written}, Distinct v →
    (arranged arrange v = arranged arrange w ↔ Similar v w)
  | .token cs, w, _ => by cases w <;> simp [arranged, Similar]
  | .string s, w, _ => by cases w <;> simp [arranged, Similar]
  | .array vs, w, hv => by
    cases w with
    | array ws => simpa [arranged, Similar] using arrangedItems_eq_iff ha hv
    | _ => simp [arranged, Similar]
  | .object ms, w, hv => by
    cases w with
    | object ns =>
      simp only [arranged, Similar, Written.object.injEq]
      constructor
      · intro h
        have hperm := (ha.perm _).symm.trans ((List.Perm.of_eq h).trans (ha.perm _))
        obtain ⟨ns', hns, heq⟩ := exists_of_perm_arranged hperm
        exact ⟨ns', hns, (arrangedMembers_eq_iff ha hv.2).mp heq⟩
      · rintro ⟨ns', hns, hsim⟩
        have heq := (arrangedMembers_eq_iff ha hv.2).mpr hsim
        refine ha.eq_of_perm (by rw [keys_arrangedMembers]; exact hv.1) (heq ▸ ?_)
        simp only [arrangedMembers_eq_map]
        exact hns.map _
    | _ => simp [arranged, Similar]

theorem arrangedItems_eq_iff (ha : Arranges arrange) : ∀ {vs ws : List Written}, ItemsDistinct vs →
    (arrangedItems arrange vs = arrangedItems arrange ws ↔ ItemsSimilar vs ws)
  | [], ws, _ => by cases ws <;> simp [arrangedItems, ItemsSimilar]
  | v :: vs, ws, hv => by
    cases ws with
    | nil => simp [arrangedItems, ItemsSimilar]
    | cons w ws => simp [arrangedItems, ItemsSimilar, arranged_eq_iff ha hv.1, arrangedItems_eq_iff ha hv.2]

theorem arrangedMembers_eq_iff (ha : Arranges arrange) : ∀ {ms ns : List (String × Written)}, MembersDistinct ms →
    (arrangedMembers arrange ms = arrangedMembers arrange ns ↔ MembersSimilar ms ns)
  | [], ns, _ => by cases ns <;> simp [arrangedMembers, MembersSimilar]
  | (k, v) :: ms, ns, hv => by
    cases ns with
    | nil => simp [arrangedMembers, MembersSimilar]
    | cons n ns =>
      simp [arrangedMembers, MembersSimilar, arranged_eq_iff ha hv.1, arrangedMembers_eq_iff ha hv.2, and_assoc]

end

/-! ### Texts -/

theorem membersWellFormed_iff : MembersWellFormed ms ↔ ∀ m ∈ ms, m.2.WellFormed := by
  induction ms with
  | nil => simp [MembersWellFormed]
  | cons m ms ih => simp [MembersWellFormed, ih]

mutual

theorem wellFormed_arranged (ha : Arranges arrange) : ∀ {v : Written}, v.WellFormed → (arranged arrange v).WellFormed
  | .token _, hv => hv
  | .string _, hv => hv
  | .array _, hv => wellFormed_arrangedItems ha hv
  | .object _, hv => membersWellFormed_iff.mpr fun m hm =>
      membersWellFormed_iff.mp (wellFormed_arrangedMembers ha hv) m ((ha.perm _).mem_iff.mp hm)

theorem wellFormed_arrangedItems (ha : Arranges arrange) : ∀ {vs : List Written}, ItemsWellFormed vs →
    ItemsWellFormed (arrangedItems arrange vs)
  | [], hv => hv
  | _ :: _, hv => ⟨wellFormed_arranged ha hv.1, wellFormed_arrangedItems ha hv.2⟩

theorem wellFormed_arrangedMembers (ha : Arranges arrange) : ∀ {ms : List (String × Written)}, MembersWellFormed ms →
    MembersWellFormed (arrangedMembers arrange ms)
  | [], hv => hv
  | (_, _) :: _, hv => ⟨wellFormed_arranged ha hv.1, wellFormed_arrangedMembers ha hv.2⟩

end

/-- **The texts of arranged values are the same if and only if the values are similar.** -/
theorem text_arranged_eq_iff {escape : Char → List Char} (he : Escaping escape) (ha : Arranges arrange) {v w : Written}
    (hv : v.WellFormed) (hw : w.WellFormed) (hd : Distinct v) :
    text escape (arranged arrange v) = text escape (arranged arrange w) ↔ Similar v w := by
  rw [← arranged_eq_iff ha hd]
  exact ⟨text_injective he (wellFormed_arranged ha hv) (wellFormed_arranged ha hw), fun h => by rw [h]⟩

end Knolo.Library.JsonText
