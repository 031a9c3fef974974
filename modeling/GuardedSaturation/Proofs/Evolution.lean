import Mathlib
import GuardedSaturation.Inference.Evolve
import GuardedSaturation.Proofs.Guards
import GuardedSaturation.Proofs.Renaming
import GuardedSaturation.Proofs.Unification.FunctionFree

/-! Evolution is sound, and its conclusions keep a guard. A resolvent is described by its final
unifier, the pairs that were joined and the atoms left over. -/
namespace GuardedSaturation

namespace Evolve
open Substitution Unifier

universe u
variable {M : Interpretation.{u}} {heads : List Atom} {existentials : List Variable}

/-- One way through the body atoms: each is left over or joined with a head atom. -/
inductive Joining (heads : List Atom) (existentials : List Variable) :
    List Atom → Substitution → Substitution → List Atom → List (Atom × Atom) → Prop
  | done (σ : Substitution) : Joining heads existentials [] σ σ [] []
  | skip {a : Atom} {rest left : List Atom} {σ σ' : Substitution} {pairs : List (Atom × Atom)}
      (tail : Joining heads existentials rest σ σ' left pairs) :
      Joining heads existentials (a :: rest) σ σ' (a :: left) pairs
  | join {a h : Atom} {rest left : List Atom} {σ τ σ' : Substitution} {pairs : List (Atom × Atom)}
      (member : h ∈ heads) (found : mostGeneral σ a h = some τ) (kept : intact existentials τ = true)
      (tail : Joining heads existentials rest τ σ' left pairs) :
      Joining heads existentials (a :: rest) σ σ' left ((a, h) :: pairs)

theorem mem_joins {body left : List Atom} {σ σ' : Substitution} :
    (σ', left) ∈ joins heads existentials body σ ↔
      ∃ pairs, Joining heads existentials body σ σ' left pairs := by
  induction body generalizing σ left with
  | nil =>
    simp only [joins, List.mem_singleton, Prod.mk.injEq]
    constructor
    · rintro ⟨rfl, rfl⟩
      exact ⟨[], .done _⟩
    · rintro ⟨pairs, joining⟩
      cases joining
      simp
  | cons a rest ih =>
    simp only [joins, List.mem_append, List.mem_map, List.mem_flatMap, Prod.mk.injEq]
    constructor
    · rintro (⟨⟨τ, left⟩, member, rfl, rfl⟩ | ⟨h, member, inside⟩)
      · obtain ⟨pairs, tail⟩ := ih.mp member
        exact ⟨pairs, .skip tail⟩
      · split at inside
        · next τ found =>
          split at inside
          · next kept =>
            obtain ⟨pairs, tail⟩ := ih.mp inside
            exact ⟨_, .join member found kept tail⟩
          · simp at inside
        · simp at inside
    · rintro ⟨pairs, joining⟩
      cases joining with
      | skip tail => exact .inl ⟨(σ', _), ih.mpr ⟨pairs, tail⟩, rfl, rfl⟩
      | @join _ h _ _ _ τ _ _ member found kept tail =>
        refine .inr ⟨h, member, ?_⟩
        rw [found]
        simp only [kept, if_true]
        exact ih.mpr ⟨_, tail⟩

namespace Joining
variable {body left : List Atom} {σ σ' : Substitution} {pairs : List (Atom × Atom)}

theorem length (joining : Joining heads existentials body σ σ' left pairs) :
    left.length + pairs.length = body.length := by
  induction joining with
  | done => rfl
  | skip tail ih => simp only [List.length_cons]; omega
  | join member found kept tail ih => simp only [List.length_cons]; omega

theorem mem_pairs (joining : Joining heads existentials body σ σ' left pairs) {p : Atom × Atom}
    (member : p ∈ pairs) : p.1 ∈ body ∧ p.2 ∈ heads := by
  induction joining with
  | done => simp at member
  | skip tail ih => exact ⟨List.mem_cons_of_mem _ (ih member).1, (ih member).2⟩
  | join inside found kept tail ih =>
    rcases List.mem_cons.mp member with rfl | member
    · exact ⟨List.mem_cons_self, inside⟩
    · exact ⟨List.mem_cons_of_mem _ (ih member).1, (ih member).2⟩

theorem mem_left (joining : Joining heads existentials body σ σ' left pairs) {a : Atom}
    (member : a ∈ left) : a ∈ body := by
  induction joining with
  | done => exact member
  | skip tail ih =>
    rcases List.mem_cons.mp member with rfl | member
    · exact List.mem_cons_self
    · exact List.mem_cons_of_mem _ (ih member)
  | join inside found kept tail ih => exact List.mem_cons_of_mem _ (ih member)

theorem left_or_joined (joining : Joining heads existentials body σ σ' left pairs) {a : Atom}
    (member : a ∈ body) : a ∈ left ∨ ∃ h, (a, h) ∈ pairs := by
  induction joining with
  | done => simp at member
  | skip tail ih =>
    rcases List.mem_cons.mp member with rfl | member
    · exact .inl List.mem_cons_self
    · exact (ih member).imp (List.mem_cons_of_mem _) id
  | @join b h _ _ _ _ _ _ inside found kept tail ih =>
    rcases List.mem_cons.mp member with rfl | member
    · exact .inr ⟨h, List.mem_cons_self⟩
    · exact (ih member).imp id (fun ⟨h, joined⟩ => ⟨h, List.mem_cons_of_mem _ joined⟩)

theorem first_pair (joining : Joining heads existentials body σ σ' left pairs) (some : pairs ≠ []) :
    ∃ a ∈ body, ∃ h ∈ heads, ∃ τ, mostGeneral σ a h = .some τ := by
  induction joining with
  | done => contradiction
  | skip tail ih =>
    obtain ⟨a, member, rest⟩ := ih some
    exact ⟨a, List.mem_cons_of_mem _ member, rest⟩
  | join inside found kept tail ih => exact ⟨_, List.mem_cons_self, _, inside, _, found⟩

theorem normal (joining : Joining heads existentials body σ σ' left pairs) (normal : Normal σ) :
    Normal σ' := by
  induction joining with
  | done => exact normal
  | skip tail ih => exact ih normal
  | join inside found kept tail ih => exact ih (mostGeneral_normal normal.acyclic found)

theorem solves (joining : Joining heads existentials body σ σ' left pairs) (acyclic : Acyclic σ)
    {v : M.Assignment} (solves : Solves M v σ') :
    Solves M v σ ∧ ∀ p ∈ pairs, M.fact v p.1 = M.fact v p.2 := by
  induction joining with
  | done => exact ⟨solves, by simp⟩
  | skip tail ih => exact ih acyclic solves
  | join inside found kept tail ih =>
    obtain ⟨later, equal⟩ := ih (mostGeneral_normal acyclic found).acyclic solves
    obtain ⟨earlier, first⟩ := mostGeneral_solves acyclic found later
    exact ⟨earlier, by simpa using ⟨first, fun a b member => equal (a, b) member⟩⟩

theorem unifies (joining : Joining heads existentials body σ σ' left pairs) (start : Normal σ)
    {p : Atom × Atom} (member : p ∈ pairs) : p.1.subst σ'.image = p.2.subst σ'.image := by
  have equal := (joining.solves start.acyclic (joining.normal start).solves_image).2 p member
  rw [Interpretation.fact_free, Interpretation.fact_free, Prod.mk.injEq] at equal
  exact Atom.eq_iff.mpr equal

theorem flat {W : Variable → Prop} (joining : Joining heads existentials body σ σ' left pairs)
    (flat : Flat W σ) (bodyPlain : ∀ a ∈ body, a.isFunctional = false)
    (headsPlain : ∀ h ∈ heads, h.isFunctional = false) (within : ∀ h ∈ heads, ∀ y ∈ h.vars, W y) :
    Flat W σ' := by
  induction joining with
  | done => exact flat
  | skip tail ih => exact ih flat (fun a member => bodyPlain a (List.mem_cons_of_mem _ member))
  | @join a h _ _ _ _ _ _ inside found kept tail ih =>
    have flat := mostGeneral_flat flat (bodyPlain a List.mem_cons_self) (headsPlain h inside)
      (within h inside) found
    exact ih flat (fun a member => bodyPlain a (List.mem_cons_of_mem _ member))

end Joining

theorem intact_iff {σ : Substitution} :
    intact existentials σ = true ↔ ∀ e ∈ existentials, σ.get? e = none := by
  simp [intact, SortedMap.contains]

theorem mentionsAny_iff {xs : List Variable} {t : Term} :
    mentionsAny xs t = true ↔ ∃ x ∈ xs, x ∈ t.vars := by
  simp [mentionsAny]

structure Admissible (t : Tgd) (σ : Substitution) (left : List Atom) : Prop where
  unbound : ∀ e ∈ t.existentials, σ.get? e = none
  universal : ∀ x ∈ t.universals, ∀ e ∈ t.existentials, e ∉ (σ.image x).vars
  leftover : ∀ a ∈ left, ∀ e ∈ t.existentials, e ∉ (a.subst σ.image).vars

theorem admissible_iff {t : Tgd} {σ : Substitution} {left : List Atom} :
    admissible t σ left = true ↔ Admissible t σ left := by
  have parts : admissible t σ left = true ↔
      (∀ e ∈ t.existentials, σ.get? e = none) ∧
      (∀ x ∈ t.universals, ∀ e ∈ t.existentials, e ∉ (σ.image x).vars) ∧
      ∀ a ∈ left, ∀ e ∈ t.existentials, e ∉ (a.subst σ.image).vars := by
    rw [admissible, Bool.and_eq_true, Bool.and_eq_true, intact_iff, and_assoc]
    refine and_congr_right' (and_congr ?_ ?_)
    · simp [mentionsAny]
    · simp only [List.all_eq_true, Bool.not_eq_true', List.any_eq_false, mentionsAny_iff, not_exists,
        not_and, Substitution.applyAtom, Atom.mem_vars]
      exact forall₂_congr (fun a _ => ⟨fun h e inside t member => h t member e inside,
        fun h t member e inside => h e inside t member⟩)
  rw [parts]
  constructor
  · intro conditions
    exact ⟨conditions.1, conditions.2.1, conditions.2.2⟩
  · intro conditions
    exact ⟨conditions.unbound, conditions.universal, conditions.leftover⟩

end Evolve

open Evolve Substitution

theorem mem_evolve {nonFull full t : Tgd} :
    t ∈ evolve nonFull full ↔
      ∃ σ left pairs, Joining nonFull.head.toList nonFull.existentials
          (full.renameApart stem nonFull).body.toList ∅ σ left pairs ∧ pairs ≠ [] ∧
        Admissible nonFull σ left ∧
        t = σ.applyTgd ⟨nonFull.body ∪ .ofList left, nonFull.head ∪ (full.renameApart stem nonFull).head⟩ := by
  simp only [evolve, SortedSet.mem_toList, SortedSet.mem_ofList, List.mem_filterMap, Prod.exists,
    Option.ite_none_right_eq_some, Option.some.injEq, Bool.and_eq_true, decide_eq_true_eq, mem_joins,
    admissible_iff]
  constructor
  · rintro ⟨σ, left, ⟨pairs, joining⟩, ⟨fewer, admissible⟩, rfl⟩
    refine ⟨σ, left, pairs, joining, ?_, admissible, rfl⟩
    rintro rfl
    have := joining.length
    simp only [List.length_nil] at this
    omega
  · rintro ⟨σ, left, pairs, joining, some, admissible, rfl⟩
    have := joining.length
    have := List.length_pos_of_ne_nil some
    exact ⟨σ, left, ⟨pairs, joining⟩, ⟨by omega, admissible⟩, rfl⟩

theorem image_of_unbound {σ : Substitution} {x : Variable} (unbound : σ.get? x = none) :
    σ.image x = .var x := by
  simp [image, unbound]

theorem Evolve.Admissible.spares {σ : Substitution} {left : List Atom} {t : Tgd} (admissible : Admissible t σ left) :
    Spares σ.image t.existentials (· ∈ AtomSet.vars (t.body ∪ .ofList left)) := by
  refine ⟨fun e existential => image_of_unbound (admissible.unbound e existential), fun x inside e existential image => ?_⟩
  rcases AtomSet.mem_vars_union.mp inside with universal | leftover
  · exact admissible.universal x universal e existential image
  · obtain ⟨a, member, mentioned⟩ := AtomSet.mem_vars.mp leftover
    exact admissible.leftover a (SortedSet.mem_ofList.mp member) e existential (Atom.mem_vars_subst.mpr ⟨x, mentioned, image⟩)

namespace Structure
universe u
variable {M : Structure.{u}} {nonFull full t : Tgd}

/-- What is concluded from joins holds wherever both rules do, if the unifier spares the existential variables of the
second rule as well. -/
theorem models_of_joining {σ : Substitution} {left : List Atom} {pairs : List (Atom × Atom)}
    (joining : Joining nonFull.head.toList nonFull.existentials full.body.toList ∅ σ left pairs)
    (admissible : Admissible nonFull σ left) (spares : Spares σ.image full.existentials (nonFull.Scope full))
    (first : M.Models nonFull) (second : M.Models full) :
    M.Models (σ.applyTgd ⟨nonFull.body ∪ .ofList left, nonFull.head ∪ full.head⟩) := by
  have part : (SortedSet.ofList left : AtomSet) ⊆ full.body := fun a member => joining.mem_left (SortedSet.mem_ofList.mp member)
  intro v body
  have old := satisfiesAll_subst.mpr (satisfiesAll_union.mp (satisfiesAll_subst.mp body)).1
  -- The existential variables take the witnesses of the first rule, and then of the second one.
  obtain ⟨v', same, head⟩ :=
    first.exists_instance (admissible.spares.mono fun _ universal => AtomSet.mem_vars_union.mpr (.inl universal)) old
  have rest := (satisfiesAll_subst_congr admissible.spares same (fun _ => id)).mpr body
  have fullBody : M.SatisfiesAll v' (full.body.subst σ.image) := by
    apply satisfiesAll_subst.mpr
    intro a inside
    rcases joining.left_or_joined inside with leftover | ⟨h, joined⟩
    · exact satisfiesAll_subst.mp rest a (SortedSet.mem_union.mpr (.inr (SortedSet.mem_ofList.mpr leftover)))
    · rw [← satisfies_subst, joining.unifies normal_empty joined, satisfies_subst]
      exact satisfiesAll_subst.mp head h (joining.mem_pairs joined).2
  obtain ⟨w, same', fullHead⟩ := second.exists_instance (spares.mono fun _ => .inr) fullBody
  have head := (satisfiesAll_subst_congr spares same' (fun _ inside => .inl (Tgd.mem_vars_of_head inside))).mpr head
  refine ⟨w, fun y universal => ?_,
    satisfiesAll_subst.mpr (satisfiesAll_union.mpr ⟨satisfiesAll_subst.mp head, satisfiesAll_subst.mp fullHead⟩)⟩
  obtain ⟨x, inside, image⟩ := AtomSet.mem_vars_subst.mp universal
  rw [same' y (fun e => spares.absent x (Tgd.scope_of_mem part inside) y e image)]
  exact same y (fun e => admissible.spares.absent x inside y e image)

/-- Resolvents of a rule with a full one hold wherever both rules do. -/
theorem models_evolve (isFull : full.isFull = true) (first : M.Models nonFull) (second : M.Models full)
    (member : t ∈ evolve nonFull full) : M.Models t := by
  obtain ⟨σ, left, pairs, joining, -, admissible, rfl⟩ := mem_evolve.mp member
  have none : (full.renameApart stem nonFull).existentials = [] := Tgd.isFull_iff.mp (Tgd.isFull_renameApart isFull)
  exact models_of_joining joining admissible ⟨by simp [none], by simp [none]⟩ first (models_renameApart.mpr second)

end Structure

namespace Tgd
variable {nonFull full t : Tgd}

/-- A variable in the image of a head atom is existential, or in the image of a body variable. -/
theorem existential_or_image {σ : Substitution} {left : List Atom} (admissible : Admissible nonFull σ left)
    {h : Atom} (member : h ∈ nonFull.head) {y : Variable} (mentions : y ∈ (h.subst σ.image).vars) :
    y ∈ nonFull.existentials ∨ ∃ x ∈ nonFull.body.vars, y ∈ (σ.image x).vars := by
  obtain ⟨x, inside, image⟩ := Atom.mem_vars_subst.mp mentions
  by_cases universal : x ∈ nonFull.body.vars
  · exact .inr ⟨x, universal, image⟩
  · have existential : x ∈ nonFull.existentials :=
      mem_existentials.mpr ⟨AtomSet.mem_vars_of_mem member inside, universal⟩
    rw [image_of_unbound (admissible.unbound x existential), Term.vars_var, List.mem_singleton] at image
    exact .inl (image ▸ existential)

/-- The existential variables of a resolvent are those of the first rule. -/
theorem mem_existentials_of_joining {σ : Substitution} {left : List Atom} {pairs : List (Atom × Atom)}
    (isFull : full.isFull = true)
    (joining : Joining nonFull.head.toList nonFull.existentials full.body.toList ∅ σ left pairs)
    (admissible : Admissible nonFull σ left) {y : Variable}
    (existential : y ∈ (σ.applyTgd ⟨nonFull.body ∪ .ofList left, nonFull.head ∪ full.head⟩).existentials) :
    y ∈ nonFull.existentials := by
  obtain ⟨inside, absent⟩ := mem_existentials.mp existential
  have ofHead {h : Atom} (member : h ∈ nonFull.head) (mentions : y ∈ (h.subst σ.image).vars) :
      y ∈ nonFull.existentials := by
    refine (existential_or_image admissible member mentions).resolve_right (fun ⟨x, universal, image⟩ => ?_)
    obtain ⟨a, inside, mentions⟩ := AtomSet.mem_vars.mp universal
    exact absurd (AtomSet.mem_vars_subst.mpr ⟨x, AtomSet.mem_vars_of_mem
      (SortedSet.mem_union.mpr (.inl inside)) mentions, image⟩) absent
  obtain ⟨x, inside, image⟩ := AtomSet.mem_vars_subst.mp inside
  obtain ⟨h, member, mentions⟩ := AtomSet.mem_vars.mp inside
  rcases SortedSet.mem_union.mp member with old | new
  · exact ofHead old (Atom.mem_vars_subst.mpr ⟨x, mentions, image⟩)
  · obtain ⟨a, present, mentions⟩ := AtomSet.mem_vars.mp (isFull_eq_true.mp isFull x (AtomSet.mem_vars_of_mem new mentions))
    rcases joining.left_or_joined present with leftover | ⟨h, joined⟩
    · exact absurd (AtomSet.mem_vars_subst.mpr ⟨x, AtomSet.mem_vars_of_mem
        (SortedSet.mem_union.mpr (.inr (SortedSet.mem_ofList.mpr leftover))) mentions, image⟩) absent
    · -- A joined atom has the image of an atom of the first head.
      refine ofHead (joining.mem_pairs joined).2 ?_
      rw [← joining.unifies normal_empty joined]
      exact Atom.mem_vars_subst.mpr ⟨x, mentions, image⟩

theorem Guarded.renameApart (guarded : t.Guarded) (stem : String) (other : Tgd) :
    (t.renameApart stem other).Guarded := by
  rw [renameApart_eq]
  exact guarded.subst _

/-- The unifier of joins between rules without function terms has no function terms. -/
theorem flat_of_joining {σ : Substitution} {left : List Atom} {pairs : List (Atom × Atom)}
    (firstFree : nonFull.isFunctionFree = true) (secondFree : full.isFunctionFree = true)
    (joining : Joining nonFull.head.toList nonFull.existentials full.body.toList ∅ σ left pairs) :
    Unifier.Flat (fun x => x ∈ nonFull.vars) σ :=
  joining.flat ⟨acyclic_empty, Substitution.every_empty, keeps_empty _⟩ (isFunctionFree_eq_true.mp secondFree).1
    (isFunctionFree_eq_true.mp firstFree).2
    (fun _ member _ inside => mem_vars_of_head (AtomSet.mem_vars_of_mem member inside))

theorem isFunctionFree_evolve (firstFree : nonFull.isFunctionFree = true)
    (secondFree : full.isFunctionFree = true) (member : t ∈ evolve nonFull full) :
    t.isFunctionFree = true := by
  obtain ⟨σ, left, pairs, joining, -, -, rfl⟩ := mem_evolve.mp member
  have secondFree := isFunctionFree_renameApart stem nonFull secondFree
  have flat := flat_of_joining firstFree secondFree joining
  refine isFunctionFree_subst ?_ flat.plain.image
  rw [isFunctionFree_eq_true] at *
  constructor <;> intro a inside <;> rcases SortedSet.mem_union.mp inside with inside | inside
  · exact firstFree.1 a inside
  · exact secondFree.1 a (joining.mem_left (SortedSet.mem_ofList.mp inside))
  · exact firstFree.2 a inside
  · exact secondFree.2 a inside

/-- Where every head atom mentions an existential variable, some variable of the other rule becomes one. -/
theorem exists_existential_image {σ : Substitution} {left : List Atom} {pairs : List (Atom × Atom)}
    (joining : Joining nonFull.head.toList nonFull.existentials full.body.toList ∅ σ left pairs)
    (admissible : Admissible nonFull σ left) (some : pairs ≠ [])
    (inventive : ∀ h ∈ nonFull.head, ∃ e ∈ h.vars, e ∉ nonFull.body.vars) :
    ∃ z ∈ full.body.vars, ∃ e ∈ nonFull.existentials, e ∈ (σ.image z).vars := by
  obtain ⟨⟨a, h⟩, joined⟩ := List.exists_mem_of_ne_nil _ some
  obtain ⟨aInside, hInside⟩ := joining.mem_pairs joined
  obtain ⟨e, inside, absent⟩ := inventive h hInside
  have existential : e ∈ nonFull.existentials :=
    mem_existentials.mpr ⟨AtomSet.mem_vars_of_mem hInside inside, absent⟩
  have mentions : e ∈ (a.subst σ.image).vars := by
    rw [joining.unifies normal_empty joined]
    exact Atom.mem_vars_subst.mpr ⟨e, inside, by simp [image_of_unbound (admissible.unbound e existential)]⟩
  obtain ⟨z, zInside, image⟩ := Atom.mem_vars_subst.mp mentions
  exact ⟨z, AtomSet.mem_vars_of_mem aInside zInside, e, existential, image⟩

/-- Where every head atom of one rule mentions an existential variable, the body variables of resolvents with a
guarded rule come from its own body variables. -/
theorem image_of_joining (secondGuarded : full.Guarded)
    (inventive : ∀ h ∈ nonFull.head, ∃ e ∈ h.vars, e ∉ nonFull.body.vars) {σ : Substitution} {left : List Atom}
    {pairs : List (Atom × Atom)} (joining : Joining nonFull.head.toList nonFull.existentials full.body.toList ∅ σ left pairs)
    (some : pairs ≠ []) (admissible : Admissible nonFull σ left) {y : Variable}
    (universal : y ∈ ((nonFull.body ∪ .ofList left).subst σ.image).vars) :
    ∃ x ∈ nonFull.body.vars, y ∈ (σ.image x).vars := by
  obtain ⟨G, guardInside, covers⟩ := secondGuarded
  -- The guard of the second rule is joined: left over, it would mention an existential variable.
  obtain ⟨z, zInside, e, existential, image⟩ := exists_existential_image joining admissible some inventive
  obtain ⟨h, joined⟩ : ∃ h, (G, h) ∈ pairs := by
    refine (joining.left_or_joined guardInside).resolve_left (fun leftover => ?_)
    exact admissible.leftover G leftover e existential (Atom.mem_vars_subst.mpr ⟨z, covers z zInside, image⟩)
  have equal := joining.unifies normal_empty joined
  obtain ⟨x, inside, image⟩ := AtomSet.mem_vars_subst.mp universal
  obtain ⟨a, member, mentions⟩ := AtomSet.mem_vars.mp inside
  rcases SortedSet.mem_union.mp member with old | leftover
  · exact ⟨x, AtomSet.mem_vars_of_mem old mentions, image⟩
  · -- So what the variables of an atom left over become is in the image of the head atom joined with the guard.
    have leftover := SortedSet.mem_ofList.mp leftover
    have inGuard := covers x (AtomSet.mem_vars_of_mem (joining.mem_left leftover) mentions)
    have inHead : y ∈ (h.subst σ.image).vars := equal ▸ Atom.mem_vars_subst.mpr ⟨x, inGuard, image⟩
    refine (existential_or_image admissible (joining.mem_pairs joined).2 inHead).resolve_left (fun existential => ?_)
    exact admissible.leftover a leftover y existential (Atom.mem_vars_subst.mpr ⟨x, mentions, image⟩)

/-- Where every head atom of one rule mentions an existential variable, resolvents with a guarded
rule are guarded again. -/
theorem guarded_evolve (firstGuarded : nonFull.Guarded) (secondGuarded : full.Guarded)
    (inventive : ∀ h ∈ nonFull.head, ∃ e ∈ h.vars, e ∉ nonFull.body.vars)
    (member : t ∈ evolve nonFull full) : t.Guarded := by
  obtain ⟨σ, left, pairs, joining, some, admissible, rfl⟩ := mem_evolve.mp member
  obtain ⟨g, inside, covers⟩ := firstGuarded
  refine ⟨g.subst σ.image, AtomSet.mem_subst.mpr ⟨g, SortedSet.mem_union.mpr (.inl inside), rfl⟩, ?_⟩
  intro y universal
  obtain ⟨x, universal, image⟩ :=
    image_of_joining (secondGuarded.renameApart stem nonFull) inventive joining some admissible universal
  exact Atom.mem_vars_subst.mpr ⟨x, covers x universal, image⟩

end Tgd
end GuardedSaturation
