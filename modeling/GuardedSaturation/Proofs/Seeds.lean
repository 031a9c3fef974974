import Mathlib
import GuardedSaturation.Proofs.Dependencies
import GuardedSaturation.Proofs.Guards
import GuardedSaturation.Proofs.Shapes.Skolem
import GuardedSaturation.Proofs.Skolemization.Witnesses
import GuardedSaturation.Saturation.Run

/-! The rules a run begins with, and the shape that they have. -/
namespace GuardedSaturation

namespace Shuffle

theorem exchange_perm {α : Type} (stream : Nat → UInt32) (n position : Nat) (items : Array α) :
    (exchange stream n position items).toList.Perm items.toList := by
  induction n generalizing position items with
  | zero => exact .refl _
  | succ n ih =>
    refine (ih _ _).trans ?_
    rw [Array.swapIfInBounds_def]
    split
    · split
      · exact (Array.swap_perm _ _).toList
      · exact .refl _
    · exact .refl _

theorem bySeed_perm {α : Type} (seed : Nat) (items : List α) : (bySeed seed items).Perm items :=
  (exchange_perm _ _ _ _).trans (by simp)

end Shuffle

namespace Dependency

theorem isFunctionFree_toTgd {ds : List Dependency} (ok : checkAll ds = .ok ()) {d : Dependency}
    (member : d ∈ ds) : d.toTgd.isFunctionFree = true := by
  have wellFormed := (checkAll_eq_ok_iff.mp ok).wellFormed d member
  have plain (a : Atom) (inside : a ∈ d.atoms) : a.isFunctional = false :=
    Atom.isFunctional_eq_false_iff_plain.mpr (wellFormed.plain a inside)
  refine Tgd.isFunctionFree_eq_true.mpr ⟨fun a inside => plain a ?_, fun a inside => plain a ?_⟩
  · exact List.mem_append_left _ (SortedSet.mem_ofList.mp inside)
  · exact List.mem_append_right _ (SortedSet.mem_ofList.mp inside)

end Dependency

namespace Tgd
variable {t p : Tgd}

theorem Skolemized.of_singleHeads (shape : t.Skolemized) (some : t.head.isEmpty = false)
    (member : p ∈ t.singleHeads) : p.Resolvable := by
  unfold singleHeads at member
  split at member
  · next small =>
    rw [List.mem_singleton] at member
    subst member
    obtain ⟨h, heads⟩ : ∃ h, p.head.toList = [h] := by
      rw [SortedSet.isEmpty, List.isEmpty_eq_false_iff] at some
      refine List.length_eq_one_iff.mp (Nat.le_antisymm small (List.length_pos_of_ne_nil some))
    exact ⟨shape, h, fun a => by rw [← SortedSet.mem_toList, heads, List.mem_singleton]⟩
  · obtain ⟨h, inside, rfl⟩ := List.mem_map.mp member
    refine ⟨shape.of_head rfl (fun a alone => ?_), h, fun a => SortedSet.mem_singleton⟩
    rw [SortedSet.mem_toList, SortedSet.mem_singleton] at alone
    exact alone ▸ inside

/-- A guarded rule without function terms is Skolemized by functions of all its universal
variables, and needs no functions if it is full. -/
theorem skolemized_replaceExistentials (z : Skolemizer) {args : List Variable} (free : t.isFunctionFree = true)
    (guarded : t.Guarded) (within : ∀ x ∈ args, x ∈ t.universals)
    (all : t.existentials = [] ∨ ∀ x ∈ t.universals, x ∈ args) : (z.replaceExistentials t args).1.Skolemized := by
  rw [isFunctionFree_eq_true] at free
  -- What an argument is: no function term, or a function of all universal variables.
  have argument (a : Atom) (member : a ∈ t.body ∨ a ∈ t.head.subst (z.witness t args)) (s : Term) (inside : s ∈ a.args) :
      s.isFunction = false ∨ ∃ f, s = .overVariables f args ∧ ∀ x ∈ t.universals, x ∈ args := by
    rcases member with member | member
    · exact .inl (Atom.isFunctional_eq_false.mp (free.1 a member) s inside)
    · obtain ⟨b, present, rfl⟩ := AtomSet.mem_subst.mp member
      rw [Atom.args_subst, List.mem_map] at inside
      obtain ⟨r, inside, rfl⟩ := inside
      have plain := Atom.isFunctional_eq_false.mp (free.2 b present) r inside
      obtain same | ⟨x, existential, image⟩ := z.subst_witness_cases t args plain
      · exact .inl (by rw [same, plain])
      · exact .inr ⟨_, image, all.resolve_left (List.ne_nil_of_mem existential)⟩
  refine ⟨z.isFull_replaceExistentials within, guarded.congr rfl,
    hasNested_eq_false.mpr (fun a member => Atom.hasNested_eq_false.mpr (fun s inside => ?_)),
    fun a member s inside function x universal => ?_⟩
  · obtain plain | ⟨f, rfl, -⟩ := argument a member s inside
    · exact Term.isNested_of_plain plain
    · simp [Term.overVariables, Term.isNested_app, Term.isFunction]
  · obtain plain | ⟨f, rfl, whole⟩ := argument a member s inside
    · rw [plain] at function
      cases function
    · simpa [Term.overVariables] using whole x universal

theorem isEmpty_subst {g : Variable → Term} {s : AtomSet} (some : s.isEmpty = false) :
    (s.subst g).isEmpty = false := by
  rw [SortedSet.isEmpty, List.isEmpty_eq_false_iff] at *
  obtain ⟨a, member⟩ := List.exists_mem_of_ne_nil _ some
  exact List.ne_nil_of_mem (SortedSet.mem_toList.mpr (AtomSet.mem_subst.mpr ⟨a, member, rfl⟩))

theorem skolemized_of_free (free : t.isFunctionFree = true) (full : t.isFull = true) (guarded : t.Guarded) :
    t.Skolemized := by
  rw [isFunctionFree_eq_true] at free
  have plain (a : Atom) (member : a ∈ t.body ∨ a ∈ t.head) : a.isFunctional = false :=
    member.elim (free.1 a) (free.2 a)
  refine ⟨full, guarded, hasNested_eq_false.mpr (fun a member => Atom.hasNested_of_plain (plain a member)), ?_⟩
  intro a member s inside function
  simp [Atom.isFunctional_eq_false.mp (plain a member) s inside] at function

theorem Resolvable.of_frontierProjected {z : Skolemizer} (free : t.isFunctionFree = true) (guarded : t.Guarded)
    (some : t.head.isEmpty = false) (member : p ∈ (z.frontierProjected t).1) : p.Resolvable := by
  unfold Skolemizer.frontierProjected at member
  split at member
  · next constraint =>
    rw [List.mem_singleton] at member
    subst member
    have full : p.isFull = true := isFull_of_whole (by simp [constraint])
    have shape := skolemized_of_free free full guarded
    apply shape.of_singleHeads some
    have one : p.head.size = 1 := by
      simp only [isConstraint, AtomSet.isFalsity, Bool.and_eq_true, decide_eq_true_eq] at constraint
      exact constraint.1
    simp [singleHeads, one]
  · split at member
    · next whole =>
      have all : t.existentials = [] ∨ ∀ x ∈ t.universals, x ∈ t.frontier := by
        rcases Bool.or_eq_true_iff.mp whole with none | short
        · exact .inl (List.isEmpty_iff.mp none)
        · right
          have same : t.frontier = t.universals :=
            List.filter_sublist.eq_of_length_le (of_decide_eq_true short)
          exact fun x inside => same ▸ inside
      have shape := skolemized_replaceExistentials z free guarded Skolemizer.frontier_subset all
      exact shape.of_singleHeads (isEmpty_subst some) member
    · -- The auxiliary atom over the frontier stands between the body and the head, and guards what is left behind it.
      rcases List.mem_cons.mp member with rfl | member
      · refine ⟨skolemized_of_free (Skolemizer.isFunctionFree_granting free) (isFull_eq_true.mpr (fun x inside => ?_))
          (guarded.congr rfl), z.auxiliary t, fun a => SortedSet.mem_singleton⟩
        exact (mem_frontier.mp (Skolemizer.mem_universals_behind.mp inside)).1
      · have guarded : (z.behind t).Guarded :=
          ⟨z.auxiliary t, SortedSet.mem_singleton.mpr rfl,
            fun x inside => Skolemizer.mem_vars_auxiliary.mpr (Skolemizer.mem_universals_behind.mp inside)⟩
        have whole (x : Variable) (inside : x ∈ (z.behind t).universals) : x ∈ (z.behind t).frontier :=
          mem_frontier.mpr ⟨inside, (mem_frontier.mp (Skolemizer.mem_universals_behind.mp inside)).2⟩
        have shape := skolemized_replaceExistentials z.next (Skolemizer.isFunctionFree_behind free) guarded
          Skolemizer.frontier_subset (.inr whole)
        exact shape.of_singleHeads (isEmpty_subst some) member

end Tgd

namespace Seeds

theorem mem_accepted {ds : List Dependency} {t : Tgd} :
    t ∈ accepted ds ↔ ∃ d ∈ ds, d.head ≠ [] ∧ d.toTgd.Guarded ∧ d.toTgd = t := by
  simp only [accepted, List.mem_filter, List.mem_map, Dependency.isTgd, Bool.not_eq_true',
    List.isEmpty_eq_false_iff, Tgd.guard?_isSome]
  constructor
  · rintro ⟨⟨d, ⟨member, some⟩, rfl⟩, guarded⟩
    exact ⟨d, member, some, guarded, rfl⟩
  · rintro ⟨d, member, some, guarded, rfl⟩
    exact ⟨⟨d, ⟨member, some⟩, rfl⟩, guarded⟩

theorem mem_ofInputs {config : Config} {ds : List Dependency} {t : Tgd} :
    t ∈ ofInputs config ds ↔ t ∈ expand config.algorithm {} (accepted ds) := by
  unfold ofInputs
  split
  · exact (Shuffle.bySeed_perm _ _).mem_iff
  · rfl

theorem exists_of_mem_expand {algorithm : Algorithm} {z : Skolemizer} {ts : List Tgd} {t : Tgd}
    (member : t ∈ expand algorithm z ts) : ∃ s ∈ ts, ∃ z', t ∈ (algorithm.seedsOf z' s).1 := by
  induction ts generalizing z with
  | nil => simp [expand] at member
  | cons s ts ih =>
    rcases List.mem_append.mp member with here | later
    · exact ⟨s, List.mem_cons_self, z, here⟩
    · obtain ⟨r, inside, found⟩ := ih later
      exact ⟨r, List.mem_cons_of_mem _ inside, found⟩

theorem exists_canonical {config : Config} {ds : List Dependency} (member : t ∈ ofInputs config ds) :
    ∃ p : Tgd, p.canonical = t := by
  obtain ⟨s, -, z, made⟩ := exists_of_mem_expand (mem_ofInputs.mp member)
  cases kind : config.algorithm <;> rw [kind] at made <;> obtain ⟨p, -, same⟩ := List.mem_map.mp made <;> exact ⟨_, same⟩

theorem mem_expand_existential {z : Skolemizer} {ts : List Tgd} {t : Tgd} :
    t ∈ expand .existential z ts ↔ ∃ s ∈ ts, t ∈ s.canonicalParts := by
  induction ts generalizing z with
  | nil => simp [expand]
  | cons s ts ih => simp [expand, Algorithm.seedsOf, ih]

end Seeds

namespace Algorithm

/-- The shape that all rules of a run have. -/
def Shape (algorithm : Algorithm) (t : Tgd) : Prop :=
  match algorithm with
  | .existential => t.Evolvable
  | .skolem | .orderedSkolem => t.Resolvable

variable {algorithm : Algorithm} {t rest : Tgd}

theorem Shape.guarded (shape : algorithm.Shape t) : t.Guarded :=
  match algorithm, shape with
  | .existential, shape => Tgd.Evolvable.guarded shape
  | .skolem, shape | .orderedSkolem, shape => Tgd.Skolemized.guarded shape.toSkolemized

theorem Shape.trimmed {discard : Bool} (shape : algorithm.Shape t) (left : t.trimmed discard = some rest) :
    algorithm.Shape rest :=
  match algorithm, shape with
  | .existential, shape => Tgd.Evolvable.trimmed shape left
  | .skolem, shape | .orderedSkolem, shape => Tgd.Resolvable.trimmed shape left

theorem shape_of_seed {config : Config} {ds : List Dependency} (ok : Dependency.checkAll ds = .ok ())
    (member : t ∈ Seeds.ofInputs config ds) : config.algorithm.Shape t := by
  obtain ⟨s, present, z, made⟩ := Seeds.exists_of_mem_expand (Seeds.mem_ofInputs.mp member)
  obtain ⟨d, inside, some, guarded, rfl⟩ := Seeds.mem_accepted.mp present
  have free := Dependency.isFunctionFree_toTgd ok inside
  have resolvable (made : t ∈ (z.frontierProjected d.toTgd.canonical).1.map Tgd.canonical) : t.Resolvable := by
    obtain ⟨p, projected, rfl⟩ := List.mem_map.mp made
    have head : d.toTgd.head.isEmpty = false := by
      obtain ⟨a, member⟩ := List.exists_mem_of_ne_nil _ some
      rw [SortedSet.isEmpty, List.isEmpty_eq_false_iff]
      exact List.ne_nil_of_mem (SortedSet.mem_toList.mpr (SortedSet.mem_ofList.mpr member))
    exact (Tgd.Resolvable.of_frontierProjected (Tgd.isFunctionFree_canonical free) guarded.canonical
      (Tgd.isEmpty_subst head) projected).canonical
  cases kind : config.algorithm <;> rw [kind] at made
  · exact .of_canonicalParts free guarded made
  · exact resolvable made
  · exact resolvable made

end Algorithm
end GuardedSaturation
