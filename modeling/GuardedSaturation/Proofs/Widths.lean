import Mathlib
import GuardedSaturation.Proofs.Calculus
import GuardedSaturation.Proofs.NormalForms.Order

/-! How many variables rules have. Renaming, splitting and trimming make a rule no wider, and a conclusion is
no wider than the rule on the left that it is drawn from; canonical names are numbered without gaps. -/
namespace GuardedSaturation

/-- There are no more variables than others that are replaced by them. -/
theorem length_le_of_images {xs ys : List Variable} {g : Variable → Term} (distinct : ys.Nodup)
    (plain : ∀ x ∈ xs, (g x).isFunction = false) (images : ∀ y ∈ ys, ∃ x ∈ xs, y ∈ (g x).vars) :
    ys.length ≤ xs.length := by
  have subset : ys ⊆ xs.filterMap (fun x => (g x).var?) := by
    intro y member
    obtain ⟨x, inside, image⟩ := images y member
    refine List.mem_filterMap.mpr ⟨x, inside, ?_⟩
    obtain ⟨z, same⟩ | ⟨c, same⟩ := Term.plain_cases (plain x inside)
    · rw [same, Term.vars_var, List.mem_singleton] at image
      rw [same, Term.var?, image]
    · simp [same] at image
  exact (List.subperm_of_subset distinct subset).length_le.trans (List.length_filterMap_le _ _)

namespace Tgd
variable {t p q rest : Tgd}

/-- One rule has no more universal variables than another, and no more existential ones. -/
structure Narrower (t p : Tgd) : Prop where
  universals : t.universals.length ≤ p.universals.length
  existentials : t.existentials.length ≤ p.existentials.length

theorem Narrower.refl (t : Tgd) : t.Narrower t := ⟨le_rfl, le_rfl⟩

theorem Narrower.trans (first : t.Narrower p) (second : p.Narrower q) : t.Narrower q :=
  ⟨first.universals.trans second.universals, first.existentials.trans second.existentials⟩

/-- Canonical names are given to different variables, so no variable is lost. -/
theorem length_canonical (t : Tgd) :
    t.canonical.universals.length = t.universals.length ∧ t.canonical.existentials.length = t.existentials.length := by
  have apart := normalName_injOn (t := t) Naming.apart_default
  rw [canonical_eq]
  exact ⟨(universals_rename apart).length_eq.trans (List.length_map _),
    (existentials_rename apart).length_eq.trans (List.length_map _)⟩

theorem narrower_canonical (t : Tgd) : t.canonical.Narrower t := ⟨t.length_canonical.1.le, t.length_canonical.2.le⟩

theorem narrower_of_canonical (t : Tgd) : t.Narrower t.canonical := ⟨t.length_canonical.1.ge, t.length_canonical.2.ge⟩

theorem existentials_subset (body : p.body = t.body) (head : p.head ⊆ t.head) : p.existentials ⊆ t.existentials := by
  intro x existential
  obtain ⟨inside, absent⟩ := mem_existentials.mp existential
  obtain ⟨a, member, inside⟩ := AtomSet.mem_vars.mp inside
  rw [universals, body] at absent
  exact mem_existentials.mpr ⟨AtomSet.mem_vars_of_mem (head a member) inside, absent⟩

theorem narrower_of_head (body : p.body = t.body) (head : p.head ⊆ t.head) : p.Narrower t := by
  refine ⟨by rw [universals, universals, body], ?_⟩
  exact (List.subperm_of_subset (existentials_nodup p) (existentials_subset body head)).length_le

theorem narrower_trimmed {discard : Bool} (left : t.trimmed discard = some rest) : rest.Narrower t := by
  obtain rfl | ⟨less, found, rfl⟩ := trimmed_cases left
  · exact .refl _
  · obtain ⟨bodies, heads⟩ := withoutTautology_eq_some found
    exact (narrower_canonical less).trans (narrower_of_head bodies (fun a inside => ((heads a).mp inside).1))

section Evolve
open Evolve Substitution
variable {nonFull full : Tgd}

/-- Where every head atom of one rule mentions an existential variable, resolvents with a guarded rule have no more
universal variables than the former. -/
theorem universals_length_evolve (free : nonFull.isFunctionFree = true) (free' : full.isFunctionFree = true)
    (guarded : full.Guarded) (invents : ∀ h ∈ nonFull.head, ∃ e ∈ h.vars, e ∉ nonFull.body.vars)
    (member : t ∈ evolve nonFull full) : t.universals.length ≤ nonFull.universals.length := by
  obtain ⟨σ, left, pairs, joining, some, admissible, rfl⟩ := mem_evolve.mp member
  have plain := (flat_of_joining free (isFunctionFree_renameApart stem nonFull free') joining).plain
  apply length_le_of_images (universals_nodup _) (fun x _ => plain.image x)
  intro y universal
  exact image_of_joining (guarded.renameApart stem nonFull) invents joining some admissible universal

theorem existentials_evolve_subset (isFull : full.isFull = true) (member : t ∈ evolve nonFull full) :
    t.existentials ⊆ nonFull.existentials := by
  obtain ⟨σ, left, pairs, joining, -, admissible, rfl⟩ := mem_evolve.mp member
  intro y existential
  exact mem_existentials_of_joining (isFull_renameApart isFull) joining admissible existential

/-- A resolvent of a rule with a full one has no more variables of either kind than the former. -/
theorem narrower_evolve (first : nonFull.Evolvable) (second : full.Evolvable) (notFull : nonFull.isFull = false)
    (isFull : full.isFull = true) (member : t ∈ evolve nonFull full) : t.Narrower nonFull where
  universals := universals_length_evolve first.free second.free second.guarded
    (first.kind.resolve_left (by simp [notFull])) member
  existentials := (List.subperm_of_subset (existentials_nodup _) (existentials_evolve_subset isFull member)).length_le

end Evolve

section Resolvent
open Unifier
variable {producer consumer : Tgd} {H S : Atom} {σ : Substitution}

theorem Joinable.narrower (join : Joinable producer consumer H S) (found : mostGeneral ∅ H S = some σ)
    (full : (σ.applyTgd ⟨producer.body ∪ consumer.body.erase S, consumer.head⟩).isFull = true) :
    (σ.applyTgd ⟨producer.body ∪ consumer.body.erase S, consumer.head⟩).Narrower producer := by
  constructor
  · apply length_le_of_images (universals_nodup _) (fun x inside => join.image_producer found inside)
    intro y universal
    exact join.mem_vars_head.mp (join.mem_vars_body found universal)
  · rw [isFull_iff.mp full]
    exact Nat.zero_le _

end Resolvent

/-- The variables have the first canonical names of their kind. -/
structure Named (universals existentials : Nat) (t : Tgd) : Prop where
  universal : ∀ x ∈ t.body.vars, ∃ n < universals, x = .indexed "u" n
  existential : ∀ x ∈ t.head.vars, x ∉ t.body.vars → ∃ n < existentials, x = .indexed "e" n

theorem named_canonical (t : Tgd) : t.canonical.Named t.universals.length t.existentials.length := by
  rw [canonical_eq]
  have universal {x : Variable} (inside : x ∈ t.body.vars) :
      ∃ n < t.universals.length, t.normalName {} x = .indexed "u" n := by
    have kind : t.quantifier x = .universal := by simp [quantifier, Tgd.universals, inside]
    refine ⟨_, rank_lt t .sorted (mem_vars_of_body inside) (fun y _ same => ?_), by rw [normalName, kind]⟩
    by_contra absent
    simp [quantifier, absent] at same
    exact same inside
  have existential {x : Variable} (existential : x ∈ t.existentials) :
      ∃ n < t.existentials.length, t.normalName {} x = .indexed "e" n := by
    obtain ⟨inside, absent⟩ := mem_existentials.mp existential
    have kind : t.quantifier x = .existential := by simp [quantifier, absent]
    refine ⟨_, rank_lt t .sorted (mem_vars_of_head inside) (fun y inside same => ?_), by rw [normalName, kind]⟩
    have apart : y ∉ t.universals := by
      intro present
      simp [quantifier, present] at same
      exact absent same
    exact mem_existentials.mpr ⟨(mem_vars.mp inside).resolve_left apart, apart⟩
  constructor
  · intro y inside
    obtain ⟨x, old, rfl⟩ := AtomSet.mem_vars_rename.mp inside
    exact universal old
  · intro y inside absent
    obtain ⟨x, old, rfl⟩ := exists_of_mem_existentials_rename (mem_existentials.mpr ⟨inside, absent⟩)
    exact existential old

theorem Named.mono {m n k l : Nat} (named : t.Named m k) (universals : m ≤ n) (existentials : k ≤ l) : t.Named n l := by
  constructor
  · intro x inside
    obtain ⟨i, bound, name⟩ := named.universal x inside
    exact ⟨i, bound.trans_le universals, name⟩
  · intro x inside absent
    obtain ⟨i, bound, name⟩ := named.existential x inside absent
    exact ⟨i, bound.trans_le existentials, name⟩

theorem Named.of_head {m n : Nat} (named : t.Named m n) (body : p.body = t.body) (head : p.head ⊆ t.head) :
    p.Named m n := by
  constructor
  · intro x inside
    exact named.universal x (body ▸ inside)
  · intro x inside absent
    obtain ⟨a, member, inside⟩ := AtomSet.mem_vars.mp inside
    exact named.existential x (AtomSet.mem_vars_of_mem (head a member) inside) (body ▸ absent)

/-- The variables that rules with canonical names may have. -/
def pool (universals existentials : Nat) : Finset Variable :=
  (Finset.range universals).image (.indexed "u") ∪ (Finset.range existentials).image (.indexed "e")

theorem card_pool (m n : Nat) : (pool m n).card ≤ m + n := by
  refine (Finset.card_union_le _ _).trans (Nat.add_le_add ?_ ?_)
  · exact Finset.card_image_le.trans (Finset.card_range m).le
  · exact Finset.card_image_le.trans (Finset.card_range n).le

theorem Named.mem_pool {m n : Nat} (named : t.Named m n) {x : Variable} (inside : x ∈ t.vars) : x ∈ pool m n := by
  by_cases universal : x ∈ t.body.vars
  · obtain ⟨i, bound, rfl⟩ := named.universal x universal
    exact Finset.mem_union_left _ (Finset.mem_image_of_mem _ (Finset.mem_range.mpr bound))
  · obtain ⟨i, bound, rfl⟩ := named.existential x ((mem_vars.mp inside).resolve_left universal) universal
    exact Finset.mem_union_right _ (Finset.mem_image_of_mem _ (Finset.mem_range.mpr bound))

end Tgd

namespace Algorithm
variable {algorithm : Algorithm} {l r : Rule} {c : Tgd}

/-- A conclusion is the canonical form of a rule that is no wider than the rule on the left. -/
theorem exists_narrower_of_conclusion (right : r.Built algorithm) (leftPart : algorithm.partOf l.tgd = .left)
    (rightPart : algorithm.partOf r.tgd = .right) (leftShape : algorithm.Shape l.tgd)
    (rightShape : algorithm.Shape r.tgd) (member : c ∈ algorithm.conclusions l r) :
    ∃ t : Tgd, t.canonical = c ∧ t.Narrower l.tgd := by
  obtain ⟨rfl, evolved, part⟩ | ⟨-, join, unifier⟩ :=
    draws_of_mem right leftPart rightPart leftShape rightShape member
  · refine ⟨_, rfl, (Tgd.narrower_of_head (Tgd.body_of_mem_headParts part)
      (fun _ => Tgd.head_of_mem_headParts part)).trans ?_⟩
    exact Tgd.narrower_evolve leftShape rightShape (partOf_existential_left.mp leftPart)
      (partOf_existential_right.mp rightPart) evolved
  · exact ⟨_, rfl, join.narrower unifier (join.resolvable unifier).full⟩

end Algorithm
end GuardedSaturation
