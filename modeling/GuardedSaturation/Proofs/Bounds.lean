import Mathlib
import GuardedSaturation.Proofs.Unification.Symbols
import GuardedSaturation.Proofs.Widths

/-! The rules that a run may take up are bounded: they are spelled with the symbols of the seeds, and have the first
canonical names, as many as the widest seed. There are finitely many atoms that such rules are made of. -/
namespace GuardedSaturation

namespace Evolve
open Substitution Unifier
variable {V : Vocabulary} {heads body left : List Atom} {existentials : List Variable} {σ σ' : Substitution}
  {pairs : List (Atom × Atom)}

theorem Joining.spelled (joining : Joining heads existentials body σ σ' left pairs) (acyclic : Acyclic σ)
    (spelled : Spelled V σ) (bodies : ∀ a ∈ body, a.Spelled V) (head : ∀ h ∈ heads, h.Spelled V) : Spelled V σ' := by
  induction joining with
  | done => exact spelled
  | skip tail ih => exact ih acyclic spelled (fun a member => bodies a (List.mem_cons_of_mem _ member))
  | join member found kept tail ih =>
    apply ih (mostGeneral_normal acyclic found).acyclic
    · exact mostGeneral_spelled acyclic spelled (bodies _ List.mem_cons_self) (head _ member) found
    · exact fun a member => bodies a (List.mem_cons_of_mem _ member)

end Evolve

namespace Tgd
open Substitution
variable {V : Vocabulary} {t p : Tgd} {seeds more : List Tgd}

theorem Spelled.union {s t : AtomSet} {p q : Tgd} (first : p.Spelled V) (second : q.Spelled V)
    (bodies : ∀ a ∈ s, a ∈ p.body ∨ a ∈ q.body) (heads : ∀ a ∈ t, a ∈ p.head ∨ a ∈ q.head) : (⟨s, t⟩ : Tgd).Spelled V := by
  intro a member
  obtain inside | inside := member
  · exact (bodies a inside).elim (fun here => first a (.inl here)) (fun here => second a (.inl here))
  · exact (heads a inside).elim (fun here => first a (.inr here)) (fun here => second a (.inr here))

theorem Spelled.evolve {nonFull full : Tgd} (first : nonFull.Spelled V) (second : full.Spelled V)
    (member : t ∈ evolve nonFull full) : t.Spelled V := by
  obtain ⟨σ, left, pairs, joining, -, -, rfl⟩ := mem_evolve.mp member
  rw [renameApart_eq] at joining ⊢
  have spelled := joining.spelled acyclic_empty every_empty (fun a inside => second.rename a (.inl inside))
    (fun h inside => first h (.inr inside))
  refine (Spelled.union first second.rename (fun a inside => ?_) (fun a => SortedSet.mem_union.mp)).subst spelled.image
  exact (SortedSet.mem_union.mp inside).imp id (fun leftover => joining.mem_left (SortedSet.mem_ofList.mp leftover))

/-- The rule has no more variables of either kind than some seed. -/
structure Fits (seeds : List Tgd) (t : Tgd) : Prop where
  universals : t.universals.length ≤ Seeds.maximum (·.universals.length) seeds
  existentials : t.existentials.length ≤ Seeds.maximum (·.existentials.length) seeds

end Tgd

namespace Seeds
variable {seeds more : List Tgd} {t : Tgd}

theorem maximum_le_iff {measure : Tgd → Nat} {bound : Nat} :
    maximum measure seeds ≤ bound ↔ ∀ t ∈ seeds, measure t ≤ bound := by
  have foldl (n : Nat) : seeds.foldl (fun n t => max n (measure t)) n ≤ bound ↔ n ≤ bound ∧ ∀ t ∈ seeds, measure t ≤ bound := by
    induction seeds generalizing n with
    | nil => simp
    | cons s seeds ih => simp [ih, and_assoc]
  simpa [maximum] using foldl 0

theorem le_maximum (measure : Tgd → Nat) (member : t ∈ seeds) : measure t ≤ maximum measure seeds :=
  maximum_le_iff.mp le_rfl t member

theorem maximum_mono (measure : Tgd → Nat) (subset : seeds ⊆ more) : maximum measure seeds ≤ maximum measure more :=
  maximum_le_iff.mpr (fun _ member => le_maximum measure (subset member))

end Seeds

namespace Tgd
variable {seeds more : List Tgd} {t p : Tgd}

theorem Narrower.fits (narrower : t.Narrower p) (fits : p.Fits seeds) : t.Fits seeds :=
  ⟨narrower.universals.trans fits.universals, narrower.existentials.trans fits.existentials⟩

theorem fits_of_mem (member : t ∈ seeds) : t.Fits seeds :=
  ⟨Seeds.le_maximum (·.universals.length) member, Seeds.le_maximum (·.existentials.length) member⟩

theorem Fits.of_subset (fits : t.Fits seeds) (subset : seeds ⊆ more) : t.Fits more :=
  ⟨fits.universals.trans (Seeds.maximum_mono _ subset), fits.existentials.trans (Seeds.maximum_mono _ subset)⟩

end Tgd

namespace Algorithm
variable {algorithm : Algorithm} {V : Vocabulary} {l r : Rule} {c t rest : Tgd}

/-- Conclusions are spelled as the rules are that they are drawn from. -/
theorem spelled_conclusion (right : r.Built algorithm) (leftPart : algorithm.partOf l.tgd = .left)
    (rightPart : algorithm.partOf r.tgd = .right) (leftShape : algorithm.Shape l.tgd) (rightShape : algorithm.Shape r.tgd)
    (first : l.tgd.Spelled V) (second : r.tgd.Spelled V) (member : c ∈ algorithm.conclusions l r) : c.Spelled V := by
  obtain ⟨-, evolved, part⟩ | ⟨-, join, unifier⟩ :=
    draws_of_mem right leftPart rightPart leftShape rightShape member
  · apply Tgd.Spelled.canonical
    refine (first.evolve second evolved).of_subset ?_ (fun _ => Tgd.head_of_mem_headParts part)
    exact Tgd.body_of_mem_headParts part ▸ fun _ inside => inside
  · have renamed : (r.tgd.renameApart Evolve.stem l.tgd).Spelled V := by
      rw [Tgd.renameApart_eq]
      exact second.rename
    have spelled := Unifier.mostGeneral_spelled Substitution.acyclic_empty Substitution.every_empty
      (first _ (.inr join.head)) (renamed _ (.inl join.selected)) unifier
    apply Tgd.Spelled.canonical
    refine (Tgd.Spelled.union first renamed (fun a inside => ?_) (fun a => .inr)).subst spelled.image
    exact (SortedSet.mem_union.mp inside).imp id (fun old => (SortedSet.mem_erase.mp old).1)

theorem Shape.flat (shape : algorithm.Shape t) {a : Atom} (member : a ∈ t.body ∨ a ∈ t.head) : a.hasNested = false := by
  by_cases selecting : algorithm = .existential
  · subst selecting
    have free := Tgd.isFunctionFree_eq_true.mp (Tgd.Evolvable.free shape)
    exact Atom.hasNested_of_plain (member.elim (free.1 a) (free.2 a))
  · exact Tgd.hasNested_eq_false.mp ((shape_of_selecting selecting).mp shape).flat a member

theorem partOf_trimmed {discard : Bool} (shape : algorithm.Shape t) (left : t.trimmed discard = some rest)
    (part : algorithm.partOf rest = .left) : algorithm.partOf t = .left := by
  by_cases selecting : algorithm = .existential
  · subst selecting
    rw [partOf_existential_left] at part ⊢
    by_contra full
    have := Tgd.isFull_trimmed (by simpa using full) left
    simp [part] at this
  · rwa [← ((shape_of_selecting selecting).mp shape).trimmed_eq left]

end Algorithm

namespace Seeds
variable {seeds : List Tgd}

/-- The symbols of the seeds. -/
def vocabulary (seeds : List Tgd) : Vocabulary where
  consts := ((atoms seeds).flatMap (fun a => Term.constsAll a.args)).eraseDups.toFinset
  functions := ((atoms seeds).flatMap (fun a => Term.symbolsAll a.args)).eraseDups.toFinset
  predicates := ((atoms seeds).map Atom.symbol).eraseDups.toFinset

theorem spelled {t : Tgd} (member : t ∈ seeds) : t.Spelled (vocabulary seeds) := by
  intro a inside
  have present : a ∈ atoms seeds := by
    refine List.mem_flatMap.mpr ⟨t, member, List.mem_append.mpr ?_⟩
    exact inside.imp SortedSet.mem_toList.mpr SortedSet.mem_toList.mpr
  simp only [vocabulary, Atom.Spelled, Term.Spelled, Term.constsAll_eq_flatMap, Term.symbolsAll_eq_flatMap,
    List.mem_toFinset, List.mem_eraseDups, List.mem_map, List.mem_flatMap]
  exact ⟨⟨a, present, rfl⟩, fun s argument => ⟨fun c inside => ⟨a, present, s, argument, inside⟩,
    fun f inside => ⟨a, present, s, argument, inside⟩⟩⟩

/-- The atoms of the seeds' vocabulary over the variables of the widest seeds. -/
def atomSpace (seeds : List Tgd) : Finset Atom :=
  (vocabulary seeds).atoms (Tgd.pool (maximum (·.universals.length) seeds) (maximum (·.existentials.length) seeds))

theorem sum_eraseDups {α : Type} [DecidableEq α] (l : List α) (f : α → Nat) :
    ∑ a ∈ l.eraseDups.toFinset, f a = (l.eraseDups.map f).sum := List.sum_toFinset f (nodup_eraseDups l)

theorem card_atomSpace (seeds : List Tgd) : (atomSpace seeds).card ≤ atomCount seeds := by
  let consts := ((atoms seeds).flatMap (fun a => Term.constsAll a.args)).eraseDups
  let flat := maximum (·.universals.length) seeds + maximum (·.existentials.length) seeds + consts.length
  have plain : ((vocabulary seeds).plainTerms (Tgd.pool (maximum (·.universals.length) seeds)
      (maximum (·.existentials.length) seeds))).card ≤ flat := by
    refine (Vocabulary.card_plainTerms _ _).trans (Nat.add_le_add (Tgd.card_pool _ _) ?_)
    exact List.toFinset_card_le _
  have terms := Vocabulary.card_terms _ _ plain
  have atoms := Vocabulary.card_atoms _ _ terms
  simp only [vocabulary, sum_eraseDups] at atoms
  exact atoms

end Seeds

/-- The seeds that belong on the left. -/
def Seeds.left (algorithm : Algorithm) (seeds : List Tgd) : List Tgd := seeds.filter (algorithm.partOf · = .left)

/-- The rules that a run may take up: over the symbols of its seeds, no wider than its seeds, and on the left no wider
than its seeds on the left. -/
structure Bounded (algorithm : Algorithm) (seeds : List Tgd) (t : Tgd) : Prop where
  shape : algorithm.Shape t
  spelled : t.Spelled (Seeds.vocabulary seeds)
  named : t.Named (Seeds.maximum (·.universals.length) seeds) (Seeds.maximum (·.existentials.length) seeds)
  fits : t.Fits seeds
  left : algorithm.partOf t = .left → t.Fits (Seeds.left algorithm seeds)

namespace Bounded
variable {algorithm : Algorithm} {seeds : List Tgd} {l r : Rule} {c t rest : Tgd}

theorem trimmed {discard : Bool} (bounded : Bounded algorithm seeds t) (left : t.trimmed discard = some rest) :
    Bounded algorithm seeds rest := by
  have narrower := Tgd.narrower_trimmed left
  refine ⟨bounded.shape.trimmed left, bounded.spelled.trimmed left, ?_, narrower.fits bounded.fits, fun part => ?_⟩
  · obtain rfl | ⟨less, found, rfl⟩ := Tgd.trimmed_cases left
    · exact bounded.named
    · have fits := ((Tgd.narrower_of_canonical less).trans narrower).fits bounded.fits
      exact (Tgd.named_canonical less).mono fits.universals fits.existentials
  · exact narrower.fits (bounded.left (Algorithm.partOf_trimmed bounded.shape left part))

/-- Conclusions are no wider than the seeds on the left. -/
theorem fits_conclusion (right : r.Built algorithm) (leftPart : algorithm.partOf l.tgd = .left)
    (rightPart : algorithm.partOf r.tgd = .right) (first : Bounded algorithm seeds l.tgd)
    (second : Bounded algorithm seeds r.tgd) (member : c ∈ algorithm.conclusions l r) :
    ∃ t : Tgd, t.canonical = c ∧ t.Fits (Seeds.left algorithm seeds) := by
  obtain ⟨t, same, narrower⟩ :=
    Algorithm.exists_narrower_of_conclusion right leftPart rightPart first.shape second.shape member
  exact ⟨t, same, narrower.fits (first.left leftPart)⟩

theorem conclusion (right : r.Built algorithm) (leftPart : algorithm.partOf l.tgd = .left)
    (rightPart : algorithm.partOf r.tgd = .right) (first : Bounded algorithm seeds l.tgd)
    (second : Bounded algorithm seeds r.tgd) (member : c ∈ algorithm.conclusions l r) : Bounded algorithm seeds c := by
  have shape := Algorithm.Shape.conclusion right leftPart rightPart first.shape second.shape member
  have spelled := Algorithm.spelled_conclusion right leftPart rightPart first.shape second.shape first.spelled
    second.spelled member
  obtain ⟨t, rfl, fits⟩ := fits_conclusion right leftPart rightPart first second member
  have all := fits.of_subset List.filter_sublist.subset
  refine ⟨shape, spelled, ?_, (Tgd.narrower_canonical t).fits all, fun _ => (Tgd.narrower_canonical t).fits fits⟩
  exact (Tgd.named_canonical t).mono all.universals all.existentials

theorem seed {config : Config} {ds : List Dependency} (checked : Dependency.checkAll ds = .ok ())
    (member : t ∈ Seeds.ofInputs config ds) : Bounded config.algorithm (Seeds.ofInputs config ds) t := by
  have fits := Tgd.fits_of_mem member
  refine ⟨Algorithm.shape_of_seed checked member, Seeds.spelled member, ?_, fits, fun part => ?_⟩
  · obtain ⟨p, rfl⟩ := Seeds.exists_canonical member
    have fits := (Tgd.narrower_of_canonical p).fits fits
    exact (Tgd.named_canonical p).mono fits.universals fits.existentials
  · exact Tgd.fits_of_mem (List.mem_filter.mpr ⟨member, by simpa using part⟩)

theorem mem_atomSpace (bounded : Bounded algorithm seeds t) {a : Atom} (member : a ∈ t.body ∨ a ∈ t.head) :
    a ∈ Seeds.atomSpace seeds := by
  apply Vocabulary.mem_atoms (bounded.shape.flat member) (bounded.spelled a member)
  exact fun x inside => bounded.named.mem_pool (Tgd.mem_vars_of_mem member inside)

end Bounded

end GuardedSaturation
