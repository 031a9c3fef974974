import Mathlib
import GuardedSaturation.AtomOrder
import GuardedSaturation.Proofs.Shapes.Skolem

/-! Finite vocabularies. Replacing variables adds no symbols to a rule other than those of the terms that
replace them; and with finitely many constants, symbols and variables there are finitely many rules
without nested function terms. -/
namespace GuardedSaturation

structure Vocabulary where
  consts : Finset String
  functions : Finset Symbol
  predicates : Finset Symbol

namespace Term

theorem constsAll_eq_flatMap (ts : List Term) : constsAll ts = ts.flatMap consts := by
  induction ts with
  | nil => rfl
  | cons t ts ih => simp [constsAll, ih]

theorem symbolsAll_eq_flatMap (ts : List Term) : symbolsAll ts = ts.flatMap symbols := by
  induction ts with
  | nil => rfl
  | cons t ts ih => simp [symbolsAll, ih]

/-- All constants and function symbols of the term belong to the vocabulary. -/
def Spelled (V : Vocabulary) (t : Term) : Prop :=
  (∀ c ∈ t.consts, c ∈ V.consts) ∧ ∀ f ∈ t.symbols, f ∈ V.functions

variable {V : Vocabulary}

theorem spelled_var (x : Variable) : (var x).Spelled V := by simp [Spelled, consts, symbols]

theorem spelled_const {c : String} : (const c).Spelled V ↔ c ∈ V.consts := by simp [Spelled, consts, symbols]

theorem spelled_app {f : String} {args : List Term} :
    (app f args).Spelled V ↔ ⟨f, args.length⟩ ∈ V.functions ∧ ∀ t ∈ args, t.Spelled V := by
  simp only [Spelled, consts, symbols, constsAll_eq_flatMap, symbolsAll_eq_flatMap, List.mem_flatMap, List.mem_cons,
    forall_exists_index, and_imp, forall_eq_or_imp]
  constructor
  · intro parts
    obtain ⟨constants, function, below⟩ := parts
    exact ⟨function, fun t member => ⟨fun c => constants c t member, fun g => below g t member⟩⟩
  · intro parts
    obtain ⟨function, below⟩ := parts
    exact ⟨fun c t member => (below t member).1 c, function, fun g t member => (below t member).2 g⟩

theorem Spelled.subst {g : Variable → Term} {t : Term} (spelled : t.Spelled V) (images : ∀ x ∈ t.vars, (g x).Spelled V) :
    (t.subst g).Spelled V := by
  induction t with
  | var x => simpa using images x
  | const c => simpa using spelled
  | app f args ih =>
    obtain ⟨function, below⟩ := spelled_app.mp spelled
    rw [subst_app, spelled_app, List.length_map]
    refine ⟨function, fun s member => ?_⟩
    obtain ⟨t, inside, rfl⟩ := List.mem_map.mp member
    apply ih t inside (below t inside)
    intro x mentioned
    apply images x
    simpa using ⟨t, inside, mentioned⟩

end Term

namespace Atom

def Spelled (V : Vocabulary) (a : Atom) : Prop := a.symbol ∈ V.predicates ∧ ∀ t ∈ a.args, t.Spelled V

variable {V : Vocabulary}

theorem Spelled.subst {g : Variable → Term} {a : Atom} (spelled : a.Spelled V) (images : ∀ x ∈ a.vars, (g x).Spelled V) :
    (a.subst g).Spelled V := by
  refine ⟨by rw [symbol_subst]; exact spelled.1, fun s member => ?_⟩
  rw [args_subst] at member
  obtain ⟨t, inside, rfl⟩ := List.mem_map.mp member
  exact (spelled.2 t inside).subst (fun x mentioned => images x (mem_vars.mpr ⟨t, inside, mentioned⟩))

end Atom

namespace Tgd

def Spelled (V : Vocabulary) (t : Tgd) : Prop := ∀ a, a ∈ t.body ∨ a ∈ t.head → a.Spelled V

variable {V : Vocabulary} {t p : Tgd}

theorem Spelled.subst {g : Variable → Term} (spelled : t.Spelled V) (images : ∀ x, (g x).Spelled V) : (t.subst g).Spelled V := by
  intro a member
  obtain ⟨b, present, rfl⟩ : ∃ b, (b ∈ t.body ∨ b ∈ t.head) ∧ b.subst g = a := by
    rcases member with member | member
    · obtain ⟨b, present, same⟩ := AtomSet.mem_subst.mp member
      exact ⟨b, .inl present, same⟩
    · obtain ⟨b, present, same⟩ := AtomSet.mem_subst.mp member
      exact ⟨b, .inr present, same⟩
  exact (spelled b present).subst (fun x _ => images x)

theorem Spelled.rename {g : Variable → Variable} (spelled : t.Spelled V) : (t.subst (fun x => .var (g x))).Spelled V :=
  spelled.subst (fun _ => Term.spelled_var _)

theorem Spelled.of_subset (spelled : t.Spelled V) (body : p.body ⊆ t.body) (head : p.head ⊆ t.head) : p.Spelled V :=
  fun a member => spelled a (member.imp (body a) (head a))

theorem Spelled.canonical (spelled : t.Spelled V) : t.canonical.Spelled V := spelled.rename

theorem Spelled.trimmed {rest : Tgd} {discard : Bool} (spelled : t.Spelled V) (left : t.trimmed discard = some rest) :
    rest.Spelled V := by
  obtain rfl | ⟨less, found, rfl⟩ := trimmed_cases left
  · exact spelled
  · obtain ⟨bodies, heads⟩ := withoutTautology_eq_some found
    apply Spelled.canonical
    exact spelled.of_subset (bodies ▸ fun _ inside => inside) (fun a inside => ((heads a).mp inside).1)

end Tgd

section Words
variable {α : Type} [DecidableEq α]

def words (s : Finset α) (n : Nat) : Finset (List α) := (Fintype.piFinset (fun _ : Fin n => s)).image List.ofFn

theorem mem_words {s : Finset α} {w : List α} (within : ∀ x ∈ w, x ∈ s) : w ∈ words s w.length := by
  refine Finset.mem_image.mpr ⟨w.get, ?_, List.ofFn_get w⟩
  exact Fintype.mem_piFinset.mpr (fun i => within _ (List.get_mem w i))

theorem card_words (s : Finset α) (n : Nat) : (words s n).card ≤ s.card ^ n := by
  refine Finset.card_image_le.trans ?_
  rw [Fintype.card_piFinset_const]

end Words

namespace Vocabulary
variable (V : Vocabulary) (pool : Finset Variable)

/-- The terms without function symbols whose variables are in a pool. -/
def plainTerms : Finset Term := pool.image .var ∪ V.consts.image .const

def terms : Finset Term :=
  V.plainTerms pool ∪ V.functions.biUnion (fun f => (words (V.plainTerms pool) f.arity).image (.app f.name))

def atoms : Finset Atom := V.predicates.biUnion (fun p => (words (V.terms pool) p.arity).image (.mk p.name))

theorem card_plainTerms : (V.plainTerms pool).card ≤ pool.card + V.consts.card :=
  (Finset.card_union_le _ _).trans (Nat.add_le_add Finset.card_image_le Finset.card_image_le)

theorem card_terms {flat : Nat} (bound : (V.plainTerms pool).card ≤ flat) :
    (V.terms pool).card ≤ flat + ∑ f ∈ V.functions, flat ^ f.arity := by
  refine (Finset.card_union_le _ _).trans (Nat.add_le_add bound (Finset.card_biUnion_le.trans ?_))
  apply Finset.sum_le_sum
  intro f _
  exact Finset.card_image_le.trans ((card_words _ _).trans (Nat.pow_le_pow_left bound _))

theorem card_atoms {number : Nat} (bound : (V.terms pool).card ≤ number) :
    (V.atoms pool).card ≤ ∑ p ∈ V.predicates, number ^ p.arity := by
  refine Finset.card_biUnion_le.trans (Finset.sum_le_sum (fun p _ => ?_))
  exact Finset.card_image_le.trans ((card_words _ _).trans (Nat.pow_le_pow_left bound _))

variable {V pool}

theorem mem_plainTerms {t : Term} (plain : t.isFunction = false) (spelled : t.Spelled V) (vars : ∀ x ∈ t.vars, x ∈ pool) :
    t ∈ V.plainTerms pool := by
  obtain ⟨x, rfl⟩ | ⟨c, rfl⟩ := Term.plain_cases plain
  · exact Finset.mem_union_left _ (Finset.mem_image_of_mem _ (vars x (by simp)))
  · exact Finset.mem_union_right _ (Finset.mem_image_of_mem _ (Term.spelled_const.mp spelled))

theorem mem_terms {t : Term} (flat : t.isNested = false) (spelled : t.Spelled V) (vars : ∀ x ∈ t.vars, x ∈ pool) :
    t ∈ V.terms pool := by
  cases kind : t.isFunction with
  | false => exact Finset.mem_union_left _ (mem_plainTerms kind spelled vars)
  | true =>
    obtain ⟨f, args, rfl⟩ := Term.exists_app kind
    obtain ⟨function, below⟩ := Term.spelled_app.mp spelled
    have plain := Term.isNested_app.mp flat
    have word : args ∈ words (V.plainTerms pool) args.length := by
      apply mem_words
      intro s member
      apply mem_plainTerms (plain s member) (below s member)
      intro x mentioned
      apply vars x
      simpa using ⟨s, member, mentioned⟩
    apply Finset.mem_union_right
    exact Finset.mem_biUnion.mpr ⟨⟨f, args.length⟩, function, Finset.mem_image_of_mem _ word⟩

theorem mem_atoms {a : Atom} (flat : a.hasNested = false) (spelled : a.Spelled V) (vars : ∀ x ∈ a.vars, x ∈ pool) :
    a ∈ V.atoms pool := by
  have word : a.args ∈ words (V.terms pool) a.args.length := by
    apply mem_words
    intro t member
    apply mem_terms (Atom.hasNested_eq_false.mp flat t member) (spelled.2 t member)
    intro x mentioned
    exact vars x (Atom.mem_vars.mpr ⟨t, member, mentioned⟩)
  exact Finset.mem_biUnion.mpr ⟨a.symbol, spelled.1, Finset.mem_image_of_mem _ word⟩

end Vocabulary

namespace Tgd

def sides (t : Tgd) : Finset Atom × Finset Atom := (t.body.toList.toFinset, t.head.toList.toFinset)

theorem mem_sides_body {t : Tgd} {a : Atom} : a ∈ t.sides.1 ↔ a ∈ t.body :=
  List.mem_toFinset.trans SortedSet.mem_toList

theorem mem_sides_head {t : Tgd} {a : Atom} : a ∈ t.sides.2 ↔ a ∈ t.head :=
  List.mem_toFinset.trans SortedSet.mem_toList

theorem sides_injective : Function.Injective sides := by
  intro s t same
  have bodies : s.body = t.body := by
    ext a
    rw [← mem_sides_body, ← mem_sides_body, same]
  have heads : s.head = t.head := by
    ext a
    rw [← mem_sides_head, ← mem_sides_head, same]
  cases s
  cases t
  exact congrArg₂ Tgd.mk bodies heads

end Tgd

/-- Pairwise different rules with a body, made of atoms of a finite set, are fewer than its pairs of subsets. -/
theorem length_lt_of_atoms {rules : List Tgd} {A : Finset Atom} (distinct : rules.Nodup)
    (within : ∀ t ∈ rules, ∀ a, a ∈ t.body ∨ a ∈ t.head → a ∈ A) (bodies : ∀ t ∈ rules, ∃ a, a ∈ t.body) :
    rules.length < 4 ^ A.card := by
  -- The pair of two empty sets stays over, for no body is empty.
  have subset : (rules.map Tgd.sides).toFinset ⊆ (A.powerset ×ˢ A.powerset).erase (∅, ∅) := by
    intro pair member
    obtain ⟨t, inside, rfl⟩ := List.mem_map.mp (List.mem_toFinset.mp member)
    obtain ⟨a, present⟩ := bodies t inside
    refine Finset.mem_erase.mpr ⟨fun empty => ?_, Finset.mem_product.mpr ⟨?_, ?_⟩⟩
    · have := Tgd.mem_sides_body.mpr present
      simp [empty] at this
    · exact Finset.mem_powerset.mpr (fun b member => within t inside b (.inl (Tgd.mem_sides_body.mp member)))
    · exact Finset.mem_powerset.mpr (fun b member => within t inside b (.inr (Tgd.mem_sides_head.mp member)))
  have pairs : (A.powerset ×ˢ A.powerset).card = 4 ^ A.card := by
    rw [Finset.card_product, Finset.card_powerset, ← Nat.mul_pow]
  have counted := Finset.card_le_card subset
  rw [List.toFinset_card_of_nodup (distinct.map Tgd.sides_injective), List.length_map,
    Finset.card_erase_of_mem (by simp), pairs] at counted
  have positive : 0 < 4 ^ A.card := by positivity
  omega

end GuardedSaturation
