import Mathlib
import GuardedSaturation.Proofs.Resolution
import GuardedSaturation.Proofs.Vocabulary

/-! The predicates and function symbols of a rule. Structures on one domain that agree on them satisfy the rule alike. -/
namespace GuardedSaturation

universe u

/-- The name begins as the names of new symbols do. -/
def Reserved (stem name : String) : Prop := stem.toList <+: name.toList

instance {stem name : String} : Decidable (Reserved stem name) := inferInstanceAs (Decidable (stem.toList <+: name.toList))

theorem AtomSet.exists_of_mem_subst {s : AtomSet} {g : Variable → Term} {a : Atom} (inside : a ∈ s.subst g) :
    ∃ b ∈ s, b.symbol = a.symbol := by
  obtain ⟨b, present, rfl⟩ := AtomSet.mem_subst.mp inside
  exact ⟨b, present, (Atom.symbol_subst g b).symm⟩

theorem Term.symbols_rename (g : Variable → Variable) (t : Term) : (t.subst (fun x => .var (g x))).symbols = t.symbols := by
  induction t with
  | var x => simp [symbols]
  | const c => simp [symbols]
  | app f args ih =>
    simp only [subst_app, symbols, symbolsAll_eq_flatMap, List.length_map, List.flatMap_map]
    rw [List.flatMap_congr ih]

theorem Term.symbols_plain {t : Term} (plain : t.isFunction = false) : t.symbols = [] := by
  obtain ⟨x, rfl⟩ | ⟨c, rfl⟩ := plain_cases plain <;> simp [symbols]

namespace Tgd
variable {t q : Tgd} {p f : Symbol}

def Mentions (t : Tgd) (p : Symbol) : Prop := ∃ a, (a ∈ t.body ∨ a ∈ t.head) ∧ a.symbol = p

def Applies (t : Tgd) (f : Symbol) : Prop := ∃ a, (a ∈ t.body ∨ a ∈ t.head) ∧ ∃ s ∈ a.args, f ∈ s.symbols

theorem Mentions.of_subset (mentions : q.Mentions p) (body : q.body ⊆ t.body) (head : q.head ⊆ t.head) : t.Mentions p :=
  mentions.imp (fun a here => ⟨here.1.imp (body a) (head a), here.2⟩)

theorem Applies.of_subset (applies : q.Applies f) (body : q.body ⊆ t.body) (head : q.head ⊆ t.head) : t.Applies f :=
  applies.imp (fun a here => ⟨here.1.imp (body a) (head a), here.2⟩)

theorem subset_of_mem_singleHeads (member : q ∈ t.singleHeads) : q.body ⊆ t.body ∧ q.head ⊆ t.head := by
  unfold singleHeads at member
  split at member
  · exact List.mem_singleton.mp member ▸ ⟨fun _ inside => inside, fun _ inside => inside⟩
  · obtain ⟨h, inside, rfl⟩ := List.mem_map.mp member
    exact ⟨fun _ inside => inside, fun a alone => SortedSet.mem_singleton.mp alone ▸ SortedSet.mem_toList.mp inside⟩

theorem exists_mem_singleHeads {h : Atom} (granted : h ∈ t.head) : ∃ q ∈ t.singleHeads, h ∈ q.head := by
  unfold singleHeads
  split
  · exact ⟨t, List.mem_singleton_self t, granted⟩
  · exact ⟨_, List.mem_map_of_mem (SortedSet.mem_toList.mpr granted), SortedSet.mem_singleton.mpr rfl⟩

theorem not_applies (free : t.isFunctionFree = true) : ¬ t.Applies f := by
  intro ⟨a, member, s, inside, mentioned⟩
  have plain := isFunctionFree_eq_true.mp free
  rw [Term.symbols_plain (Atom.isFunctional_eq_false.mp (member.elim (plain.1 a) (plain.2 a)) s inside)] at mentioned
  cases mentioned

end Tgd

namespace Structure
variable {M : Structure.{u}} {F P : Symbol → Prop} {app : String → List M.Domain → M.Domain}
  {holds : String × List M.Domain → Prop} {t : Tgd} {v : M.Assignment}

/-- The same domain with the same constants, and other functions and facts. -/
abbrev expanded (M : Structure.{u}) (app : String → List M.Domain → M.Domain) (holds : String × List M.Domain → Prop) :
    Structure.{u} := { M with app, holds }

/-- Functions and facts that are those of the structure for certain symbols. -/
structure Agrees (M : Structure.{u}) (F P : Symbol → Prop) (app : String → List M.Domain → M.Domain)
    (holds : String × List M.Domain → Prop) : Prop where
  functions : ∀ f ds, F ⟨f, ds.length⟩ → app f ds = M.app f ds
  predicates : ∀ p ds, P ⟨p, ds.length⟩ → (holds (p, ds) ↔ M.holds (p, ds))

namespace Agrees

theorem value (agrees : M.Agrees F P app holds) {s : Term} (uses : ∀ f ∈ s.symbols, F f) :
    (M.expanded app holds).value v s = M.value v s := by
  induction s with
  | var x => simp
  | const c => simp [expanded]
  | app f args ih =>
    simp only [Term.symbols, Term.symbolsAll_eq_flatMap, List.mem_cons, List.mem_flatMap, forall_eq_or_imp,
      forall_exists_index, and_imp] at uses
    rw [Interpretation.value_app, Interpretation.value_app,
      List.map_congr_left (fun s member => ih s member (fun f inside => uses.2 f s member inside))]
    exact agrees.functions f _ (by simpa using uses.1)

theorem satisfies (agrees : M.Agrees F P app holds) {a : Atom} (predicate : P a.symbol)
    (uses : ∀ s ∈ a.args, ∀ f ∈ s.symbols, F f) : (M.expanded app holds).Satisfies v a ↔ M.Satisfies v a := by
  have values : (M.expanded app holds).values v a.args = M.values v a.args := by
    rw [Interpretation.values_eq_map, Interpretation.values_eq_map]
    exact List.map_congr_left (fun s member => agrees.value (uses s member))
  rw [Satisfies, Satisfies, Interpretation.fact, Interpretation.fact, values]
  refine agrees.predicates _ _ ?_
  rw [Interpretation.values_eq_map, List.length_map]
  exact predicate

theorem satisfiesAll (agrees : M.Agrees F P app holds) {s : AtomSet}
    (uses : ∀ a ∈ s, P a.symbol ∧ ∀ r ∈ a.args, ∀ f ∈ r.symbols, F f) :
    (M.expanded app holds).SatisfiesAll v s ↔ M.SatisfiesAll v s :=
  forall₂_congr (fun a member => agrees.satisfies (uses a member).1 (uses a member).2)

/-- Rules over the symbols that kept their meanings hold as before. -/
theorem models (agrees : M.Agrees F P app holds) (functions : ∀ f, t.Applies f → F f) (predicates : ∀ p, t.Mentions p → P p) :
    (M.expanded app holds).Models t ↔ M.Models t := by
  have uses {a : Atom} (member : a ∈ t.body ∨ a ∈ t.head) : P a.symbol ∧ ∀ r ∈ a.args, ∀ f ∈ r.symbols, F f :=
    ⟨predicates _ ⟨a, member, rfl⟩, fun r inside f mentioned => functions f ⟨a, member, r, inside, mentioned⟩⟩
  apply forall_congr'
  intro v
  refine imp_congr (agrees.satisfiesAll (fun a member => uses (.inl member))) (exists_congr (fun w => ?_))
  exact and_congr_right' (agrees.satisfiesAll (fun a member => uses (.inr member)))

end Agrees

/-- Functions and facts can be taken over for certain symbols alone. -/
theorem exists_agrees (M : Structure.{u}) (F P : Symbol → Prop) (app : String → List M.Domain → M.Domain)
    (holds : String × List M.Domain → Prop) :
    ∃ app' holds', M.Agrees (¬ F ·) (¬ P ·) app' holds' ∧ (M.expanded app holds).Agrees F P app' holds' := by
  classical
  refine ⟨fun f ds => if F ⟨f, ds.length⟩ then app f ds else M.app f ds,
    fun fact => if P ⟨fact.1, fact.2.length⟩ then holds fact else M.holds fact, ⟨fun f ds other => if_neg other, ?_⟩,
    ⟨fun f ds here => if_pos here, ?_⟩⟩
  · exact fun p ds other => iff_of_eq (if_neg other)
  · exact fun p ds here => iff_of_eq (if_pos here)

end Structure
end GuardedSaturation
