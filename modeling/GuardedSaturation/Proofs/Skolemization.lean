import Mathlib
import GuardedSaturation.Proofs.Skolemization.Symbols
import GuardedSaturation.Proofs.Skolemization.Witnesses

/-! Skolemization is a conservative extension. A structure that satisfies a rule is expanded by meanings for the
new symbols: an auxiliary atom holds of the values that some assignment gives to the frontier where the body holds,
and a function takes the values of its arguments to what the head then takes for its existential variable. -/
namespace GuardedSaturation

universe u

namespace Tgd
variable {F P F' P' : String → Prop} {t p : Tgd}

/-- The names of functions and predicates in a rule are of certain kinds. -/
def Uses (F P : String → Prop) (t : Tgd) : Prop :=
  ∀ a, a ∈ t.body ∨ a ∈ t.head → P a.predicate ∧ ∀ s ∈ a.args, ∀ f ∈ s.symbols, F f.name

theorem Uses.mono (uses : t.Uses F P) (functions : ∀ f, F f → F' f) (predicates : ∀ p, P p → P' p) : t.Uses F' P' :=
  fun a member => ⟨predicates _ (uses a member).1, fun s inside f mentioned => functions _ ((uses a member).2 s inside f mentioned)⟩

theorem Uses.of_subset (uses : t.Uses F P) (body : p.body ⊆ t.body) (head : p.head ⊆ t.head) : p.Uses F P :=
  fun a member => uses a (member.imp (body a) (head a))

theorem Uses.rename {g : Variable → Variable} (uses : t.Uses F P) : (t.subst (fun x => .var (g x))).Uses F P := by
  intro a member
  obtain ⟨b, present, rfl⟩ : ∃ b, (b ∈ t.body ∨ b ∈ t.head) ∧ b.subst (fun x => .var (g x)) = a := by
    obtain member | member := member <;> obtain ⟨b, present, same⟩ := AtomSet.mem_subst.mp member
    · exact ⟨b, .inl present, same⟩
    · exact ⟨b, .inr present, same⟩
  refine ⟨(uses b present).1, fun s inside f mentioned => ?_⟩
  rw [Atom.args_subst, List.mem_map] at inside
  obtain ⟨r, inside, rfl⟩ := inside
  rw [Term.symbols_rename] at mentioned
  exact (uses b present).2 r inside f mentioned

theorem uses_iff : t.Uses F P ↔ (∀ f, t.Applies f → F f.name) ∧ ∀ p, t.Mentions p → P p.name := by
  constructor
  · refine fun uses => ⟨fun f ⟨a, member, s, inside, mentioned⟩ => (uses a member).2 s inside f mentioned, ?_⟩
    rintro _ ⟨a, member, rfl⟩
    exact (uses a member).1
  · intro ⟨functions, predicates⟩ a member
    exact ⟨predicates _ ⟨a, member, rfl⟩, fun s inside f mentioned => functions f ⟨a, member, s, inside, mentioned⟩⟩

theorem uses_of_free (free : t.isFunctionFree = true) (predicates : ∀ a, a ∈ t.body ∨ a ∈ t.head → P a.predicate) :
    t.Uses F P := by
  refine uses_iff.mpr ⟨fun f applies => absurd applies (not_applies free), ?_⟩
  rintro _ ⟨a, member, rfl⟩
  exact predicates a member

end Tgd

namespace Structure
variable {M : Structure.{u}} {F P : String → Prop} {app : String → List M.Domain → M.Domain}
  {holds : String × List M.Domain → Prop} {t : Tgd} {v : M.Assignment}

/-- The expansion gives other meanings to functions and predicates of certain names alone. -/
structure Expands (M : Structure.{u}) (F P : String → Prop) (app : String → List M.Domain → M.Domain)
    (holds : String × List M.Domain → Prop) : Prop where
  functions : ∀ f ds, ¬ F f → app f ds = M.app f ds
  predicates : ∀ p ds, ¬ P p → (holds (p, ds) ↔ M.holds (p, ds))

namespace Expands

theorem agrees (expands : M.Expands F P app holds) : M.Agrees (¬ F ·.name) (¬ P ·.name) app holds :=
  ⟨fun f ds => expands.functions f ds, fun p ds => expands.predicates p ds⟩

theorem satisfies (expands : M.Expands F P app holds) {a : Atom} (predicate : ¬ P a.predicate)
    (uses : ∀ s ∈ a.args, ∀ f ∈ s.symbols, ¬ F f.name) : (M.expanded app holds).Satisfies v a ↔ M.Satisfies v a :=
  expands.agrees.satisfies predicate uses

theorem satisfiesAll (expands : M.Expands F P app holds) {s : AtomSet}
    (uses : ∀ a ∈ s, ¬ P a.predicate ∧ ∀ r ∈ a.args, ∀ f ∈ r.symbols, ¬ F f.name) :
    (M.expanded app holds).SatisfiesAll v s ↔ M.SatisfiesAll v s :=
  expands.agrees.satisfiesAll uses

/-- Rules without the names that got other meanings hold as before. -/
theorem models (expands : M.Expands F P app holds) (uses : t.Uses (¬ F ·) (¬ P ·)) :
    (M.expanded app holds).Models t ↔ M.Models t :=
  expands.agrees.models (Tgd.uses_iff.mp uses).1 (Tgd.uses_iff.mp uses).2

theorem trans {app' : String → List M.Domain → M.Domain} {holds' : String × List M.Domain → Prop}
    (first : M.Expands F P app holds) (second : (M.expanded app holds).Expands F P app' holds') : M.Expands F P app' holds' :=
  ⟨fun f ds other => (second.functions f ds other).trans (first.functions f ds other),
    fun p ds other => (second.predicates p ds other).trans (first.predicates p ds other)⟩

theorem mono {F' P' : String → Prop} (expands : M.Expands F P app holds) (functions : ∀ f, F f → F' f)
    (predicates : ∀ p, P p → P' p) : M.Expands F' P' app holds :=
  ⟨fun f ds other => expands.functions f ds (fun here => other (functions f here)),
    fun p ds other => expands.predicates p ds (fun here => other (predicates p here))⟩

end Expands

end Structure

namespace Skolemizer
variable {z : Skolemizer} {t p : Tgd} {args : List Variable}

/-- The name of a function that is still to be introduced. -/
def NewFunction (z : Skolemizer) (f : String) : Prop := ∃ n, z.functions ≤ n ∧ functionName n = f

/-- The name of an auxiliary predicate that is still to be introduced. -/
def NewPredicate (z : Skolemizer) (p : String) : Prop := ∃ n, z.predicates ≤ n ∧ predicateName n = p

theorem functionName_inj {m n : Nat} : functionName m = functionName n ↔ m = n := @Variable.indexed_inj "sk#" m n

theorem predicateName_inj {m n : Nat} : predicateName m = predicateName n ↔ m = n := @Variable.indexed_inj "aux#" m n

theorem NewFunction.reserved {name : String} (new : z.NewFunction name) : Reserved "sk#" name := by
  obtain ⟨n, -, rfl⟩ := new
  simp [Reserved, functionName]

theorem NewPredicate.reserved {name : String} (new : z.NewPredicate name) : Reserved "aux#" name := by
  obtain ⟨n, -, rfl⟩ := new
  simp [Reserved, predicateName]

/-- Each existential variable of a rule makes for one function symbol, and there are no others. -/
theorem applies_replaceExistentials (z : Skolemizer) (args : List Variable) (free : t.isFunctionFree = true) {f : Symbol} :
    (z.replaceExistentials t args).1.Applies f ↔
      ∃ x ∈ t.existentials, f = ⟨functionName (z.functions + t.existentials.idxOf x), args.length⟩ := by
  rw [replaceExistentials_eq]
  have plain := Tgd.isFunctionFree_eq_true.mp free
  constructor
  · rintro ⟨a, member | member, s, inside, mentioned⟩
    · exact absurd ⟨a, .inl member, s, inside, mentioned⟩ (Tgd.not_applies free)
    · obtain ⟨b, present, rfl⟩ := AtomSet.mem_subst.mp member
      rw [Atom.args_subst, List.mem_map] at inside
      obtain ⟨r, inside, rfl⟩ := inside
      obtain same | ⟨x, existential, image⟩ :=
        subst_witness_cases z t args (Atom.isFunctional_eq_false.mp (plain.2 b present) r inside)
      · rw [same] at mentioned
        exact absurd ⟨b, .inr present, r, inside, mentioned⟩ (Tgd.not_applies free)
      · rw [image] at mentioned
        exact ⟨x, existential, by simpa [Term.overVariables, Term.symbols, Term.symbolsAll_eq_flatMap] using mentioned⟩
  · rintro ⟨x, existential, rfl⟩
    obtain ⟨h, granted, mentioned⟩ := AtomSet.mem_vars.mp (Tgd.mem_existentials.mp existential).1
    obtain ⟨s, inside, below⟩ := Atom.mem_vars.mp mentioned
    obtain ⟨y, rfl⟩ | ⟨c, rfl⟩ := Term.plain_cases (Atom.isFunctional_eq_false.mp (plain.2 h granted) s inside)
    · obtain rfl : x = y := by simpa using below
      refine ⟨_, .inr (AtomSet.mem_subst.mpr ⟨h, granted, rfl⟩), (Term.var x).subst (z.witness t args), ?_, ?_⟩
      · rw [Atom.args_subst]
        exact List.mem_map_of_mem inside
      · simp [witness, existential, Term.overVariables, Term.symbols]
    · simp at below

theorem mentions_replaceExistentials {z : Skolemizer} {p : Symbol} (mentions : (z.replaceExistentials t args).1.Mentions p) :
    t.Mentions p := by
  obtain ⟨a, here | inside, rfl⟩ := mentions
  · exact ⟨a, .inl here, rfl⟩
  · obtain ⟨b, present, same⟩ := AtomSet.exists_of_mem_subst inside
    exact ⟨b, .inr present, same⟩

theorem uses_replaceExistentials {P : String → Prop} (z : Skolemizer) (args : List Variable) (free : t.isFunctionFree = true)
    (predicates : ∀ a, a ∈ t.body ∨ a ∈ t.head → P a.predicate) :
    (z.replaceExistentials t args).1.Uses (¬ (z.replaceExistentials t args).2.NewFunction ·) P := by
  refine Tgd.uses_iff.mpr ⟨fun f applies new => ?_, fun p mentions => ?_⟩
  · obtain ⟨x, existential, rfl⟩ := (applies_replaceExistentials z args free).mp applies
    obtain ⟨n, later, name⟩ := new
    have bound := List.idxOf_lt_length_iff.mpr existential
    have := functionName_inj.mp name
    rw [replaceExistentials_eq] at later
    simp only at later
    omega
  · obtain ⟨a, member, rfl⟩ := mentions_replaceExistentials mentions
    exact predicates a member

/-- The ways to call on a Skolemizer. -/
inductive Manner where
  | skolemize
  | skolemizeFrontier
  | singleHeaded
  | frontierProjected
deriving DecidableEq

/-- The rules that are returned for a rule, and the Skolemizer afterwards. -/
def answer (z : Skolemizer) : Manner → Tgd → List Tgd × Skolemizer
  | .skolemize, t => ([(z.skolemize t).1], (z.skolemize t).2)
  | .skolemizeFrontier, t => ([(z.skolemizeFrontier t).1], (z.skolemizeFrontier t).2)
  | .singleHeaded, t => z.singleHeaded t
  | .frontierProjected, t => z.frontierProjected t

/-- The existential variables of a rule are replaced by functions of certain arguments, and its head may be split. -/
structure Replaced (z : Skolemizer) (t : Tgd) (args : List Variable) (parts : List Tgd) (next : Skolemizer) : Prop where
  within : ∀ x ∈ args, x ∈ t.universals
  covers : ∀ x ∈ t.frontier, x ∈ args
  splits : parts = [(z.replaceExistentials t args).1] ∨ parts = (z.replaceExistentials t args).1.singleHeads
  next_eq : next = (z.replaceExistentials t args).2

/-- Variables are replaced in a rule, or behind an auxiliary atom. -/
theorem answer_cases (z : Skolemizer) (manner : Manner) (t : Tgd) :
    (∃ args, z.Replaced t args (z.answer manner t).1 (z.answer manner t).2) ∨
      ∃ rest, (z.answer manner t).1 = ⟨t.body, .singleton (z.auxiliary t)⟩ :: rest ∧
        ∃ args, z.next.Replaced (z.behind t) args rest (z.answer manner t).2 := by
  have whole : ∀ x ∈ t.universals, x ∈ t.universals := fun _ inside => inside
  have frontier {t : Tgd} : ∀ x ∈ t.frontier, x ∈ t.frontier := fun _ inside => inside
  cases manner with
  | skolemize => exact .inl ⟨t.universals, whole, frontier_subset, .inl rfl, rfl⟩
  | skolemizeFrontier => exact .inl ⟨t.frontier, frontier_subset, frontier, .inl rfl, rfl⟩
  | singleHeaded => exact .inl ⟨t.universals, whole, frontier_subset, .inr rfl, rfl⟩
  | frontierProjected =>
    simp only [answer, frontierProjected]
    split
    · next constraint =>
      have kept := z.replaceExistentials_of_full t.frontier (Tgd.isFull_of_whole (t := t) (by simp [constraint]))
      exact .inl ⟨t.frontier, frontier_subset, frontier, .inl (by rw [kept]), by rw [kept]⟩
    · split
      · exact .inl ⟨t.frontier, frontier_subset, frontier, .inr rfl, rfl⟩
      · exact .inr ⟨_, rfl, (z.behind t).frontier, frontier_subset, frontier, .inr rfl, rfl⟩

namespace Replaced
variable {parts : List Tgd} {next : Skolemizer}

theorem subset (replaced : z.Replaced t args parts next) (member : p ∈ parts) :
    p.body ⊆ (z.replaceExistentials t args).1.body ∧ p.head ⊆ (z.replaceExistentials t args).1.head := by
  obtain rfl | rfl := replaced.splits
  · exact List.mem_singleton.mp member ▸ ⟨fun _ inside => inside, fun _ inside => inside⟩
  · exact Tgd.subset_of_mem_singleHeads member

theorem exists_mem (replaced : z.Replaced t args parts next) {h : Atom} (granted : h ∈ (z.replaceExistentials t args).1.head) :
    ∃ p ∈ parts, h ∈ p.head := by
  obtain rfl | rfl := replaced.splits
  · exact ⟨_, List.mem_singleton_self _, granted⟩
  · exact Tgd.exists_mem_singleHeads granted

theorem models_iff {M : Structure.{u}} (replaced : z.Replaced t args parts next) :
    (∀ p ∈ parts, M.Models p) ↔ M.Models (z.replaceExistentials t args).1 := by
  obtain rfl | rfl := replaced.splits
  · simp
  · exact Structure.models_singleHeads (isFull_replaceExistentials z replaced.within)

theorem uses {P : String → Prop} (replaced : z.Replaced t args parts next) (free : t.isFunctionFree = true)
    (predicates : ∀ a, a ∈ t.body ∨ a ∈ t.head → P a.predicate) (member : p ∈ parts) : p.Uses (¬ next.NewFunction ·) P := by
  rw [replaced.next_eq]
  exact (uses_replaceExistentials z args free predicates).of_subset (replaced.subset member).1 (replaced.subset member).2

theorem mentions {q : Symbol} (replaced : z.Replaced t args parts next) (member : p ∈ parts) (mentions : p.Mentions q) :
    t.Mentions q :=
  mentions_replaceExistentials (mentions.of_subset (replaced.subset member).1 (replaced.subset member).2)

theorem applies_iff {f : Symbol} (replaced : z.Replaced t args parts next) (free : t.isFunctionFree = true) :
    (∃ p ∈ parts, p.Applies f) ↔
      ∃ x ∈ t.existentials, f = ⟨functionName (z.functions + t.existentials.idxOf x), args.length⟩ := by
  rw [← applies_replaceExistentials z args free]
  constructor
  · intro ⟨p, member, applies⟩
    exact applies.of_subset (replaced.subset member).1 (replaced.subset member).2
  · rintro ⟨a, here | granted, occurs⟩
    · exact absurd ⟨a, .inl here, occurs⟩ (Tgd.not_applies free)
    · obtain ⟨p, member, inside⟩ := replaced.exists_mem granted
      exact ⟨p, member, a, .inr inside, occurs⟩

end Replaced

theorem le_answer (z : Skolemizer) (manner : Manner) (t : Tgd) :
    z.functions ≤ (z.answer manner t).2.functions ∧ z.predicates ≤ (z.answer manner t).2.predicates := by
  obtain ⟨args, replaced⟩ | ⟨rest, -, args, replaced⟩ := answer_cases z manner t <;> rw [replaced.next_eq]
  · exact ⟨Nat.le_add_right _ _, le_rfl⟩
  · exact ⟨Nat.le_add_right _ _, Nat.le_succ _⟩

theorem NewFunction.mono {z' : Skolemizer} {f : String} (le : z.functions ≤ z'.functions) (new : z'.NewFunction f) :
    z.NewFunction f :=
  new.imp (fun _ number => ⟨le.trans number.1, number.2⟩)

theorem NewPredicate.mono {z' : Skolemizer} {p : String} (le : z.predicates ≤ z'.predicates) (new : z'.NewPredicate p) :
    z.NewPredicate p :=
  new.imp (fun _ number => ⟨le.trans number.1, number.2⟩)

/-- An answer introduces no predicate, or it grants the auxiliary one; it mentions no other predicate than the rule. -/
theorem mentions_answer (z : Skolemizer) (manner : Manner) (t : Tgd) :
    (z.answer manner t).2.predicates = z.predicates ∧
      (∀ q ∈ (z.answer manner t).1, ∀ p, q.Mentions p → t.Mentions p) ∨
    (z.answer manner t).2.predicates = z.predicates + 1 ∧
      ⟨t.body, .singleton (z.auxiliary t)⟩ ∈ (z.answer manner t).1 ∧
      ∀ q ∈ (z.answer manner t).1, ∀ p, q.Mentions p → t.Mentions p ∨ p = (z.auxiliary t).symbol := by
  obtain ⟨args, replaced⟩ | ⟨rest, parts, args, replaced⟩ := answer_cases z manner t
  · exact .inl ⟨(congrArg predicates replaced.next_eq).trans rfl, fun q member p mentions => replaced.mentions member mentions⟩
  · rw [parts]
    refine .inr ⟨congrArg predicates replaced.next_eq, List.mem_cons_self, List.forall_mem_cons.mpr ⟨?_, ?_⟩⟩
    · rintro p ⟨a, inside | alone, rfl⟩
      · exact .inl ⟨a, .inl inside, rfl⟩
      · exact .inr (by rw [SortedSet.mem_singleton.mp alone])
    · intro q member p mentions
      obtain ⟨a, alone | inside, rfl⟩ := replaced.mentions member mentions
      · exact .inr (by rw [SortedSet.mem_singleton.mp alone])
      · exact .inl ⟨a, .inr inside, rfl⟩

/-- The function symbols of an answer belong to the existential variables of the rule, and all head atoms are granted
with their terms in place of these variables. -/
theorem exists_arguments (z : Skolemizer) (manner : Manner) (free : t.isFunctionFree = true) :
    ∃ args : List Variable,
      (∀ f, (∃ p ∈ (z.answer manner t).1, p.Applies f) ↔
        ∃ x ∈ t.existentials, f = ⟨functionName (z.functions + t.existentials.idxOf x), args.length⟩) ∧
      ∀ h ∈ t.head, ∃ p ∈ (z.answer manner t).1, h.subst (z.witness t args) ∈ p.head := by
  have granted {t : Tgd} {h : Atom} (args : List Variable) (z : Skolemizer) (member : h ∈ t.head) :
      h.subst (z.witness t args) ∈ (z.replaceExistentials t args).1.head := AtomSet.mem_subst.mpr ⟨h, member, rfl⟩
  obtain ⟨args, replaced⟩ | ⟨rest, parts, args, replaced⟩ := answer_cases z manner t
  · exact ⟨args, fun f => replaced.applies_iff free, fun h member => replaced.exists_mem (granted args z member)⟩
  · have same : z.next.witness (z.behind t) args = z.witness t args := by
      funext x
      simp only [witness, existentials_behind, next]
    refine ⟨args, fun f => ?_, fun h member => ?_⟩
    · rw [parts]
      have first : ¬ (⟨t.body, .singleton (z.auxiliary t)⟩ : Tgd).Applies f := Tgd.not_applies (isFunctionFree_granting free)
      simp only [List.mem_cons, exists_eq_or_imp, first, false_or]
      rw [replaced.applies_iff (isFunctionFree_behind free), existentials_behind]
      rfl
    · obtain ⟨p, member, inside⟩ := replaced.exists_mem (granted (t := z.behind t) args z.next member)
      exact ⟨p, parts ▸ List.mem_cons_of_mem _ member, same ▸ inside⟩

/-- What is returned for a rule has names that are no longer new afterwards. -/
theorem uses_answer (z : Skolemizer) (manner : Manner) (free : t.isFunctionFree = true)
    (unreserved : ∀ a, a ∈ t.body ∨ a ∈ t.head → ¬ Reserved "aux#" a.predicate) :
    ∀ p ∈ (z.answer manner t).1,
      p.Uses (¬ (z.answer manner t).2.NewFunction ·) (¬ (z.answer manner t).2.NewPredicate ·) := by
  have old {z : Skolemizer} (a : Atom) (member : a ∈ t.body ∨ a ∈ t.head) : ¬ z.NewPredicate a.predicate :=
    fun new => unreserved a member new.reserved
  obtain ⟨args, replaced⟩ | ⟨rest, parts, args, replaced⟩ := answer_cases z manner t
  · exact fun p member => replaced.uses free old member
  · have granted : ¬ (z.answer manner t).2.NewPredicate (z.auxiliary t).predicate := by
      intro ⟨n, later, name⟩
      rw [predicateName_inj.mp name, replaced.next_eq] at later
      exact Nat.not_succ_le_self _ later
    rw [parts]
    refine List.forall_mem_cons.mpr ⟨Tgd.uses_of_free (isFunctionFree_granting free) ?_,
      fun p member => replaced.uses (isFunctionFree_behind free) ?_ member⟩
    · rintro a (member | alone)
      · exact old a (.inl member)
      · exact SortedSet.mem_singleton.mp alone ▸ granted
    · rintro a (alone | member)
      · exact SortedSet.mem_singleton.mp alone ▸ granted
      · exact old a (.inr member)

end Skolemizer

namespace Structure
open Skolemizer
variable {M : Structure.{u}} {z : Skolemizer} {t : Tgd} {args : List Variable}

/-- Some assignment satisfies the head with the values of the arguments that any assignment with it has. -/
theorem exists_choice (M : Structure.{u}) (t : Tgd) (args : List Variable) :
    ∃ choice : List M.Domain → M.Assignment, ∀ w : M.Assignment, M.SatisfiesAll w t.head →
      args.map (choice (args.map w)) = args.map w ∧ M.SatisfiesAll (choice (args.map w)) t.head := by
  obtain ⟨someone⟩ := M.inhabited
  have chosen (ds : List M.Domain) : ∃ w : M.Assignment,
      ∀ w' : M.Assignment, args.map w' = ds → M.SatisfiesAll w' t.head → args.map w = ds ∧ M.SatisfiesAll w t.head := by
    by_cases possible : ∃ w : M.Assignment, args.map w = ds ∧ M.SatisfiesAll w t.head
    · obtain ⟨w, right⟩ := possible
      exact ⟨w, fun _ _ _ => right⟩
    · exact ⟨fun _ => someone, fun w same head => absurd ⟨w, same, head⟩ possible⟩
  choose choice right using chosen
  exact ⟨choice, fun w => right _ w rfl⟩

/-- The functions that stand for existential variables take the values of the arguments to what a choice gives to the
variables. -/
def witnessApp (M : Structure.{u}) (z : Skolemizer) (t : Tgd) (choice : List M.Domain → M.Assignment) (f : String)
    (ds : List M.Domain) : M.Domain :=
  match t.existentials.find? (fun e => functionName (z.functions + t.existentials.idxOf e) = f) with
  | some e => choice ds e
  | none => M.app f ds

theorem witnessApp_name {choice : List M.Domain → M.Assignment} {x : Variable} (existential : x ∈ t.existentials)
    (ds : List M.Domain) :
    M.witnessApp z t choice (functionName (z.functions + t.existentials.idxOf x)) ds = choice ds x := by
  unfold witnessApp
  split
  · next e found =>
    have same := List.find?_some found
    have name := functionName_inj.mp (of_decide_eq_true same)
    rw [(List.idxOf_inj (List.mem_of_find?_eq_some found)).mp (Nat.add_left_cancel name)]
  · next absent => simpa using List.find?_eq_none.mp absent x existential

theorem expands_witnessApp (M : Structure.{u}) (z : Skolemizer) (t : Tgd) (choice : List M.Domain → M.Assignment) :
    M.Expands z.NewFunction (fun _ => False) (M.witnessApp z t choice) M.holds := by
  refine ⟨fun f ds other => ?_, fun _ _ _ => Iff.rfl⟩
  unfold witnessApp
  split
  · next e found =>
    have same := List.find?_some found
    exact absurd ⟨_, Nat.le_add_right _ _, of_decide_eq_true same⟩ other
  · rfl

/-- A structure of a rule satisfies its Skolemization if the functions are told which values the existential variables
take. -/
theorem exists_replaced (z : Skolemizer) (uses : t.Uses (¬ z.NewFunction ·) (fun _ => True))
    (within : ∀ x ∈ args, x ∈ t.universals) (covers : ∀ x ∈ t.frontier, x ∈ args) (models : M.Models t) :
    ∃ app, M.Expands z.NewFunction (fun _ => False) app M.holds ∧
      (M.expanded app M.holds).Models (z.replaceExistentials t args).1 := by
  obtain ⟨choice, right⟩ := exists_choice M t args
  have expands := expands_witnessApp M z t choice
  have uses : t.Uses (¬ z.NewFunction ·) (fun _ => ¬ False) := uses.mono (fun _ old => old) (fun _ _ => not_false)
  refine ⟨_, expands, fun v body => ⟨v, fun _ _ => rfl, satisfiesAll_subst.mpr ?_⟩⟩
  obtain ⟨w, same, head⟩ := models v ((expands.satisfiesAll (fun a member => uses a (.inl member))).mp body)
  -- The choice depends on the arguments alone, where `w` and `v` agree.
  obtain ⟨arguments, head⟩ := right w head
  rw [List.map_congr_left (fun x inside => same x (within x inside))] at arguments head
  have head := (expands.satisfiesAll (fun a member => uses a (.inr member))).mpr head
  refine (satisfiesAll_congr (fun x inside => ?_)).mp head
  by_cases existential : x ∈ t.existentials
  · have values : args.map ((M.expanded (M.witnessApp z t choice) M.holds).value v ∘ Term.var) = args.map v :=
      List.map_congr_left (fun y _ => Interpretation.value_var v y)
    rw [if_pos existential, Term.overVariables, Interpretation.value_app, List.map_map, values]
    exact (witnessApp_name existential _).symm
  · have universal : x ∈ t.universals := by
      by_contra absent
      exact existential (Tgd.mem_existentials.mpr ⟨inside, absent⟩)
    rw [if_neg existential, Interpretation.value_var]
    exact List.map_inj_left.mp arguments x (covers x (Tgd.mem_frontier.mpr ⟨universal, inside⟩))

/-- A rule follows from its Skolemization: function terms are values for the existential variables. -/
theorem models_of_replaced (models : M.Models (z.replaceExistentials t args).1) : M.Models t := by
  intro v body
  obtain ⟨w, same, head⟩ := models v body
  refine ⟨_, fun x universal => ?_, satisfiesAll_subst.mp head⟩
  have : x ∉ t.existentials := fun existential => (Tgd.mem_existentials.mp existential).2 universal
  rw [if_neg this, Interpretation.value_var]
  exact same x universal

/-- The auxiliary atom holds of what assignments give to the frontier where they satisfy the body. -/
def auxiliaryHolds (M : Structure.{u}) (z : Skolemizer) (t : Tgd) (fact : String × List M.Domain) : Prop :=
  if fact.1 = predicateName z.predicates then ∃ v : M.Assignment, M.SatisfiesAll v t.body ∧ t.frontier.map v = fact.2
  else M.holds fact

theorem expands_auxiliaryHolds (M : Structure.{u}) (z : Skolemizer) (t : Tgd) :
    M.Expands (fun _ => False) (· = predicateName z.predicates) M.app (M.auxiliaryHolds z t) :=
  ⟨fun _ _ _ => rfl, fun _ _ other => iff_of_eq (if_neg other)⟩

theorem satisfies_auxiliary {v : M.Assignment} :
    (M.expanded M.app (M.auxiliaryHolds z t)).Satisfies v (z.auxiliary t) ↔
      ∃ w : M.Assignment, M.SatisfiesAll w t.body ∧ t.frontier.map w = t.frontier.map v := by
  have values : (M.expanded M.app (M.auxiliaryHolds z t)).values v (z.auxiliary t).args = t.frontier.map v := by
    rw [Interpretation.values_eq_map, auxiliary, Atom.overVariables, List.map_map]
    exact List.map_congr_left (fun x _ => Interpretation.value_var v x)
  rw [Satisfies, Interpretation.fact, values]
  exact iff_of_eq (if_pos rfl)

theorem exists_auxiliary (z : Skolemizer) (unreserved : ∀ a, a ∈ t.body ∨ a ∈ t.head → ¬ z.NewPredicate a.predicate)
    (models : M.Models t) :
    ∃ holds, M.Expands (fun _ => False) (· = predicateName z.predicates) M.app holds ∧
      (M.expanded M.app holds).Models ⟨t.body, .singleton (z.auxiliary t)⟩ ∧ (M.expanded M.app holds).Models (z.behind t) := by
  have expands := expands_auxiliaryHolds M z t
  have old {a : Atom} (member : a ∈ t.body ∨ a ∈ t.head) :
      ¬ a.predicate = predicateName z.predicates ∧ ∀ s ∈ a.args, ∀ f ∈ s.symbols, ¬ False :=
    ⟨fun same => unreserved a member ⟨_, le_rfl, same.symm⟩, fun _ _ _ _ => not_false⟩
  refine ⟨_, expands, models_of_full (fun v body a alone => ?_), fun v body => ?_⟩
  · rw [SortedSet.mem_singleton.mp alone]
    exact satisfies_auxiliary.mpr ⟨v, (expands.satisfiesAll (fun a member => old (.inl member))).mp body, rfl⟩
  · obtain ⟨v', body', values⟩ := satisfies_auxiliary.mp (body _ (SortedSet.mem_singleton.mpr rfl))
    obtain ⟨w, same, head⟩ := models v' body'
    refine ⟨w, fun x inside => ?_, (expands.satisfiesAll (fun a member => old (.inr member))).mpr head⟩
    have inside := mem_universals_behind.mp inside
    exact (same x (frontier_subset x inside)).trans (List.map_inj_left.mp values x inside)

/-- A structure that satisfies a rule satisfies what is returned for it under some meaning of the new symbols. -/
theorem exists_answered (z : Skolemizer) (manner : Manner) (free : t.isFunctionFree = true)
    (unreserved : ∀ a, a ∈ t.body ∨ a ∈ t.head → ¬ Reserved "aux#" a.predicate) (models : M.Models t) :
    ∃ app holds, M.Expands z.NewFunction z.NewPredicate app holds ∧
      ∀ p ∈ (z.answer manner t).1, (M.expanded app holds).Models p := by
  have replacement {M : Structure.{u}} {z next : Skolemizer} {t : Tgd} {args : List Variable} {parts : List Tgd}
      (replaced : z.Replaced t args parts next) (free : t.isFunctionFree = true) (models : M.Models t) :
      ∃ app, M.Expands z.NewFunction (fun _ => False) app M.holds ∧ ∀ p ∈ parts, (M.expanded app M.holds).Models p := by
    obtain ⟨app, expands, models⟩ :=
      exists_replaced z (Tgd.uses_of_free free (fun _ _ => trivial)) replaced.within replaced.covers models
    exact ⟨app, expands, replaced.models_iff.mpr models⟩
  obtain ⟨args, replaced⟩ | ⟨rest, parts, args, replaced⟩ := answer_cases z manner t
  · obtain ⟨app, expands, models⟩ := replacement replaced free models
    exact ⟨app, M.holds, expands.mono (fun _ new => new) (fun _ => False.elim), models⟩
  · obtain ⟨holds, granted, first, second⟩ :=
      exists_auxiliary z (fun a member new => unreserved a member new.reserved) models
    obtain ⟨app, expands, models⟩ := replacement replaced (isFunctionFree_behind free) second
    rw [parts]
    refine ⟨app, holds, ?_, List.forall_mem_cons.mpr ⟨?_, models⟩⟩
    · have whole : (M.expanded M.app holds).Expands z.NewFunction z.NewPredicate app holds :=
        expands.mono (fun _ new => new) (fun _ => False.elim)
      exact (granted.mono (fun _ => False.elim) (fun p same => ⟨_, le_rfl, same.symm⟩)).trans whole
    · exact (expands.models (Tgd.uses_of_free (isFunctionFree_granting free) (fun _ _ => not_false))).mpr first

/-- A rule follows from what is returned for it. -/
theorem models_of_answered {manner : Manner} (models : ∀ p ∈ (z.answer manner t).1, M.Models p) : M.Models t := by
  obtain ⟨args, replaced⟩ | ⟨rest, parts, args, replaced⟩ := answer_cases z manner t
  · exact models_of_replaced (replaced.models_iff.mp models)
  · rw [parts] at models
    obtain ⟨first, second⟩ := List.forall_mem_cons.mp models
    intro v body
    have granted : M.SatisfiesAll v (.singleton (z.auxiliary t)) := by
      refine first.of_full (Tgd.isFull_eq_true.mpr (fun x inside => ?_)) body
      exact frontier_subset (t := t) x ((mem_universals_behind (z := z) (t := t)).mp inside)
    obtain ⟨w, same, head⟩ := models_of_replaced (replaced.models_iff.mp second) v granted
    classical
    refine ⟨fun x => if x ∈ t.universals then v x else w x, fun x universal => if_pos universal, ?_⟩
    refine (satisfiesAll_congr (fun x inside => ?_)).mp head
    split
    · next universal => exact same x (mem_universals_behind.mpr (Tgd.mem_frontier.mpr ⟨universal, inside⟩))
    · rfl

end Structure
end GuardedSaturation
