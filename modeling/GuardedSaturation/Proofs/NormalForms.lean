import Mathlib
import GuardedSaturation.Saturation.Calculus
import GuardedSaturation.Subsumption.Signature
import GuardedSaturation.Proofs.Renaming

/-! Normal forms keep the meaning of rules. The variable normal form is a renaming that keeps
variables apart and gives universal and existential ones names of different kinds; the parts
of a head say together what the head says; head atoms granted by the body say nothing. -/
namespace GuardedSaturation

/-- No name of a universal variable is one of an existential variable. -/
def Naming.Apart (naming : Naming) : Prop :=
  ∀ m n, Variable.indexed naming.universalStem m ≠ Variable.indexed naming.existentialStem n

theorem Naming.apart_default : Naming.Apart {} := by
  intro m n same
  have := congrArg (·.toList.head?) same
  simp [Variable.indexed] at this

namespace Tgd

theorem leastAtom_mem (t : Tgd) (order : List Variable) (a : Atom) (rest : List Atom) :
    t.leastAtom order a rest ∈ a :: rest := by
  have choice (rest : List Atom) (least : Atom) :
      rest.foldl (fun least b => if t.compareAtoms order b least = .lt then b else least) least ∈ least :: rest := by
    induction rest generalizing least with
    | nil => simp
    | cons b rest ih =>
      rw [List.foldl_cons]
      split
      · exact List.mem_cons_of_mem _ (ih b)
      · rcases List.mem_cons.mp (ih least) with same | member
        · simp [same]
        · exact List.mem_cons_of_mem _ (List.mem_cons_of_mem _ member)
  exact choice rest a

theorem mem_rankAtoms (t : Tgd) (n : Nat) (order : List Variable) (atoms : List Atom)
    (enough : atoms.length ≤ n) {x : Variable} :
    x ∈ t.rankAtoms n order atoms ↔ x ∈ order ∨ ∃ a ∈ atoms, x ∈ a.vars := by
  induction n generalizing order atoms with
  | zero =>
    have : atoms = [] := List.length_eq_zero_iff.mp (Nat.le_zero.mp enough)
    simp [this, rankAtoms]
  | succ n ih =>
    cases atoms with
    | nil => simp [rankAtoms]
    | cons a rest =>
      have member := t.leastAtom_mem order a rest
      rw [rankAtoms, ih _ _ (by rw [List.length_erase_of_mem member]; simpa using enough)]
      have split (b : Atom) : b ∈ a :: rest ↔
          b = t.leastAtom order a rest ∨ b ∈ (a :: rest).erase (t.leastAtom order a rest) := by
        rw [← List.mem_cons]
        exact (List.perm_cons_erase member).mem_iff
      simp only [unranked, List.mem_append, List.mem_filter, decide_eq_true_eq, split, or_and_right,
        exists_or, exists_eq_left]
      tauto

theorem mem_variableOrder (t : Tgd) (mode : NamingMode) {x : Variable} :
    x ∈ t.variableOrder mode ↔ x ∈ t.vars := by
  cases mode with
  | naive => rfl
  | sorted =>
    rw [variableOrder, sortedOrder, mem_rankAtoms _ _ _ _ (by rfl), mem_rankAtoms _ _ _ _ (by rfl)]
    simp only [List.not_mem_nil, false_or, mem_vars, AtomSet.mem_vars, SortedSet.mem_toList]
    exact or_comm

def normalName (naming : Naming) (t : Tgd) (x : Variable) : Variable :=
  match t.quantifier x with
  | .universal => .indexed naming.universalStem (t.rank (t.variableOrder naming.mode) x)
  | .existential => .indexed naming.existentialStem (t.rank (t.variableOrder naming.mode) x)

theorem normalForm_eq (naming : Naming) (t : Tgd) :
    t.normalForm naming = t.subst (fun x => .var (t.normalName naming x)) := rfl

variable {naming : Naming} {t : Tgd}

theorem normalName_universal {x : Variable} (universal : x ∈ t.body.vars) :
    ∃ n, t.normalName naming x = .indexed naming.universalStem n := by
  refine ⟨t.rank (t.variableOrder naming.mode) x, ?_⟩
  simp [normalName, quantifier, universals, universal]

theorem normalName_existential {x : Variable} (existential : x ∉ t.body.vars) :
    ∃ n, t.normalName naming x = .indexed naming.existentialStem n := by
  refine ⟨t.rank (t.variableOrder naming.mode) x, ?_⟩
  simp [normalName, quantifier, universals, existential]

theorem rank_inj {order : List Variable} {x y : Variable} (inside : x ∈ order)
    (kind : t.quantifier x = t.quantifier y) (same : t.rank order x = t.rank order y) : x = y := by
  rw [rank, rank, kind] at same
  exact (List.idxOf_inj (by simp [inside, kind])).mp same

/-- The name of a variable by its kind and its place in an order. -/
def nameBy (naming : Naming) (t : Tgd) (order : List Variable) (x : Variable) : Variable :=
  match t.quantifier x with
  | .universal => .indexed naming.universalStem (t.rank order x)
  | .existential => .indexed naming.existentialStem (t.rank order x)

theorem normalName_eq (naming : Naming) (t : Tgd) :
    t.normalName naming = t.nameBy naming (t.variableOrder naming.mode) := rfl

theorem nameBy_injOn (apart : naming.Apart) {order : List Variable} (within : ∀ x ∈ t.vars, x ∈ order) :
    Set.InjOn (t.nameBy naming order) {x | x ∈ t.vars} := by
  intro x inside y inside' same
  have ordered := within x inside
  unfold nameBy at same
  cases kind : t.quantifier x <;> cases kind' : t.quantifier y <;> simp only [kind, kind'] at same
  · exact rank_inj ordered (kind.trans kind'.symm) (Variable.indexed_inj.mp same)
  · exact absurd same (apart _ _)
  · exact absurd same.symm (apart _ _)
  · exact rank_inj ordered (kind.trans kind'.symm) (Variable.indexed_inj.mp same)

theorem normalName_injOn (apart : naming.Apart) : Set.InjOn (t.normalName naming) {x | x ∈ t.vars} :=
  nameBy_injOn apart (fun _ => (t.mem_variableOrder naming.mode).mpr)

/-- A rule whose variables have names of their kind, as normal forms have. -/
def Sorted (naming : Naming) (t : Tgd) : Prop :=
  (∀ x ∈ t.body.vars, ∃ n, x = .indexed naming.universalStem n) ∧
    ∀ x ∈ t.head.vars, x ∉ t.body.vars → ∃ n, x = .indexed naming.existentialStem n

theorem normalForm_sorted (naming : Naming) (t : Tgd) : (t.normalForm naming).Sorted naming := by
  rw [normalForm_eq]
  constructor
  · intro y inside
    obtain ⟨x, old, rfl⟩ := AtomSet.mem_vars_rename.mp inside
    exact normalName_universal old
  · intro y inside absent
    obtain ⟨x, existential, rfl⟩ := exists_of_mem_existentials_rename (mem_existentials.mpr ⟨inside, absent⟩)
    exact normalName_existential (mem_existentials.mp existential).2

def inventive (t : Tgd) (a : Atom) : Bool := t.existentials.any a.mentions

theorem inventive_iff {a : Atom} (member : a ∈ t.head) :
    t.inventive a = true ↔ ∃ x ∈ a.vars, x ∉ t.body.vars := by
  simp only [inventive, List.any_eq_true, mem_existentials, Atom.mentions_iff]
  constructor
  · rintro ⟨x, ⟨-, absent⟩, inside⟩
    exact ⟨x, inside, absent⟩
  · rintro ⟨x, inside, absent⟩
    exact ⟨x, ⟨AtomSet.mem_vars_of_mem member inside, absent⟩, inside⟩

theorem isFull_of_whole (whole : (t.isConstraint || t.existentials.isEmpty) = true) : t.isFull = true := by
  rcases Bool.or_eq_true_iff.mp whole with constraint | none
  · simp only [isConstraint, AtomSet.isFalsity, SortedSet.all, Bool.and_eq_true, List.all_eq_true] at constraint
    apply isFull_eq_true.mpr
    intro x inside
    obtain ⟨a, member, inside⟩ := AtomSet.mem_vars.mp inside
    have noArgs := congrArg Symbol.arity (of_decide_eq_true (constraint.2 a member))
    have : a.args = [] := List.length_eq_zero_iff.mp noArgs
    simp [this] at inside
  · exact isFull_iff.mpr (List.isEmpty_iff.mp none)

/-- The parts of a head: the whole of a full rule, or the atoms of either kind where there are some. -/
theorem mem_headParts {p : Tgd} :
    p ∈ t.headParts ↔
      if (t.isConstraint || t.existentials.isEmpty) = true then p = t
      else ∃ invents : Bool, p = ⟨t.body, t.head.filter (fun a => t.inventive a = invents)⟩ ∧ p.head.isEmpty = false := by
  unfold headParts
  split
  · simp
  · have inventive : (fun a => decide (t.inventive a = true)) = fun a => t.existentials.any a.mentions := by
      funext a
      exact Bool.decide_eq_true
    have plain : (fun a => decide (t.inventive a = false)) = fun a => !t.existentials.any a.mentions := by
      funext a
      exact Bool.decide_eq_false
    simp only [List.mem_map, List.mem_filter, List.mem_cons, List.not_mem_nil, or_false, Bool.exists_bool,
      inventive, plain, Bool.not_eq_true']
    constructor
    · rintro ⟨part, ⟨rfl | rfl, some⟩, rfl⟩
      · exact .inr ⟨rfl, some⟩
      · exact .inl ⟨rfl, some⟩
    · rintro (⟨rfl, some⟩ | ⟨rfl, some⟩)
      · exact ⟨_, ⟨.inr rfl, some⟩, rfl⟩
      · exact ⟨_, ⟨.inl rfl, some⟩, rfl⟩

theorem body_of_mem_headParts {p : Tgd} (member : p ∈ t.headParts) : p.body = t.body := by
  rw [mem_headParts] at member
  split at member
  · rw [member]
  · obtain ⟨invents, rfl, -⟩ := member
    rfl

theorem head_of_mem_headParts {p : Tgd} (member : p ∈ t.headParts) {a : Atom} (inside : a ∈ p.head) :
    a ∈ t.head := by
  rw [mem_headParts] at member
  split at member
  · rwa [member] at inside
  · obtain ⟨invents, rfl, -⟩ := member
    exact (SortedSet.mem_filter.mp inside).1

theorem headParts_kinds {p : Tgd} (member : p ∈ t.headParts) :
    p.isFull = true ∨ ∀ a ∈ p.head, ∃ x ∈ a.vars, x ∉ p.body.vars := by
  rw [mem_headParts] at member
  split at member
  · next whole => exact .inl (member ▸ isFull_of_whole whole)
  · obtain ⟨invents, rfl, -⟩ := member
    cases invents with
    | true =>
      right
      intro a inside
      obtain ⟨member, invents⟩ := SortedSet.mem_filter.mp inside
      exact (inventive_iff member).mp (of_decide_eq_true invents)
    | false =>
      left
      apply isFull_eq_true.mpr
      intro x inside
      obtain ⟨a, inside', inside⟩ := AtomSet.mem_vars.mp inside
      obtain ⟨member, kind⟩ := SortedSet.mem_filter.mp inside'
      by_contra absent
      have := (inventive_iff member).mpr ⟨x, inside, absent⟩
      simp [this] at kind

theorem exists_mem_headParts {a : Atom} (member : a ∈ t.head) :
    ∃ p ∈ t.headParts, a ∈ p.head ∧ (t.inventive a = false → p.isFull = true) ∧
      (t.inventive a = true → ∀ b ∈ t.head, t.inventive b = true → b ∈ p.head) := by
  by_cases whole : (t.isConstraint || t.existentials.isEmpty) = true
  · exact ⟨t, mem_headParts.mpr (by rw [if_pos whole]), member, fun _ => isFull_of_whole whole,
      fun _ b inside _ => inside⟩
  · have inside : a ∈ t.head.filter (fun b => t.inventive b = t.inventive a) :=
      SortedSet.mem_filter.mpr ⟨member, by simp⟩
    have part : (⟨t.body, t.head.filter (fun b => t.inventive b = t.inventive a)⟩ : Tgd) ∈ t.headParts := by
      apply mem_headParts.mpr
      rw [if_neg whole]
      refine ⟨t.inventive a, rfl, ?_⟩
      exact List.isEmpty_eq_false_iff.mpr (List.ne_nil_of_mem inside)
    refine ⟨_, part, inside, fun plain => ?_, fun invents b member kind => ?_⟩
    · rcases headParts_kinds part with full | kinds
      · exact full
      · have := (inventive_iff member).mpr (kinds a inside)
        simp [plain] at this
    · exact SortedSet.mem_filter.mpr ⟨member, by simp [invents, kind]⟩

theorem withoutTautology_eq_none (nothing : t.withoutTautology = none) : t.head ⊆ t.body := by
  simp only [withoutTautology] at nothing
  split at nothing
  · split at nothing
    · next empty =>
      intro a member
      by_contra absent
      have : a ∈ t.head \ t.body := SortedSet.mem_sdiff.mpr ⟨member, absent⟩
      rw [SortedSet.isEmpty, List.isEmpty_iff] at empty
      simp [← SortedSet.mem_toList, empty] at this
    · simp at nothing
  · simp at nothing

theorem withoutTautology_eq_some {rest : Tgd} (left : t.withoutTautology = some rest) :
    rest.body = t.body ∧ ∀ a, a ∈ rest.head ↔ a ∈ t.head ∧ a ∉ t.body := by
  simp only [withoutTautology] at left
  split at left
  · split at left
    · simp at left
    · cases left
      simp
  · next disjoint =>
    cases left
    refine ⟨rfl, fun a => ⟨fun member => ⟨member, fun granted => disjoint ?_⟩, And.left⟩⟩
    exact List.any_eq_true.mpr ⟨a, member, by simpa using granted⟩

theorem subsumes_iff {general specific : Tgd} :
    general.subsumes specific = true ↔ general.body ⊆ specific.body ∧ specific.head ⊆ general.head := by
  simp [subsumes]

theorem subsumes_refl (t : Tgd) : t.subsumes t = true :=
  subsumes_iff.mpr ⟨fun _ member => member, fun _ member => member⟩

theorem subsumes_trans {r s t : Tgd} (first : r.subsumes s = true) (second : s.subsumes t = true) :
    r.subsumes t = true := by
  rw [subsumes_iff] at *
  exact ⟨fun a member => second.1 a (first.1 a member), fun a member => first.2 a (second.2 a member)⟩

/-- What is left of a candidate once its tautologies are handled: itself, its canonical form
without the head atoms that its body grants, or nothing. -/
def trimmed (discard : Bool) (t : Tgd) : Option Tgd :=
  if discard then t.withoutTautology.map (fun rest => if rest.head.size < t.head.size then rest.canonical else rest)
  else some t

end Tgd

namespace Structure
universe u
variable {M : Structure.{u}} {t : Tgd}

theorem models_normalForm {naming : Naming} (apart : naming.Apart) :
    M.Models (t.normalForm naming) ↔ M.Models t :=
  models_rename (Tgd.normalName_injOn apart)

theorem models_canonical : M.Models t.canonical ↔ M.Models t := models_normalForm Naming.apart_default

/-- The parts of a head say together what the head says. -/
theorem models_headParts : (∀ p ∈ t.headParts, M.Models p) ↔ M.Models t := by
  constructor
  · intro parts v body
    have granted {w : M.Assignment} (same : ∀ x ∈ t.universals, w x = v x) {a : Atom} (member : a ∈ t.head)
        (plain : t.inventive a = false) : M.Satisfies w a := by
      obtain ⟨p, part, inside, full, -⟩ := Tgd.exists_mem_headParts member
      have head := (parts p part).of_full (full plain) (v := v) (by rwa [Tgd.body_of_mem_headParts part])
      refine (satisfies_congr (fun x inside' => same x ?_)).mpr (head a inside)
      by_contra absent
      have := (Tgd.inventive_iff member).mpr ⟨x, inside', absent⟩
      simp [plain] at this
    by_cases invents : ∃ a ∈ t.head, t.inventive a = true
    · obtain ⟨a, member, invents⟩ := invents
      obtain ⟨p, part, inside, -, together⟩ := Tgd.exists_mem_headParts member
      have bodies := Tgd.body_of_mem_headParts part
      obtain ⟨w, same, head⟩ := parts p part v (by rwa [bodies])
      rw [Tgd.universals, bodies] at same
      refine ⟨w, same, fun b member => ?_⟩
      cases kind : t.inventive b with
      | true => exact head b (together invents b member kind)
      | false => exact granted same member kind
    · push Not at invents
      exact ⟨v, fun _ _ => rfl, fun a member => granted (fun _ _ => rfl) member (by simpa using invents a member)⟩
  · intro models p part v body
    have bodies := Tgd.body_of_mem_headParts part
    obtain ⟨w, same, head⟩ := models v (by rwa [← bodies])
    refine ⟨w, ?_, fun a member => head a (Tgd.head_of_mem_headParts part member)⟩
    rwa [Tgd.universals, bodies]

theorem models_canonicalParts : (∀ p ∈ t.canonicalParts, M.Models p) ↔ M.Models t := by
  simp only [Tgd.canonicalParts, List.forall_mem_map, models_canonical, models_headParts]

theorem models_withoutTautology {rest : Tgd} (left : t.withoutTautology = some rest) :
    M.Models rest ↔ M.Models t := by
  obtain ⟨bodies, heads⟩ := Tgd.withoutTautology_eq_some left
  constructor
  · intro models v body
    obtain ⟨w, same, head⟩ := models v (by rwa [bodies])
    rw [Tgd.universals, bodies] at same
    refine ⟨w, same, fun a member => ?_⟩
    by_cases granted : a ∈ t.body
    · exact (satisfiesAll_congr same).mpr body a granted
    · exact head a ((heads a).mpr ⟨member, granted⟩)
  · intro models v body
    obtain ⟨w, same, head⟩ := models v (by rwa [← bodies])
    refine ⟨w, by rwa [Tgd.universals, bodies], fun a member => head a ((heads a).mp member).1⟩

/-- Trimming keeps the meaning, and nothing is left only of rules that always hold. -/
theorem models_trimmed {discard : Bool} : (∀ rest, t.trimmed discard = some rest → M.Models rest) ↔ M.Models t := by
  cases discard with
  | false => simp [Tgd.trimmed]
  | true =>
    cases trimmed : t.withoutTautology with
    | none =>
      have within := Tgd.withoutTautology_eq_none trimmed
      have holds : M.Models t := fun v body => ⟨v, fun _ _ => rfl, fun a member => body a (within a member)⟩
      simp [Tgd.trimmed, trimmed, holds]
    | some rest =>
      simp only [Tgd.trimmed, trimmed, if_true, Option.map_some, Option.some.injEq, forall_eq']
      split
      · rw [models_canonical, models_withoutTautology trimmed]
      · rw [models_withoutTautology trimmed]

/-- Between rules with names of their kind a subsuming rule says at least as much. -/
theorem Models.of_subsumes {naming : Naming} (apart : naming.Apart) {general specific : Tgd}
    (sortedGeneral : general.Sorted naming) (sortedSpecific : specific.Sorted naming)
    (subsumes : general.subsumes specific = true) (models : M.Models general) : M.Models specific := by
  classical
  obtain ⟨bodies, heads⟩ := Tgd.subsumes_iff.mp subsumes
  intro v body
  obtain ⟨w, same, head⟩ := models v (body.mono bodies)
  refine ⟨fun x => if x ∈ specific.universals then v x else w x, fun x inside => if_pos inside, ?_⟩
  intro a member
  refine (satisfies_congr (fun x inside => ?_)).mpr (head a (heads a member))
  split
  · next universal =>
    refine (same x ?_).symm
    -- A variable is not universal in one rule and existential in the other: the names tell.
    by_contra absent
    obtain ⟨m, name⟩ := sortedSpecific.1 x universal
    obtain ⟨n, name'⟩ := sortedGeneral.2 x (AtomSet.mem_vars_of_mem (heads a member) inside) absent
    exact apart m n (name.symm.trans name')
  · rfl

end Structure
end GuardedSaturation
