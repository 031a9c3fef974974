import Mathlib
import GuardedSaturation.Proofs.Evolution

/-! Evolution is complete: where facts granted by a rule with existential variables are used
by a full rule, some resolvent grants the facts of both rules at once, and asks only for what
the first rule asks and for the facts used that it does not grant. -/
namespace GuardedSaturation
open Substitution

universe u
variable {M : Interpretation.{u}}

/-- The values of the existential variables are no constants, and no other variable has one
of them. -/
structure Tgd.Invents (M : Interpretation.{u}) (t : Tgd) (v : M.Assignment) : Prop where
  not_const : ∀ e ∈ t.existentials, ∀ c, v e ≠ M.const c
  alone : ∀ e ∈ t.existentials, ∀ y ∈ t.vars, v y = v e → y = e

namespace Tgd
variable {t : Tgd} {σ : Substitution} {v u : M.Assignment}

theorem mem_vars_of_existential {e : Variable} (existential : e ∈ t.existentials) : e ∈ t.vars :=
  mem_vars_of_head (mem_existentials.mp existential).1

/-- A normal unifier that the assignment solves binds no existential variable. -/
theorem Invents.unbound (invents : t.Invents M v) (same : ∀ y ∈ t.vars, u y = v y) (normal : Normal σ)
    (plain : Plain σ) (keeps : Keeps (fun x => x ∈ t.vars) σ) (solves : Solves M u σ)
    {e : Variable} (existential : e ∈ t.existentials) : σ.get? e = none := by
  cases bound : σ.get? e with
  | none => rfl
  | some s =>
    have inside := mem_vars_of_existential existential
    have value := solves e s bound
    rw [same e inside] at value
    rcases Term.plain_cases (plain e s bound) with ⟨y, rfl⟩ | ⟨c, rfl⟩
    · have within := keeps e _ bound inside y (by simp)
      rw [Interpretation.value_var, same y within] at value
      have := invents.alone e existential y within value.symm
      have unbound := normal e _ bound y (by simp)
      rw [this, bound] at unbound
      simp at unbound
    · exact absurd value (invents.not_const e existential c)

theorem value_of_image (plain : Plain σ) (solves : Solves M u σ) {x e : Variable}
    (image : e ∈ (σ.image x).vars) : u x = u e := by
  have value := solves.value_image x
  rcases Term.plain_cases (plain.image x) with ⟨y, equal⟩ | ⟨c, equal⟩ <;> rw [equal] at image value
  · rw [Term.vars_var, List.mem_singleton] at image
    rw [← value, Interpretation.value_var, image]
  · simp at image

end Tgd

namespace Evolve
open Unifier
variable {heads body : List Atom} {existentials : List Variable} {W : Variable → Prop} {σ : Substitution}
  {u : M.Assignment}

/-- Joins can be chosen freely among head atoms of the same fact, as long as unifiers that the assignment solves leave the
existential variables alone. -/
theorem Joining.exists_of_choice (existentials : List Variable) (distinct : Function.Injective M.const)
    (headsPlain : ∀ h ∈ heads, h.isFunctional = false) (within : ∀ h ∈ heads, ∀ y ∈ h.vars, W y)
    (kept : ∀ τ, Normal τ → Flat W τ → Solves M u τ → intact existentials τ = true)
    (bodyPlain : ∀ a ∈ body, a.isFunctional = false) (choice : Atom → Option Atom)
    (granted : ∀ a ∈ body, ∀ h, choice a = some h → h ∈ heads ∧ M.fact u a = M.fact u h)
    (flat : Flat W σ) (solves : Solves M u σ) :
    ∃ σ', Joining heads existentials body σ σ' (body.filter (fun a => choice a = none))
      (body.filterMap (fun a => (choice a).map (a, ·))) ∧ Solves M u σ' := by
  induction body generalizing σ with
  | nil => exact ⟨σ, .done σ, solves⟩
  | cons a rest ih =>
    obtain ⟨plain, restPlain⟩ := List.forall_mem_cons.mp bodyPlain
    obtain ⟨first, later⟩ := List.forall_mem_cons.mp granted
    cases chosen : choice a with
    | none =>
      obtain ⟨σ', tail, solves⟩ := ih restPlain later flat solves
      exact ⟨σ', by simpa [chosen] using Joining.skip tail, solves⟩
    | some h =>
      obtain ⟨member, equal⟩ := first h chosen
      obtain ⟨τ, found, solves⟩ := mostGeneral_exists distinct flat plain (headsPlain h member)
        (within h member) solves equal
      have flat' := mostGeneral_flat flat plain (headsPlain h member) (within h member) found
      have intact := kept τ (mostGeneral_normal flat.acyclic found) flat' solves
      obtain ⟨σ', tail, solves⟩ := ih restPlain later flat' solves
      exact ⟨σ', by simpa [chosen] using Joining.join member found intact tail, solves⟩

end Evolve

/-- A resolvent together with values for its variables under which it asks for facts of the
first body or for facts kept, and grants the facts of both heads. -/
structure Grants (M : Interpretation.{u}) (nonFull full : Tgd) (v f : M.Assignment) (keep : M.Fact → Prop)
    (t : Tgd) (w : M.Assignment) : Prop where
  member : t ∈ evolve nonFull full
  body : ∀ a ∈ t.body, (∃ b ∈ nonFull.body, M.fact w a = M.fact v b) ∨ keep (M.fact w a)
  first : ∀ h ∈ nonFull.head, ∃ a ∈ t.head, M.fact w a = M.fact v h
  second : ∀ h ∈ full.head, ∃ a ∈ t.head, M.fact w a = M.fact f h
  existential : ∀ e ∈ t.existentials, e ∈ nonFull.existentials ∧ w e = v e

section Together
variable {nonFull full : Tgd} {v f w : M.Assignment}
open Evolve

/-- One assignment for both rules: the second one has names of its own. -/
structure Together (nonFull full : Tgd) (v f w : M.Assignment) : Prop where
  old : ∀ x ∈ nonFull.vars, w x = v x
  new : ∀ x ∈ full.vars, w (full.nameApart stem nonFull x) = f x

theorem exists_together (nonFull full : Tgd) (v f : M.Assignment) : ∃ w, Together nonFull full v f w := by
  classical
  obtain ⟨f', named⟩ := Structure.exists_renamed (M := ⟨M, fun _ => True⟩)
    (Tgd.nameApart_injOn stem full nonFull) f
  exact ⟨fun x => if x ∈ nonFull.vars then v x else f' x, fun x inside => if_pos inside,
    fun x inside => (if_neg (Tgd.nameApart_not_mem inside)).trans (named x inside)⟩

namespace Together

theorem oldFact (both : Together nonFull full v f w) {a : Atom} (inside : ∀ x ∈ a.vars, x ∈ nonFull.vars) :
    M.fact w a = M.fact v a :=
  Interpretation.fact_congr (fun x member => both.old x (inside x member))

theorem newFact (both : Together nonFull full v f w) {a : Atom} (inside : ∀ x ∈ a.vars, x ∈ full.vars) :
    M.fact w (a.subst (fun x => .var (full.nameApart stem nonFull x))) = M.fact f a := by
  rw [Interpretation.fact_subst]
  exact Interpretation.fact_congr (fun x member => (Interpretation.value_var _ _).trans (both.new x (inside x member)))

theorem body (both : Together nonFull full v f w) {a : Atom} (member : a ∈ (full.renameApart stem nonFull).body) :
    ∃ b ∈ full.body, M.fact w a = M.fact f b ∧ ∀ y ∈ a.vars, ∃ x ∈ b.vars, w y = f x := by
  rw [Tgd.renameApart_eq] at member
  obtain ⟨b, present, rfl⟩ := AtomSet.mem_subst.mp member
  have inside (x : Variable) (inside : x ∈ b.vars) : x ∈ full.vars :=
    Tgd.mem_vars_of_body (AtomSet.mem_vars_of_mem present inside)
  refine ⟨b, present, both.newFact inside, fun y becomes => ?_⟩
  obtain ⟨x, mentions, rfl⟩ := Atom.mem_vars_rename.mp becomes
  exact ⟨x, mentions, both.new x (inside x mentions)⟩

/-- A unifier that the assignment solves is admissible where no atom left over mentions the value of
an existential variable. -/
theorem admissible (both : Together nonFull full v f w) (invents : nonFull.Invents M v) {σ : Substitution} {left : List Atom}
    (normal : Normal σ) (flat : Unifier.Flat (fun x => x ∈ nonFull.vars) σ) (solves : Solves M w σ)
    (apart : ∀ a ∈ left, ∀ y ∈ a.vars, ∀ e ∈ nonFull.existentials, w y ≠ v e) : Admissible nonFull σ left := by
  refine ⟨?_, ?_, ?_⟩
  · intro e existential
    exact invents.unbound both.old normal flat.plain flat.keeps solves existential
  · intro x universal e existential inside
    have value := Tgd.value_of_image flat.plain solves inside
    rw [both.old x (Tgd.mem_vars_of_body universal), both.old e (Tgd.mem_vars_of_existential existential)] at value
    have same := invents.alone e existential x (Tgd.mem_vars_of_body universal) value
    exact (Tgd.mem_existentials.mp existential).2 (same ▸ universal)
  · intro a leftover e existential inside
    obtain ⟨y, mentions, becomes⟩ := Atom.mem_vars_subst.mp inside
    have value := Tgd.value_of_image flat.plain solves becomes
    rw [both.old e (Tgd.mem_vars_of_existential existential)] at value
    exact apart a leftover y mentions e existential value

/-- Chosen joins of atoms that have the same facts are carried out, by a unifier that the assignment solves. -/
theorem exists_joining (both : Together nonFull full v f w) (distinct : Function.Injective M.const)
    (firstFree : nonFull.isFunctionFree = true) (secondFree : full.isFunctionFree = true) (invents : nonFull.Invents M v)
    (choice : Atom → Option Atom)
    (granted : ∀ a ∈ (full.renameApart stem nonFull).body, ∀ h, choice a = some h → h ∈ nonFull.head ∧ M.fact w a = M.fact w h)
    (used : ∃ a ∈ (full.renameApart stem nonFull).body, choice a ≠ none)
    (apart : ∀ a ∈ (full.renameApart stem nonFull).body, choice a = none → ∀ y ∈ a.vars, ∀ e ∈ nonFull.existentials, w y ≠ v e) :
    ∃ σ left pairs, Joining nonFull.head.toList nonFull.existentials (full.renameApart stem nonFull).body.toList ∅ σ left pairs ∧
      pairs ≠ [] ∧ Admissible nonFull σ left ∧ Solves M w σ ∧
      ∀ a, a ∈ left ↔ a ∈ (full.renameApart stem nonFull).body ∧ choice a = none := by
  have inHead (h : Atom) (member : h ∈ nonFull.head) (x : Variable) (inside : x ∈ h.vars) : x ∈ nonFull.vars :=
    Tgd.mem_vars_of_head (AtomSet.mem_vars_of_mem member inside)
  have renamedFree := Tgd.isFunctionFree_renameApart stem nonFull secondFree
  rw [Tgd.isFunctionFree_eq_true] at firstFree renamedFree
  have start : Unifier.Flat (fun x => x ∈ nonFull.vars) ∅ := ⟨acyclic_empty, every_empty, keeps_empty _⟩
  have kept (τ : Substitution) (normal : Normal τ) (flat : Unifier.Flat (fun x => x ∈ nonFull.vars) τ) (solves : Solves M w τ) :
      intact nonFull.existentials τ = true := by
    apply intact_iff.mpr
    intro e existential
    exact invents.unbound both.old normal flat.plain flat.keeps solves existential
  obtain ⟨σ, joining, solves⟩ := Joining.exists_of_choice nonFull.existentials distinct firstFree.2 inHead kept renamedFree.1
    choice granted start (solves_empty w)
  refine ⟨σ, _, _, joining, ?_, ?_, solves, fun a => by simp [SortedSet.mem_toList]⟩
  · obtain ⟨a, member, joined⟩ := used
    obtain ⟨h, chosen⟩ := Option.ne_none_iff_exists'.mp joined
    exact List.ne_nil_of_mem (List.mem_filterMap.mpr ⟨a, member, congrArg (Option.map (a, ·)) chosen⟩)
  · apply both.admissible invents (joining.normal normal_empty) (joining.flat start renamedFree.1 firstFree.2 inHead) solves
    intro a leftover
    obtain ⟨member, none⟩ := List.mem_filter.mp leftover
    exact apart a member (of_decide_eq_true none)

end Together
end Together

open Evolve Unifier

/-- For each atom that is not kept a partner can be chosen. -/
theorem exists_choice {body heads : AtomSet} {keep : Atom → Prop} {R : Atom → Atom → Prop}
    (granted : ∀ a ∈ body, ¬ keep a → ∃ h ∈ heads, R a h) :
    ∃ choice : Atom → Option Atom, (∀ a ∈ body, choice a = none ↔ keep a) ∧
      ∀ a ∈ body, ∀ h, choice a = some h → h ∈ heads ∧ R a h := by
  classical
  choose! partner inside related using granted
  refine ⟨fun a => if keep a then none else some (partner a), fun a _ => by simp, fun a member h chosen => ?_⟩
  obtain ⟨drop, rfl⟩ : ¬ keep a ∧ partner a = h := by simpa using chosen
  exact ⟨inside a member drop, related a member drop⟩

/-- Facts of the second body that are not kept are granted by the first head; at least one
is used, and no fact kept mentions the value of an existential variable. -/
theorem exists_grants (distinct : Function.Injective M.const) {nonFull full : Tgd}
    (firstFree : nonFull.isFunctionFree = true) (secondFree : full.isFunctionFree = true)
    (isFull : full.isFull = true) {v f : M.Assignment} (invents : nonFull.Invents M v) {keep : M.Fact → Prop}
    (granted : ∀ a ∈ full.body, ¬ keep (M.fact f a) → ∃ h ∈ nonFull.head, M.fact f a = M.fact v h)
    (used : ∃ a ∈ full.body, ¬ keep (M.fact f a))
    (apart : ∀ a ∈ full.body, keep (M.fact f a) → ∀ x ∈ a.vars, ∀ e ∈ nonFull.existentials, f x ≠ v e) :
    ∃ t w, Grants M nonFull full v f keep t w := by
  obtain ⟨w, both⟩ := exists_together nonFull full v f
  have inHead {h : Atom} (member : h ∈ nonFull.head) (x : Variable) (inside : x ∈ h.vars) : x ∈ nonFull.vars :=
    Tgd.mem_vars_of_head (AtomSet.mem_vars_of_mem member inside)
  have headed (a : Atom) (member : a ∈ (full.renameApart stem nonFull).body) (drop : ¬ keep (M.fact w a)) :
      ∃ h ∈ nonFull.head, M.fact w a = M.fact w h := by
    obtain ⟨b, present, same, -⟩ := both.body member
    obtain ⟨h, inside, equal⟩ := granted b present (same ▸ drop)
    exact ⟨h, inside, by rw [same, equal, both.oldFact (inHead inside)]⟩
  obtain ⟨choice, kept, chosen⟩ := exists_choice headed
  have joined : ∃ a ∈ (full.renameApart stem nonFull).body, choice a ≠ none := by
    obtain ⟨b, present, drop⟩ := used
    have member : b.subst (fun x => .var (full.nameApart stem nonFull x)) ∈ (full.renameApart stem nonFull).body := by
      rw [Tgd.renameApart_eq]
      exact AtomSet.mem_subst.mpr ⟨b, present, rfl⟩
    have same := both.newFact (a := b) (fun x inside => Tgd.mem_vars_of_body (AtomSet.mem_vars_of_mem present inside))
    exact ⟨_, member, fun none => drop (same ▸ (kept _ member).mp none)⟩
  obtain ⟨σ, left, pairs, joining, some, admissible, solves, leaves⟩ := both.exists_joining distinct firstFree secondFree invents
    choice chosen joined (fun a member none y mentions e existential => by
      obtain ⟨b, present, same, names⟩ := both.body member
      obtain ⟨x, inside, named⟩ := names y mentions
      rw [named]
      exact apart b present (same ▸ (kept a member).mp none) x inside e existential)
  have image {a : Atom} : M.fact w (a.subst σ.image) = M.fact w a := by
    rw [Interpretation.fact_subst]
    exact Interpretation.fact_congr (fun x _ => solves.value_image x)
  refine ⟨_, w, mem_evolve.mpr ⟨σ, left, pairs, joining, some, admissible, rfl⟩, fun a member => ?_,
    fun h member => ?_, fun h member => ?_, fun e existential => ?_⟩
  · obtain ⟨b, present, rfl⟩ := AtomSet.mem_subst.mp member
    rw [image]
    rcases SortedSet.mem_union.mp present with old | leftover
    · exact .inl ⟨b, old, both.oldFact (fun x inside => Tgd.mem_vars_of_body (AtomSet.mem_vars_of_mem old inside))⟩
    · obtain ⟨member, none⟩ := (leaves b).mp (SortedSet.mem_ofList.mp leftover)
      exact .inr ((kept b member).mp none)
  · exact ⟨_, AtomSet.mem_subst.mpr ⟨h, SortedSet.mem_union.mpr (.inl member), rfl⟩,
      image.trans (both.oldFact (inHead member))⟩
  · have renamed : h.subst (fun x => .var (full.nameApart stem nonFull x)) ∈ (full.renameApart stem nonFull).head := by
      rw [Tgd.renameApart_eq]
      exact AtomSet.mem_subst.mpr ⟨h, member, rfl⟩
    exact ⟨_, AtomSet.mem_subst.mpr ⟨_, SortedSet.mem_union.mpr (.inr renamed), rfl⟩,
      image.trans (both.newFact (fun x inside => Tgd.mem_vars_of_head (AtomSet.mem_vars_of_mem member inside)))⟩
  · have existential := Tgd.mem_existentials_of_joining (Tgd.isFull_renameApart isFull) joining admissible existential
    exact ⟨existential, both.old e (Tgd.mem_vars_of_existential existential)⟩

end GuardedSaturation
