import Mathlib
import GuardedSaturation.Proofs.NormalForms

/-! What normal forms leave alone. Splitting a head, naming variables and dropping granted head atoms change none of the
structures that satisfy a rule; and between rules whose variables have names of their kind, a rule that subsumes another
holds in fewer structures. -/
namespace GuardedSaturation

universe u

namespace Tgd
variable {s t p : Tgd}

theorem mem_head_iff {a : Atom} : a ∈ t.head ↔ ∃ p ∈ t.headParts, a ∈ p.head := by
  constructor
  · intro member
    obtain ⟨p, part, inside, -⟩ := exists_mem_headParts member
    exact ⟨p, part, inside⟩
  · intro ⟨p, part, inside⟩
    exact head_of_mem_headParts part inside

theorem isEmpty_head_part (part : p ∈ t.headParts) (some : t.head.isEmpty = false) : p.head.isEmpty = false := by
  rw [mem_headParts] at part
  split at part
  · exact part ▸ some
  · obtain ⟨-, -, some⟩ := part
    exact some

theorem length_headParts (t : Tgd) : t.headParts.length = 1 ∨ t.headParts.length = 2 := by
  by_cases whole : (t.isConstraint || t.existentials.isEmpty) = true
  · left
    rw [headParts, if_pos whole]
    rfl
  -- A rule that is not kept whole has a head atom with an existential variable, so a part is there to hold it.
  have some : t.headParts ≠ [] := by
    rw [Bool.or_eq_true, not_or, List.isEmpty_iff] at whole
    obtain ⟨x, existential⟩ := List.exists_mem_of_ne_nil _ whole.2
    obtain ⟨a, member, -⟩ := AtomSet.mem_vars.mp (mem_existentials.mp existential).1
    obtain ⟨p, part, -⟩ := mem_head_iff.mp member
    exact List.ne_nil_of_mem part
  have most : t.headParts.length ≤ 2 := by
    rw [headParts, if_neg whole, List.length_map]
    exact List.length_filter_le _ _
  have := List.length_pos_of_ne_nil some
  omega

theorem pairwise_headParts (t : Tgd) : t.headParts.Pairwise (fun p q => ∀ a ∈ p.head, a ∉ q.head) := by
  unfold headParts
  split
  · exact List.pairwise_singleton _ t
  · refine List.pairwise_map.mpr (List.Pairwise.filter _ ?_)
    simp only [List.pairwise_cons, List.mem_singleton, forall_eq, SortedSet.mem_filter]
    refine ⟨fun a invents plain => ?_, by simp⟩
    simp [invents.2] at plain

theorem subsumes_antisymm (first : s.subsumes t = true) (second : t.subsumes s = true) : s = t := by
  obtain ⟨bodies, heads⟩ := subsumes_iff.mp first
  obtain ⟨bodies', heads'⟩ := subsumes_iff.mp second
  have body : s.body = t.body := SortedSet.ext (fun a => ⟨bodies a, bodies' a⟩)
  have head : s.head = t.head := SortedSet.ext (fun a => ⟨heads' a, heads a⟩)
  cases s
  cases t
  exact congrArg₂ Tgd.mk body head

/-- A rule is split into one or two with its body, which share out its head atoms; their normal forms say together what the
rule says. Without granted head atoms a rule says the same, and nothing is left only of a rule that always holds. -/
theorem normalization_equivalent (naming : Naming) (apart : naming.Apart) (t : Tgd) :
    ((t.headParts.length = 1 ∨ t.headParts.length = 2) ∧ (∀ p ∈ t.headParts, p.body = t.body) ∧
      (∀ a, a ∈ t.head ↔ ∃ p ∈ t.headParts, a ∈ p.head) ∧
      t.headParts.Pairwise (fun p q => ∀ a ∈ p.head, a ∉ q.head) ∧
      (t.head.isEmpty = false → ∀ p ∈ t.headParts, p.head.isEmpty = false) ∧
      ∀ M : Structure.{u}, M.Models t ↔ ∀ p ∈ t.headParts, M.Models (p.normalForm naming)) ∧
    (t.withoutTautology = none → ∀ M : Structure.{u}, M.Models t) ∧
    ∀ s, t.withoutTautology = some s →
      (∀ M : Structure.{u}, M.Models s ↔ M.Models t) ∧ s.body = t.body ∧ ∀ a ∈ s.head, a ∉ s.body := by
  refine ⟨⟨t.length_headParts, fun p => body_of_mem_headParts, fun a => mem_head_iff, t.pairwise_headParts,
    fun some p part => isEmpty_head_part part some, fun M => ?_⟩, fun nothing M v body => ?_, fun s left => ?_⟩
  · simp only [Structure.models_normalForm apart]
    exact Structure.models_headParts.symm
  · exact ⟨v, fun _ _ => rfl, fun a member => body a (withoutTautology_eq_none nothing a member)⟩
  · obtain ⟨bodies, heads⟩ := withoutTautology_eq_some left
    refine ⟨fun M => Structure.models_withoutTautology left, bodies, fun a member => ?_⟩
    rw [bodies]
    exact ((heads a).mp member).2

/-- A rule with an existential variable in one head atom and a granted head atom. -/
theorem normalization_equivalent_split :
    ∃ t left right s : Tgd,
      t = .ofLists [⟨"a", [.var "x"]⟩] [⟨"r", [.var "x", .var "y"]⟩, ⟨"a", [.var "x"]⟩, ⟨"b", [.var "x"]⟩] ∧
      Naming.Apart { mode := .naive } ∧ t.headParts = [left, right] ∧ left.normalForm { mode := .naive } =
        .ofLists [⟨"a", [.var "u0"]⟩] [⟨"r", [.var "u0", .var "e0"]⟩] ∧
      (∀ M : Structure.{u}, M.Models t ↔
        ∀ p ∈ [left, right], M.Models (p.normalForm { mode := .naive })) ∧
      t.withoutTautology = some s ∧ s.head = .ofList [⟨"r", [.var "x", .var "y"]⟩, ⟨"b", [.var "x"]⟩] ∧
      ∀ M : Structure.{u}, M.Models s ↔ M.Models t := by
  let t : Tgd := .ofLists [⟨"a", [.var "x"]⟩] [⟨"r", [.var "x", .var "y"]⟩, ⟨"a", [.var "x"]⟩, ⟨"b", [.var "x"]⟩]
  let left : Tgd := .ofLists [⟨"a", [.var "x"]⟩] [⟨"r", [.var "x", .var "y"]⟩]
  let right : Tgd := .ofLists [⟨"a", [.var "x"]⟩] [⟨"a", [.var "x"]⟩, ⟨"b", [.var "x"]⟩]
  let s : Tgd := .ofLists [⟨"a", [.var "x"]⟩] [⟨"r", [.var "x", .var "y"]⟩, ⟨"b", [.var "x"]⟩]
  have apart : Naming.Apart { mode := .naive } := Naming.apart_default
  have parts : t.headParts = [left, right] := by decide +kernel
  have stripped : t.withoutTautology = some s := by decide +kernel
  obtain ⟨⟨-, -, -, -, -, together⟩, -, same⟩ := normalization_equivalent { mode := .naive } apart t
  rw [parts] at together
  exact ⟨t, left, right, s, rfl, apart, parts, by decide +kernel, together, stripped, rfl, (same s stripped).1⟩

/-- Between normal forms of one naming, a rule that subsumes another is at least as general: it holds in no structure in which
the other one does not. On all rules subsumption is a partial order. -/
theorem subsumes_general :
    (∀ naming : Naming, naming.Apart → ∀ general specific : Tgd,
      (general.normalForm naming).subsumes (specific.normalForm naming) = true →
        ∀ M : Structure.{u}, M.Models (general.normalForm naming) → M.Models (specific.normalForm naming)) ∧
    (∀ t : Tgd, t.subsumes t = true) ∧
    (∀ r s t : Tgd, r.subsumes s = true → s.subsumes t = true → r.subsumes t = true) ∧
    ∀ s t : Tgd, s.subsumes t = true → t.subsumes s = true → s = t :=
  ⟨fun naming apart _ _ subsumes _ models =>
      models.of_subsumes apart (normalForm_sorted naming _) (normalForm_sorted naming _) subsumes,
    subsumes_refl, fun _ _ _ => subsumes_trans, fun _ _ => subsumes_antisymm⟩

/-- The rule that is subsumed has another body atom and fewer head atoms, and is written with the names exchanged: `x` is
universal in the first rule and existential in the second. -/
theorem subsumes_general_widened :
    ∃ (general specific : Tgd) (M : Structure.{0}),
      general = .ofLists [⟨"a", [.var "x"]⟩] [⟨"r", [.var "x", .var "y"]⟩, ⟨"b", [.var "x"]⟩] ∧
      specific = .ofLists [⟨"a", [.var "y"]⟩, ⟨"c", [.var "y", .var "z"]⟩] [⟨"r", [.var "y", .var "x"]⟩] ∧
      Naming.Apart {} ∧ (general.normalForm {}).subsumes (specific.normalForm {}) = true ∧
      (∀ d, ¬ M.holds ("r", [d, d])) ∧ M.Models (general.normalForm {}) ∧ M.Models (specific.normalForm {}) := by
  let general : Tgd := .ofLists [⟨"a", [.var "x"]⟩] [⟨"r", [.var "x", .var "y"]⟩, ⟨"b", [.var "x"]⟩]
  let specific : Tgd := .ofLists [⟨"a", [.var "y"]⟩, ⟨"c", [.var "y", .var "z"]⟩] [⟨"r", [.var "y", .var "x"]⟩]
  -- Numbers, with `r` for the successor and the other predicates for all numbers.
  let M : Structure.{0} :=
    { Domain := Nat, inhabited := ⟨0⟩, const := fun _ => 0, app := fun _ _ => 0
      holds := fun fact => fact.1 = "r" → ∃ n, fact.2 = [n, n + 1] }
  have subsumes : (general.normalForm {}).subsumes (specific.normalForm {}) = true := by decide +kernel
  have models : M.Models (general.normalForm {}) := by
    intro v _
    refine ⟨fun x => if x = "e0" then v "u0" + 1 else v x, fun x universal => if_neg ?_, fun a member => ?_⟩
    · rintro rfl
      revert universal
      decide +kernel
    · obtain rfl | rfl : a = ⟨"b", [.var "u0"]⟩ ∨ a = ⟨"r", [.var "u0", .var "e0"]⟩ := by
        have heads : (general.normalForm {}).head =
            .ofList [⟨"b", [.var "u0"]⟩, ⟨"r", [.var "u0", .var "e0"]⟩] := by decide +kernel
        simpa [heads] using member
      · exact fun same => absurd same (by simp [Interpretation.fact])
      · exact fun _ => ⟨v "u0", by simp [Interpretation.fact, Interpretation.values]⟩
  refine ⟨general, specific, M, rfl, rfl, Naming.apart_default, subsumes, fun d holds => ?_, models,
    subsumes_general.1 {} Naming.apart_default general specific subsumes M models⟩
  obtain ⟨n, same⟩ := holds rfl
  simp only [List.cons.injEq, and_true] at same
  exact n.succ_ne_self (same.2.symm.trans same.1)

end Tgd
end GuardedSaturation
