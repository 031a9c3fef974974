import Mathlib
import GuardedSaturation.Proofs.Skolemization

/-! All that one Skolemizer returns is a conservative extension of what it is given. Each call takes names that no other
call takes; so a structure of the given rules is expanded for one call after the other, and the expansions leave the
symbols of the other calls alone. -/
namespace GuardedSaturation

universe u

namespace Skolemizer

structure Answer where
  rule : Tgd
  parts : List Tgd
deriving DecidableEq

/-- Calls on one Skolemizer, one after the other. -/
def session : Skolemizer → List (Manner × Tgd) → List Answer
  | _, [] => []
  | z, (manner, t) :: calls => ⟨t, (z.answer manner t).1⟩ :: (z.answer manner t).2.session calls

namespace Answer

/-- The function symbol occurs in what is returned, but not in the rule given. -/
def AddsFunction (r : Answer) (f : Symbol) : Prop := (∃ p ∈ r.parts, p.Applies f) ∧ ¬ r.rule.Applies f

def AddsPredicate (r : Answer) (p : Symbol) : Prop := (∃ q ∈ r.parts, q.Mentions p) ∧ ¬ r.rule.Mentions p

structure Apart (r r' : Answer) : Prop where
  functions : ∀ f g, r.AddsFunction f → r'.AddsFunction g → f.name ≠ g.name
  predicates : ∀ p q, r.AddsPredicate p → r'.AddsPredicate q → p.name ≠ q.name

/-- Each existential variable has a function symbol of its own name: these are the function symbols that are added, and
with their terms in place of the variables, each head atom is granted. -/
def Witnessed (r : Answer) : Prop :=
  ∃ (name : Variable → String) (args : List Variable),
    (∀ x ∈ r.rule.existentials, ∀ y ∈ r.rule.existentials, name x = name y → x = y) ∧
    (∀ f, r.AddsFunction f ↔ ∃ x ∈ r.rule.existentials, f = ⟨name x, args.length⟩) ∧
    ∀ h ∈ r.rule.head, ∃ p ∈ r.parts,
      h.subst (fun x => if x ∈ r.rule.existentials then .overVariables (name x) args else .var x) ∈ p.head

end Answer

variable {z : Skolemizer} {manner : Manner} {t : Tgd} {calls : List (Manner × Tgd)} {r : Answer} {f p : Symbol}

theorem session_rules (z : Skolemizer) (calls : List (Manner × Tgd)) :
    (z.session calls).map Answer.rule = calls.map Prod.snd := by
  induction calls generalizing z with
  | nil => rfl
  | cons c calls ih => rw [session, List.map_cons, List.map_cons, ih]

theorem mem_session (member : r ∈ z.session calls) :
    ∃ z' : Skolemizer, z.functions ≤ z'.functions ∧ z.predicates ≤ z'.predicates ∧
      ∃ c ∈ calls, r = ⟨c.2, (z'.answer c.1 c.2).1⟩ := by
  induction calls generalizing z with
  | nil => cases member
  | cons c calls ih =>
    obtain rfl | later := List.mem_cons.mp member
    · exact ⟨z, le_rfl, le_rfl, c, List.mem_cons_self, rfl⟩
    · obtain ⟨functions, predicates⟩ := z.le_answer c.1 c.2
      obtain ⟨z', more, further, d, inside, same⟩ := ih later
      exact ⟨z', functions.trans more, predicates.trans further, d, List.mem_cons_of_mem c inside, same⟩

theorem witnessed_answer (z : Skolemizer) (manner : Manner) (free : t.isFunctionFree = true) :
    Answer.Witnessed ⟨t, (z.answer manner t).1⟩ := by
  obtain ⟨args, functions, granted⟩ := z.exists_arguments manner free
  refine ⟨fun x => functionName (z.functions + t.existentials.idxOf x), args, fun x existential y _ same => ?_,
    fun f => ?_, granted⟩
  · exact (List.idxOf_inj existential).mp (Nat.add_left_cancel (functionName_inj.mp same))
  · rw [← functions f]
    exact and_iff_left (Tgd.not_applies free)

theorem newFunction_of_adds (free : t.isFunctionFree = true) (adds : Answer.AddsFunction ⟨t, (z.answer manner t).1⟩ f) :
    z.NewFunction f.name := by
  obtain ⟨args, functions, -⟩ := z.exists_arguments manner free
  obtain ⟨x, -, rfl⟩ := (functions f).mp adds.1
  exact ⟨_, Nat.le_add_right _ _, rfl⟩

theorem newPredicate_of_adds (adds : Answer.AddsPredicate ⟨t, (z.answer manner t).1⟩ p) : z.NewPredicate p.name := by
  obtain ⟨⟨q, member, mentions⟩, absent⟩ := adds
  obtain ⟨-, old⟩ | ⟨-, -, old⟩ := z.mentions_answer manner t
  · exact absurd (old q member p mentions) absent
  · obtain here | rfl := old q member p mentions
    · exact absurd here absent
    · exact ⟨_, le_rfl, rfl⟩

theorem new_of_mem_session (free : ∀ c ∈ calls, c.2.isFunctionFree = true) (member : r ∈ z.session calls) :
    (∀ f, r.AddsFunction f → z.NewFunction f.name) ∧ ∀ p, r.AddsPredicate p → z.NewPredicate p.name := by
  obtain ⟨z', functions, predicates, c, inside, rfl⟩ := mem_session member
  exact ⟨fun f adds => (newFunction_of_adds (free c inside) adds).mono functions,
    fun p adds => (newPredicate_of_adds adds).mono predicates⟩

theorem pairwise_session (z : Skolemizer) (free : ∀ c ∈ calls, c.2.isFunctionFree = true)
    (unreserved : ∀ c ∈ calls, ∀ a, a ∈ c.2.body ∨ a ∈ c.2.head → ¬ Reserved "aux#" a.predicate) :
    (z.session calls).Pairwise Answer.Apart := by
  induction calls generalizing z with
  | nil => exact .nil
  | cons c calls ih =>
    obtain ⟨freeHere, free⟩ := List.forall_mem_cons.mp free
    obtain ⟨unreservedHere, unreserved⟩ := List.forall_mem_cons.mp unreserved
    refine .cons (fun r later => ?_) (ih (z.answer c.1 c.2).2 free unreserved)
    -- The names of the first answer are used up, those of the others are still new.
    have used (q : Tgd) (member : q ∈ (z.answer c.1 c.2).1) :=
      Tgd.uses_iff.mp (uses_answer z c.1 freeHere unreservedHere q member)
    obtain ⟨functions, predicates⟩ := new_of_mem_session free later
    constructor
    · rintro f g ⟨⟨q, member, applies⟩, -⟩ adds same
      exact (used q member).1 f applies (same ▸ functions g adds)
    · rintro p p' ⟨⟨q, member, mentions⟩, -⟩ adds same
      exact (used q member).2 p mentions (same ▸ predicates p' adds)

end Skolemizer

namespace Structure
open Skolemizer
variable {M : Structure.{u}} {calls : List (Manner × Tgd)}

/-- The structure is expanded for one call after the other, and later calls leave the names of earlier ones alone. -/
theorem exists_session (z : Skolemizer) (calls : List (Manner × Tgd)) (free : ∀ c ∈ calls, c.2.isFunctionFree = true)
    (unreserved : ∀ c ∈ calls, ∀ a, a ∈ c.2.body ∨ a ∈ c.2.head → ¬ Reserved "aux#" a.predicate)
    (models : ∀ c ∈ calls, M.Models c.2) :
    ∃ app holds, M.Expands z.NewFunction z.NewPredicate app holds ∧
      ∀ r ∈ z.session calls, ∀ p ∈ r.parts, (M.expanded app holds).Models p := by
  induction calls generalizing z M with
  | nil => exact ⟨M.app, M.holds, ⟨fun _ _ _ => rfl, fun _ _ _ => Iff.rfl⟩, by simp [session]⟩
  | cons c calls ih =>
    obtain ⟨freeHere, free⟩ := List.forall_mem_cons.mp free
    obtain ⟨unreservedHere, unreserved⟩ := List.forall_mem_cons.mp unreserved
    obtain ⟨here, models⟩ := List.forall_mem_cons.mp models
    obtain ⟨app, holds, expands, first⟩ := exists_answered z c.1 freeHere unreservedHere here
    -- The expanded structure is expanded again for the other rules, which do not use the new symbols.
    have untouched (d : Manner × Tgd) (member : d ∈ calls) : (M.expanded app holds).Models d.2 :=
      (expands.models (Tgd.uses_of_free (free d member)
        (fun a inside new => unreserved d member a inside new.reserved))).mpr (models d member)
    obtain ⟨app', holds', expands', rest⟩ := ih (z.answer c.1 c.2).2 free unreserved untouched
    obtain ⟨functions, predicates⟩ := z.le_answer c.1 c.2
    refine ⟨app', holds', expands.trans (expands'.mono (fun _ new => new.mono functions) (fun _ new => new.mono predicates)),
      List.forall_mem_cons.mpr ⟨fun p returned => ?_, rest⟩⟩
    exact (expands'.models (uses_answer z c.1 freeHere unreservedHere p returned)).mpr (first p returned)

theorem models_of_session {z : Skolemizer} (models : ∀ r ∈ z.session calls, ∀ p ∈ r.parts, M.Models p) :
    ∀ c ∈ calls, M.Models c.2 := by
  have rules (r : Answer) (member : r ∈ z.session calls) : M.Models r.rule := by
    obtain ⟨z', -, -, c, -, rfl⟩ := mem_session member
    exact models_of_answered (models _ member)
  intro c member
  have given : c.2 ∈ (z.session calls).map Answer.rule := session_rules z calls ▸ List.mem_map_of_mem member
  obtain ⟨r, inside, same⟩ := List.mem_map.mp given
  exact same ▸ rules r inside

end Structure

namespace Skolemizer

/-- What is returned for function-free rules in the course of a session extends them conservatively. Each existential
variable has a function symbol of its own; no function symbol or auxiliary predicate is added by two calls, and no
predicate that is added is mentioned by a rule given. A structure satisfies the given rules exactly if it satisfies
all that is returned under some meaning of the symbols added. -/
theorem session_conservative (z : Skolemizer) (calls : List (Manner × Tgd)) (free : ∀ c ∈ calls, c.2.isFunctionFree = true)
    (unreserved : ∀ c ∈ calls, ∀ p, c.2.Mentions p → ¬ Reserved "aux#" p.name) :
    (z.session calls).map Answer.rule = calls.map Prod.snd ∧
      (∀ r ∈ z.session calls, r.Witnessed) ∧
      (z.session calls).Pairwise Answer.Apart ∧
      (∀ r ∈ z.session calls, ∀ p, r.AddsPredicate p → ∀ c ∈ calls, ¬ c.2.Mentions p) ∧
      (∀ M : Structure.{u}, (∀ c ∈ calls, M.Models c.2) →
        ∃ app holds,
          M.Agrees (fun f => ¬ ∃ r ∈ z.session calls, r.AddsFunction f) (fun p => ¬ ∃ r ∈ z.session calls, r.AddsPredicate p)
            app holds ∧
          ∀ r ∈ z.session calls, ∀ p ∈ r.parts, (M.expanded app holds).Models p) ∧
      ∀ M : Structure.{u}, (∀ r ∈ z.session calls, ∀ p ∈ r.parts, M.Models p) → ∀ c ∈ calls, M.Models c.2 := by
  have unreservedAtoms : ∀ c ∈ calls, ∀ a, a ∈ c.2.body ∨ a ∈ c.2.head → ¬ Reserved "aux#" a.predicate :=
    fun c member a inside => unreserved c member _ ⟨a, inside, rfl⟩
  refine ⟨session_rules z calls, fun r member => ?_, pairwise_session z free unreservedAtoms,
    fun r member p adds c given mentions => ?_, fun M models => ?_, fun M => Structure.models_of_session⟩
  · obtain ⟨z', -, -, c, inside, rfl⟩ := mem_session member
    exact witnessed_answer z' c.1 (free c inside)
  · exact unreserved c given p mentions ((new_of_mem_session free member).2 p adds).reserved
  · obtain ⟨app, holds, expands, returned⟩ := Structure.exists_session z calls free unreservedAtoms models
    obtain ⟨app', holds', changed, taken⟩ := M.exists_agrees (fun f => ∃ r ∈ z.session calls, r.AddsFunction f)
      (fun p => ∃ r ∈ z.session calls, r.AddsPredicate p) app holds
    -- The expansion may change names that are not taken; with their old meanings, what is returned holds all the same.
    have agrees : (M.expanded app holds).Agrees (fun f => ∃ r ∈ z.session calls, r.AddsFunction f)
        (fun p => (∃ r ∈ z.session calls, r.AddsPredicate p) ∨ ¬ z.NewPredicate p.name) app' holds' := by
      refine ⟨taken.functions, fun p ds here => ?_⟩
      by_cases added : ∃ r ∈ z.session calls, r.AddsPredicate ⟨p, ds.length⟩
      · exact taken.predicates p ds added
      · exact (changed.predicates p ds added).trans (expands.predicates p ds (here.resolve_left added)).symm
    refine ⟨app', holds', changed, fun r member p part => ?_⟩
    obtain ⟨z', -, -, c, inside, same⟩ := mem_session member
    refine (agrees.models (fun f applies => ⟨r, member, ⟨p, part, applies⟩, ?_⟩) (fun q mentions => ?_)).mpr
      (returned r member p part)
    · exact same ▸ Tgd.not_applies (free c inside)
    · by_cases old : r.rule.Mentions q
      · exact .inr (fun new => unreserved c inside q (by simpa [same] using old) new.reserved)
      · exact .inl ⟨r, member, ⟨p, part, mentions⟩, old⟩

/-- One call of each kind. Only the first rule gets an auxiliary predicate; the second one has two existential variables
and keeps its head. -/
theorem session_conservative_assorted :
    ∃ calls : List (Manner × Tgd),
      calls = [(.frontierProjected,
            .ofLists [⟨"a", [.var "x", .var "z"]⟩] [⟨"r", [.var "x", .var "y"]⟩, ⟨"s", [.var "y"]⟩]),
          (.skolemize, .ofLists [⟨"b", [.var "x", .var "z"]⟩] [⟨"r", [.var "x", .var "y"]⟩, ⟨"t", [.var "y", .var "w"]⟩]),
          (.singleHeaded, .ofLists [⟨"c", [.var "x"]⟩] [⟨"r", [.var "x", .var "y"]⟩, ⟨"s", [.var "y"]⟩]),
          (.skolemizeFrontier, .ofLists [⟨"a", [.var "x", .var "z"]⟩] [⟨"r", [.var "x", .var "y"]⟩])] ∧
      (∀ c ∈ calls, c.2.isFunctionFree = true) ∧ (∀ c ∈ calls, ∀ p, c.2.Mentions p → ¬ Reserved "aux#" p.name) ∧
      (({} : Skolemizer).session calls).map Answer.parts =
        [[.ofLists [⟨"a", [.var "x", .var "z"]⟩] [⟨"aux#0", [.var "x"]⟩],
            .ofLists [⟨"aux#0", [.var "x"]⟩] [⟨"r", [.var "x", .app "sk#0" [.var "x"]]⟩],
            .ofLists [⟨"aux#0", [.var "x"]⟩] [⟨"s", [.app "sk#0" [.var "x"]]⟩]],
          [.ofLists [⟨"b", [.var "x", .var "z"]⟩] [⟨"r", [.var "x", .app "sk#1" [.var "x", .var "z"]]⟩,
            ⟨"t", [.app "sk#1" [.var "x", .var "z"], .app "sk#2" [.var "x", .var "z"]]⟩]],
          [.ofLists [⟨"c", [.var "x"]⟩] [⟨"r", [.var "x", .app "sk#3" [.var "x"]]⟩],
            .ofLists [⟨"c", [.var "x"]⟩] [⟨"s", [.app "sk#3" [.var "x"]]⟩]],
          [.ofLists [⟨"a", [.var "x", .var "z"]⟩] [⟨"r", [.var "x", .app "sk#4" [.var "x"]]⟩]]] ∧
      (({} : Skolemizer).session calls).Pairwise Answer.Apart ∧
      ∀ M : Structure.{0}, (∀ c ∈ calls, M.Models c.2) →
        ∃ app holds, ∀ r ∈ ({} : Skolemizer).session calls, ∀ p ∈ r.parts, (M.expanded app holds).Models p := by
  let calls : List (Manner × Tgd) :=
    [(.frontierProjected, .ofLists [⟨"a", [.var "x", .var "z"]⟩] [⟨"r", [.var "x", .var "y"]⟩, ⟨"s", [.var "y"]⟩]),
      (.skolemize, .ofLists [⟨"b", [.var "x", .var "z"]⟩] [⟨"r", [.var "x", .var "y"]⟩, ⟨"t", [.var "y", .var "w"]⟩]),
      (.singleHeaded, .ofLists [⟨"c", [.var "x"]⟩] [⟨"r", [.var "x", .var "y"]⟩, ⟨"s", [.var "y"]⟩]),
      (.skolemizeFrontier, .ofLists [⟨"a", [.var "x", .var "z"]⟩] [⟨"r", [.var "x", .var "y"]⟩])]
  have free : ∀ c ∈ calls, c.2.isFunctionFree = true := by decide +kernel
  have names : ∀ c ∈ calls, ∀ a ∈ c.2.body.toList ++ c.2.head.toList, ¬ Reserved "aux#" a.predicate := by decide +kernel
  have unreserved : ∀ c ∈ calls, ∀ p, c.2.Mentions p → ¬ Reserved "aux#" p.name := by
    rintro c member _ ⟨a, inside, rfl⟩
    exact names c member a (List.mem_append.mpr (inside.imp SortedSet.mem_toList.mpr SortedSet.mem_toList.mpr))
  obtain ⟨-, -, apart, -, expanded, -⟩ := session_conservative {} calls free unreserved
  refine ⟨calls, rfl, free, unreserved, by decide +kernel, apart, fun M models => ?_⟩
  obtain ⟨app, holds, -, returned⟩ := expanded M models
  exact ⟨app, holds, returned⟩

end Skolemizer
end GuardedSaturation
