import Mathlib
import GuardedSaturation.Proofs.Saturation.Soundness

/-! The auxiliary predicates of a run. Their numbers keep them apart from each other, and from predicates of the inputs
with other names. But nothing sees to it that inputs have other names: a dependency over `aux#0` reads what the run
grants under this name, and facts are derived that do not follow. -/
namespace GuardedSaturation

def Dependency.predicates (ds : List Dependency) : List Symbol := ds.flatMap (fun d => d.atoms.map Atom.symbol)

namespace Tgd
variable {t : Tgd} {p : Symbol}

theorem Mentions.of_canonical (mentions : t.canonical.Mentions p) : t.Mentions p := by
  obtain ⟨a, inside | inside, rfl⟩ := mentions
  · obtain ⟨b, present, same⟩ := AtomSet.exists_of_mem_subst inside
    exact ⟨b, .inl present, same⟩
  · obtain ⟨b, present, same⟩ := AtomSet.exists_of_mem_subst inside
    exact ⟨b, .inr present, same⟩

theorem mentions_toTgd {d : Dependency} (mentions : d.toTgd.Mentions p) : ∃ a ∈ d.atoms, a.symbol = p := by
  obtain ⟨a, inside, same⟩ := mentions
  exact ⟨a, List.mem_append.mpr (inside.imp SortedSet.mem_ofList.mp SortedSet.mem_ofList.mp), same⟩

end Tgd

namespace Seeds
variable {algorithm : Algorithm} {z : Skolemizer} {ts : List Tgd} {t : Tgd} {p : Symbol}

/-- The auxiliary predicates that are introduced with the seeds of rules, one rule after the other. The count of them
goes up where one is. -/
def auxiliaries (algorithm : Algorithm) : Skolemizer → List Tgd → List Symbol
  | _, [] => []
  | z, t :: ts =>
    let next := (algorithm.seedsOf z t).2
    (if next.predicates = z.predicates then [] else [(z.auxiliary t.canonical).symbol]) ++ auxiliaries algorithm next ts

theorem auxiliaries_cons (selecting : algorithm ≠ .existential) :
    auxiliaries algorithm z (t :: ts) =
      (if (z.answer .frontierProjected t.canonical).2.predicates = z.predicates then []
        else [(z.auxiliary t.canonical).symbol]) ++
        auxiliaries algorithm (z.answer .frontierProjected t.canonical).2 ts := by
  cases algorithm with
  | existential => contradiction
  | skolem | orderedSkolem => rfl

theorem name_auxiliaries (selecting : algorithm ≠ .existential) (z : Skolemizer) (ts : List Tgd) :
    (auxiliaries algorithm z ts).map Symbol.name =
      (List.range' z.predicates (auxiliaries algorithm z ts).length).map Skolemizer.predicateName := by
  induction ts generalizing z with
  | nil => rfl
  | cons t ts ih =>
    rw [auxiliaries_cons selecting]
    obtain ⟨same, -⟩ | ⟨next, -⟩ := z.mentions_answer .frontierProjected t.canonical
    · rw [if_pos same, List.nil_append, ih, same]
    · have grows : (z.answer .frontierProjected t.canonical).2.predicates ≠ z.predicates := by omega
      rw [if_neg grows, List.map_append, ih, next, List.length_append, List.length_singleton, Nat.add_comm 1,
        List.range'_succ]
      rfl

theorem granted_of_mem_auxiliaries (selecting : algorithm ≠ .existential) (introduced : p ∈ auxiliaries algorithm z ts) :
    ∃ t ∈ expand algorithm z ts, ∃ h ∈ t.head, h.symbol = p := by
  induction ts generalizing z with
  | nil => cases introduced
  | cons t ts ih =>
    rw [auxiliaries_cons selecting, List.mem_append] at introduced
    obtain here | later := introduced
    · obtain ⟨same, -⟩ | ⟨next, granting, -⟩ := z.mentions_answer .frontierProjected t.canonical
      · rw [if_pos same] at here
        cases here
      · rw [if_neg (by omega), List.mem_singleton] at here
        refine ⟨_, (Structure.mem_expand_selecting selecting).mpr (.inl ⟨_, granting, rfl⟩), _,
          AtomSet.mem_subst.mpr ⟨_, SortedSet.mem_singleton.mpr rfl, rfl⟩, ?_⟩
        rw [Atom.symbol_subst, here]
    · obtain ⟨q, member, granted⟩ := ih later
      exact ⟨q, (Structure.mem_expand_selecting selecting).mpr (.inr member), granted⟩

theorem mentions_of_mem_expand (selecting : algorithm ≠ .existential) (member : t ∈ expand algorithm z ts)
    (mentions : t.Mentions p) : (∃ s ∈ ts, s.Mentions p) ∨ p ∈ auxiliaries algorithm z ts := by
  induction ts generalizing z with
  | nil => cases member
  | cons s ts ih =>
    rw [auxiliaries_cons selecting, List.mem_append]
    obtain ⟨q, projected, rfl⟩ | later := (Structure.mem_expand_selecting selecting).mp member
    · have mentions := mentions.of_canonical
      obtain ⟨-, old⟩ | ⟨next, -, old⟩ := z.mentions_answer .frontierProjected s.canonical
      · exact .inl ⟨s, List.mem_cons_self, (old q projected p mentions).of_canonical⟩
      · refine (old q projected p mentions).imp (fun here => ⟨s, List.mem_cons_self, here.of_canonical⟩) (fun same => .inl ?_)
        rw [if_neg (by omega), List.mem_singleton]
        exact same
    · exact (ih later).imp (fun ⟨r, inside, here⟩ => ⟨r, List.mem_cons_of_mem s inside, here⟩) .inr

end Seeds

/-- The auxiliary predicates of a selecting run are `aux#0`, `aux#1` and so on, each granted by a seed, and seeds
mention no other predicates but those of the inputs. A predicate of the inputs with another name is none of them. -/
theorem auxiliaries_apart (config : Config) (ds : List Dependency) (selecting : config.algorithm ≠ .existential) :
    let introduced := Seeds.auxiliaries config.algorithm {} (Seeds.accepted ds)
    introduced.map Symbol.name = (List.range introduced.length).map Skolemizer.predicateName ∧
      (introduced.map Symbol.name).Nodup ∧
      (∀ p ∈ introduced, ∃ t ∈ Seeds.ofInputs config ds, ∃ h ∈ t.head, h.symbol = p) ∧
      (∀ t ∈ Seeds.ofInputs config ds, ∀ p, t.Mentions p → p ∈ Dependency.predicates ds ∨ p ∈ introduced) ∧
      ∀ p ∈ Dependency.predicates ds, (∀ n < introduced.length, p.name ≠ Skolemizer.predicateName n) → p ∉ introduced := by
  intro introduced
  have names : introduced.map Symbol.name = (List.range introduced.length).map Skolemizer.predicateName := by
    rw [List.range_eq_range']
    exact Seeds.name_auxiliaries selecting {} (Seeds.accepted ds)
  refine ⟨names, ?_, fun p member => ?_, fun t member p mentions => ?_, fun p _ other member => ?_⟩
  · rw [names]
    exact List.nodup_range.map (fun _ _ => Skolemizer.predicateName_inj.mp)
  · obtain ⟨t, seed, granted⟩ := Seeds.granted_of_mem_auxiliaries selecting member
    exact ⟨t, Seeds.mem_ofInputs.mpr seed, granted⟩
  · refine (Seeds.mentions_of_mem_expand selecting (Seeds.mem_ofInputs.mp member) mentions).imp_left (fun here => ?_)
    obtain ⟨s, accepted, mentions⟩ := here
    obtain ⟨d, inside, -, -, rfl⟩ := Seeds.mem_accepted.mp accepted
    obtain ⟨a, present, same⟩ := Tgd.mentions_toTgd mentions
    exact List.mem_flatMap.mpr ⟨d, inside, List.mem_map.mpr ⟨a, present, same⟩⟩
  · have named := List.mem_map_of_mem (f := Symbol.name) member
    rw [names] at named
    obtain ⟨n, bound, name⟩ := List.mem_map.mp named
    exact other n (List.mem_range.mp bound) name.symm

/-- Two dependencies of which the first needs an auxiliary predicate, and the second reads a predicate of some name. -/
def Dependency.reading (p : String) : List Dependency :=
  [⟨[⟨"a", [.var "x", .var "z"]⟩], [⟨"r", [.var "x", .var "y"]⟩], ["y"]⟩, ⟨[⟨p, [.var "x"]⟩], [⟨"b", [.var "x"]⟩], []⟩]

/-- With one auxiliary predicate, the name of the next one can be had by the inputs. -/
theorem auxiliaries_reading :
    Seeds.auxiliaries .skolem {} (Seeds.accepted (Dependency.reading "aux#1")) = [⟨"aux#0", 1⟩] ∧
      ⟨"aux#1", 1⟩ ∈ Dependency.predicates (Dependency.reading "aux#1") ∧
      ⟨"aux#1", 1⟩ ∉ Seeds.auxiliaries .skolem {} (Seeds.accepted (Dependency.reading "aux#1")) := by
  have introduced : Seeds.auxiliaries .skolem {} (Seeds.accepted (Dependency.reading "aux#1")) = [⟨"aux#0", 1⟩] := by
    decide +kernel
  have read : ⟨"aux#1", 1⟩ ∈ Dependency.predicates (Dependency.reading "aux#1") := by decide +kernel
  obtain ⟨-, -, -, -, apart⟩ := auxiliaries_apart { algorithm := .skolem } (Dependency.reading "aux#1") (by decide)
  refine ⟨introduced, read, apart _ read ?_⟩
  rw [introduced]
  decide +kernel

theorem not_entails_reading :
    ¬ Entails (Dependency.reading "aux#0") (.singleton ⟨"a", [.const "c", .const "d"]⟩) ⟨"b", [.const "c"]⟩ := by
  intro entails
  -- With facts over `a` and `r` alone there is nothing to read over `aux#0`.
  let M : Structure.{0} :=
    { Domain := Unit, inhabited := ⟨()⟩, const := fun _ => (), app := fun _ _ => (), holds := fun fact => fact.1 = "a" ∨ fact.1 = "r" }
  have inputs : M.ModelsInputs (Dependency.reading "aux#0") := by
    intro d member _ _ v body
    obtain rfl | rfl : d = _ ∨ d = _ := by simpa [Dependency.reading] using member
    · refine ⟨v, fun _ _ => rfl, fun a inside => ?_⟩
      rw [List.mem_singleton.mp (SortedSet.mem_ofList.mp inside)]
      exact .inr rfl
    · have read := body _ (SortedSet.mem_ofList.mpr List.mem_cons_self)
      simp [Structure.Satisfies, Interpretation.fact, M] at read
  have given : ∀ a ∈ SortedSet.singleton (Atom.mk "a" [.const "c", .const "d"]), ∀ v, M.Satisfies v a := by
    intro a member v
    rw [SortedSet.mem_singleton.mp member]
    exact .inl rfl
  have absent := entails M inputs given (fun _ => ())
  simp [Structure.Satisfies, Interpretation.fact, M] at absent

/-- The inputs may use the name `aux#0` for a predicate of their own. Then `b(c)` is derived from `a(c, d)`, although it
does not follow. -/
theorem auxiliaries_collide :
    Dependency.checkAll (Dependency.reading "aux#0") = .ok () ∧
      ⟨"aux#0", 1⟩ ∈ Dependency.predicates (Dependency.reading "aux#0") ∧
      (∀ algorithm, algorithm ≠ .existential →
        ⟨"aux#0", 1⟩ ∈ Seeds.auxiliaries algorithm {} (Seeds.accepted (Dependency.reading "aux#0")) ∧
        ∃ result, saturate { algorithm } (Dependency.reading "aux#0") = .ok result ∧ result.outcome = .completed ∧
          Datalog result.fullRules (.singleton ⟨"a", [.const "c", .const "d"]⟩) ⟨"b", [.const "c"]⟩) ∧
      ¬ Entails (Dependency.reading "aux#0") (.singleton ⟨"a", [.const "c", .const "d"]⟩) ⟨"b", [.const "c"]⟩ := by
  have checked : Dependency.checkAll (Dependency.reading "aux#0") = .ok () := by decide +kernel
  have derives {rules : List Tgd} (granting : .ofLists [⟨"a", [.var "u0", .var "u1"]⟩] [⟨"aux#0", [.var "u0"]⟩] ∈ rules)
      (reading : .ofLists [⟨"aux#0", [.var "u0"]⟩] [⟨"b", [.var "u0"]⟩] ∈ rules) :
      Datalog rules (.singleton ⟨"a", [.const "c", .const "d"]⟩) ⟨"b", [.const "c"]⟩ := by
    refine .rule (h := ⟨"b", [.var "u0"]⟩) (fun _ => "c") reading (fun a member => ?_) (by decide +kernel)
    obtain rfl := List.mem_singleton.mp (SortedSet.mem_ofList.mp member)
    refine .rule (h := ⟨"aux#0", [.var "u0"]⟩) (fun x => if x = "u0" then "c" else "d") granting (fun a member => ?_)
      (by decide +kernel)
    obtain rfl := List.mem_singleton.mp (SortedSet.mem_ofList.mp member)
    exact .given (by decide +kernel)
  refine ⟨checked, by decide +kernel, fun algorithm selecting => ?_, not_entails_reading⟩
  have ok := saturate_of_checked { algorithm } checked
  cases algorithm with
  | existential => contradiction
  | skolem => exact ⟨by decide +kernel, _, ok, by decide +kernel, derives (by decide +kernel) (by decide +kernel)⟩
  | orderedSkolem => exact ⟨by decide +kernel, _, ok, by decide +kernel, derives (by decide +kernel) (by decide +kernel)⟩

end GuardedSaturation
