import Mathlib
import GuardedSaturation.Proofs.Chase.Model
import GuardedSaturation.Proofs.Saturation.Closure
import GuardedSaturation.Proofs.Saturation.Meaning

/-! The full rules of a completed existential run answer as the inputs do. The stored rules are
closed under evolution, so the tree of facts over given facts satisfies them, and with them the
inputs; a fact about constants that follows holds at the root, where full rules alone derive it. -/
namespace GuardedSaturation

/-- The least set of facts that contains the given ones and is closed under rules whose variables
stand for constants. -/
inductive Datalog (rules : List Tgd) (D : AtomSet) : Atom → Prop
  | given {a : Atom} (member : a ∈ D) : Datalog rules D a
  | rule {t : Tgd} {h : Atom} (c : Variable → String) (member : t ∈ rules)
      (body : ∀ a ∈ t.body, Datalog rules D (a.subst (fun x => .const (c x)))) (head : h ∈ t.head) :
      Datalog rules D (h.subst (fun x => .const (c x)))

namespace Atom
variable {a : Atom}

theorem isGround_subst (plain : a.isFunctional = false) (c : Variable → String) :
    (a.subst (fun x => .const (c x))).IsGround := by
  intro s inside
  rw [args_subst, List.mem_map] at inside
  obtain ⟨r, inside, rfl⟩ := inside
  obtain ⟨x, rfl⟩ | ⟨d, rfl⟩ := Term.plain_cases (isFunctional_eq_false.mp plain r inside)
  · exact ⟨c x, Term.subst_var _ _⟩
  · exact ⟨d, Term.subst_const _ _⟩

theorem IsGround.of_subst {g : Variable → Term} (ground : (a.subst g).IsGround) : a.isFunctional = false := by
  apply isFunctional_eq_false.mpr
  intro t inside
  obtain ⟨c, same⟩ := ground (t.subst g) (args_subst g a ▸ List.mem_map_of_mem inside)
  cases t with
  | app f args => simp at same
  | var x => rfl
  | const d => rfl

end Atom

/-- Rules without function terms derive facts over constants from facts over constants. -/
theorem Datalog.isGround {rules : List Tgd} {D : AtomSet} {F : Atom} (free : ∀ t ∈ rules, t.isFunctionFree = true)
    (ground : ∀ a ∈ D, a.IsGround) (derives : Datalog rules D F) : F.IsGround := by
  cases derives with
  | given member => exact ground _ member
  | rule c member body head => exact Atom.isGround_subst ((Tgd.isFunctionFree_eq_true.mp (free _ member)).2 _ head) c

/-- The fact holds in every structure that satisfies the given facts and the guarded dependencies with a head. -/
def Entails (ds : List Dependency) (D : AtomSet) (F : Atom) : Prop :=
  ∀ M : Structure.{0}, M.ModelsInputs ds → (∀ a ∈ D, ∀ v, M.Satisfies v a) → ∀ v, M.Satisfies v F

namespace Chase

def Value.name : Value → String
  | .const c => c
  | .null _ _ => ""

def atomOf (F : domain.Fact) : Atom := ⟨F.1, F.2.map (fun x => .const x.name)⟩

theorem atomOf_fact {f : domain.Assignment} {a : Atom} (plain : a.isFunctional = false) :
    atomOf (domain.fact f a) = a.subst (fun x => .const (f x).name) := by
  apply Atom.eq_iff.mpr
  refine ⟨rfl, ?_⟩
  rw [atomOf, Interpretation.fact, Interpretation.values_eq_map, Atom.args_subst, List.map_map]
  apply List.map_congr_left
  intro t member
  rcases Term.plain_cases (Atom.isFunctional_eq_false.mp plain t member) with ⟨x, rfl⟩ | ⟨c, rfl⟩
  · simp
  · simp [Value.name]

theorem subst_of_ground {a : Atom} (ground : a.IsGround) (g : Variable → Term) : a.subst g = a := by
  rw [Atom.subst_congr (h := .var) (fun x inside => absurd inside ground.vars), Atom.subst_self]

/-- The root has what the full rules derive as Datalog rules. -/
theorem datalog_of_holds {discard : Bool} {L R : Tgd → Prop} {D : AtomSet} {rules : List Tgd} {F : domain.Fact}
    (saturated : Saturated discard L R) (ground : ∀ a ∈ D, a.IsGround) (listed : ∀ r, R r → r ∈ rules)
    (holds : Holds L R D .root F) : Datalog rules D (atomOf F) := by
  generalize same : Node.root = n at holds
  induction holds with
  | given v member =>
    rw [atomOf_fact (ground _ member).plain, subst_of_ground (ground _ member)]
    exact .given member
  | passed => cases same
  | create => cases same
  | @close n r f h right body member ih =>
    obtain ⟨plainBody, plainHead⟩ := saturated.plain_right right
    rw [atomOf_fact (plainHead h member)]
    apply Datalog.rule _ (listed r right) _ member
    intro a inside
    rw [← atomOf_fact (plainBody a inside)]
    exact ih a inside same

end Chase

namespace State
variable {config : Config} {ds : List Dependency} {s : State} {p : Part} {t : Tgd}

def Keeps (s : State) (p : Part) (t : Tgd) : Prop :=
  ∃ id r, id ∈ s.members p ∧ s.catalog.get? id = some r ∧ r.tgd = t

theorem Consistent.evolvable (existential : config.algorithm = .existential)
    (consistent : Consistent config config.algorithm.Shape s) (keeps : s.Keeps p t) :
    t.Evolvable ∧ Algorithm.partOf .existential t = p := by
  obtain ⟨id, r, member, found, rfl⟩ := keeps
  have shape := (consistent.rules id r found).2
  have part := consistent.parts p id r member found
  rw [existential] at shape part
  exact ⟨shape, part⟩

theorem Completes.saturated (existential : config.algorithm = .existential) (checked : Dependency.checkAll ds = .ok ())
    (completes : Completes config ds s) : Chase.Saturated config.discardTautologies (s.Keeps .left) (s.Keeps .right) := by
  have runs := runs_shape config checked
  have consistent := completes.reached.consistent runs
  refine ⟨fun l left => ?_, fun r right => ?_, fun l r left right t evolved p part rest kept => ?_⟩
  · obtain ⟨evolvable, side⟩ := consistent.evolvable existential left
    exact ⟨evolvable, Algorithm.partOf_existential_left.mp side⟩
  · obtain ⟨evolvable, side⟩ := consistent.evolvable existential right
    exact ⟨evolvable, Algorithm.partOf_existential_right.mp side⟩
  · obtain ⟨i, l, member, found, rfl⟩ := left
    obtain ⟨j, r, member', found', rfl⟩ := right
    have conclusion : p ∈ config.algorithm.conclusions l r := by
      rw [existential]
      exact List.mem_flatMap.mpr ⟨t, evolved, part⟩
    obtain ⟨id, q, known, rfl⟩ := completes.concluded runs member member' found found' p conclusion rest kept
    obtain ⟨k, q', stored, known', subsumes⟩ := consistent.covered id q known
    rw [existential] at stored
    refine ⟨q'.tgd, ?_, subsumes⟩
    split
    · next full =>
      rw [Algorithm.partOf_existential_right.mpr full] at stored
      exact ⟨k, q', stored, known', rfl⟩
    · next notFull =>
      rw [Algorithm.partOf_existential_left.mpr (by simpa using notFull)] at stored
      exact ⟨k, q', stored, known', rfl⟩

theorem Completes.datalog (existential : config.algorithm = .existential) (checked : Dependency.checkAll ds = .ok ())
    (completes : Completes config ds s) {D : AtomSet} {F : Atom} (ground : ∀ a ∈ D, a.IsGround) (groundF : F.IsGround)
    (entails : Entails ds D F) : Datalog (s.fullRules config) D F := by
  have saturated := completes.saturated existential checked
  have stored : (Chase.model (s.Keeps .left) (s.Keeps .right) D).ModelsStored s := by
    intro p id r member found
    cases p with
    | left => exact Chase.model_left saturated ground ⟨id, r, member, found, rfl⟩
    | right => exact Chase.model_right saturated ground ⟨id, r, member, found, rfl⟩
  have inputs := (Within.turn completes.reached).modelsInputs existential checked stored
  let v : Chase.domain.Assignment := fun _ => .const ""
  have holds := entails _ inputs (fun a member v => ⟨.root, .given v member⟩) v
  have constants (x : Chase.Value) (inside : x ∈ (Chase.domain.fact v F).2) : ∃ c, x = .const c := by
    rcases (Chase.mem_fact groundF.plain).mp inside with ⟨y, mentions, -⟩ | ⟨c, -, rfl⟩
    · exact absurd mentions groundF.vars
    · exact ⟨c, rfl⟩
  have root : Chase.Holds (s.Keeps .left) (s.Keeps .right) D .root (Chase.domain.fact v F) :=
    Chase.holds_root saturated ground holds constants
  have listed (r : Tgd) (right : s.Keeps .right r) : r ∈ s.fullRules config := by
    obtain ⟨id, r, member, found, rfl⟩ := right
    exact mem_fullRules.mpr ⟨id, r, member, found, by rw [existential]; rfl, rfl⟩
  have derived := Chase.datalog_of_holds saturated ground listed root
  rwa [Chase.atomOf_fact groundF.plain, Chase.subst_of_ground groundF] at derived

end State

/-- When an existential run has completed, its full rules derive as Datalog rules every fact over
constants that the inputs entail from given facts over constants. -/
theorem datalog_of_entails (config : Config) (ds : List Dependency) (existential : config.algorithm = .existential)
    (checked : Dependency.checkAll ds = .ok ()) (D : AtomSet) (F : Atom) (ground : ∀ a ∈ D, a.IsGround)
    (groundF : F.IsGround) (entails : Entails ds D F) :
    (∀ result, saturate config ds = .ok result → result.outcome = .completed → Datalog result.fullRules D F) ∧
    ∀ s, State.Completes config ds s → Datalog (s.fullRules config) D F := by
  refine ⟨fun result ok completed => ?_, fun s completes => completes.datalog existential checked ground groundF entails⟩
  have completes := completes_final ok completed
  obtain ⟨-, rfl⟩ := saturate_eq_ok ok
  exact completes.datalog existential checked ground groundF entails

theorem entails_chained : Entails Dependency.chained (.singleton ⟨"p", [.const "a"]⟩) ⟨"r", [.const "a"]⟩ := by
  intro M inputs given v
  have first := inputs ⟨[⟨"p", [.var "x"]⟩], [⟨"q", [.var "x", .var "y"]⟩], ["y"]⟩ (by decide +kernel) (by simp)
    (Tgd.guard?_isSome.mp (by decide +kernel))
  have second := inputs ⟨[⟨"q", [.var "x", .var "y"]⟩], [⟨"r", [.var "x"]⟩], []⟩ (by decide +kernel) (by simp)
    (Tgd.guard?_isSome.mp (by decide +kernel))
  have base := given _ (SortedSet.mem_singleton.mpr rfl) v
  obtain ⟨w, same, head⟩ := first (fun _ => M.const "a") (by
    intro a member
    obtain rfl : a = ⟨"p", [.var "x"]⟩ := by simpa [Dependency.toTgd, Tgd.ofLists] using member
    simpa [Structure.Satisfies, Interpretation.fact, Interpretation.values] using base)
  have image : w "x" = M.const "a" := same "x" (by decide +kernel)
  have link := head ⟨"q", [.var "x", .var "y"]⟩ (by decide +kernel)
  obtain ⟨w', same', head'⟩ := second w (by
    intro a member
    obtain rfl : a = ⟨"q", [.var "x", .var "y"]⟩ := by simpa [Dependency.toTgd, Tgd.ofLists] using member
    exact link)
  have image' : w' "x" = w "x" := same' "x" (by decide +kernel)
  have last := head' ⟨"r", [.var "x"]⟩ (by decide +kernel)
  simpa [Structure.Satisfies, Interpretation.fact, Interpretation.values, image, image'] using last

/-- From `p(a)` the two dependencies that join entail `r(a)`, by way of an invented value. -/
theorem datalog_chained :
    (∀ a ∈ SortedSet.singleton (Atom.mk "p" [.const "a"]), a.IsGround) ∧ (Atom.mk "r" [.const "a"]).IsGround ∧
      Entails Dependency.chained (.singleton ⟨"p", [.const "a"]⟩) ⟨"r", [.const "a"]⟩ ∧
      ∃ result, saturate {} Dependency.chained = .ok result ∧ result.outcome = .completed ∧
        Datalog result.fullRules (.singleton ⟨"p", [.const "a"]⟩) ⟨"r", [.const "a"]⟩ := by
  have ground : ∀ a ∈ SortedSet.singleton (Atom.mk "p" [.const "a"]), a.IsGround := by
    intro a member
    rw [SortedSet.mem_singleton.mp member]
    simp [Atom.IsGround]
  have groundF : (Atom.mk "r" [.const "a"]).IsGround := by simp [Atom.IsGround]
  have ok := saturate_of_checked {} checkAll_chained
  obtain ⟨derives, -⟩ := datalog_of_entails {} Dependency.chained rfl checkAll_chained _ _ ground groundF entails_chained
  exact ⟨ground, groundF, entails_chained, _, ok, completed_chained, derives _ ok completed_chained⟩

end GuardedSaturation
