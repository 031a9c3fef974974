import Mathlib
import GuardedSaturation.Proofs.Lifting
import GuardedSaturation.Proofs.Resolution
import GuardedSaturation.Proofs.Saturation.Completeness

/-! Facts over terms that are made from facts over constants by the rules on the left alone. If rules are closed under
resolution, those on the right make no more facts: where one is used on a fact that was made, a resolvent is used on
facts made with fewer rules, until all facts used are over constants. -/
namespace GuardedSaturation

/-- Rules of two parts that have the conclusions from a left and a right one, up to subsumption and those that
say nothing. -/
structure Algorithm.Saturated (algorithm : Algorithm) (L R : Rule → Prop) : Prop where
  left : ∀ l, L l → algorithm.Shape l.tgd ∧ algorithm.partOf l.tgd = .left
  right : ∀ r, R r → r.Built algorithm ∧ algorithm.Shape r.tgd ∧ algorithm.partOf r.tgd = .right
  closed : ∀ l r, L l → R r → ∀ c ∈ algorithm.conclusions l r,
    c.head ⊆ c.body ∨ ∃ q, (L q ∨ R q) ∧ q.tgd.subsumes c = true

namespace Herbrand

/-- A fact, and how many rules on the left it takes to make it from basic facts. -/
inductive Made (L : Rule → Prop) (basic : Atom → Prop) : Atom → Nat → Prop
  | basic {a : Atom} (holds : basic a) : Made L basic a 0
  | rule {l : Rule} {h : Atom} (v : Variable → Term) (n : Atom → Nat) (left : L l)
      (body : ∀ a ∈ l.tgd.body, Made L basic (a.subst v) (n a)) (head : h ∈ l.tgd.head) :
      Made L basic (h.subst v) (l.tgd.body.total n + 1)

def Holds (L : Rule → Prop) (basic : Atom → Prop) (a : Atom) : Prop := ∃ n, Made L basic a n

/-- The least number of rules. -/
noncomputable def cost (L : Rule → Prop) (basic : Atom → Prop) (a : Atom) : Nat := sInf {n | Made L basic a n}

variable {L R : Rule → Prop} {basic : Atom → Prop} {a : Atom}

theorem Holds.of_left {l : Rule} {v : Variable → Term} (left : L l) (body : ∀ b ∈ l.tgd.body, Holds L basic (b.subst v))
    {h : Atom} (head : h ∈ l.tgd.head) : Holds L basic (h.subst v) := by
  classical
  choose n made using body
  let number (b : Atom) : Nat := if inside : b ∈ l.tgd.body then n b inside else 0
  refine ⟨_, .rule v number left (fun b inside => ?_) head⟩
  rw [show number b = n b inside from dif_pos inside]
  exact made b inside

/-- A fact is basic, or made from facts that all together took fewer rules. -/
theorem Holds.cases (holds : Holds L basic a) :
    basic a ∨ ∃ l v h, L l ∧ h ∈ l.tgd.head ∧ h.subst v = a ∧ (∀ b ∈ l.tgd.body, Holds L basic (b.subst v)) ∧
      l.tgd.body.total (fun b => cost L basic (b.subst v)) < cost L basic a := by
  have least : Made L basic a (cost L basic a) := Nat.sInf_mem holds
  generalize number : cost L basic a = k at least
  cases least with
  | basic holds => exact .inl holds
  | @rule l h v n left body head =>
    refine .inr ⟨l, v, h, left, head, rfl, fun b inside => ⟨_, body b inside⟩, Nat.lt_succ_of_le ?_⟩
    exact Finset.sum_le_sum (fun b member => Nat.sInf_le (body b (List.mem_toFinset.mp member)))

section Datalog
variable {algorithm : Algorithm} {rules : List Tgd} {D : AtomSet} (selecting : algorithm ≠ .existential)
  (saturated : algorithm.Saturated L R)
include selecting saturated

/-- What is made by a rule has function terms. -/
theorem Holds.datalog (holds : Holds L (Datalog rules D) a) (ground : a.IsGround) : Datalog rules D a := by
  obtain derived | ⟨l, v, h, left, head, rfl, -⟩ := holds.cases
  · exact derived
  · obtain ⟨shape, part⟩ := saturated.left l left
    rw [Algorithm.shape_of_selecting selecting] at shape
    have functional := shape.isFunctional_head ((Algorithm.partOf_skolem_left selecting).mp part) head
    simp [ground.of_subst] at functional

variable (free : ∀ t ∈ rules, t.isFunctionFree = true) (ground : ∀ a ∈ D, a.IsGround)
  (listed : ∀ r, R r → r.tgd.isFunctionFree = true → r.tgd ∈ rules)
include free ground listed

/-- Used on a selected fact over constants, a rule has no function terms and all facts used are over constants. -/
theorem holds_of_basic {r : Rule} (right : R r) {f : Variable → Term}
    (body : ∀ a ∈ r.tgd.body, Holds L (Datalog rules D) (a.subst f)) {s : Atom}
    (kind : s.isFunctional = true ∨ r.tgd.isFunctionFree = true ∧ ∀ x ∈ r.tgd.body.vars, x ∈ s.vars)
    (inside : s ∈ r.tgd.body) (derived : Datalog rules D (s.subst f)) {h : Atom} (head : h ∈ r.tgd.head) :
    Holds L (Datalog rules D) (h.subst f) := by
  have constants := derived.isGround free ground
  obtain ⟨-, shape, -⟩ := saturated.right r right
  rw [Algorithm.shape_of_selecting selecting] at shape
  obtain ⟨plain, covers⟩ := kind.resolve_left (by simp [constants.of_subst])
  have ⟨plainBody, plainHead⟩ := Tgd.isFunctionFree_eq_true.mp plain
  have images (x : Variable) (universal : x ∈ r.tgd.body.vars) : ∃ c, f x = .const c := by
    have argument := (Atom.var_mem_args (plainBody s inside)).mpr (covers x universal)
    simpa using constants _ (Atom.args_subst f s ▸ List.mem_map_of_mem argument)
  choose! c image using images
  have same {a : Atom} (member : a ∈ r.tgd.body ∨ a ∈ r.tgd.head) : a.subst f = a.subst (fun x => .const (c x)) :=
    Atom.subst_congr (fun x mentioned => image x (shape.vars_subset member mentioned))
  rw [same (.inr head)]
  refine ⟨0, .basic (.rule c (listed r right plain) (fun a member => ?_) head)⟩
  have holds := body a member
  rw [same (.inl member)] at holds
  exact holds.datalog selecting saturated (Atom.isGround_subst (plainBody a member) c)

/-- Rules on the right make no more facts. -/
theorem holds_of_right {r : Rule} (right : R r) {f : Variable → Term}
    (body : ∀ a ∈ r.tgd.body, Holds L (Datalog rules D) (a.subst f)) {h : Atom} (head : h ∈ r.tgd.head) :
    Holds L (Datalog rules D) (h.subst f) := by
  generalize number : r.tgd.body.total (fun a => cost L (Datalog rules D) (a.subst f)) = n
  induction n using Nat.strong_induction_on generalizing r f h with
  | h n ih =>
    obtain ⟨built, shape, part⟩ := saturated.right r right
    have side := (Algorithm.partOf_skolem_right selecting).mp part
    obtain ⟨selection, found, s, selected, eligible⟩ := built.exists_selected selecting shape.guarded side
    obtain ⟨inside, kind⟩ := Selection.eligible_body side eligible
    obtain derived | ⟨l, v, g, left, granted, equal, made, fewer⟩ := (body s inside).cases
    · exact holds_of_basic selecting saturated free ground listed right body kind inside derived head
    -- The selected fact was made by a rule: a resolvent makes do with what that rule was used on.
    obtain ⟨leftShape, leftPart⟩ := saturated.left l left
    obtain ⟨c, drawn, w, lifts⟩ := exists_lifts selecting built leftPart part leftShape shape found selected inside granted equal
    have asked (a : Atom) (member : a ∈ c.body) : Holds L (Datalog rules D) (a.subst w) := by
      obtain ⟨b, here, same⟩ | ⟨b, here, same⟩ := lifts.body a member <;> rw [same]
      · exact made b here
      · exact body b here
    obtain ⟨a, member, same⟩ := lifts.head h head
    rw [← same]
    obtain idle | ⟨q, kept, subsumes⟩ := saturated.closed l r left right c drawn
    · exact asked a (idle a member)
    · obtain ⟨bodies, heads⟩ := Tgd.subsumes_iff.mp subsumes
      have asked (b : Atom) (member : b ∈ q.tgd.body) := asked b (bodies b member)
      obtain kept | kept := kept
      · exact .of_left kept asked (heads a member)
      · refine ih _ ?_ kept asked (heads a member) rfl
        have bound := lifts.total (cost L (Datalog rules D))
        have smaller := AtomSet.total_mono (f := fun a => cost L (Datalog rules D) (a.subst w)) bodies
        omega

end Datalog

/-- Terms as values, and the facts that hold. -/
def model (L : Rule → Prop) (rules : List Tgd) (D : AtomSet) : Structure.{0} :=
  ⟨.free, fun F => Holds L (Datalog rules D) ⟨F.1, F.2⟩⟩

theorem satisfies_iff {rules : List Tgd} {D : AtomSet} {f : Variable → Term} :
    (model L rules D).Satisfies f a ↔ Holds L (Datalog rules D) (a.subst f) := by
  change Holds L _ ⟨(Interpretation.free.fact f a).1, (Interpretation.free.fact f a).2⟩ ↔ _
  rw [Interpretation.fact_free]
  rfl

end Herbrand
end GuardedSaturation
