import Mathlib
import GuardedSaturation.Proofs.AtomOrders
import GuardedSaturation.Proofs.Unification.Graded
import GuardedSaturation.Proofs.Evolution.Completeness

/-! Lifting: where an instance of a head is an instance of a selected atom, some resolvent has both rules' other
instances. All function terms of a rule mention all its variables, so their instances are equally high, and higher
than what stands below any of them. -/
namespace GuardedSaturation

namespace Term

mutual
/-- How many function symbols stand above each other. -/
def height : Term → Nat
  | .var _ | .const _ => 0
  | .app _ args => heightAll args + 1

def heightAll : List Term → Nat
  | [] => 0
  | t :: ts => max (height t) (heightAll ts)
end

theorem heightAll_le {ts : List Term} {n : Nat} : heightAll ts ≤ n ↔ ∀ t ∈ ts, t.height ≤ n := by
  induction ts with
  | nil => simp [heightAll]
  | cons t ts ih => simp [heightAll, ih]

theorem height_le_of_mem {ts : List Term} {t : Term} (member : t ∈ ts) : t.height ≤ heightAll ts :=
  heightAll_le.mp le_rfl t member

end Term

namespace Tgd
variable {t t' : Tgd} {w : Variable → Term} {a b : Atom} {s : Term}

/-- How high the values of the variables are. -/
def top (t : Tgd) (w : Variable → Term) : Nat := Term.heightAll (t.body.vars.map w)

namespace Skolemized

theorem height_plain (plain : s.isFunction = false) (within : ∀ x ∈ s.vars, x ∈ t.body.vars) :
    (s.subst w).height ≤ t.top w := by
  obtain ⟨x, rfl⟩ | ⟨c, rfl⟩ := Term.plain_cases plain
  · rw [Term.subst_var]
    exact Term.height_le_of_mem (List.mem_map_of_mem (within x (by simp)))
  · simp [Term.height]

theorem height_function (shape : t.Skolemized) (member : a ∈ t.body ∨ a ∈ t.head) (inside : s ∈ a.args)
    (function : s.isFunction = true) : (s.subst w).height = t.top w + 1 := by
  have flat := Atom.hasNested_eq_false.mp (hasNested_eq_false.mp shape.flat a member) s inside
  have all := shape.deep a member s inside function
  have within (x : Variable) (mentioned : x ∈ s.vars) : x ∈ t.body.vars :=
    shape.vars_subset member (Atom.mem_vars.mpr ⟨s, inside, mentioned⟩)
  obtain ⟨f, args, rfl⟩ := Term.exists_app function
  rw [Term.isNested_app] at flat
  simp only [Term.vars_app, List.mem_flatMap] at all within
  rw [Term.subst_app, Term.height, Nat.add_right_cancel_iff]
  apply le_antisymm
  · refine Term.heightAll_le.mpr (List.forall_mem_map.mpr (fun arg present => ?_))
    exact height_plain (flat arg present) (fun x mentioned => within x ⟨arg, present, mentioned⟩)
  · refine Term.heightAll_le.mpr (List.forall_mem_map.mpr (fun x universal => ?_))
    obtain ⟨arg, present, mentioned⟩ := all x universal
    obtain ⟨y, rfl⟩ | ⟨c, rfl⟩ := Term.plain_cases (flat arg present)
    · obtain rfl : x = y := by simpa using mentioned
      exact Term.height_le_of_mem (by simpa using List.mem_map_of_mem (f := Term.subst w) present)
    · simp at mentioned

theorem graded (shape : t.Skolemized) (member : a ∈ t.body ∨ a ∈ t.head) (inside : s ∈ a.args) :
    s.Graded w (fun u => t.top w < u.height) := by
  cases function : s.isFunction with
  | false => exact Term.graded_of_plain function
  | true =>
    have height := shape.height_function (w := w) member inside function
    have flat := Atom.hasNested_eq_false.mp (hasNested_eq_false.mp shape.flat a member) s inside
    obtain ⟨f, args, rfl⟩ := Term.exists_app function
    refine ⟨(Nat.lt_succ_self _).trans_eq height.symm, fun arg present => ⟨Term.isNested_app.mp flat arg present, ?_⟩⟩
    refine Nat.not_lt_of_le (height_plain (Term.isNested_app.mp flat arg present) (fun x mentioned => ?_))
    refine shape.vars_subset member (Atom.mem_vars.mpr ⟨_, inside, ?_⟩)
    simpa using ⟨arg, present, mentioned⟩

/-- Atoms with one instance come from rules whose variables have equally high values, if both have function terms. -/
theorem top_le (shape : t.Skolemized) (member : a ∈ t.body ∨ a ∈ t.head) (functional : a.isFunctional = true)
    (shape' : t'.Skolemized) (member' : b ∈ t'.body ∨ b ∈ t'.head) (same : a.subst w = b.subst w) : t.top w ≤ t'.top w := by
  obtain ⟨s, inside, function⟩ := Atom.isFunctional_eq_true.mp functional
  have image : s.subst w ∈ (b.subst w).args := by
    rw [← same, Atom.args_subst]
    exact List.mem_map_of_mem inside
  rw [Atom.args_subst, List.mem_map] at image
  obtain ⟨r, inside', image⟩ := image
  have height := shape.height_function (w := w) member inside function
  rw [← image] at height
  cases function' : r.isFunction with
  | true =>
    have := shape'.height_function (w := w) member' inside' function'
    omega
  | false =>
    have := height_plain (t := t') (w := w) function' (fun x mentioned =>
      shape'.vars_subset member' (Atom.mem_vars.mpr ⟨r, inside', mentioned⟩))
    omega

end Skolemized

namespace Joinable
open Unifier Substitution
variable {producer consumer : Tgd} {H S : Atom}

theorem graded_consumer (join : Joinable producer consumer H S) (same : H.subst w = S.subst w)
    (member : a ∈ consumer.body ∨ a ∈ consumer.head) (inside : s ∈ a.args) :
    s.Graded w (fun u => producer.top w < u.height) := by
  have first := join.producing.toSkolemized
  have second := join.consuming.toSkolemized
  obtain functional | ⟨free, -⟩ := join.eligible
  · have level : producer.top w = consumer.top w :=
      le_antisymm (first.top_le (.inr join.head) join.inventive second (.inl join.selected) same)
        (second.top_le (.inl join.selected) functional first (.inr join.head) same.symm)
    rw [level]
    exact second.graded member inside
  · rw [isFunctionFree_eq_true] at free
    exact Term.graded_of_plain (Atom.isFunctional_eq_false.mp (member.elim (free.1 a) (free.2 a)) s inside)

/-- Where a replacement makes both atoms equal they have a unifier. -/
theorem exists_unifier (join : Joinable producer consumer H S) (same : H.subst w = S.subst w) :
    ∃ σ, mostGeneral ∅ H S = some σ ∧ Solves .free w σ := by
  have produced (s : Term) (inside : s ∈ H.args) : s.Graded w (fun u => producer.top w < u.height) :=
    join.producing.graded (.inr join.head) inside
  exact mostGeneral_graded produced (fun s inside => join.graded_consumer same (.inl join.selected) inside) same

end Joinable
end Tgd

namespace AtomSet
variable {s t : AtomSet} {f : Atom → Nat}

def total (f : Atom → Nat) (s : AtomSet) : Nat := ∑ a ∈ s.toList.toFinset, f a

theorem total_congr {g : Atom → Nat} (same : ∀ a ∈ s, f a = g a) : s.total f = s.total g :=
  Finset.sum_congr rfl (fun a member => same a (List.mem_toFinset.mp member))

theorem total_mono (within : s ⊆ t) : s.total f ≤ t.total f :=
  Finset.sum_le_sum_of_subset (fun a member => List.mem_toFinset.mpr (within a (List.mem_toFinset.mp member)))

theorem total_union : (s ∪ t).total f ≤ s.total f + t.total f := by
  have union : (s ∪ t).toList.toFinset = s.toList.toFinset ∪ t.toList.toFinset := by
    ext a
    simp [SortedSet.mem_toList]
  rw [total, union, total, total, ← Finset.sum_union_inter]
  exact Nat.le_add_right _ _

theorem total_erase {a : Atom} (member : a ∈ s) : total f (s.erase a) + f a = s.total f := by
  have erase : (s.erase a).toList.toFinset = s.toList.toFinset.erase a := by
    ext b
    simp [SortedSet.mem_toList, and_comm]
  rw [total, erase]
  exact Finset.sum_erase_add _ _ (List.mem_toFinset.mpr member)

/-- Atoms that become one count once only. -/
theorem total_subst {g : Variable → Term} : (s.subst g).total f ≤ s.total (fun a => f (a.subst g)) := by
  have image : (s.subst g).toList.toFinset = s.toList.toFinset.image (Atom.subst g) := by
    ext a
    simp [SortedSet.mem_toList]
  rw [total, image]
  exact Finset.sum_image_le_of_nonneg (fun _ _ => Nat.zero_le _)

/-- Of two bodies with instances, the second one loses an atom to the union. -/
theorem total_resolvent {rename image w v f : Variable → Term} {body body' : AtomSet} {selected : Atom}
    (old : ∀ a ∈ body, a.subst w = a.subst v) (new : ∀ a ∈ body', (a.subst rename).subst w = a.subst f)
    (same : ∀ a : Atom, (a.subst image).subst w = a.subst w) (inside : selected ∈ body') (g : Atom → Nat) :
    total (fun a => g (a.subst w)) ((body ∪ (body'.subst rename).erase (selected.subst rename)).subst image) +
      g (selected.subst f) ≤ body.total (fun b => g (b.subst v)) + body'.total (fun b => g (b.subst f)) := by
  let instances (a : Atom) : Nat := g (a.subst w)
  have member : selected.subst rename ∈ body'.subst rename := mem_subst.mpr ⟨selected, inside, rfl⟩
  have first : body.total instances = body.total (fun b => g (b.subst v)) :=
    total_congr (fun a member => congrArg g (old a member))
  have second : total instances (body'.subst rename) ≤ body'.total (fun b => g (b.subst f)) :=
    total_subst.trans (total_congr (fun a member => congrArg g (new a member))).le
  have erased : total instances ((body'.subst rename).erase (selected.subst rename)) + g (selected.subst f) =
      total instances (body'.subst rename) := by
    rw [← new selected inside]
    exact total_erase member
  have whole : total instances ((body ∪ (body'.subst rename).erase (selected.subst rename)).subst image) ≤
      body.total instances + total instances ((body'.subst rename).erase (selected.subst rename)) :=
    calc _ ≤ total (fun a => instances (a.subst image)) _ := total_subst
      _ = total instances _ := total_congr (fun a _ => congrArg g (same a))
      _ ≤ _ := total_union
  change total instances _ + _ ≤ _
  omega

end AtomSet

/-- A conclusion together with values for its variables, from instances of two rules where a head atom of the first is
a body atom of the second: it asks for the other body atoms, and grants the second head. -/
structure Lifts (first second : Tgd) (selected : Atom) (v f : Variable → Term) (t : Tgd) (w : Variable → Term) : Prop where
  body : ∀ a ∈ t.body, (∃ b ∈ first.body, a.subst w = b.subst v) ∨ ∃ b ∈ second.body, a.subst w = b.subst f
  head : ∀ h ∈ second.head, ∃ a ∈ t.head, a.subst w = h.subst f
  total : ∀ g : Atom → Nat, t.body.total (fun a => g (a.subst w)) + g (selected.subst f) ≤
    first.body.total (fun b => g (b.subst v)) + second.body.total (fun b => g (b.subst f))

/-- Other names for the variables of the conclusion change nothing. -/
theorem Lifts.canonical {first second t : Tgd} {selected : Atom} {v f w : Variable → Term}
    (lifts : Lifts first second selected v f t w) : ∃ w', Lifts first second selected v f t.canonical w' := by
  obtain ⟨w', named⟩ := Structure.exists_renamed (M := ⟨.free, fun _ => True⟩)
    (Tgd.normalName_injOn (t := t) Naming.apart_default) w
  have same {a : Atom} (member : a ∈ t.body ∨ a ∈ t.head) :
      (a.subst (fun x => .var (t.normalName {} x))).subst w' = a.subst w := by
    rw [Atom.subst_subst]
    exact Atom.subst_congr (fun x inside => (Term.subst_var _ _).trans (named x (Tgd.mem_vars_of_mem member inside)))
  rw [Tgd.canonical_eq]
  refine ⟨w', fun a member => ?_, fun h member => ?_, fun g => le_trans (Nat.add_le_add_right ?_ _) (lifts.total g)⟩
  · obtain ⟨b, present, rfl⟩ := AtomSet.mem_subst.mp member
    rw [same (.inl present)]
    exact lifts.body b present
  · obtain ⟨a, present, equal⟩ := lifts.head h member
    exact ⟨_, AtomSet.mem_subst.mpr ⟨a, present, rfl⟩, (same (.inr present)).trans equal⟩
  · refine AtomSet.total_subst.trans (le_of_eq (AtomSet.total_congr (fun a member => ?_)))
    rw [same (.inl member)]

/-- Both rules' instances are instances of a resolvent, if one grants a selected atom of the other. -/
theorem exists_lifts {algorithm : Algorithm} (selecting : algorithm ≠ .existential) {l r : Rule} (right : r.Built algorithm)
    (leftPart : algorithm.partOf l.tgd = .left) (rightPart : algorithm.partOf r.tgd = .right)
    (leftShape : algorithm.Shape l.tgd) (rightShape : algorithm.Shape r.tgd) {selection : Selection}
    (found : r.selection? = some selection) {s h : Atom} (selected : s ∈ selection.atoms) (inside : s ∈ r.tgd.body)
    (head : h ∈ l.tgd.head) {v f : Variable → Term} (equal : h.subst v = s.subst f) :
    ∃ c ∈ algorithm.conclusions l r, ∃ w, Lifts l.tgd r.tgd s v f c w := by
  have join := Algorithm.joinable selecting right leftPart rightPart leftShape rightShape found selected head
  obtain ⟨w, both⟩ := exists_together (M := .free) l.tgd r.tgd v f
  have old {a : Atom} (member : a ∈ l.tgd.body ∨ a ∈ l.tgd.head) : a.subst w = a.subst v :=
    Atom.subst_congr (fun x mentioned => both.old x (Tgd.mem_vars_of_mem member mentioned))
  have new {a : Atom} (member : a ∈ r.tgd.body ∨ a ∈ r.tgd.head) :
      (a.subst (fun x => .var (r.tgd.nameApart Evolve.stem l.tgd x))).subst w = a.subst f := by
    rw [Atom.subst_subst]
    exact Atom.subst_congr (fun x mentioned =>
      (Term.subst_var _ _).trans (both.new x (Tgd.mem_vars_of_mem member mentioned)))
  have renamed : (r.tgd.renamingApart Evolve.stem l.tgd).applyAtom s =
      s.subst (fun x => .var (r.tgd.nameApart Evolve.stem l.tgd x)) := Algorithm.applyAtom_renamingApart inside
  obtain ⟨σ, unifier, solves⟩ := join.exists_unifier (w := w)
    (by rw [renamed, old (.inr head), new (.inl inside), equal])
  have image (a : Atom) : (a.subst σ.image).subst w = a.subst w := by
    rw [Atom.subst_subst]
    exact Atom.subst_congr (fun x _ => (Interpretation.value_free _ _).symm.trans (solves.value_image x))
  have resolved := mem_resolve.mpr ⟨⟨selection, found, s, selected, h, head, σ, unifier, rfl⟩, join.flat unifier⟩
  rw [renamed, Tgd.renameApart_eq] at resolved
  suffices Lifts l.tgd r.tgd s v f _ w by
    obtain ⟨w', lifts⟩ := this.canonical
    refine ⟨_, ?_, w', lifts⟩
    rw [Algorithm.conclusions_of_selecting selecting]
    exact List.mem_map_of_mem resolved
  refine ⟨fun a member => ?_, fun h member => ?_, fun g => ?_⟩
  · obtain ⟨b, present, rfl⟩ := AtomSet.mem_subst.mp member
    rw [image]
    obtain here | rest := SortedSet.mem_union.mp present
    · exact .inl ⟨b, here, old (.inl here)⟩
    · obtain ⟨c, inside, rfl⟩ := AtomSet.mem_subst.mp (SortedSet.mem_erase.mp rest).1
      exact .inr ⟨c, inside, new (.inl inside)⟩
  · exact ⟨_, AtomSet.mem_subst.mpr ⟨_, AtomSet.mem_subst.mpr ⟨h, member, rfl⟩, rfl⟩, (image _).trans (new (.inr member))⟩
  · exact AtomSet.total_resolvent (fun a member => old (.inl member)) (fun a member => new (.inl member)) image inside g

end GuardedSaturation
