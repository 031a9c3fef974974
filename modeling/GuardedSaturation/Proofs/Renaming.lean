import Mathlib
import GuardedSaturation.Renaming
import GuardedSaturation.Proofs.Structures

/-! Renaming of variables. A renaming that keeps the variables of a rule apart changes none of
the structures that satisfy the rule; the renaming away from another rule is of this kind and
takes names that the other rule lacks. A replacement that spares the existential variables of a
rule gives an instance of it that holds as well. -/
namespace GuardedSaturation

theorem Variable.indexed_inj {stem : String} {m n : Nat} :
    Variable.indexed stem m = Variable.indexed stem n ↔ m = n := by
  rw [indexed, indexed, String.append_right_inj]
  exact Nat.repr_inj

namespace SortedMap
variable {κ β : Type} [Ord κ] [Std.TransOrd κ] [Std.LawfulEqOrd κ] [DecidableEq κ]

theorem get?_foldl_insert_of_not_mem (l : List (κ × β)) (m : SortedMap κ β) {k : κ} (absent : k ∉ l.map Prod.fst) :
    (l.foldl (fun m e => m.insert e.1 e.2) m).get? k = m.get? k := by
  induction l generalizing m with
  | nil => rfl
  | cons e l ih =>
    simp only [List.map_cons, List.mem_cons, not_or] at absent
    rw [List.foldl_cons, ih _ absent.2, get?_insert, if_neg absent.1]

theorem get?_foldl_insert {l : List (κ × β)} (distinct : (l.map Prod.fst).Nodup) (m : SortedMap κ β)
    {k : κ} {v : β} (member : (k, v) ∈ l) :
    (l.foldl (fun m e => m.insert e.1 e.2) m).get? k = some v := by
  induction l generalizing m with
  | nil => simp at member
  | cons e l ih =>
    obtain ⟨absent, distinct⟩ := List.nodup_cons.mp distinct
    rw [List.foldl_cons]
    rcases List.mem_cons.mp member with rfl | member
    · rw [get?_foldl_insert_of_not_mem l _ absent, get?_insert, if_pos rfl]
    · exact ih distinct _ member

end SortedMap

section Fresh
variable (stem : String) (n : Nat) (taken : List Variable)

theorem freshVariables_nodup : (freshVariables stem n taken).Nodup := by
  refine (List.Nodup.filter _ ?_).sublist (List.take_sublist _ _)
  exact List.nodup_range.map (fun _ _ same => Variable.indexed_inj.mp same)

theorem not_mem_of_freshVariables {x : Variable} (member : x ∈ freshVariables stem n taken) : x ∉ taken := by
  simpa using List.of_mem_filter (List.mem_of_mem_take member)

/-- Each taken variable is in the way once at most. -/
theorem freshVariables_length : (freshVariables stem n taken).length = n := by
  rw [freshVariables, List.length_take, min_eq_left]
  let all := (List.range (n + taken.length)).map (Variable.indexed stem)
  have distinct : all.Nodup := List.nodup_range.map (fun _ _ same => Variable.indexed_inj.mp same)
  have lost : (all.filter (fun x => !decide (x ∉ taken))).length ≤ taken.length := by
    refine (List.subperm_of_subset (distinct.filter _) (fun x member => ?_)).length_le
    simpa using List.of_mem_filter member
  have parts := List.length_eq_length_filter_add (l := all) (fun x => decide (x ∉ taken))
  have total : all.length = n + taken.length := by simp [all]
  simp only [all] at *
  omega

end Fresh

theorem nodup_eraseDups {α : Type} [DecidableEq α] : (l : List α) → l.eraseDups.Nodup
  | [] => by simp
  | a :: l => by
    have : (l.filter (fun b => !b == a)).length ≤ l.length := List.length_filter_le _ _
    rw [List.eraseDups_cons, List.nodup_cons]
    exact ⟨by simp, nodup_eraseDups _⟩
termination_by l => l.length

theorem AtomSet.vars_nodup (s : AtomSet) : s.vars.Nodup := nodup_eraseDups _

/-- Atoms over variables that are kept apart are kept apart. -/
theorem Atom.eq_of_rename {g : Variable → Variable} {W : Set Variable} (apart : Set.InjOn g W) {a b : Atom}
    (within : ∀ x ∈ a.vars, x ∈ W) (within' : ∀ x ∈ b.vars, x ∈ W)
    (same : a.subst (fun x => .var (g x)) = b.subst (fun x => .var (g x))) : a = b := by
  have original {c : Atom} (within : ∀ x ∈ c.vars, x ∈ W) :
      (c.subst (fun x => .var (g x))).subst (fun y => .var (Function.invFunOn g W y)) = c := by
    rw [subst_subst]
    refine (subst_congr (fun x inside => ?_)).trans (subst_self c)
    rw [Term.subst_var, apart.leftInvOn_invFunOn (within x inside)]
  rw [← original within, ← original within', same]

theorem AtomSet.perm_rename {g : Variable → Variable} {s : AtomSet} (apart : Set.InjOn g {x | x ∈ s.vars}) :
    (s.subst (fun x => .var (g x))).toList.Perm (s.toList.map (Atom.subst (fun x => .var (g x)))) := by
  refine (List.perm_ext_iff_of_nodup (SortedSet.nodup _) (s.nodup.map_on ?_)).mpr (fun a => ?_)
  · intro a member b member' same
    exact Atom.eq_of_rename apart (fun x => mem_vars_of_mem member) (fun x => mem_vars_of_mem member') same
  · rw [SortedSet.mem_toList, mem_subst, List.mem_map]
    rfl

namespace Tgd

theorem universals_nodup (t : Tgd) : t.universals.Nodup := t.body.vars_nodup

theorem existentials_nodup (t : Tgd) : t.existentials.Nodup := t.head.vars_nodup.filter _

theorem vars_nodup (t : Tgd) : t.vars.Nodup := by
  refine List.nodup_append.mpr ⟨t.body.vars_nodup, t.head.vars_nodup.filter _, ?_⟩
  rintro x universal y existential rfl
  exact (mem_existentials.mp existential).2 universal

section Rename
variable {t : Tgd} {g : Variable → Variable}

theorem exists_of_mem_existentials_rename {y : Variable}
    (existential : y ∈ (t.subst (fun x => .var (g x))).existentials) : ∃ x ∈ t.existentials, g x = y := by
  obtain ⟨inside, absent⟩ := mem_existentials.mp existential
  obtain ⟨x, head, rfl⟩ := AtomSet.mem_vars_rename.mp inside
  exact ⟨x, mem_existentials.mpr ⟨head, fun universal => absent (AtomSet.mem_vars_rename.mpr ⟨x, universal, rfl⟩)⟩, rfl⟩

/-- Variables that are kept apart go to variables of their own kind. -/
theorem universals_rename (apart : Set.InjOn g {x | x ∈ t.vars}) :
    (t.subst (fun x => .var (g x))).universals.Perm (t.universals.map g) := by
  refine (List.perm_ext_iff_of_nodup (universals_nodup _) (t.universals_nodup.map_on ?_)).mpr (fun y => ?_)
  · exact fun x inside x' inside' same => apart (mem_vars_of_body inside) (mem_vars_of_body inside') same
  · rw [universals, body_subst, AtomSet.mem_vars_rename, List.mem_map]
    rfl

theorem existentials_rename (apart : Set.InjOn g {x | x ∈ t.vars}) :
    (t.subst (fun x => .var (g x))).existentials.Perm (t.existentials.map g) := by
  have inside {x : Variable} (member : x ∈ t.existentials) : x ∈ t.vars := mem_vars_of_head (mem_existentials.mp member).1
  refine (List.perm_ext_iff_of_nodup (existentials_nodup _) (t.existentials_nodup.map_on ?_)).mpr (fun y => ?_)
  · exact fun x member x' member' same => apart (inside member) (inside member') same
  · refine ⟨fun existential => List.mem_map.mpr (exists_of_mem_existentials_rename existential), fun named => ?_⟩
    obtain ⟨x, member, rfl⟩ := List.mem_map.mp named
    obtain ⟨head, absent⟩ := mem_existentials.mp member
    refine mem_existentials.mpr ⟨AtomSet.mem_vars_rename.mpr ⟨x, head, rfl⟩, fun universal => absent ?_⟩
    obtain ⟨z, universal, same⟩ := AtomSet.mem_vars_rename.mp universal
    exact apart (mem_vars_of_body universal) (mem_vars_of_head head) same ▸ universal

end Rename

/-- The names that the variables of a rule get, away from another rule. -/
def nameApart (t : Tgd) (stem : String) (other : Tgd) (x : Variable) : Variable :=
  (freshVariables stem t.vars.length other.vars).getD (t.vars.idxOf x) x

variable {t other : Tgd} {stem : String}

theorem nameApart_eq (stem : String) (other : Tgd) {x : Variable} (inside : x ∈ t.vars) :
    ∃ bound : t.vars.idxOf x < (freshVariables stem t.vars.length other.vars).length,
      t.nameApart stem other x = (freshVariables stem t.vars.length other.vars)[t.vars.idxOf x] := by
  have bound : t.vars.idxOf x < (freshVariables stem t.vars.length other.vars).length := by
    rw [freshVariables_length]
    exact List.idxOf_lt_length_iff.mpr inside
  exact ⟨bound, List.getD_eq_getElem _ _ bound⟩

theorem nameApart_injOn (stem : String) (t other : Tgd) : Set.InjOn (t.nameApart stem other) {x | x ∈ t.vars} := by
  intro x inside y inside' same
  obtain ⟨bound, name⟩ := nameApart_eq stem other inside
  obtain ⟨bound', name'⟩ := nameApart_eq stem other inside'
  rw [name, name'] at same
  have index := (freshVariables_nodup _ _ _).getElem_inj_iff.mp same
  exact (List.idxOf_inj inside).mp index

theorem nameApart_not_mem {x : Variable} (inside : x ∈ t.vars) : t.nameApart stem other x ∉ other.vars := by
  obtain ⟨bound, name⟩ := nameApart_eq stem other inside
  rw [name]
  exact not_mem_of_freshVariables _ _ _ (List.getElem_mem bound)

/-- The renaming binds the variables of the rule, and no others. -/
theorem get?_renamingApart (t : Tgd) (stem : String) (other : Tgd) (x : Variable) :
    (t.renamingApart stem other).get? x = if x ∈ t.vars then some (.var (t.nameApart stem other x)) else none := by
  have keys : (t.vars.zip ((freshVariables stem t.vars.length other.vars).map Term.var)).map Prod.fst = t.vars :=
    List.map_fst_zip (by simp [freshVariables_length])
  rw [renamingApart, SortedMap.ofList]
  split
  · next inside =>
    obtain ⟨bound, name⟩ := nameApart_eq stem other inside
    have position : t.vars.idxOf x < t.vars.length := List.idxOf_lt_length_iff.mpr inside
    apply SortedMap.get?_foldl_insert (by rw [keys]; exact t.vars_nodup)
    refine List.mem_iff_getElem.mpr ⟨t.vars.idxOf x, by simpa using ⟨position, bound⟩, ?_⟩
    simp [name]
  · next outside =>
    rw [SortedMap.get?_foldl_insert_of_not_mem _ _ (by rwa [keys]), SortedMap.get?_empty]

theorem image_renamingApart {x : Variable} (inside : x ∈ t.vars) :
    (t.renamingApart stem other).image x = .var (t.nameApart stem other x) := by
  rw [Substitution.image, get?_renamingApart, if_pos inside, Option.getD_some]

theorem subst_congr {g h : Variable → Term} (same : ∀ x ∈ t.vars, g x = h x) : t.subst g = t.subst h := by
  rw [subst, subst, AtomSet.subst_congr (fun x inside => same x (mem_vars_of_body inside)),
    AtomSet.subst_congr (fun x inside => same x (mem_vars_of_head inside))]

theorem renameApart_eq : t.renameApart stem other = t.subst (fun x => .var (t.nameApart stem other x)) :=
  subst_congr (fun _ inside => image_renamingApart inside)

theorem isFunctionFree_renameApart (stem : String) (other : Tgd) (free : t.isFunctionFree = true) :
    (t.renameApart stem other).isFunctionFree = true := by
  rw [renameApart_eq]
  exact isFunctionFree_subst free (fun _ => rfl)

theorem isFull_renameApart (full : t.isFull = true) :
    (t.renameApart stem other).isFull = true := by
  rw [renameApart_eq]
  exact isFull_subst full

end Tgd

/-- A replacement keeps some variables, and puts none of them in place of the variables of a set. -/
structure Spares (g : Variable → Term) (es : List Variable) (W : Variable → Prop) : Prop where
  kept : ∀ e ∈ es, g e = .var e
  absent : ∀ x, W x → ∀ e ∈ es, e ∉ (g x).vars

/-- The variables that come up when atoms of a rule are unified with body atoms of another one. -/
abbrev Tgd.Scope (s t : Tgd) (x : Variable) : Prop := x ∈ s.vars ∨ x ∈ t.universals

theorem Tgd.scope_of_mem {s t : Tgd} {rest : AtomSet} (part : rest ⊆ t.body) {x : Variable}
    (inside : x ∈ AtomSet.vars (s.body ∪ rest)) : s.Scope t x := by
  refine (AtomSet.mem_vars_union.mp inside).imp mem_vars_of_body (fun leftover => ?_)
  obtain ⟨a, member, mentioned⟩ := AtomSet.mem_vars.mp leftover
  exact AtomSet.mem_vars_of_mem (part a member) mentioned

theorem Spares.mono {g : Variable → Term} {es : List Variable} {W W' : Variable → Prop} (spares : Spares g es W)
    (fewer : ∀ x, W' x → W x) : Spares g es W' :=
  ⟨spares.kept, fun x inside => spares.absent x (fewer x inside)⟩

namespace Structure
universe u
variable {M : Structure.{u}} {t : Tgd} {rename : Variable → Variable}

theorem exists_renamed {xs : List Variable} (apart : Set.InjOn rename {x | x ∈ xs}) (v : M.Assignment) :
    ∃ w : M.Assignment, ∀ x ∈ xs, w (rename x) = v x :=
  ⟨fun y => v (Function.invFunOn rename {x | x ∈ xs} y),
    fun _ inside => congrArg v (apart.leftInvOn_invFunOn inside)⟩

theorem models_rename (apart : Set.InjOn rename {x | x ∈ t.vars}) :
    M.Models (t.subst (fun x => .var (rename x))) ↔ M.Models t := by
  constructor
  · intro models v body
    obtain ⟨v', named⟩ := exists_renamed apart v
    have body : M.SatisfiesAll (fun x => M.value v' (.var (rename x))) t.body :=
      (satisfiesAll_congr (fun x inside => by simpa using named x (Tgd.mem_vars_of_body inside))).mpr body
    obtain ⟨w, same, head⟩ := models v' (satisfiesAll_subst.mpr body)
    refine ⟨fun x => w (rename x), fun x inside => ?_, by simpa using satisfiesAll_subst.mp head⟩
    calc w (rename x) = v' (rename x) := same _ (AtomSet.mem_vars_rename.mpr ⟨x, inside, rfl⟩)
      _ = v x := named x (Tgd.mem_vars_of_body inside)
  · intro models v body
    have body : M.SatisfiesAll (fun x => v (rename x)) t.body := by simpa using satisfiesAll_subst.mp body
    obtain ⟨w, same, head⟩ := models _ body
    obtain ⟨w', named⟩ := exists_renamed apart w
    refine ⟨w', fun y inside => ?_, satisfiesAll_subst.mpr ((satisfiesAll_congr (fun x inside => ?_)).mp head)⟩
    · obtain ⟨x, old, rfl⟩ := AtomSet.mem_vars_rename.mp inside
      rw [named x (Tgd.mem_vars_of_body old)]
      exact same x old
    · simpa using (named x (Tgd.mem_vars_of_head inside)).symm

theorem models_renameApart {stem : String} {other : Tgd} : M.Models (t.renameApart stem other) ↔ M.Models t := by
  rw [Tgd.renameApart_eq]
  exact models_rename (Tgd.nameApart_injOn stem t other)

/-- Values taken for the existential variables change nothing where the replacement brings none of them in. -/
theorem satisfiesAll_subst_congr {g : Variable → Term} {es : List Variable} {W : Variable → Prop} (spares : Spares g es W)
    {v w : M.Assignment} (same : ∀ y, y ∉ es → w y = v y) {s : AtomSet} (within : ∀ x ∈ s.vars, W x) :
    M.SatisfiesAll w (s.subst g) ↔ M.SatisfiesAll v (s.subst g) := by
  apply satisfiesAll_congr
  intro y inside
  obtain ⟨x, mentioned, image⟩ := AtomSet.mem_vars_subst.mp inside
  exact same y (fun existential => spares.absent x (within x mentioned) y existential image)

/-- An instance of a rule holds with other values for its existential variables only. -/
theorem Models.exists_instance (models : M.Models t) {g : Variable → Term}
    (spares : Spares g t.existentials (· ∈ t.universals)) {v : M.Assignment} (body : M.SatisfiesAll v (t.body.subst g)) :
    ∃ w : M.Assignment, (∀ y, y ∉ t.existentials → w y = v y) ∧ M.SatisfiesAll w (t.head.subst g) := by
  classical
  obtain ⟨u, same, head⟩ := models _ (satisfiesAll_subst.mp body)
  let w : M.Assignment := fun y => if y ∈ t.existentials then u y else v y
  refine ⟨w, fun y absent => if_neg absent, satisfiesAll_subst.mpr ((satisfiesAll_congr (fun x inside => ?_)).mpr head)⟩
  by_cases universal : x ∈ t.universals
  · rw [same x universal]
    exact Interpretation.value_congr (fun y image => if_neg (fun e => spares.absent x universal y e image))
  · have existential : x ∈ t.existentials := Tgd.mem_existentials.mpr ⟨inside, universal⟩
    rw [spares.kept x existential, Interpretation.value_var]
    exact if_pos existential

end Structure
end GuardedSaturation
