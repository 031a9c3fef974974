import GuardedSaturation.Tgd

/-! Guards: body atoms that hold every body variable. -/
namespace GuardedSaturation.Tgd

def guardCandidates (t : Tgd) : List Atom :=
  t.body.toList.filter (fun a => t.universals.all a.mentions)

/-- Guards go by arity, then by predicate name, then by structure. -/
def compareGuards (a b : Atom) : Ordering :=
  (compare a.args.length b.args.length).then <| (compare a.predicate b.predicate).then (compare a b)

def guard? (t : Tgd) : Option Atom :=
  match t.guardCandidates with
  | [] => none
  | a :: rest => some (rest.foldl (fun least b => if compareGuards b least = .lt then b else least) a)

def guard (t : Tgd) : Except Error Atom :=
  match t.guard? with
  | some a => .ok a
  | none => .error ⟨.unguardedRule t.text, none⟩

end GuardedSaturation.Tgd
