import LazyLisp.Atom

/-!
Data as the reader yields them: atoms and pairs. A proper list is a chain of pairs that ends in
the empty list, a dotted list one that ends in another atom.
-/

namespace LazyLisp

inductive Datum where
  | atom (a : Atom)
  | pair (car cdr : Datum)
  deriving Inhabited

namespace Datum

@[match_pattern] abbrev nil : Datum := atom .nil

@[match_pattern] abbrev symbol (name : String) : Datum := atom (.symbol name)

/-- The list of the given items that ends in `tail`. -/
def listWith (items : List Datum) (tail : Datum) : Datum := items.foldr pair tail

def list (items : List Datum) : Datum := listWith items nil

/-- The items along the chain of pairs, and where the chain ends. -/
def spine : Datum → List Datum × Atom
  | atom a => ([], a)
  | pair car cdr => (car :: cdr.spine.1, cdr.spine.2)

def isTruthy : Datum → Bool
  | atom a => a.isTruthy
  | pair _ _ => true

@[simp]
theorem listWith_nil (tail : Datum) : listWith [] tail = tail := rfl

@[simp]
theorem listWith_cons (item : Datum) (items : List Datum) (tail : Datum) :
    listWith (item :: items) tail = pair item (listWith items tail) := rfl

theorem listWith_append (xs ys : List Datum) (tail : Datum) :
    listWith (xs ++ ys) tail = listWith xs (listWith ys tail) := by
  simp [listWith]

theorem listWith_spine (d : Datum) : listWith d.spine.1 (atom d.spine.2) = d := by
  induction d with
  | atom a => rfl
  | pair car cdr _ ih => simp [spine, ih]

end Datum

end LazyLisp
