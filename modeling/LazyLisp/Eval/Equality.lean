import LazyLisp.Eval.Engine

/-!
Equality of values. `isSame` is identity for whatever has parts and equality for atoms;
`Engine.equal` compares lists item by item and forces lazy pairs on the way.
-/

namespace LazyLisp

namespace Value

def isSame : Value → Value → Bool
  | atom a, atom b => a.sameAs b
  | nan m, nan n => m == n
  | pair m _ _, pair n _ _ => m == n
  | lazyPair r, lazyPair q => r == q
  | procedure r, procedure q => r == q
  | error r, error q => r == q
  | input r, input q => r == q
  | _, _ => false

/-- Equality of two values of which one is no pair. What is no number equals nothing. -/
def equalLeaf : Value → Value → Bool
  | nan _, nan _ => false
  | v, w => v.isSame w

def isLazy : Value → Bool
  | lazyPair _ => true
  | _ => false

end Value

namespace Engine

/-- How two values are met: as two items, or as what is left of two lists. -/
inductive Meeting where
  | items | rests
  deriving DecidableEq

abbrev Comparison := Meeting → (room : Option Nat) → Value → Value → Run Bool

/-- Compare values as long as both are eager; `hop` compares two pairs of which one is lazy. -/
def equalEager (hop : Comparison) (meeting : Meeting) (room : Option Nat) :
    Value → Value → Run Bool
  | .pair m a d, .pair n b e =>
    if m == n then return true
    else match descend room with
      | none => throw .overflow
      | some inner => do
        if ← equalEager hop .items inner a b then equalEager hop .rests room d e
        else return false
  | v, w => if v.isPair && w.isPair then hop meeting room v w else return v.equalLeaf w

/-- Compare two pairs of which one is lazy, heads before tails. As an item, a lazy pair is walked
before an eager one. -/
def equalLazy (m : Engine) (hop : Comparison) : Comparison := fun meeting room v w => do
  let (v, w) := if meeting == .items && w.isLazy && !v.isLazy then (w, v) else (v, w)
  if v.isSame w then return true
  let a ← m.car v
  let b ← m.car w
  match descend room with
  | none => throw .overflow
  | some inner =>
    if ← hop .items inner a b then
      let d ← m.cdr v
      let e ← m.cdr w
      hop .rests room d e
    else return false

/-- Compare values with at most `fuel` lazy pairs on each path. -/
def equalWithin (m : Engine) : (fuel : Nat) → Comparison
  | 0 => fun _ _ _ _ => throw .outOfFuel
  | fuel + 1 => equalEager (m.equalLazy (m.equalWithin fuel))

def equal (m : Engine) (v w : Value) : Run Bool :=
  if v.isPair || w.isPair then m.equalWithin (m.fuel + 1) .items m.room v w
  else return v.isSame w

end Engine

end LazyLisp
