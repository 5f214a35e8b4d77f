import LazyLisp.Value

/-!
Frames: the bindings of one scope and the scope around it.

Bindings keep the order in which the names were first bound. A frame is always younger than the
frame around it, and the walk outward goes to older frames only, so that it ends.
-/

namespace LazyLisp

abbrev FrameId := Nat

structure Frame where
  outer : Option FrameId
  bindings : List (String × Value)

namespace Frame

def empty (outer : Option FrameId) : Frame := ⟨outer, []⟩

def get? (f : Frame) (name : String) : Option Value := f.bindings.lookup name

def binds (f : Frame) (name : String) : Bool := (f.get? name).isSome

/-- Replace the value of a name in its place, or put a new name last. -/
def bind (name : String) (v : Value) : List (String × Value) → List (String × Value)
  | [] => [(name, v)]
  | (n, w) :: rest => if n == name then (n, v) :: rest else (n, w) :: bind name v rest

def define (f : Frame) (name : String) (v : Value) : Frame :=
  { f with bindings := bind name v f.bindings }

@[simp]
theorem lookup_bind (name other : String) (v : Value) (bs : List (String × Value)) :
    (bind name v bs).lookup other = if other = name then some v else bs.lookup other := by
  induction bs with
  | nil => grind [bind]
  | cons b rest ih => grind [bind]

@[simp]
theorem get?_define (f : Frame) (name other : String) (v : Value) :
    (f.define name v).get? other = if other = name then some v else f.get? other :=
  lookup_bind ..

/-- The nearest frame from `i` outward that binds a name, and the value it has there. -/
def find? (frames : Array Frame) (name : String) (i : FrameId) : Option (FrameId × Value) :=
  match frames[i]? with
  | none => none
  | some f =>
    match f.get? name with
    | some v => some (i, v)
    | none =>
      match f.outer with
      | some o => if _h : o < i then find? frames name o else none
      | none => none
termination_by i

def topLevel (frames : Array Frame) (i : FrameId) : FrameId :=
  match frames[i]?.bind Frame.outer with
  | some o => if _h : o < i then topLevel frames o else i
  | none => i
termination_by i

def depth (frames : Array Frame) (i : FrameId) : Nat :=
  match frames[i]?.bind Frame.outer with
  | some o => if _h : o < i then depth frames o + 1 else 0
  | none => 0
termination_by i

end Frame

end LazyLisp
