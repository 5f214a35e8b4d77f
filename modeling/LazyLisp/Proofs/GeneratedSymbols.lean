import LazyLisp.Proofs.Literals
import LazyLisp.Proofs.Recording
import LazyLisp.Proofs.StoreEvolution
import Mathlib.Data.List.Chain

/-!
Generated symbols.

The name of a generated symbol is the given start with a number behind it, and no number is given out
twice. Two names are the same only where one start is the other with digits behind it: these digits
and the number of the one symbol spell the number of the other.
-/

namespace LazyLisp

open Likeness (OnlyLoses)

/-- All counts, until the number of the next symbol has come to the bound. -/
def counting (bound : Nat) : Likeness :=
  { Likeness.exactly with
    lost _ _ next := bound ≤ next
    lost_push _ _ _ _ lost := lost
    lost_error _ _ _ _ lost := lost
    lost_symbol _ _ _ lost := Nat.le_succ_of_le lost
    lost_faults _ _ _ _ _ := rfl }

theorem onlyLoses_counting (bound : Nat) : (counting bound).OnlyLoses where
  whole _ _ same := same
  refl _ := rfl
  keeps _ := trivial
  never _ := id
  settles _ := ⟨fun _ _ _ => trivial, fun _ _ _ _ lost => lost⟩

/-- The second store comes after the first: a run ends there, or is ended, that comes to the first
store, or one that starts where the session has come to since. -/
inductive Store.Precedes (w : World) (s : Store) : Store → Prop where
  | refl : Precedes w s s
  | inside {stop : Run Unit} {fuel room expr frame name t} : OnlyLooks stop →
      ComesTo (· = s) stop w fuel room expr frame name t →
      Precedes w s (after (evaluateWatched w stop fuel room expr frame name t))
  | evaluate {stop : Run Unit} {t} (fuel room expr frame name) : OnlyLooks stop →
      Precedes w s t → Precedes w s (after (evaluateWatched w stop fuel room expr frame name t))
  | eval {t} (fuel code) : Precedes w s t → Precedes w s (after (Session.eval w fuel code t))
  | load {t} (fuel path shown) : Precedes w s t →
      Precedes w s (after (Session.load w fuel path shown t))

section Counting

variable {w : World} {s t : Store} {bound : Nat}

theorem steady_evaluate (w : World) (fuel : Nat) (room : Option Nat) (expr : Value)
    (frame : FrameId) (name : Option String) :
    (counting bound).Steady (evaluate w fuel room expr frame name) := by
  have alike := (onlyLoses_counting bound).recorders (p := fun _ => False) onlyLooks_pure
    (fun _ => False.elim) (fun _ _ => rfl) w.traceLimit
  have steady := alike.evaluate w fuel room expr frame name
  rwa [Recorder.evaluate_watching] at steady

theorem le_nextSymbol_of_steady {α : Type} {x : Run α} (steady : (counting bound).Steady x)
    (counted : bound ≤ s.nextSymbol) : bound ≤ (after (x s)).nextSymbol :=
  (onlyLoses_counting bound).after (steady.lost s counted)

theorem Store.Precedes.nextSymbol_le (precedes : s.Precedes w t) : s.nextSymbol ≤ t.nextSymbol := by
  induction precedes with
  | refl => exact Nat.le_refl _
  | inside looks comes =>
    refine (onlyLoses_counting s.nextSymbol).lost_of_comesTo looks ?_ comes
    rintro _ rfl
    exact Nat.le_refl _
  | evaluate fuel room expr frame name looks _ ih =>
    exact (onlyLoses_counting s.nextSymbol).lost_of_comesTo looks (fun _ counted => counted) (.inl ih)
  | eval fuel code _ ih =>
    refine le_nextSymbol_of_steady ?_ ih
    exact Likeness.evalWith (steady_evaluate w fuel w.room) (fun _ => rfl) code
  | load fuel path shown _ ih =>
    refine le_nextSymbol_of_steady (Likeness.catchOverflow ?_ rfl) ih
    exact Likeness.loadFile w w.room
      (fun form frame => steady_evaluate w fuel w.room form frame none) _ path shown

end Counting

/-- A call of `gensym` that returns a symbol. -/
structure SymbolCall where
  engine : Engine
  again : Primitive.Caller
  frame : FrameId
  args : List Value
  before : Store
  name : String
  after : Store
  returns : Primitive.gensym.run engine again frame args before = .ok (.value (.symbol name)) after

namespace SymbolCall

def startOf : List Value → String
  | .symbol start :: _ | .string start :: _ => start
  | _ => "G"

variable (c d : SymbolCall)

def start : String := startOf c.args

def number : Nat := c.before.nextSymbol

/-- The start of the first call is the start of the second with digits behind it, and with the number
of the first one these digits spell the number of the second. -/
def Collides : Prop :=
  ∃ digits : String, c.start = d.start ++ digits ∧
    digits ++ toString c.number = toString d.number

def EndsInDigit : Prop := ∃ digit, c.start.toList.getLast? = some digit ∧ digit.isDigit = true

theorem newSymbol_eq {args : List Value} {s t : Store} {v : Value}
    (returned : Primitive.newSymbol args s = .ok v t) :
    v = .symbol (startOf args ++ toString s.nextSymbol) ∧
      t = { s with nextSymbol := s.nextSymbol + 1 } := by
  obtain ⟨_, s', expected, chosen⟩ := Run.of_bind_ok returned
  obtain rfl : s' = s := by
    unfold Primitive.expectBetween at expected
    split at expected <;> cases expected
    rfl
  split at chosen <;> cases chosen <;> exact ⟨rfl, rfl⟩

theorem called : c.name = c.start ++ toString c.number ∧
    c.after = { c.before with nextSymbol := c.number + 1 } := by
  have returns := c.returns
  change EStateM.map _ (Primitive.newSymbol c.args) c.before = _ at returns
  unfold EStateM.map at returns
  split at returns
  · next v t returned =>
    obtain ⟨symbol, rfl⟩ := newSymbol_eq returned
    obtain ⟨⟨⟩, later⟩ := EStateM.Result.ok.inj returns
    exact ⟨Atom.symbol.inj (Value.atom.inj symbol), later.symm⟩
  · cases returns

variable {c d}

theorem toList_toString (n : Nat) : (toString n).toList = Nat.toDigits 10 n := by
  simp

theorem ne_append_toString {m n : Nat} (less : m < n) (front : String) :
    toString m ≠ front ++ toString n := by
  intro same
  have digits : Nat.toDigits 10 m = front.toList ++ Nat.toDigits 10 n := by
    rw [← toList_toString, same, String.toList_append, toList_toString]
  have value : m = Nat.ofDigitChars 10 (front.toList ++ Nat.toDigits 10 n) 0 := by
    rw [← digits, Nat.ofDigitChars_ten_toDigits]
  rw [Nat.ofDigitChars_append, Nat.ofDigitChars_eq_ofDigitChars_zero,
    Nat.ofDigitChars_ten_toDigits] at value
  omega

theorem toString_ne {m n : Nat} (less : m < n) : toString m ≠ toString n := by
  have apart := ne_append_toString less ""
  rwa [String.empty_append] at apart

/-- A later call returns the same symbol if and only if the starts collide. -/
theorem name_eq_iff (less : c.number < d.number) : c.name = d.name ↔ c.Collides d := by
  rw [c.called.1, d.called.1]
  constructor
  · intro same
    have lists := congrArg String.toList same
    rw [String.toList_append, String.toList_append, List.append_eq_append_iff] at lists
    rcases lists with ⟨front, longer, rest⟩ | ⟨front, longer, rest⟩
    · refine absurd ?_ (ne_append_toString less (String.ofList front))
      rw [← String.toList_inj, rest]
      simp
    · refine ⟨String.ofList front, ?_, ?_⟩
      · rw [← String.toList_inj, longer]
        simp
      · rw [← String.toList_inj, rest]
        simp
  · rintro ⟨digits, start, number⟩
    rw [start, String.append_assoc, number]

theorem start_ne_of_collides (less : c.number < d.number) (collides : c.Collides d) :
    c.start ≠ d.start := by
  intro same
  have names := (name_eq_iff less).mpr collides
  rw [c.called.1, d.called.1, same] at names
  refine toString_ne less ?_
  rw [← String.toList_inj, String.toList_append, String.toList_append] at names
  exact String.toList_inj.mp (List.append_cancel_left names)

theorem endsInDigit_of_collides (less : c.number < d.number) (collides : c.Collides d) :
    c.EndsInDigit := by
  obtain ⟨digits, start, number⟩ := collides
  rcases List.eq_nil_or_concat digits.toList with none | ⟨front, digit, ends⟩
  · obtain rfl : digits = "" := String.toList_inj.mp none
    rw [String.empty_append] at number
    exact absurd number (toString_ne less)
  · refine ⟨digit, ?_, ?_⟩
    · rw [start, String.toList_append, ends]
      simp
    · have member : digit ∈ Nat.toDigits 10 d.number := by
        rw [← toList_toString, ← number, String.toList_append, ends]
        simp
      exact Nat.isDigit_of_mem_toDigits (by decide) (by decide) member

end SymbolCall

def SymbolCall.Follow (w : World) (calls : List SymbolCall) : Prop :=
  calls.IsChain fun c d => c.after.Precedes w d.before

theorem SymbolCall.Follow.number_lt {w : World} {calls : List SymbolCall}
    (follow : SymbolCall.Follow w calls) : calls.Pairwise fun c d => c.number < d.number := by
  have steps : calls.IsChain fun c d => c.number < d.number := by
    refine follow.imp fun c d precedes => ?_
    have less := precedes.nextSymbol_le
    rw [c.called.2] at less
    exact less
  rw [← List.pairwise_map, ← List.isChain_iff_pairwise, List.isChain_map]
  exact steps

/-- The symbols that calls one after another return are different if and only if the start of no
call collides with that of a later one; so they are if all starts are the same, and if none ends in a
digit. -/
theorem generated_nodup_iff {w : World} {calls : List SymbolCall}
    (follow : SymbolCall.Follow w calls) :
    ((calls.map SymbolCall.name).Nodup ↔ calls.Pairwise fun c d => ¬ c.Collides d) ∧
    ((∀ c ∈ calls, ∀ d ∈ calls, c.start = d.start) → (calls.map SymbolCall.name).Nodup) ∧
    ((∀ c ∈ calls, ¬ c.EndsInDigit) → (calls.map SymbolCall.name).Nodup) := by
  have nodup : (calls.map SymbolCall.name).Nodup ↔ calls.Pairwise fun c d => ¬ c.Collides d := by
    rw [List.Nodup, List.pairwise_map]
    constructor
    · intro apart
      refine (apart.and follow.number_lt).imp ?_
      rintro c d ⟨apart, less⟩ collides
      exact apart ((SymbolCall.name_eq_iff less).mpr collides)
    · intro apart
      refine (apart.and follow.number_lt).imp ?_
      rintro c d ⟨apart, less⟩ same
      exact apart ((SymbolCall.name_eq_iff less).mp same)
  refine ⟨nodup, fun same => nodup.mpr ?_, fun plain => nodup.mpr ?_⟩
  · refine follow.number_lt.imp_of_mem fun {c d} first second less collides => ?_
    exact SymbolCall.start_ne_of_collides less collides (same c first d second)
  · refine follow.number_lt.imp_of_mem fun {c d} first _ less collides => ?_
    exact plain c first (SymbolCall.endsInDigit_of_collides less collides)

def SymbolCall.plain (s : Store) : SymbolCall where
  engine := .ofEval bareWorld 0 none fun _ _ _ => throw .outOfFuel
  again _ _ _ := throw .outOfFuel
  frame := Store.globalFrame
  args := []
  before := s
  name := "G" ++ toString s.nextSymbol
  after := { s with nextSymbol := s.nextSymbol + 1 }
  returns := rfl

/-- Two calls, with a text evaluated between them. -/
theorem generated_nodup_iff_between :
    let first := SymbolCall.plain bareStore
    let later := SymbolCall.plain (after (Session.eval bareWorld 20 "(gensym \"x\")" first.after))
    SymbolCall.Follow bareWorld [first, later] ∧
    ([first, later].map SymbolCall.name).Nodup := by
  intro first later
  have follow : SymbolCall.Follow bareWorld [first, later] :=
    .cons_cons (.eval 20 _ .refl) (.singleton _)
  have start (c : SymbolCall) (member : c ∈ [first, later]) : c.start = "G" := by
    rcases List.mem_pair.mp member with rfl | rfl <;> rfl
  obtain ⟨-, nodup, -⟩ := generated_nodup_iff follow
  refine ⟨follow, nodup ?_⟩
  intro c isFirst d isSecond
  rw [start c isFirst, start d isSecond]

def colliding : List String :=
  ["(define a (gensym \"G1\"))",
    "(list (gensym) (gensym) (gensym) (gensym) (gensym) (gensym) (gensym) (gensym) (gensym))",
    "(eq? a (gensym))"]

/-- The first symbol and the last one have the name `G11`. -/
theorem generated_collide :
    (outcomes (Session.eval bareWorld 20) colliding bareStore).map shown =
      [some "a", some "(G2 G3 G4 G5 G6 G7 G8 G9 G10)", some "true"] := by
  decide +kernel

end LazyLisp
