import LazyLisp.Proofs.Spelling
import LazyLisp.Proofs.Yielding

/-!
What becomes of a template.

A template is copied list by list, with a rule of its own for a list that ends in a quotation. What
comes out can be told from pair to pair: `fill` follows the structure of the template, and copying
does the same in the same order. The levels are those of `copyWithin`, which has none of its own for
a splice that is kept; `fill` takes that level as a parameter.
-/

namespace LazyLisp

theorem Run.either_map {α β γ : Type} (f : α → β) (x : Run α) (next : β → Run γ)
    (handle : Interrupt → Run γ) :
    (f <$> x).either next handle = x.either (fun a => next (f a)) handle := by
  funext s
  cases ended : x s with
  | ok a t => simp only [either, ended, map_of_ok ended]
  | error e t => simp [either, ended, Functor.map, EStateM.map]

namespace Value

def unmarked : Value → Value
  | pair _ car cdr => pair 0 car.unmarked cdr.unmarked
  | v => v

def pairs : Value → Nat
  | pair _ car cdr => car.pairs + cdr.pairs + 1
  | _ => 0

end Value

namespace Template

def isKeyword (v : Value) : Bool :=
  v.isSymbolNamed quasiquote || v.isSymbolNamed unquote || v.isSymbolNamed unquoteSplicing

/-- A template of eager pairs at a level. The quotations in it have one operand each, and what is
spliced is spliced into a list. `below` gives the level of the operand of a splice that is kept, and
`keeps` the operands that such a splice may have. -/
inductive WellFormed (below : Nat → Nat) (keeps : Value → Prop) : (level : Nat) → Value → Prop where
  | leaf {level v} : v.isPair = false → isKeyword v = false → WellFormed below keeps level v
  | quasiquote {level mark mark' v} : WellFormed below keeps (level + 1) v →
      WellFormed below keeps level (.pair mark (.symbol "quasiquote") (.pair mark' v .nil))
  | evaluated {mark mark' expr} :
      WellFormed below keeps 1 (.pair mark (.symbol "unquote") (.pair mark' expr .nil))
  | unquote {level mark mark' v} : WellFormed below keeps (level + 1) v →
      WellFormed below keeps (level + 2) (.pair mark (.symbol "unquote") (.pair mark' v .nil))
  | spliced {mark mark' mark'' expr rest} : WellFormed below keeps 1 rest →
      WellFormed below keeps 1
        (.pair mark (.pair mark' (.symbol "unquote-splicing") (.pair mark'' expr .nil)) rest)
  | kept {level mark mark' v} : keeps v → WellFormed below keeps (below (level + 2)) v →
      WellFormed below keeps (level + 2)
        (.pair mark (.symbol "unquote-splicing") (.pair mark' v .nil))
  | pair {level mark head rest} : WellFormed below keeps level head →
      WellFormed below keeps level rest → WellFormed below keeps level (.pair mark head rest)

inductive IsFixed : Value → Prop where
  | leaf {v} : v.isPair = false → isKeyword v = false → IsFixed v
  | pair {mark head rest} : IsFixed head → IsFixed rest → IsFixed (.pair mark head rest)

def spliced (m : Engine) (frame : FrameId) (expr : Value) : Run (List Value) := do
  m.items Fault.Kind.typeError "list for unquote-splicing" (← m.eval expr frame none)

/-- Fill a template at a level, pair by pair and from left to right. -/
def fill (below : Nat → Nat) (m : Engine) (frame : FrameId) : (level : Nat) → Value → Run Value
  | level, .pair _ (.symbol "quasiquote") (.pair _ v .nil) => do
    Run.list [.symbol "quasiquote", ← fill below m frame (level + 1) v]
  | level, .pair _ (.symbol "unquote") (.pair _ v .nil) =>
    if level = 1 then m.eval v frame none
    else do Run.list [.symbol "unquote", ← fill below m frame (level - 1) v]
  | level, .pair _ (.symbol "unquote-splicing") (.pair _ v .nil) => do
    Run.list [.symbol "unquote-splicing", ← fill below m frame (below level) v]
  | 1, .pair _ (.pair _ (.symbol "unquote-splicing") (.pair _ expr .nil)) rest => do
    Run.listWith (← spliced m frame expr) (← fill below m frame 1 rest)
  | level, .pair _ head rest => do
    Run.cons (← fill below m frame level head) (← fill below m frame level rest)
  | _, v => return v

def isQuotation : Value → Bool
  | .pair _ head _ => head.isSymbolNamed unquote || head.isSymbolNamed quasiquote
  | _ => false

/-- How deep copying nests. The rest of a list is no deeper than the list, unless it is a
quotation. -/
def depth : Value → Nat
  | .pair _ head rest => max (depth head + 1) (depth rest + (isQuotation rest).toNat)
  | _ => 0

def restDepth (v : Value) : Nat := depth v + (isQuotation v).toNat

section Shapes

variable {below : Nat → Nat} {keeps : Value → Prop} {level mark : Nat} {v head rest : Value}

theorem eq_symbol_of_isSymbolNamed {name : String} (named : v.isSymbolNamed name = true) :
    v = .symbol name := by
  simp only [Value.isSymbolNamed, beq_iff_eq] at named
  unfold Value.symbol? at named
  split at named
  · cases named
    rfl
  · cases named

theorem WellFormed.isKeyword_eq_false (formed : WellFormed below keeps level v) :
    isKeyword v = false := by
  cases formed with
  | leaf _ plain => exact plain
  | _ => rfl

theorem ne_symbol_of_isKeyword {name : String} (marked : isKeyword (.symbol name) = true)
    (plain : isKeyword v = false) : v ≠ .symbol name := by
  rintro rfl
  simp [marked] at plain

theorem WellFormed.ne_splice (formed : WellFormed below keeps 1 v) :
    v ≠ .pair mark (.symbol "unquote-splicing") rest := by
  intro same
  cases formed with
  | pair head _ =>
    cases same
    cases head.isKeyword_eq_false
  | leaf pair _ =>
    subst same
    cases pair
  | _ => simp at same

theorem isQuotation_of_plain (plain : isKeyword head = false) :
    isQuotation (.pair mark head rest) = false := by
  simp only [isKeyword, Bool.or_eq_false_iff] at plain
  simp [isQuotation, plain]

end Shapes

section Fill

variable {below : Nat → Nat} {keeps : Value → Prop} (m : Engine) (frame : FrameId)
  {level mark mark' mark'' : Nat} {v expr rest head : Value}

theorem fill_leaf (leaf : v.isPair = false) : fill below m frame level v = pure v := by
  cases v with
  | pair mark head rest => cases leaf
  | _ => rfl

theorem fill_quasiquote : fill below m frame level
    (.pair mark (.symbol "quasiquote") (.pair mark' v .nil)) = (do
      Run.list [.symbol "quasiquote", ← fill below m frame (level + 1) v]) := rfl

theorem fill_evaluated : fill below m frame 1
    (.pair mark (.symbol "unquote") (.pair mark' v .nil)) = m.eval v frame none := rfl

theorem fill_unquote : fill below m frame (level + 2)
    (.pair mark (.symbol "unquote") (.pair mark' v .nil)) = (do
      Run.list [.symbol "unquote", ← fill below m frame (level + 1) v]) := rfl

theorem fill_kept : fill below m frame level
    (.pair mark (.symbol "unquote-splicing") (.pair mark' v .nil)) = (do
      Run.list [.symbol "unquote-splicing", ← fill below m frame (below level) v]) := rfl

theorem fill_spliced : fill below m frame 1
    (.pair mark (.pair mark' (.symbol "unquote-splicing") (.pair mark'' expr .nil)) rest) = (do
      Run.listWith (← spliced m frame expr) (← fill below m frame 1 rest)) := rfl

theorem fill_pair (formed : WellFormed below keeps level head) :
    fill below m frame level (.pair mark head rest) = (do
      Run.cons (← fill below m frame level head) (← fill below m frame level rest)) := by
  have plain := formed.isKeyword_eq_false
  rw [fill]
  · exact fun _ _ same => absurd same (ne_symbol_of_isKeyword rfl plain)
  · exact fun _ _ same => absurd same (ne_symbol_of_isKeyword rfl plain)
  · exact fun _ _ same => absurd same (ne_symbol_of_isKeyword rfl plain)
  · rintro _ _ _ rfl rfl
    exact absurd rfl formed.ne_splice

end Fill

theorem listReversed_cons (item tail : Value) (items : List Value) :
    Run.listReversed (item :: items) tail = Run.cons item tail >>= Run.listReversed items := rfl

theorem listReversed_append (items others : List Value) (tail : Value) :
    Run.listReversed (items ++ others) tail =
      Run.listReversed items tail >>= Run.listReversed others := by
  induction items generalizing tail with
  | nil => rfl
  | cons item items ih =>
    rw [List.cons_append, listReversed_cons, listReversed_cons, bind_assoc]
    exact congrArg (Run.cons item tail >>= ·) (funext ih)

section Copy

variable {m : Engine} {frame : FrameId} {fuel level mark mark' mark'' : Nat} {room : Option Nat}
  {v expr rest head : Value} {copied : List Value}

theorem copyWithin_leaf (leaf : v.isPair = false) :
    copyWithin m frame (fuel + 1) room level v = pure v := by
  simp [copyWithin, leaf]

section Quotations

variable {k : Nat} (fits : Fits (k + 1) room)

include fits

theorem copyWithin_quasiquote :
    copyWithin m frame (fuel + 1) room level
      (.pair mark (.symbol "quasiquote") (.pair mark' v .nil)) = (do
      Run.list [.symbol "quasiquote", ← copyWithin m frame fuel (lower 1 room) (level + 1) v]) := by
  rw [copyWithin, fits.descend]
  rfl

theorem copyWithin_evaluated :
    copyWithin m frame (fuel + 1) room 1
      (.pair mark (.symbol "unquote") (.pair mark' v .nil)) = m.eval v frame none := by
  rw [copyWithin, fits.descend]
  rfl

theorem copyWithin_unquote :
    copyWithin m frame (fuel + 1) room (level + 2)
      (.pair mark (.symbol "unquote") (.pair mark' v .nil)) = (do
      Run.list [.symbol "unquote", ← copyWithin m frame fuel (lower 1 room) (level + 1) v]) := by
  rw [copyWithin, fits.descend]
  rfl

end Quotations

def copyItem (m : Engine) (frame : FrameId) (copy : Value → Run Value) (level : Nat) :
    Bool × List Value → Run Value → Run (Option (Bool × List Value)) :=
  fun (isFirst, copied) head => do
    let item ← head
    if !isFirst && (item.isSymbolNamed unquote || item.isSymbolNamed quasiquote) then
      return none
    return some (false, ← addItem m copy frame level copied item)

def copyRest (m : Engine) (frame : FrameId) (copy : Value → Run Value) (level : Nat)
    (isFirst : Bool) (copied : List Value) (v : Value) : Run Value := do
  let ((_, copied), rest) ← m.foldSpine (copyItem m frame copy level) (isFirst, copied) v
  Run.listReversed copied (← copy rest)

theorem foldSpine_pair {σ : Type} (f : σ → Run Value → Run (Option σ)) (state : σ) :
    m.foldSpine f state (.pair mark head rest) = (do
      match ← f state (pure head) with
      | some state => m.foldSpine f state rest
      | none => return (state, .pair mark head rest)) := rfl

variable {copy : Value → Run Value} {isFirst : Bool}

theorem copyRest_leaf (leaf : v.isPair = false) :
    copyRest m frame copy level isFirst copied v = copy v >>= Run.listReversed copied := by
  cases v with
  | pair mark head rest => cases leaf
  | lazyPair ref => cases leaf
  | _ => rfl

theorem copyRest_quotation (ends : isQuotation v = true) :
    copyRest m frame copy level false copied v = copy v >>= Run.listReversed copied := by
  cases v with
  | pair mark head rest =>
    have stops : copyItem m frame copy level (false, copied) (pure head) = pure none :=
      if_pos ends
    rw [copyRest, foldSpine_pair, stops]
    rfl
  | _ => cases ends

theorem copyRest_item (goesOn : isQuotation (.pair mark head rest) = false) :
    copyRest m frame copy level isFirst copied (.pair mark head rest) =
      addItem m copy frame level copied head >>= fun copied =>
        copyRest m frame copy level false copied rest := by
  have passes : copyItem m frame copy level (isFirst, copied) (pure head) =
      (fun copied => some (false, copied)) <$> addItem m copy frame level copied head := by
    simp only [isQuotation] at goesOn
    simp only [copyItem, pure_bind, goesOn, Bool.and_false]
    rfl
  rw [copyRest, foldSpine_pair, passes]
  simp only [bind_assoc, bind_map_left, copyRest]

theorem addItem_spliced : addItem m copy frame 1 copied
    (.pair mark (.symbol "unquote-splicing") (.pair mark' expr .nil)) =
      spliced m frame expr >>= fun items => pure (items.reverse ++ copied) := by
  simp only [spliced, bind_assoc]
  rfl

theorem addItem_copied {below : Nat → Nat} {keeps : Value → Prop}
    (formed : WellFormed below keeps level head) :
    addItem m copy frame level copied head = (· :: copied) <$> copy head := by
  obtain ⟨headed, looked, unspliced⟩ :
      ∃ headed, isHeadedBy m unquoteSplicing head = pure headed ∧
        (headed && level == 1) = false := by
    cases head with
    | pair mark first rest =>
      refine ⟨first.isSymbolNamed unquoteSplicing, rfl, Bool.eq_false_iff.mpr fun splice => ?_⟩
      simp only [Bool.and_eq_true, beq_iff_eq] at splice
      obtain ⟨named, rfl⟩ := splice
      exact formed.ne_splice (congrArg (Value.pair mark · rest) (eq_symbol_of_isSymbolNamed named))
    | lazyPair ref => cases formed with | leaf pair => cases pair
    | _ => exact ⟨false, rfl, rfl⟩
  rw [addItem, looked, pure_bind, unspliced]
  rfl

theorem copyWithin_list {k : Nat} (fits : Fits (k + 1) room)
    (goesOn : isQuotation (.pair mark head rest) = false)
    (splices : head = .symbol "unquote-splicing" → level ≠ 1) :
    copyWithin m frame (fuel + 1) room level (.pair mark head rest) =
      copyRest m frame (copyWithin m frame fuel (lower 1 room) level) level true []
        (.pair mark head rest) := by
  simp only [isQuotation, Bool.or_eq_false_iff] at goesOn
  have inList : (head.isSymbolNamed unquoteSplicing && level == 1) = false := by
    refine Bool.eq_false_iff.mpr fun splice => ?_
    simp only [Bool.and_eq_true, beq_iff_eq] at splice
    exact splices (eq_symbol_of_isSymbolNamed splice.1) splice.2
  rw [copyWithin, fits.descend]
  simp only [Engine.car, Engine.half, pure_bind, goesOn, inList]
  rfl

end Copy

section Depth

variable {mark mark' : Nat} {v head rest : Value}

theorem depth_le_restDepth : depth v ≤ restDepth v := Nat.le_add_right _ _

theorem depth_head_lt : depth head + 1 ≤ depth (.pair mark head rest) := Nat.le_max_left _ _

theorem restDepth_rest_le : restDepth rest ≤ depth (.pair mark head rest) := Nat.le_max_right _ _

theorem depth_operand_lt : depth v + 1 ≤ depth (.pair mark head (.pair mark' v .nil)) :=
  Nat.le_trans depth_head_lt (Nat.le_trans depth_le_restDepth restDepth_rest_le)

theorem depth_pair_pos : 1 ≤ depth (.pair mark head rest) :=
  Nat.le_trans (Nat.le_add_left 1 _) depth_head_lt

end Depth

def Copies (m : Engine) (frame : FrameId) (level : Nat) (v : Value) : Prop :=
  ∀ fuel room, depth v ≤ fuel → Fits (depth v) room →
    copyWithin m frame (fuel + 1) room level v = fill id m frame level v

def CopiesRest (m : Engine) (frame : FrameId) (level : Nat) (v : Value) : Prop :=
  ∀ k fuel room isFirst copied, k ≤ fuel + 1 → Fits k room → restDepth v ≤ k →
    (isQuotation v = true → isFirst = false) →
    copyRest m frame (copyWithin m frame (fuel + 1) (lower 1 room) level) level isFirst copied v =
      fill id m frame level v >>= Run.listReversed copied

section Filling

variable {keeps : Value → Prop} {m : Engine} {frame : FrameId} {level mark mark' mark'' : Nat}
  {v expr head rest : Value}

theorem Copies.inside {k fuel : Nat} {room : Option Nat} (copies : Copies m frame level v)
    (enough : k ≤ fuel + 1) (fits : Fits k room) (deep : depth v + 1 ≤ k) :
    copyWithin m frame (fuel + 1) (lower 1 room) level v = fill id m frame level v :=
  copies fuel _ (by omega) (fits.mono deep).lower

theorem copies_leaf (leaf : v.isPair = false) :
    Copies m frame level v ∧ CopiesRest m frame level v := by
  refine ⟨fun fuel room _ _ => ?_, fun k fuel room isFirst copied _ _ _ _ => ?_⟩
  · rw [copyWithin_leaf leaf, fill_leaf m frame leaf]
  · rw [copyRest_leaf leaf, copyWithin_leaf leaf, fill_leaf m frame leaf]

theorem copies_quotation (ends : isQuotation v = true) (copies : Copies m frame level v) :
    Copies m frame level v ∧ CopiesRest m frame level v := by
  refine ⟨copies, fun k fuel room isFirst copied enough fits deep behind => ?_⟩
  rw [restDepth, ends] at deep
  rw [behind ends, copyRest_quotation ends, copies.inside enough fits deep]

theorem copies_operand {level' : Nat} {name : String} (copies : Copies m frame level' v)
    (fills : fill id m frame level (.pair mark (.symbol name) (.pair mark' v .nil)) = (do
      Run.list [.symbol name, ← fill id m frame level' v]))
    (copied : ∀ {fuel room k}, Fits (k + 1) room → copyWithin m frame (fuel + 1) room level
      (.pair mark (.symbol name) (.pair mark' v .nil)) = (do
        Run.list [.symbol name, ← copyWithin m frame fuel (lower 1 room) level' v])) :
    Copies m frame level (.pair mark (.symbol name) (.pair mark' v .nil)) := by
  intro fuel room enough fits
  obtain ⟨fuel, rfl⟩ := Nat.exists_eq_add_one.mpr (Nat.le_trans depth_pair_pos enough)
  rw [copied (fits.mono depth_pair_pos), copies.inside enough fits depth_operand_lt, fills]

theorem copies_list (goesOn : isQuotation (.pair mark head rest) = false)
    (splices : head = .symbol "unquote-splicing" → level ≠ 1)
    (copiesRest : CopiesRest m frame level (.pair mark head rest)) :
    Copies m frame level (.pair mark head rest) ∧
      CopiesRest m frame level (.pair mark head rest) := by
  refine ⟨fun fuel room enough fits => ?_, copiesRest⟩
  obtain ⟨fuel, rfl⟩ := Nat.exists_eq_add_one.mpr (Nat.le_trans depth_pair_pos enough)
  have deep : restDepth (.pair mark head rest) ≤ depth (.pair mark head rest) := by
    rw [restDepth, goesOn]
    exact Nat.le_refl _
  rw [copyWithin_list (fits.mono depth_pair_pos) goesOn splices,
    copiesRest _ fuel room true [] enough fits deep fun ends => nomatch goesOn.symm.trans ends]
  exact bind_pure _

theorem copiesRest_spliced (copiesRest : CopiesRest m frame 1 rest) :
    CopiesRest m frame 1
      (.pair mark (.pair mark' (.symbol "unquote-splicing") (.pair mark'' expr .nil)) rest) := by
  intro k fuel room isFirst copied enough fits deep _
  have deeper := Nat.le_trans restDepth_rest_le (Nat.le_trans depth_le_restDepth deep)
  rw [copyRest_item rfl, addItem_spliced, fill_spliced]
  simp only [bind_assoc, pure_bind]
  refine congrArg (spliced m frame expr >>= ·) (funext fun items => ?_)
  rw [copiesRest k fuel room false _ enough fits deeper fun _ => rfl]
  simp only [Run.listWith, funext (listReversed_append _ _)]

theorem copiesRest_pair (formed : WellFormed id keeps level head)
    (copies : Copies m frame level head) (copiesRest : CopiesRest m frame level rest) :
    CopiesRest m frame level (.pair mark head rest) := by
  intro k fuel room isFirst copied enough fits deep _
  have inside := Nat.le_trans depth_head_lt (Nat.le_trans depth_le_restDepth deep)
  have deeper := Nat.le_trans restDepth_rest_le (Nat.le_trans depth_le_restDepth deep)
  rw [copyRest_item (isQuotation_of_plain formed.isKeyword_eq_false), addItem_copied formed,
    fill_pair m frame formed, copies.inside enough fits inside]
  simp only [bind_assoc, bind_map_left]
  refine congrArg (fill id m frame level head >>= ·) (funext fun item => ?_)
  rw [copiesRest k fuel room false _ enough fits deeper fun _ => rfl]
  rfl

theorem copiesRest_kept (formed : WellFormed id keeps level v) (copies : Copies m frame level v) :
    CopiesRest m frame level
      (.pair mark (.symbol "unquote-splicing") (.pair mark' v .nil)) := by
  intro k fuel room isFirst copied enough fits deep _
  have inside := Nat.le_trans depth_operand_lt (Nat.le_trans depth_le_restDepth deep)
  have goesOn : isQuotation (.pair mark' v .nil) = false :=
    isQuotation_of_plain formed.isKeyword_eq_false
  have name : addItem m (copyWithin m frame (fuel + 1) (lower 1 room) level) frame level copied
      (.symbol "unquote-splicing") = pure (.symbol "unquote-splicing" :: copied) := rfl
  rw [copyRest_item rfl, name, pure_bind, copyRest_item goesOn, addItem_copied formed, fill_kept,
    copies.inside enough fits inside]
  simp only [bind_assoc, bind_map_left]
  rfl

/-- By induction on the template, both for a template by itself and for the rest of a list. -/
theorem copies_of_wellFormed (formed : WellFormed id keeps level v) :
    Copies m frame level v ∧ CopiesRest m frame level v := by
  induction formed with
  | leaf leaf => exact copies_leaf leaf
  | quasiquote _ ih =>
    exact copies_quotation rfl
      (copies_operand ih.1 (fill_quasiquote m frame) fun fits => copyWithin_quasiquote fits)
  | evaluated =>
    refine copies_quotation rfl fun fuel room _ fits => ?_
    rw [copyWithin_evaluated (fits.mono depth_pair_pos), fill_evaluated]
  | unquote _ ih =>
    exact copies_quotation rfl
      (copies_operand ih.1 (fill_unquote m frame) fun fits => copyWithin_unquote fits)
  | spliced _ ih => exact copies_list rfl (fun same => nomatch same) (copiesRest_spliced ih.2)
  | kept _ formed ih => exact copies_list rfl (fun _ => by omega) (copiesRest_kept formed ih.1)
  | pair formed _ ihHead ihRest =>
    have plain := formed.isKeyword_eq_false
    refine copies_list (isQuotation_of_plain plain) ?_ (copiesRest_pair formed ihHead.1 ihRest.2)
    exact fun same => absurd same (ne_symbol_of_isKeyword rfl plain)

end Filling

def quasiquotation (mark mark' : Nat) (template : Value) : Value :=
  .pair mark (.symbol "quasiquote") (.pair mark' template .nil)

theorem step_quasiquotation (m : Engine) (mark mark' : Nat) (template : Value) (frame : FrameId)
    (tail : Bool) : step m (quasiquotation mark mark' template) frame tail =
      Step.value <$> Template.copy m frame template := by
  have read : m.arguments (.pair mark' template .nil) = pure [template] := rfl
  rw [quasiquotation, step_pair, read, pure_bind]
  rfl

/-- The evaluation of a quoted template is the copying of it, one level down. -/
theorem evaluate_quasiquotation (w : World) (fuel : Nat) {room inner : Option Nat}
    (deeper : descend room = some inner) (mark mark' : Nat) (template : Value) (frame : FrameId)
    (name : Option String) :
    evaluate w (fuel + 1) room (quasiquotation mark mark' template) frame name =
      (Template.copy (.evaluating w fuel inner) frame template).either pure
        (leaving w.traceLimit (quasiquotation mark mark' template) name) := by
  rw [evaluate_eq_proceed w fuel deeper, proceed_eq_either, step_quasiquotation, Run.either_map]

/-- Where fuel and room are enough for the depth of a template, it is filled. -/
theorem copy_of_wellFormed {keeps : Value → Prop} {m : Engine} {frame : FrameId} {template : Value}
    (formed : WellFormed id keeps 1 template) (enough : depth template ≤ m.fuel)
    (fits : Fits (depth template) m.room) : copy m frame template = fill id m frame 1 template :=
  (copies_of_wellFormed formed).1 m.fuel m.room enough fits

end Template

end LazyLisp
