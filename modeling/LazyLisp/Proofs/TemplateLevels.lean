import LazyLisp.Proofs.AlikeRuns
import LazyLisp.Proofs.Templates

/-!
The levels of a template.

A quotation inside a template takes its operand one level up, and an evaluated part that is kept
takes it one level down. A splice that is kept does not: its operand stays at the level of the
splice. Where such operands have no quotations, the level of a splice does not show.
-/

namespace LazyLisp

namespace Template

section Levels

variable {below below' : Nat → Nat} (m : Engine) (frame : FrameId) {level : Nat} {v : Value}

theorem IsFixed.wellFormed (fixed : IsFixed v) (below : Nat → Nat) (keeps : Value → Prop)
    (level : Nat) : WellFormed below keeps level v := by
  induction fixed with
  | leaf leaf plain => exact .leaf leaf plain
  | pair _ _ ihHead ihRest => exact .pair ihHead ihRest

theorem fill_of_isFixed (fixed : IsFixed v) (level level' : Nat) :
    fill below m frame level v = fill below' m frame level' v := by
  induction fixed with
  | leaf leaf => rw [fill_leaf m frame leaf, fill_leaf m frame leaf]
  | pair headFixed _ ihHead ihRest =>
    have formed (below : Nat → Nat) := headFixed.wellFormed below fun _ => True
    rw [fill_pair m frame (formed below level), fill_pair m frame (formed below' level'), ihHead,
      ihRest]

theorem fill_of_keepsFixed (formed : WellFormed Nat.pred IsFixed level v) :
    WellFormed id (fun _ => True) level v ∧
      fill Nat.pred m frame level v = fill id m frame level v := by
  induction formed with
  | leaf leaf plain =>
    exact ⟨.leaf leaf plain, by rw [fill_leaf m frame leaf, fill_leaf m frame leaf]⟩
  | quasiquote _ ih => exact ⟨.quasiquote ih.1, by rw [fill_quasiquote, fill_quasiquote, ih.2]⟩
  | evaluated => exact ⟨.evaluated, by rw [fill_evaluated, fill_evaluated]⟩
  | unquote _ ih => exact ⟨.unquote ih.1, by rw [fill_unquote, fill_unquote, ih.2]⟩
  | spliced _ ih => exact ⟨.spliced ih.1, by rw [fill_spliced, fill_spliced, ih.2]⟩
  | kept fixed =>
    refine ⟨.kept trivial (fixed.wellFormed _ _ _), ?_⟩
    rw [fill_kept, fill_kept, fill_of_isFixed m frame fixed]
  | pair headFormed _ ihHead ihRest =>
    refine ⟨.pair ihHead.1 ihRest.1, ?_⟩
    rw [fill_pair m frame headFormed, fill_pair m frame ihHead.1, ihHead.2, ihRest.2]

end Levels

/-- The evaluation of a quoted template fills it, with the operands of splices that are kept at the
level of the splice. Where such operands are fixed, they might as well stand one level down. -/
theorem evaluate_quasiquotation_of_wellFormed {template : Value} (w : World) {fuel : Nat}
    {room inner : Option Nat} (deeper : descend room = some inner) (enough : depth template ≤ fuel)
    (fits : Fits (depth template) inner) (mark mark' : Nat) (frame : FrameId)
    (name : Option String) :
    let m := Engine.evaluating w fuel inner
    let form := quasiquotation mark mark' template
    (WellFormed id (fun _ => True) 1 template →
      evaluate w (fuel + 1) room form frame name =
        (fill id m frame 1 template).either pure (leaving w.traceLimit form name)) ∧
    (WellFormed Nat.pred IsFixed 1 template →
      evaluate w (fuel + 1) room form frame name =
        (fill Nat.pred m frame 1 template).either pure (leaving w.traceLimit form name)) := by
  intro m form
  have fills (formed : WellFormed id (fun _ => True) 1 template) :
      evaluate w (fuel + 1) room form frame name =
        (fill id m frame 1 template).either pure (leaving w.traceLimit form name) := by
    rw [evaluate_quasiquotation w fuel deeper, copy_of_wellFormed formed enough fits]
  refine ⟨fills, fun formed => ?_⟩
  obtain ⟨formed, same⟩ := fill_of_keepsFixed m frame formed
  rw [fills formed, same]

def addingStore (nextMark : Nat) : Store :=
  { Store.empty with
    frames := #[⟨none, [("+", .procedure 0)]⟩]
    procedures := #[.primitive .add]
    nextMark }

def nestedTemplate (name : String) (sum : Value) : Value :=
  .pair 0 (.atom (.int 1)) (.pair 1
    (quasiquotation 2 3 (.pair 4 (.atom (.int 2)) (.pair 5
      (.pair 6 (.symbol name) (.pair 7 (.pair 8 (.atom (.int 3)) (.pair 9 sum .nil)) .nil))
      .nil))) .nil)

def unquotedSum : Value :=
  .pair 10 (.symbol "unquote") (.pair 11 (.pair 12 (.symbol "+") (.pair 13 (.atom (.int 1))
    (.pair 14 (.atom (.int 2)) .nil))) .nil)

theorem evaluate_quasiquotation_of_wellFormed_nested :
    WellFormed id (fun _ => True) 1 (nestedTemplate "unquote" unquotedSum) ∧
    WellFormed Nat.pred IsFixed 1 (nestedTemplate "unquote" unquotedSum) ∧
    ∃ v t, evaluate bareWorld 11 none (quasiquotation 15 16 (nestedTemplate "unquote" unquotedSum)) 0
        none (addingStore 17) = .ok v t ∧
      v.unmarked = (nestedTemplate "unquote" (.atom (.int 3))).unmarked := by
  have formed (below : Nat → Nat) (keeps : Value → Prop) :
      WellFormed below keeps 1 (nestedTemplate "unquote" unquotedSum) := by
    have operand : WellFormed below keeps 1 (.pair 8 (.atom (.int 3)) (.pair 9 unquotedSum .nil)) :=
      .pair (.leaf rfl rfl) (.pair .evaluated (.leaf rfl rfl))
    exact .pair (.leaf rfl rfl) (.pair (.quasiquote (.pair (.leaf rfl rfl)
      (.pair (.unquote operand) (.leaf rfl rfl)))) (.leaf rfl rfl))
  refine ⟨formed _ _, formed _ _, ?_⟩
  have deeper : descend none = some none := rfl
  have enough : depth (nestedTemplate "unquote" unquotedSum) ≤ 10 := by decide
  rw [(evaluate_quasiquotation_of_wellFormed bareWorld deeper enough (fits_none _) 15 16 0
    none).1 (formed _ _)]
  exact ⟨_, _, by with_unfolding_all rfl, by with_unfolding_all rfl⟩

/-- A splice that is kept does not take its operand one level down. -/
theorem evaluate_quasiquotation_keptSplice :
    let template := nestedTemplate "unquote-splicing" unquotedSum
    WellFormed Nat.pred (fun _ => True) 1 template ∧
    (∃ v t, evaluate bareWorld 11 none (quasiquotation 15 16 template) 0 none (addingStore 17) =
      .ok v t ∧ v.unmarked = template.unmarked) ∧
    (∃ v t, fill Nat.pred (.evaluating bareWorld 10 none) 0 1 template (addingStore 17) = .ok v t ∧
      v.unmarked = (nestedTemplate "unquote-splicing" (.atom (.int 3))).unmarked) ∧
    template.unmarked ≠ (nestedTemplate "unquote-splicing" (.atom (.int 3))).unmarked := by
  intro template
  have operand : WellFormed Nat.pred (fun _ => True) 1
      (.pair 8 (.atom (.int 3)) (.pair 9 unquotedSum .nil)) :=
    .pair (.leaf rfl rfl) (.pair .evaluated (.leaf rfl rfl))
  refine ⟨?_, ⟨_, _, by with_unfolding_all rfl, by with_unfolding_all rfl⟩,
    ⟨_, _, by with_unfolding_all rfl, by with_unfolding_all rfl⟩, nofun⟩
  exact .pair (.leaf rfl rfl) (.pair (.quasiquote (.pair (.leaf rfl rfl)
    (.pair (.kept trivial operand) (.leaf rfl rfl)))) (.leaf rfl rfl))

end Template

end LazyLisp
