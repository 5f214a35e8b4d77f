import LazyLisp.Proofs.ImmediateApplication
import LazyLisp.Proofs.LexicalScope
import LazyLisp.Proofs.PrintedDefinitions

/-!
The procedures that definitions leave in the store.

A definition that is accepted binds its name. If it is one of a function or an expander, or if its
value is the one of a form that makes a procedure, then the name stands for a new procedure, which has
the documentation that is written at the start of the body.
-/

namespace LazyLisp

namespace Datum

theorem spells_of_denotes {v : Value} {d : Datum} (denotes : v.Denotes d) : d.Spells v := by
  induction denotes with
  | atom a => exact .atom
  | pair _ _ first rest => exact .pair first rest

theorem exists_spine {d : Datum} {v : Value} (spelled : d.Spells v) :
    ∃ vs a, Spine v vs (.atom a) ∧ ∀ u ∈ vs, ∃ e : Datum, e.Spells u := by
  induction spelled with
  | @atom a => exact ⟨[], a, .nil, by simp⟩
  | @pair car cdr mark head rest first _ _ ih =>
    obtain ⟨vs, a, spine, each⟩ := ih
    refine ⟨head :: vs, a, .cons spine, ?_⟩
    rw [List.forall_mem_cons]
    exact ⟨⟨car, first⟩, each⟩

end Datum

namespace Engine

variable {m : Engine} {kind message what : String} {v : Value} {s t : Store}

theorem not_ok_failWith {α : Type} {a : α} : m.failWith kind message v s ≠ .ok a t := by
  intro ended
  obtain ⟨text, u, -, failed⟩ := Run.of_bind_ok ended
  cases failed

theorem of_items_ok {d : Datum} (spelled : d.Spells v) {vs : List Value}
    (ended : m.items kind what v s = .ok vs t) :
    Spine v vs .nil ∧ t = s ∧ ∀ u ∈ vs, ∃ e : Datum, e.Spells u := by
  obtain ⟨us, a, spine, each⟩ := Datum.exists_spine spelled
  by_cases proper : a = .nil
  · subst proper
    rw [items_of_spine m kind what spine] at ended
    cases ended
    exact ⟨spine, rfl, each⟩
  · have improper : (Value.atom a).isNil = false := by
      cases a <;> simp_all [Value.isNil]
    rw [items_of_improper m kind what spine rfl improper] at ended
    exact absurd ended not_ok_failWith

end Engine

def Store.SameButMarks (s t : Store) : Prop := ∃ n, t = { s with nextMark := n }

namespace Store.SameButMarks

variable {s t u : Store}

theorem refl (s : Store) : s.SameButMarks s := ⟨s.nextMark, rfl⟩

theorem trans (first : s.SameButMarks t) (second : t.SameButMarks u) : s.SameButMarks u := by
  obtain ⟨n, rfl⟩ := first
  obtain ⟨k, rfl⟩ := second
  exact ⟨k, rfl⟩

theorem of_mapM {α β : Type} {f : α → Run β} {items : List α}
    (each : ∀ item ∈ items, ∀ {s t : Store} {b : β}, f item s = .ok b t → s.SameButMarks t)
    {results : List β} (ended : items.mapM f s = .ok results t) : s.SameButMarks t := by
  induction items generalizing results s with
  | nil =>
    cases ended
    exact .refl _
  | cons item items ih =>
    rw [List.forall_mem_cons] at each
    rw [List.mapM_cons] at ended
    obtain ⟨b, u, first, rest⟩ := Run.of_bind_ok ended
    obtain ⟨bs, x, others, same⟩ := Run.of_bind_ok rest
    cases same
    exact (each.1 first).trans (ih each.2 others)

end Store.SameButMarks

namespace SpecialForm

variable {m : Engine} {frame : FrameId} {name : Option String} {s t : Store}

theorem makeClosure_eq (m : Engine) (frame : FrameId) (name : Option String) (params : Value)
    (body : List Value) : makeClosure m frame name params body =
      m.signature params >>= fun signature => bodyExpr (splitDoc body).2 >>= fun expr =>
        pure ⟨signature, expr, frame, name, (splitDoc body).1⟩ := rfl

theorem of_makeClosure_ok {params : Value} {d : Datum} (spelled : d.Spells params)
    {body : List Value} {c : Closure} (ended : makeClosure m frame name params body s = .ok c t) :
    c.doc = (splitDoc body).1 ∧ s.SameButMarks t := by
  obtain ⟨vs, a, spine, -⟩ := Datum.exists_spine spelled
  rw [makeClosure_eq] at ended
  obtain ⟨sig, u, signature, made⟩ := Run.of_bind_ok ended
  have kept : u = s := by
    rcases signature_of_spine m spine rfl with ⟨_, -, taken⟩ | ⟨-, message, refused⟩
    · rw [taken] at signature
      cases signature
      rfl
    · rw [refused] at signature
      exact absurd signature Engine.not_ok_failWith
  subst kept
  obtain ⟨expr, count, -, expression⟩ := exists_bodyExpr (splitDoc body).2 u
  rw [Run.bind_of_ok expression] at made
  cases made
  exact ⟨rfl, _, rfl⟩

theorem makeClause_eq (m : Engine) (frame : FrameId) (clause : Value) :
    makeClause m frame clause =
      if clause.isPair then
        m.items Fault.Kind.malformedForm "case-lambda clause" clause >>= fun
          | params :: body => makeClosure m frame none params body
          | [] => throw .dangling
      else malformedWith m "case-lambda clause must be (params body...), got " clause := by
  rw [makeClause]
  cases clause.isPair
  · exact Engine.failWith_bind m _ _ _ _
  · rfl

theorem of_makeClause_ok {clause : Value} {d : Datum} (spelled : d.Spells clause) {c : Closure}
    (ended : makeClause m frame clause s = .ok c t) : s.SameButMarks t := by
  rw [makeClause_eq] at ended
  split at ended
  · obtain ⟨items, u, found, made⟩ := Run.of_bind_ok ended
    obtain ⟨-, rfl, each⟩ := Engine.of_items_ok spelled found
    cases items with
    | nil => cases made
    | cons params body =>
      obtain ⟨e, params⟩ := each params List.mem_cons_self
      exact (of_makeClosure_ok params made).2
  · exact absurd ended Engine.not_ok_failWith

structure Makes (s : Store) (doc : Option String) (v : Value) (t : Store) : Prop where
  value : v = .procedure s.procedures.size
  frames : t.frames = s.frames
  procedure : ∃ p, t.procedures = s.procedures.push p ∧ p.doc? = doc ∧ p.isExpander = false

theorem makes_newProcedure {p : Procedure} {u : Store} (same : s.SameButMarks u) {v : Value}
    (ended : Run.newProcedure p u = .ok v t) (lasting : p.isExpander = false) :
    Makes s p.doc? v t := by
  obtain ⟨n, rfl⟩ := same
  cases ended
  exact ⟨rfl, rfl, p, rfl, rfl, lasting⟩

theorem of_runLambda_ok {args : List Value} (code : ∀ u ∈ args, ∃ e : Datum, e.Spells u) {v : Value}
    (ended : runLambda m frame args s = .ok v t) :
    ∃ params body, args = params :: body ∧ Makes s (splitDoc body).1 v t := by
  cases args with
  | nil => cases ended
  | cons params body =>
    obtain ⟨c, u, closed, made⟩ :=
      Run.of_bind_ok (x := makeClosure m frame none params body) ended
    obtain ⟨d, spelled⟩ := code params List.mem_cons_self
    obtain ⟨doc, same⟩ := of_makeClosure_ok spelled closed
    exact ⟨params, body, rfl, doc ▸ makes_newProcedure same made rfl⟩

def splitClauses : List Value → Option String × List Value
  | .string doc :: clauses => (some doc, clauses)
  | clauses => (none, clauses)

theorem runCaseLambda_eq (m : Engine) (frame : FrameId) (args : List Value) :
    runCaseLambda m frame args =
      (splitClauses args).2.mapM (makeClause m frame) >>= fun closures =>
        if closures.isEmpty then malformed "(case-lambda) must contain at least one clause"
        else Run.newProcedure (.cases closures none (splitClauses args).1) := by
  unfold runCaseLambda
  split
  next doc clauses split =>
    have known : splitClauses args = (doc, clauses) := split
    rw [known]
    apply bind_congr
    intro closures
    cases closures <;> rfl

theorem mem_of_mem_splitClauses {args : List Value} {u : Value} (member : u ∈ (splitClauses args).2) :
    u ∈ args := by
  unfold splitClauses at member
  split at member
  · exact List.mem_cons_of_mem _ member
  · exact member

theorem of_runCaseLambda_ok {args : List Value} (code : ∀ u ∈ args, ∃ e : Datum, e.Spells u)
    {v : Value} (ended : runCaseLambda m frame args s = .ok v t) :
    (splitClauses args).2 ≠ [] ∧ Makes s (splitClauses args).1 v t := by
  rw [runCaseLambda_eq] at ended
  obtain ⟨closures, u, clauses, made⟩ := Run.of_bind_ok ended
  have length := length_of_mapM clauses
  have same : s.SameButMarks u := by
    refine .of_mapM (fun clause member {s t c} ended => ?_) clauses
    obtain ⟨e, spelled⟩ := code clause (mem_of_mem_splitClauses member)
    exact of_makeClause_ok spelled ended
  split at made
  · cases made
  · next some_clause =>
    refine ⟨?_, makes_newProcedure same made rfl⟩
    intro none
    rw [none, List.length_nil, List.length_eq_zero_iff] at length
    simp [length] at some_clause

end SpecialForm

theorem splitDoc_fst {d : Datum} {v : Value} {vs : List Value} (spelled : d.Spells v)
    (spine : Spine v vs .nil) : (splitDoc vs).1 = Outline.docOf d := by
  cases spelled with
  | atom =>
    cases spine
    rfl
  | pair first rest =>
    cases spine with
    | cons spine =>
      cases first with
      | pair _ _ => rfl
      | @atom a =>
        cases a with
        | string doc => cases rest <;> cases spine <;> rfl
        | _ => rfl

theorem splitClauses_fst {vs : List Value} (nonempty : (SpecialForm.splitClauses vs).2 ≠ []) :
    (SpecialForm.splitClauses vs).1 = (splitDoc vs).1 := by
  unfold SpecialForm.splitClauses splitDoc at *
  split
  · next doc clauses =>
    cases clauses with
    | nil => exact absurd rfl nonempty
    | cons clause clauses => rfl
  · next noDoc =>
    split
    · exact absurd rfl (noDoc _ _)
    · rfl

section Forms

variable {w : World} {fuel : Nat} {room : Option Nat} {expr v : Value} {frame : FrameId}
  {caller : Option String} {s t : Store}

theorem Run.of_map_ok {α β : Type} {x : Run α} {f : α → β} {b : β} (ended : (f <$> x) s = .ok b t) :
    ∃ a, x s = .ok a t ∧ f a = b := by
  change EStateM.map f x s = _ at ended
  unfold EStateM.map at ended
  split at ended
  · next found =>
    cases ended
    exact ⟨_, found, rfl⟩
  · cases ended

theorem exists_step_of_evaluate (ended : evaluate w fuel room expr frame caller s = .ok v t) :
    ∃ less inner result u, step (.evaluating w less inner) expr frame true s = .ok result u ∧
      ∀ a, result = .value a → a = v ∧ u = t := by
  cases fuel with
  | zero => cases ended
  | succ less =>
    cases deeper : descend room with
    | none =>
      rw [evaluate, deeper] at ended
      cases ended
    | some inner =>
      rw [evaluate_eq_proceed w less deeper, proceed] at ended
      split at ended
      · next a u stepped =>
        cases ended
        exact ⟨less, inner, .value v, t, stepped, fun _ same => ⟨(Step.value.inj same).symm, rfl⟩⟩
      · next stepped => exact ⟨less, inner, _, _, stepped, fun _ same => by cases same⟩
      · cases ended
      · cases ended

/-- Where a special form that yields a value has been evaluated, its arguments were a list. -/
theorem of_evaluate_special {x : String} {form : SpecialForm}
    (special : SpecialForm.ofName? x = some form) {run : Engine → List Value → Run Value}
    (runs : ∀ m args, form.run m args frame true = Step.value <$> run m args) {args : Datum}
    (spelled : (Datum.pair (.symbol x) args).Spells expr)
    (ended : evaluate w fuel room expr frame caller s = .ok v t) :
    ∃ less inner mark rest vs, expr = .pair mark (.symbol x) rest ∧ args.Spells rest ∧
      Spine rest vs .nil ∧ (∀ u ∈ vs, ∃ e : Datum, e.Spells u) ∧
      run (.evaluating w less inner) vs s = .ok v t := by
  obtain ⟨less, inner, result, x, stepped, same⟩ := exists_step_of_evaluate ended
  cases spelled with
  | @pair _ _ mark head rest first spelled =>
    obtain rfl := Datum.spells_atom first
    rw [step_pair] at stepped
    simp only [Value.symbol?, Option.bind_some, special] at stepped
    obtain ⟨vs, u, found, ran⟩ := Run.of_bind_ok stepped
    obtain ⟨spine, rfl, code⟩ := Engine.of_items_ok spelled found
    rw [runs] at ran
    obtain ⟨a, made, rfl⟩ := Run.of_map_ok ran
    obtain ⟨rfl, rfl⟩ := same a rfl
    exact ⟨less, inner, mark, rest, vs, rfl, spelled, spine, code, made⟩

theorem makes_of_evaluate {form : Datum} (makes : form.makesProcedure = true)
    (spelled : form.Spells expr) (ended : evaluate w fuel room expr frame caller s = .ok v t) :
    SpecialForm.Makes s form.procedureDoc v t ∧
      ∀ args, form = .pair (.symbol "lambda") args → ∃ params body, args = .pair params body := by
  rcases Datum.makesProcedure_iff.mp makes with ⟨args, rfl⟩ | ⟨args, rfl⟩
  · obtain ⟨less, inner, mark, rest, vs, rfl, spelled, spine, code, ran⟩ :=
      of_evaluate_special (x := "lambda") rfl (fun _ _ => rfl) spelled ended
    obtain ⟨params, body, rfl, made⟩ := SpecialForm.of_runLambda_ok code ran
    cases spine with
    | cons spine =>
      cases spelled with
      | @pair first others _ _ _ _ spelled =>
        rw [splitDoc_fst spelled spine] at made
        refine ⟨made, ?_⟩
        rintro _ same
        cases same
        exact ⟨first, others, rfl⟩
  · obtain ⟨less, inner, mark, rest, vs, rfl, spelled, spine, code, ran⟩ :=
      of_evaluate_special (x := "case-lambda") rfl (fun _ _ => rfl) spelled ended
    obtain ⟨nonempty, made⟩ := SpecialForm.of_runCaseLambda_ok code ran
    rw [splitClauses_fst nonempty, splitDoc_fst spelled spine] at made
    exact ⟨made, fun _ same => by simp at same⟩

end Forms

/-- In the frame the name stands for a procedure that is an expander or not, with this
documentation. -/
def Store.Documents (s : Store) (frame : FrameId) (name : String) (expander : Bool)
    (doc : Option String) : Prop :=
  ∃ ref p, Run.lookup frame name s = .ok (.procedure ref) s ∧ s.procedures[ref]? = some p ∧
    p.isExpander = expander ∧ p.doc? = doc

section Definitions

variable {w : World} {fuel : Nat} {room : Option Nat} {expr v : Value} {frame : FrameId}
  {caller : Option String} {s t : Store} {name : String}

theorem documents_define (inside : frame < s.frames.size) {ref : Nat} {p : Procedure}
    (held : s.procedures[ref]? = some p)
    (bound : Run.define frame name (.procedure ref) s = .ok () t) :
    t.Documents frame name p.isExpander p.doc? := by
  cases bound
  have found : Frame.find? (s.frames.modify frame (·.define name (.procedure ref))) name frame =
      some (frame, .procedure ref) := by
    rw [Frame.find?, Frame.getElem?_define, Array.getElem?_eq_getElem inside]
    simp
  exact ⟨ref, p, lookup_of_find? found, held, rfl, rfl⟩

theorem doc?_named (name : String) (p : Procedure) : (p.named name).doc? = p.doc? := by
  unfold Procedure.named
  split <;> rfl

theorem isExpander_named (name : String) (p : Procedure) :
    (p.named name).isExpander = p.isExpander := by
  unfold Procedure.named
  split <;> rfl

theorem documents_of_makeClosure {m : Engine} (make : Closure → Procedure) {params : Value}
    {d : Datum} (spelled : d.Spells params) {body : List Value} (inside : frame < s.frames.size)
    (ended : (SpecialForm.makeClosure m frame (some name) params body >>= fun c =>
      Run.newProcedure (make c) >>= fun v => Run.define frame name v >>= fun _ =>
        pure (Value.symbol name)) s = .ok v t)
    (doc : ∀ c, (make c).doc? = c.doc) {expander : Bool}
    (kind : ∀ c, (make c).isExpander = expander) :
    t.Documents frame name expander (splitDoc body).1 := by
  obtain ⟨c, u, closed, ended⟩ := Run.of_bind_ok ended
  obtain ⟨documented, n, rfl⟩ := SpecialForm.of_makeClosure_ok spelled closed
  obtain ⟨v, u, made, ended⟩ := Run.of_bind_ok ended
  cases made
  obtain ⟨⟨⟩, u, bound, ended⟩ := Run.of_bind_ok ended
  cases ended
  rw [← documented, ← doc c, ← kind c]
  refine documents_define ?_ Array.getElem?_push_size bound
  exact inside

theorem documents_function {params : Datum} {body : List Datum}
    (spelled : (DefinitionForm.function name params body).datum.Spells expr)
    (inside : frame < s.frames.size) (ended : evaluate w fuel room expr frame caller s = .ok v t) :
    t.Documents frame name false (Outline.docOf (.list body)) := by
  obtain ⟨less, inner, mark, rest, vs, rfl, spelledArgs, spine, -, ran⟩ :=
    of_evaluate_special (x := "define") rfl (fun _ _ => rfl) spelled ended
  cases spelledArgs with
  | pair target spelledBody =>
    cases target with
    | pair named spelledParams =>
      obtain rfl := Datum.spells_atom named
      cases spine with
      | cons spine =>
        rw [← splitDoc_fst spelledBody spine]
        exact documents_of_makeClosure .closure spelledParams inside ran (fun _ => rfl)
          fun _ => rfl

theorem documents_expander {params : Datum} {body : List Datum}
    (spelled : (DefinitionForm.expander name params body).datum.Spells expr)
    (inside : frame < s.frames.size) (ended : evaluate w fuel room expr frame caller s = .ok v t) :
    t.Documents frame name true (Outline.docOf (.list body)) := by
  obtain ⟨less, inner, mark, rest, vs, rfl, spelledArgs, spine, -, ran⟩ :=
    of_evaluate_special (x := "define-macro") rfl (fun _ _ => rfl) spelled ended
  cases spelledArgs with
  | pair target spelledBody =>
    cases target with
    | pair named spelledParams =>
      obtain rfl := Datum.spells_atom named
      cases spine with
      | @cons _ _ forms _ _ spine =>
        cases forms with
        | nil => cases ran
        | cons form forms =>
          rw [← splitDoc_fst spelledBody spine]
          exact documents_of_makeClosure .expander spelledParams inside ran (fun _ => rfl)
            fun _ => rfl

theorem makesProcedure_of_spells {form : Datum} (makes : form.makesProcedure = true)
    (spelled : form.Spells expr) (m : Engine) (s : Store) :
    SpecialForm.makesProcedure m expr s = .ok true s := by
  rcases Datum.makesProcedure_iff.mp makes with ⟨args, rfl⟩ | ⟨args, rfl⟩ <;>
  · cases spelled with
    | pair head _ =>
      obtain rfl := Datum.spells_atom head
      rfl

theorem exists_run_of_value {form : Datum}
    (spelled : (DefinitionForm.value name form).datum.Spells expr)
    (ended : evaluate w fuel room expr frame caller s = .ok v t) :
    ∃ less inner body, form.Spells body ∧
      SpecialForm.runDefine (.evaluating w less inner) frame [.symbol name, body] s = .ok v t := by
  obtain ⟨less, inner, mark, rest, vs, rfl, spelledArgs, spine, -, ran⟩ :=
    of_evaluate_special (x := "define") rfl (fun _ _ => rfl) spelled ended
  cases spelledArgs with
  | pair named spelledArgs =>
    obtain rfl := Datum.spells_atom named
    cases spelledArgs with
    | pair spelledForm last =>
      cases last
      cases spine with
      | cons spine =>
        cases spine with
        | cons spine =>
          cases spine
          exact ⟨less, inner, _, spelledForm, ran⟩

theorem documents_value {form : Datum} (makes : form.makesProcedure = true)
    (spelled : (DefinitionForm.value name form).datum.Spells expr) (inside : frame < s.frames.size)
    (ended : evaluate w fuel room expr frame caller s = .ok v t) :
    t.Documents frame name false form.procedureDoc := by
  obtain ⟨less, inner, body, spelledForm, ran⟩ := exists_run_of_value spelled ended
  obtain ⟨v, u, evaluated, ran⟩ := Run.of_bind_ok
    (x := (Engine.evaluating w less inner).eval body frame none) ran
  obtain ⟨⟨rfl, frames, p, procedures, doc, lasting⟩, -⟩ :=
    makes_of_evaluate makes spelledForm evaluated
  obtain ⟨made, x, asked, ran⟩ := Run.of_bind_ok
    (x := SpecialForm.makesProcedure (.evaluating w less inner) body) ran
  rw [makesProcedure_of_spells makes spelledForm] at asked
  cases asked
  obtain ⟨_, x, called, ran⟩ := Run.of_bind_ok (x := Run.nameProcedure s.procedures.size name) ran
  cases called
  obtain ⟨⟨⟩, x, bound, ran⟩ := Run.of_bind_ok ran
  cases ran
  rw [← doc, ← doc?_named name, ← lasting, ← isExpander_named name]
  refine documents_define ?_ ?_ bound
  · simpa [frames] using inside
  · simp [procedures, modify_push]

/-- A lambda form that has been evaluated has parameters. -/
theorem exists_params_of_value {args : Datum}
    (spelled : (DefinitionForm.value name (.pair (.symbol "lambda") args)).datum.Spells expr)
    (ended : evaluate w fuel room expr frame caller s = .ok v t) :
    ∃ params body, args = .pair params body := by
  obtain ⟨less, inner, body, spelledForm, ran⟩ := exists_run_of_value spelled ended
  obtain ⟨v, u, evaluated, -⟩ := Run.of_bind_ok
    (x := (Engine.evaluating w less inner).eval body frame none) ran
  exact (makes_of_evaluate rfl spelledForm evaluated).2 args rfl

theorem documents_of_evaluate {form : DefinitionForm} (makes : form.kind ≠ .value)
    (spelled : form.datum.Spells expr) (inside : frame < s.frames.size)
    (ended : evaluate w fuel room expr frame caller s = .ok v t) :
    t.Documents frame form.name (form.kind == .expander) form.doc? := by
  cases form with
  | value name form =>
    have procedure : form.makesProcedure = true := by
      by_contra other
      exact makes (if_neg other)
    rw [DefinitionForm.kind, if_pos procedure]
    exact documents_value procedure spelled inside ended
  | function name params body => exact documents_function spelled inside ended
  | expander name params body => exact documents_expander spelled inside ended

end Definitions

end LazyLisp
