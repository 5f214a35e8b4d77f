import LazyLisp.Proofs.RenamedStores
import LazyLisp.Proofs.Simulation

/-!
What a program sees of values under a renaming. It sees of which kind they are, whether they are the
same, and their texts; none of this shows a name.
-/

namespace LazyLisp

namespace Renaming

variable {σ : Renaming}

namespace Values

variable {v w : Value}

theorem matching (same : σ.Values v w) : v.Matches σ.Values w := by
  cases same with
  | atom a => exact .atom a
  | nan _ => exact .nan _ _
  | pair _ car cdr => exact .pair car cdr
  | lazyPair ref => exact .lazyPair ref
  | procedure _ => exact .procedure _ _
  | error ref => exact .error ref
  | input ref => exact .input ref

theorem isSame_eq {v' w' : Value} (same : σ.Values v w) (same' : σ.Values v' w') :
    v.isSame v' = w.isSame w' := by
  have agree {m m' n n' : Nat} (iff : m = m' ↔ n = n') : (m == m') = (n == n') := by
    rw [Bool.eq_iff_iff, beq_iff_eq, beq_iff_eq]
    exact iff
  cases same with
  | nan marks =>
    cases same' with
    | nan marks' => exact agree (σ.marks_iff marks marks')
    | _ => rfl
  | pair marks _ _ =>
    cases same' with
    | pair marks' _ _ => exact agree (σ.marks_iff marks marks')
    | _ => rfl
  | procedure refs =>
    cases same' with
    | procedure refs' => exact agree (σ.procedures_iff refs refs')
    | _ => rfl
  | _ => cases same' <;> rfl

theorem abbreviation?_eq {car car' cdr cdr' : Value} (carSame : σ.Values car car')
    (cdrSame : σ.Values cdr cdr') : Store.abbreviation? car cdr = Store.abbreviation? car' cdr' := by
  cases carSame with
  | atom a =>
    cases cdrSame with
    | pair marks item rest =>
      cases rest with
      | atom b => cases a <;> cases b <;> rfl
      | _ => cases a <;> rfl
    | _ => cases a <;> rfl
  | _ => rfl

end Values

theorem LazyPairs.quotation? {p q : LazyPair} (same : σ.LazyPairs p q) :
    Option.Rel (fun a b => a.1 = b.1 ∧ σ.Values a.2 b.2) (Store.quotation? p)
      (Store.quotation? q) := by
  obtain ⟨car, cdr⟩ := p
  obtain ⟨car', cdr'⟩ := q
  obtain ⟨carSame, cdrSame⟩ := same
  cases carSame with
  | pending frame expr => exact .none
  | ready head =>
    cases cdrSame with
    | pending frame expr => exact .none
    | ready rest =>
      cases rest with
      | @pair m n item item' tail tail' marks first others =>
        have sign := head.abbreviation?_eq (.pair marks first others)
        simp only [Store.quotation?, sign]
        cases Store.abbreviation? _ _ with
        | none => exact .none
        | some mark => exact .some ⟨rfl, first⟩
      | _ => exact .none

def Writers (σ : Renaming) (hop hop' : Store.Writer) : Prop :=
  ∀ readable room soFar v w, σ.Values v w → hop readable room soFar v = hop' readable room soFar w

theorem Procedures.text_eq {p q : Procedure} (same : σ.Procedures p q) : p.text = q.text := by
  cases same with
  | closure c => simp only [Procedure.text, Procedure.name?, Procedure.kind, c.name]
  | cases name doc clauses => rfl
  | expander c => simp only [Procedure.text, Procedure.name?, Procedure.kind, c.name]
  | primitive p => rfl

section Writing

variable {hop hop' : Store.Writer} (hops : σ.Writers hop hop') (readable : Bool)
  (room : Option Nat)

include hops

theorem writeHead_eq {x y : Slot} (same : σ.Slots x y) :
    Store.writeHead hop readable room x = Store.writeHead hop' readable room y := by
  cases same with
  | pending frame expr => rfl
  | ready v => exact hops _ _ _ _ _ v

theorem writeTail_eq (items : String) {x y : Slot} (same : σ.Slots x y) :
    Store.writeTail hop readable room items x = Store.writeTail hop' readable room items y := by
  cases same with
  | pending frame expr => rfl
  | ready v => exact hops _ _ _ _ _ v

theorem writeLazy_eq (soFar : Option String) {p q : LazyPair} (same : σ.LazyPairs p q) :
    Store.writeLazy hop readable room soFar p = Store.writeLazy hop' readable room soFar q := by
  have halves (soFar : Option String) :
      (do let item ← Store.writeHead hop readable room p.car
          Store.writeTail hop readable room (Store.addItem soFar item) p.cdr) =
        (do let item ← Store.writeHead hop' readable room q.car
            Store.writeTail hop' readable room (Store.addItem soFar item) q.cdr) := by
    rw [writeHead_eq hops readable room same.car]
    exact bind_congr fun item => writeTail_eq hops readable room _ same.cdr
  unfold Store.writeLazy
  cases soFar with
  | some items => exact halves _
  | none =>
    have quoted := same.quotation?
    generalize Store.quotation? p = first at quoted
    generalize Store.quotation? q = second at quoted
    cases quoted with
    | none => exact halves _
    | @some a b known =>
      obtain ⟨mark, item⟩ := a
      obtain ⟨_, item'⟩ := b
      obtain ⟨rfl, values⟩ := known
      simp only [hops _ _ _ _ _ values]

end Writing

theorem mapM_eq {α β γ : Type} {T : α → β → Prop} {xs : List α} {ys : List β}
    (related : List.Forall₂ T xs ys) {f : α → Except WriteFailure γ} {g : β → Except WriteFailure γ}
    (same : ∀ a b, T a b → f a = g b) : xs.mapM f = ys.mapM g := by
  induction related with
  | nil => rfl
  | cons first _ ih => rw [List.mapM_cons, List.mapM_cons, same _ _ first, ih]

namespace Stores

variable {ρ : Renaming} {s t : Store} (stores : ρ.Stores s t)

include stores

theorem writeWith_procedure_eq (hop hop' : Store.Writer) (readable : Bool) (room : Option Nat)
    (soFar : Option String) {p q : Nat} (refs : (ρ.upTo s).procedures p q) :
    s.writeWith hop readable room soFar (.procedure p) =
      t.writeWith hop' readable room soFar (.procedure q) := by
  have held := stores.procedures refs
  simp only [Store.writeWith]
  generalize s.procedures[p]? = first at held
  generalize t.procedures[q]? = second at held
  cases held with
  | none => rfl
  | some held => simp only [Option.map_some, held.text_eq]

section Writers

variable {hop hop' : Store.Writer} (hops : (ρ.upTo s).Writers hop hop') (readable : Bool)
  (room : Option Nat) (soFar : Option String)

include hops

theorem writeWith_lazyPair_eq (ref : Nat) : s.writeWith hop readable room soFar (.lazyPair ref) =
    t.writeWith hop' readable room soFar (.lazyPair ref) := by
  have held := stores.lazyPairs ref
  simp only [Store.writeWith]
  generalize s.lazyPairs[ref]? = p at held
  generalize t.lazyPairs[ref]? = q at held
  cases held with
  | none => rfl
  | some held =>
    cases (if soFar.isNone = true then descend room else some room) with
    | none => rfl
    | some room => exact writeLazy_eq hops readable room soFar held

theorem writeWith_error_eq (ref : Nat) : s.writeWith hop readable room soFar (.error ref) =
    t.writeWith hop' readable room soFar (.error ref) := by
  have held := stores.errors ref
  simp only [Store.writeWith]
  generalize s.errors[ref]? = f at held
  generalize t.errors[ref]? = g at held
  cases held with
  | none => rfl
  | @some f g held =>
    cases descend room with
    | none => rfl
    | some room =>
      have value := held.value
      simp only [held.kind]
      generalize f.value = v at value
      generalize g.value = w at value
      cases value with
      | none => rfl
      | some values => simp only [hops _ _ _ _ _ values]

/-- Together with the text of a value, that of the item which may have an abbreviation in front. -/
theorem writeWith_eq_and {v w : Value} (same : (ρ.upTo s).Values v w) :
    (∀ room soFar, s.writeWith hop readable room soFar v = t.writeWith hop' readable room soFar w) ∧
      ∀ {m item rest n item' rest'}, v = .pair m item rest → w = .pair n item' rest' → ∀ room,
        s.writeWith hop readable room none item = t.writeWith hop' readable room none item' := by
  induction same with
  | atom a =>
    refine ⟨fun room soFar => ?_, by rintro _ _ _ _ _ _ ⟨⟩⟩
    cases soFar <;> cases a <;> rfl
  | nan _ => exact ⟨fun room soFar => by simp only [Store.writeWith], by rintro _ _ _ _ _ _ ⟨⟩⟩
  | procedure refs =>
    refine ⟨fun room soFar => ?_, by rintro _ _ _ _ _ _ ⟨⟩⟩
    exact stores.writeWith_procedure_eq hop hop' readable room soFar refs
  | input ref =>
    refine ⟨fun room soFar => ?_, by rintro _ _ _ _ _ _ ⟨⟩⟩
    simp only [Store.writeWith, stores.inputs]
  | lazyPair ref =>
    refine ⟨fun room soFar => ?_, by rintro _ _ _ _ _ _ ⟨⟩⟩
    exact stores.writeWith_lazyPair_eq hops readable room soFar ref
  | error ref =>
    refine ⟨fun room soFar => ?_, by rintro _ _ _ _ _ _ ⟨⟩⟩
    exact stores.writeWith_error_eq hops readable room soFar ref
  | @pair _ _ car car' _ _ _ carSame cdrSame head rest =>
    constructor
    · intro room soFar
      cases soFar with
      | some items => simp only [Store.writeWith, head.1, rest.1]
      | none =>
        simp only [Store.writeWith]
        cases descend room with
        | none => rfl
        | some room =>
          have sign := carSame.abbreviation?_eq cdrSame
          dsimp only
          rw [sign]
          cases Store.abbreviation? car' _ with
          | none => simp only [head.1, rest.1]
          | some mark =>
            cases cdrSame with
            | pair => simp only [rest.2 rfl rfl]
            | _ => simp only [head.1, rest.1]
    · rintro _ _ _ _ _ _ ⟨⟩ ⟨⟩ room
      exact head.1 room none

theorem writeWith_eq {v w : Value} (same : (ρ.upTo s).Values v w) :
    s.writeWith hop readable room soFar v = t.writeWith hop' readable room soFar w :=
  (stores.writeWith_eq_and hops readable same).1 room soFar

end Writers

theorem writeWithin_eq (hops : Nat) : (ρ.upTo s).Writers (s.writeWithin hops) (t.writeWithin hops) := by
  induction hops with
  | zero => exact fun _ _ _ _ _ _ => rfl
  | succ hops ih => exact fun readable room soFar _ _ => stores.writeWith_eq ih readable room soFar

theorem write_eq (room : Option Nat) (readable : Bool) {v w : Value}
    (same : (ρ.upTo s).Values v w) : s.write room readable v = t.write room readable w := by
  rw [Store.write, Store.write, Store.enoughHops, Store.enoughHops, stores.lazyPairs.size_eq,
    stores.errors.size_eq]
  exact stores.writeWithin_eq _ _ _ _ _ _ same

theorem inMessage_eq (halves : Text.Halves) (room : Option Nat) {v w : Value}
    (same : (ρ.upTo s).Values v w) : s.inMessage halves room v = t.inMessage halves room w := by
  have text := stores.write_eq room true same
  cases same with
  | atom a => rfl
  | _ => exact text

theorem summary_eq (room : Option Nat) (kind : String) {v w : Option Value}
    (same : Option.Rel (ρ.upTo s).Values v w) : s.summary room kind v = t.summary room kind w := by
  cases same with
  | none => rfl
  | some same =>
    have text := congrArg ((kind ++ ": " ++ ·) <$> ·) (stores.write_eq room true same)
    cases same with
    | atom a => rfl
    | error ref =>
      have held := stores.errors ref
      simp only [Store.summary]
      generalize s.errors[ref]? = f at held
      generalize t.errors[ref]? = g at held
      cases held with
      | none => rfl
      | some held => simp only [Option.map_some, held.summary]
    | _ => exact text

theorem causes (ref : Nat) :
    List.Forall₂ (ρ.upTo s).Faults (s.causes ref) (t.causes ref) := by
  induction ref using Nat.strongRecOn with
  | _ ref ih =>
    have held := stores.errors ref
    rw [Store.causes, Store.causes]
    generalize s.errors[ref]? = f at held
    generalize t.errors[ref]? = g at held
    cases held with
    | none => exact .nil
    | @some f g held =>
      refine .cons held ?_
      rw [held.cause]
      cases g.cause with
      | none => exact .nil
      | some cause =>
        by_cases less : cause < ref
        · simp only [less, dite_true]
          exact ih cause less
        · simp only [less, dite_false]
          exact .nil

theorem chain {f g : Fault} (same : (ρ.upTo s).Faults f g) :
    List.Forall₂ (ρ.upTo s).Faults (s.chain f) (t.chain g) := by
  refine .cons same ?_
  rw [same.cause]
  cases g.cause with
  | none => exact .nil
  | some cause => exact stores.causes cause

theorem traceLine_eq (room : Option Nat) {a b : TraceEntry} (same : (ρ.upTo s).Entries a b) :
    s.traceLine room a = t.traceLine room b := by
  have form : s.readable room a.form = t.readable room b.form := stores.write_eq room true same.1
  rw [Store.traceLine, Store.traceLine, form, same.2]

theorem reportLines_eq (room : Option Nat) {f g : Fault} (same : (ρ.upTo s).Faults f g) :
    s.reportLines room f = t.reportLines room g := by
  have value : s.faultText room f = t.faultText room g := by
    have known := same.value
    unfold Store.faultText
    generalize f.value = v at known
    generalize g.value = w at known
    cases known with
    | none => rfl
    | some values => exact stores.write_eq room false values
  have trace : f.trace.toList.mapM (s.traceLine room) = g.trace.toList.mapM (t.traceLine room) :=
    mapM_eq same.trace fun _ _ => stores.traceLine_eq room
  have source := same.source
  unfold Store.reportLines
  rw [value, trace, same.elided, same.kind]
  generalize f.source = v at source
  generalize g.source = w at source
  cases source with
  | none => rfl
  | @some v w values =>
    have form : s.readable room v = t.readable room w := stores.write_eq room true values
    simp only [form]

theorem report_eq (room : Option Nat) {f g : Fault} (same : (ρ.upTo s).Faults f g) :
    s.report room f = t.report room g := by
  have parts : (s.chain f).mapM (s.reportLines room) = (t.chain g).mapM (t.reportLines room) :=
    mapM_eq (stores.chain same) fun _ _ => stores.reportLines_eq room
  rw [Store.report, Store.report, parts]

end Stores

end Renaming

end LazyLisp
