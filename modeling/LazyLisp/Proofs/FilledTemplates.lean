import LazyLisp.Proofs.Catching
import LazyLisp.Proofs.Substitution

/-!
What a template in code comes to, part by part.

`Fills` asks of every value that a template spells what `Yields` asks of every expression that a code
spells: that it has no quotation inside, that its parts have values, and that `Q` holds of what they
are put into. `FillsItems` asks the same of a list, item by item.
-/

namespace LazyLisp

namespace Template

theorem isSymbolNamed_of_spells {d : Datum} {v v' : Value} (spelled : d.Spells v)
    (again : d.Spells v') (name : String) : v.isSymbolNamed name = v'.isSymbolNamed name := by
  cases spelled with
  | atom =>
    cases again
    rfl
  | pair _ _ =>
    cases again
    rfl

theorem isQuotation_of_spells {d : Datum} {v v' : Value} (spelled : d.Spells v)
    (again : d.Spells v') : isQuotation v = isQuotation v' := by
  cases spelled with
  | atom =>
    cases again
    rfl
  | pair head _ =>
    cases again with
    | pair head' _ =>
      simp only [isQuotation, isSymbolNamed_of_spells head head']

theorem depth_of_spells {d : Datum} {v v' : Value} (spelled : d.Spells v) (again : d.Spells v') :
    depth v = depth v' := by
  induction spelled generalizing v' with
  | atom =>
    cases again
    rfl
  | pair _ rest ihHead ihRest =>
    cases again with
    | pair head' rest' =>
      rw [depth, depth, ihHead head', ihRest rest', isQuotation_of_spells rest rest']

end Template

section Fills

variable {k : Nat} {w : World} {room : Option Nat} {frame : FrameId} {s : Store}
  {Q : Value → Store → Prop}

def Fills (w : World) (room : Option Nat) (template : Datum) (frame : FrameId) (s : Store)
    (Q : Value → Store → Prop) : Prop :=
  ∀ v, template.Spells v → Template.IsFlat v ∧ ∃ r t, (Eventually fun fuel =>
    Template.substitute (.evaluating w fuel room) frame v s = .ok r t) ∧ Q r t

def FillsItems (w : World) (room : Option Nat) (template : Datum) (frame : FrameId) (s : Store)
    (Q : List Value → Store → Prop) : Prop :=
  Fills w room template frame s fun v u => ∃ items t, Spine v items .nil ∧ Allocates t u ∧ Q items t

theorem Fills.mono {template : Datum} {P : Value → Store → Prop}
    (fills : Fills w room template frame s P) (implies : ∀ v t, P v t → Q v t) :
    Fills w room template frame s Q := by
  intro v spelled
  obtain ⟨flat, r, t, filled, holds⟩ := fills v spelled
  exact ⟨flat, r, t, filled, implies r t holds⟩

theorem Yields.quasiquote (fits : Fits (k + 1) room) {template : Datum}
    (deep : Template.depth (Value.ofDatum 0 template).1 ≤ k)
    (fills : Fills w (lower 1 room) template frame s Q) :
    Yields w room (.list [.symbol "quasiquote", template]) frame s Q := by
  intro expr spelled
  obtain ⟨_, ⟨v, _, rfl, coded, rfl⟩, stepped⟩ := step_special rfl spelled
  obtain ⟨flat, r, t, filled, holds⟩ := fills v coded
  have shallow : Template.depth v ≤ k := by
    rwa [Template.depth_of_spells coded (Datum.spells_ofDatum template 0)]
  have formed := flat.wellFormed id fun _ => True
  have enough : Eventually fun fuel => k ≤ fuel := ⟨k, fun _ => id⟩
  refine ⟨r, t, evaluates_of_value fits ((filled.both enough).mono ?_), holds⟩
  rintro fuel ⟨filled, enough⟩
  refine (stepped _ frame true s).trans (Run.map_of_ok ?_)
  have copied : Template.copy (.evaluating w fuel (lower 1 room)) frame v =
      Template.fill id (.evaluating w fuel (lower 1 room)) frame 1 v :=
    Template.copy_of_wellFormed formed (Nat.le_trans shallow enough) (fits.lower.mono shallow)
  change Template.copy _ frame v s = _
  rw [copied, Template.fill_of_isFlat flat]
  exact filled

theorem Fills.atom {a : Atom} (plain : Template.isKeyword (.atom a) = false)
    (holds : Q (.atom a) s) : Fills w room (.atom a) frame s Q := by
  intro v spelled
  obtain rfl := Datum.spells_atom spelled
  refine ⟨.leaf rfl plain, .atom a, s, .always fun fuel => ?_, holds⟩
  rw [Template.substitute_leaf rfl]
  rfl

theorem Fills.unquote {code : Datum} (yields : Yields w room code frame s Q) :
    Fills w room (.list [.symbol "unquote", code]) frame s Q := by
  intro v spelled
  obtain ⟨mark, _, rest, _, rfl, named, spine, expr, _, rfl, coded, rfl⟩ :=
    Datum.spells_form spelled
  obtain rfl := Datum.spells_atom named
  obtain ⟨r, t, evaluated, holds⟩ := yields expr coded
  cases spine with
  | cons spine =>
    cases spine
    refine ⟨.unquote, r, t, evaluated.mono fun fuel evaluated => ?_, holds⟩
    rw [Template.substitute]
    exact evaluated none

theorem Fills.list {template : Datum} (fills : FillsItems w room template frame s fun vs t =>
      ∀ v u, Spine v vs .nil → Allocates t u → Q v u) : Fills w room template frame s Q := by
  intro v spelled
  obtain ⟨flat, r, u, filled, items, t, spine, allocates, holds⟩ := fills v spelled
  exact ⟨flat, r, u, filled, holds r u spine allocates⟩

theorem FillsItems.nil {Q : List Value → Store → Prop} (holds : Q [] s) :
    FillsItems w room .nil frame s Q :=
  Fills.atom rfl ⟨[], s, .nil, .refl s, holds⟩

variable {head rest code : Datum} {Q : List Value → Store → Prop}

theorem FillsItems.cons (fills : Fills w room head frame s fun v t =>
      FillsItems w room rest frame t fun vs u => Q (v :: vs) u) :
    FillsItems w room (.pair head rest) frame s Q := by
  intro v spelled
  cases spelled with
  | pair headSpelled restSpelled =>
    obtain ⟨headFlat, h, t, headFilled, restFills⟩ := fills _ headSpelled
    obtain ⟨restFlat, r, u, restFilled, items, z, spine, allocates, holds⟩ := restFills _ restSpelled
    refine ⟨.pair headFlat restFlat, .pair u.nextMark h r, _,
      (headFilled.both restFilled).mono ?_, h :: items, z,
      .cons spine, allocates.trans (.mark u 1), holds⟩
    rintro fuel ⟨headFilled, restFilled⟩
    rw [Template.substitute_pair headFlat, Run.bind_of_ok headFilled, Run.bind_of_ok restFilled]
    rfl

theorem FillsItems.splice (yields : Yields w room code frame s fun v t => ∃ items,
      Spine v items .nil ∧ FillsItems w room rest frame t fun vs u => Q (items ++ vs) u) :
    FillsItems w room (.pair (.list [.symbol "unquote-splicing", code]) rest) frame s Q := by
  intro v spelled
  cases spelled with
  | pair headSpelled restSpelled =>
    obtain ⟨mark, _, _, _, rfl, named, operand, expr, _, rfl, coded, rfl⟩ :=
      Datum.spells_form headSpelled
    obtain rfl := Datum.spells_atom named
    obtain ⟨list, t, evaluated, items, listed, restFills⟩ := yields expr coded
    obtain ⟨restFlat, r, u, restFilled, others, z, spine, allocates, holds⟩ :=
      restFills _ restSpelled
    obtain ⟨whole, wholeSpine, made⟩ := listWith_spine items r u
    cases operand with
    | cons operand =>
      cases operand
      refine ⟨.splice restFlat, whole, _, (evaluated.both restFilled).mono ?_, items ++ others, z,
        wholeSpine.append spine, allocates.trans (.mark u items.length), holds⟩
      rintro fuel ⟨evaluated, restFilled⟩
      rw [Template.substitute]
      refine (Run.bind_of_ok (evaluated none)).trans ?_
      refine (Run.bind_of_ok (items_of_spine _ _ _ listed t)).trans ?_
      exact (Run.bind_of_ok restFilled).trans made

theorem FillsItems.atom {a : Atom} (plain : Template.isKeyword (.atom a) = false)
    (fills : FillsItems w room rest frame s fun vs t => Q (.atom a :: vs) t) :
    FillsItems w room (.pair (.atom a) rest) frame s Q := .cons (.atom plain fills)

theorem FillsItems.variable {bindings : List (String × Value)} (scope : Scope s frame bindings)
    (fits : Fits (k + 1) room) {name : String} {v : Value} (bound : bindings.lookup name = some v)
    (fills : FillsItems w room rest frame s fun vs t => Q (v :: vs) t) :
    FillsItems w room (.pair (.list [.symbol "unquote", .symbol name]) rest) frame s Q :=
  .cons (.unquote (.variable scope fits bound fills))

theorem FillsItems.list {template : Datum} (fills : FillsItems w room template frame s fun vs t =>
      ∀ v u, Spine v vs .nil → Allocates t u →
        FillsItems w room rest frame u fun others z => Q (v :: others) z) :
    FillsItems w room (.pair template rest) frame s Q := .cons (.list fills)

end Fills

end LazyLisp
