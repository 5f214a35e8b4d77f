import LazyLisp.Datum.Parser

/-!
Runs of the parser. `Move.Leads` says that the parser takes a row of tokens and ends in a given move
with the last of them; runs are put together at the constructs left open in between.
-/

namespace LazyLisp

namespace Move

/-- The parser takes the tokens one by one from the stack and makes the given move at the last. -/
inductive Leads : List OpenForm → List Token → Move → Prop where
  | last {stack t move} : feed stack t = .ok move → Leads stack [t] move
  | next {stack below t ts move} :
      feed stack t = .ok (.stay below) → Leads below ts move → Leads stack (t :: ts) move

namespace Leads

variable {stack below : List OpenForm} {ts us : List Token} {move : Move}

theorem append (first : Leads stack ts (.stay below)) (second : Leads below us move) :
    Leads stack (ts ++ us) move := by
  generalize same : Move.stay below = middle at first
  induction first with
  | last fed =>
    subst same
    exact .next fed second
  | next fed _ ih => exact .next fed (ih same)

/-- A run that completes a form is a form of the whole text. -/
theorem parseFormsFrom_eq {d : Datum} (complete : Leads stack ts (.complete d))
    (failure : Option ReadError) (done : Array (Datum × Nat)) (pos : Nat) (more : List Token) :
    ∃ stop, parseFormsFrom failure done stack pos (ts ++ more) =
      parseFormsFrom failure (done.push (d, stop)) [] stop more := by
  generalize same : Move.complete d = ending at complete
  induction complete generalizing pos with
  | @last stack t ending fed =>
    subst same
    exact ⟨t.stop, by simp [parseFormsFrom, fed]⟩
  | @next stack below t ts ending fed _ ih =>
    obtain ⟨stop, parsed⟩ := ih t.stop same
    exact ⟨stop, by simpa [parseFormsFrom, fed] using parsed⟩

end Leads

def Awaits : List OpenForm → Prop
  | .dotted _ _ (some _) :: _ => False
  | _ => True

/-- Where a form may start, a token that neither closes a list nor is its dot starts one. -/
theorem feed_eq_begin {stack : List OpenForm} {t : Token} (awaits : Awaits stack)
    (noClose : t.kind ≠ .rightParen) (noDot : t.isDot = false) : feed stack t = begin stack t := by
  unfold feed
  split
  · exact False.elim awaits
  · simp [noClose, noDot]
  · rfl

section Feed

variable {stack : List OpenForm} {t : Token} {start : Nat} {items : List Datum}

theorem feed_leftParen (awaits : Awaits stack) (opens : t.kind = .leftParen) :
    feed stack t = .ok (.stay (.list t.start [] :: stack)) := by
  rw [feed_eq_begin awaits (by simp [opens]) (by simp [Token.isDot, opens])]
  simp [begin, opens]

theorem feed_quotation {head : String} (awaits : Awaits stack) (mark : t.kind.isQuotation = true)
    (stands : OpenForm.quotationHead? t.text = some head) :
    feed stack t = .ok (.stay (.quotation head :: stack)) := by
  have quotation : t.kind = .quote ∨ t.kind = .unquote := by
    cases kind : t.kind <;> simp_all [Token.Kind.isQuotation]
  rcases quotation with kind | kind
  · rw [feed_eq_begin awaits (by simp [kind]) (by simp [Token.isDot, kind])]
    simp [begin, kind, stands]
  · rw [feed_eq_begin awaits (by simp [kind]) (by simp [Token.isDot, kind])]
    simp [begin, kind, stands]

theorem feed_list_rightParen (closes : t.kind = .rightParen) :
    feed (.list start items :: stack) t = .ok (fill (Datum.list items.reverse) stack) := by
  simp [feed, closes]

theorem feed_list_dot (nonempty : items ≠ []) (dot : t.isDot = true) :
    feed (.list start items :: stack) t = .ok (.stay (.dotted start items none :: stack)) := by
  have noClose : t.kind ≠ .rightParen := by
    rintro kind
    simp [Token.isDot, kind] at dot
  simp [feed, noClose, dot, nonempty]

theorem feed_dotted_rightParen {tail : Datum} (closes : t.kind = .rightParen) :
    feed (.dotted start items (some tail) :: stack) t =
      .ok (fill (Datum.listWith items.reverse tail) stack) := by
  simp [feed, closes]

end Feed

end Move

end LazyLisp
