import LazyLisp.Editor
import LazyLisp.Proofs.OutlinePlaces

/-!
The documents of an editor over a session.

A session is a row of notifications: documents are opened, changed and closed, in any order and
whether or not they are open. A document is open if it has been mentioned since it was closed last,
and then it has the text that was given last since then. Its outline and what was published about it
follow its text, so that an editor gets answers that depend on this text alone.
-/

namespace LazyLisp

/-- What an editor tells the service about a document. -/
inductive Notification where
  | opened (uri : String) (text : List Char)
  | changed (uri : String) (texts : List (List Char))
  | closed (uri : String)

namespace Notification

def uri : Notification → String
  | opened uri _ | changed uri _ | closed uri => uri

/-- The texts that are given for the document. -/
def texts : Notification → List (List Char)
  | opened _ text => [text]
  | changed _ texts => texts
  | closed _ => []

def isClose : Notification → Bool
  | closed _ => true
  | _ => false

def last? (uri : String) (ns : List Notification) : Option Notification :=
  (ns.filter (·.uri == uri)).getLast?

def sinceClose (uri : String) (ns : List Notification) : List Notification :=
  ((ns.filter (·.uri == uri)).reverse.takeWhile (!·.isClose)).reverse

/-- The text of a document that is open: the last one given for it, or the empty one. -/
def text? (uri : String) (ns : List Notification) : Option (List Char) :=
  if sinceClose uri ns = [] then none
  else some (((sinceClose uri ns).flatMap texts).getLast?.getD [])

def textAfter (n : Notification) (text : Option (List Char)) : Option (List Char) :=
  if n.isClose then none else some (n.texts.getLast?.getD (text.getD []))

section Append

variable {uri : String} {ns : List Notification} {n : Notification}

theorem last?_append_same (same : n.uri = uri) : last? uri (ns ++ [n]) = some n := by
  simp [last?, same]

theorem last?_append_other (other : n.uri ≠ uri) : last? uri (ns ++ [n]) = last? uri ns := by
  simp [last?, other]

theorem sinceClose_append_same (same : n.uri = uri) :
    sinceClose uri (ns ++ [n]) = if n.isClose then [] else sinceClose uri ns ++ [n] := by
  cases closes : n.isClose <;> simp [sinceClose, same, closes]

theorem sinceClose_append_other (other : n.uri ≠ uri) :
    sinceClose uri (ns ++ [n]) = sinceClose uri ns := by
  simp [sinceClose, other]

theorem text?_append_other (other : n.uri ≠ uri) : text? uri (ns ++ [n]) = text? uri ns := by
  rw [text?, text?, sinceClose_append_other other]

/-- Each notification changes the text as if only the text before were known. -/
theorem text?_append_same (same : n.uri = uri) :
    text? uri (ns ++ [n]) = n.textAfter (text? uri ns) := by
  rw [text?, sinceClose_append_same same, textAfter]
  cases n.isClose with
  | true => simp
  | false =>
    rw [if_neg Bool.false_ne_true, if_neg (by simp), if_neg Bool.false_ne_true, List.flatMap_append,
      List.getLast?_append, text?]
    by_cases none_yet : sinceClose uri ns = []
    · simp [none_yet]
    · rw [if_neg none_yet]
      cases given : n.texts.getLast? <;> simp [given]

end Append

end Notification

namespace Editor

open Notification

def notify (limit : Option Nat) (e : Editor) : Notification → Except Breakdown (Editor × List Publication)
  | .opened uri text => e.update limit uri text
  | .changed uri texts => e.change limit uri texts
  | .closed uri => .ok (e.close uri)

/-- Notifications one after the other, with all that is published. -/
def run (limit : Option Nat) (e : Editor) : List Notification → Except Breakdown (Editor × List Publication)
  | [] => .ok (e, [])
  | n :: ns => do
    let (e, now) ← e.notify limit n
    let (e, later) ← run limit e ns
    return (e, now ++ later)

section Documents

variable {limit : Option Nat} {e : Editor} {uri other : String}

theorem mem_uris_iff : uri ∈ e.documents.map (·.1) ↔ (e.find? uri).isSome := by
  rw [find?]
  induction e.documents with
  | nil => simp
  | cons entry rest ih =>
    obtain ⟨key, d⟩ := entry
    by_cases same : uri = key
    · simp [same]
    · rw [List.lookup_cons, beq_false_of_ne same, List.map_cons, List.mem_cons, ih]
      simp [same]

variable (documents : List (String × Document))

theorem lookup_filter_ne (ne : other ≠ uri) :
    (documents.filter (·.1 != uri)).lookup other = documents.lookup other := by
  induction documents with
  | nil => rfl
  | cons entry rest ih =>
    obtain ⟨key, d⟩ := entry
    by_cases dropped : key = uri
    · rw [List.filter_cons_of_neg (by simp [dropped]), List.lookup_cons, dropped,
        beq_false_of_ne ne, ih]
    · rw [List.filter_cons_of_pos (by simp [dropped]), List.lookup_cons, List.lookup_cons, ih]

theorem lookup_filter_self : (documents.filter (·.1 != uri)).lookup uri = none := by
  induction documents with
  | nil => rfl
  | cons entry rest ih =>
    obtain ⟨key, d⟩ := entry
    by_cases dropped : key = uri
    · rw [List.filter_cons_of_neg (by simp [dropped]), ih]
    · rw [List.filter_cons_of_pos (by simp [dropped]), List.lookup_cons,
        beq_false_of_ne (Ne.symm dropped), ih]

end Documents

def diagnosticsAt (e : Editor) (uri : String) : List Diagnostic :=
  match e.find? uri with
  | some d => diagnosticsOf d.outline
  | none => []

/-- No document is held twice, and each has the outline of its text. -/
structure Sound (limit : Option Nat) (e : Editor) : Prop where
  nodup : (e.documents.map (·.1)).Nodup
  indexed : ∀ uri d, e.find? uri = some d → Outline.ofText limit d.text = .ok d.outline

/-- From one state to the next only one document has changed. It has the given text or is closed, and
what is wrong with it now has been published. -/
structure Changes (limit : Option Nat) (e : Editor) (uri : String) (text : Option (List Char))
    (e' : Editor) (p : Publication) : Prop where
  sound : e'.Sound limit
  text : (e'.find? uri).map (·.text) = text
  others : ∀ other, other ≠ uri → e'.find? other = e.find? other
  about : p.uri = uri
  published : p.diagnostics = e'.diagnosticsAt uri

section Step

variable {limit : Option Nat} {e : Editor} {uri : String}

theorem nodup_others (uri : String) (distinct : (e.documents.map (·.1)).Nodup) :
    uri ∉ (e.documents.filter (·.1 != uri)).map (·.1) ∧
      ((e.documents.filter (·.1 != uri)).map (·.1)).Nodup :=
  ⟨by simp, distinct.sublist (List.filter_sublist.map _)⟩

theorem Sound.changes (sound : e.Sound limit) {e' : Editor} {entry : Option Document}
    (nodup : (e'.documents.map (·.1)).Nodup) (self : e'.find? uri = entry)
    (indexed : ∀ d, entry = some d → Outline.ofText limit d.text = .ok d.outline)
    (others : ∀ other, other ≠ uri → e'.find? other = e.find? other) :
    Changes limit e uri (entry.map (·.text)) e' ⟨uri, e'.diagnosticsAt uri⟩ where
  sound := by
    refine ⟨nodup, fun other d found => ?_⟩
    by_cases same : other = uri
    · exact indexed d (self ▸ same ▸ found)
    · exact sound.indexed other d (others other same ▸ found)
  text := by rw [self]
  others := others
  about := rfl
  published := rfl

theorem Sound.update (sound : e.Sound limit) {text : List Char} {o : Outline}
    (outline : Outline.ofText limit text = .ok o) :
    ∃ e' p, e.update limit uri text = .ok (e', [p]) ∧ Changes limit e uri (some text) e' p := by
  let e' : Editor := ⟨(uri, ⟨text, o⟩) :: e.documents.filter (·.1 != uri)⟩
  have self : e'.find? uri = some ⟨text, o⟩ := by simp [e', find?]
  have others (other : String) (ne : other ≠ uri) : e'.find? other = e.find? other := by
    rw [find?, List.lookup_cons, beq_false_of_ne ne]
    exact lookup_filter_ne _ ne
  have distinct : (e'.documents.map (·.1)).Nodup :=
    List.nodup_cons.mpr (nodup_others uri sound.nodup)
  have changes := sound.changes distinct self (fun d is => Option.some.inj is ▸ outline) others
  refine ⟨e', _, ?_, changes⟩
  rw [Editor.update, outline, diagnosticsAt, self]
  rfl

theorem Sound.close (sound : e.Sound limit) (uri : String) :
    ∃ e' p, e.close uri = (e', [p]) ∧ Changes limit e uri none e' p := by
  let e' : Editor := ⟨e.documents.filter (·.1 != uri)⟩
  have self : e'.find? uri = none := lookup_filter_self e.documents
  have others (other : String) (ne : other ≠ uri) : e'.find? other = e.find? other :=
    lookup_filter_ne e.documents ne
  have changes := sound.changes (nodup_others uri sound.nodup).2 self (fun _ is => nomatch is) others
  refine ⟨e', _, ?_, changes⟩
  rw [Editor.close, diagnosticsAt, self]

theorem manageable_nil (limit : Option Nat) : Manageable limit [] := by
  constructor <;> simp [nesting]

/-- Each notification changes one document, to the text that it should have now. -/
theorem Sound.notify (sound : e.Sound limit) (n : Notification)
    (manageable : ∀ text ∈ n.texts, Manageable limit text) :
    ∃ e' p, e.notify limit n = .ok (e', [p]) ∧
      Changes limit e n.uri (n.textAfter ((e.find? n.uri).map (·.text))) e' p := by
  cases n with
  | opened uri text =>
    obtain ⟨ps, -, outline⟩ := Outline.exists_ofText (manageable text List.mem_cons_self)
    exact sound.update outline
  | closed uri =>
    obtain ⟨e', p, closed, changes⟩ := sound.close uri
    exact ⟨e', p, congrArg Except.ok closed, changes⟩
  | changed uri texts =>
    have outlined : ∃ o, Outline.ofText limit
        (texts.getLast?.getD (((e.find? uri).map (·.text)).getD [])) = .ok o := by
      cases given : texts.getLast? with
      | some text =>
        obtain ⟨ps, -, outline⟩ :=
          Outline.exists_ofText (manageable text (List.mem_of_getLast? given))
        exact ⟨_, outline⟩
      | none =>
        cases found : e.find? uri with
        | some d => exact ⟨_, sound.indexed uri d found⟩
        | none =>
          obtain ⟨ps, -, outline⟩ := Outline.exists_ofText (manageable_nil limit)
          exact ⟨_, outline⟩
    obtain ⟨o, outline⟩ := outlined
    exact sound.update outline

end Step

/-- After the notifications, the documents that are open, their texts and what was published last are
as the notifications about them say. -/
structure Follows (limit : Option Nat) (ns : List Notification) (e : Editor) (ps : List Publication) :
    Prop where
  sound : e.Sound limit
  listed : ∀ uri, uri ∈ e.documents.map (·.1) ↔ ∃ n, last? uri ns = some n ∧ n.isClose = false
  text : ∀ uri, (e.find? uri).map (·.text) = text? uri ns
  published : ∀ uri, ((ps.filter (·.uri == uri)).getLast?).map (·.diagnostics) =
    (last? uri ns).map fun _ => e.diagnosticsAt uri

section Session

variable {limit : Option Nat} {past : List Notification} {e e' : Editor} {ps : List Publication}

theorem Changes.diagnosticsAt {uri other : String} {text : Option (List Char)} {p : Publication}
    (changes : Changes limit e uri text e' p) (ne : other ≠ uri) :
    e'.diagnosticsAt other = e.diagnosticsAt other := by
  rw [Editor.diagnosticsAt, Editor.diagnosticsAt, changes.others other ne]

theorem Follows.step (follows : Follows limit past e ps) {n : Notification} {p : Publication}
    (changes : Changes limit e n.uri (n.textAfter ((e.find? n.uri).map (·.text))) e' p) :
    Follows limit (past ++ [n]) e' (ps ++ [p]) := by
  constructor
  · exact changes.sound
  · intro uri
    rw [mem_uris_iff]
    by_cases same : n.uri = uri
    · subst same
      rw [last?_append_same rfl, ← Option.isSome_map, changes.text, textAfter]
      cases closes : n.isClose <;> simp [closes]
    · rw [last?_append_other same, changes.others uri (Ne.symm same), ← mem_uris_iff]
      exact follows.listed uri
  · intro uri
    by_cases same : n.uri = uri
    · subst same
      rw [changes.text, text?_append_same rfl, follows.text]
    · rw [text?_append_other same, changes.others uri (Ne.symm same), follows.text]
  · intro uri
    by_cases same : n.uri = uri
    · subst same
      rw [last?_append_same rfl, Option.map_some]
      simp [changes.about, changes.published]
    · rw [last?_append_other same, changes.diagnosticsAt (Ne.symm same), ← follows.published]
      simp [changes.about, same]

/-- What the notifications say holds at every point of a session. -/
theorem Follows.run (follows : Follows limit past e ps) (ns : List Notification)
    (manageable : ∀ n ∈ ns, ∀ text ∈ n.texts, Manageable limit text) :
    ∃ e' qs, Editor.run limit e ns = .ok (e', qs) ∧ Follows limit (past ++ ns) e' (ps ++ qs) := by
  induction ns generalizing past e ps with
  | nil => exact ⟨e, [], rfl, by simpa using follows⟩
  | cons n ns ih =>
    rw [List.forall_mem_cons] at manageable
    obtain ⟨e₁, p, notified, changes⟩ := follows.sound.notify n manageable.1
    obtain ⟨e₂, qs, ran, later⟩ := ih (follows.step changes) manageable.2
    refine ⟨e₂, p :: qs, ?_, by simpa using later⟩
    simp only [Editor.run, notified, ran, bind, Except.bind]
    rfl

theorem follows_empty (limit : Option Nat) : Follows limit [] empty [] := by
  constructor
  · constructor <;> simp [empty, find?]
  · simp [empty, last?]
  · simp [empty, find?, text?, sinceClose]
  · simp [last?]

/-- What an editor gets to know about one document is what another one gets to know about another. -/
structure Alike (e : Editor) (uri : String) (e' : Editor) (uri' : String) : Prop where
  hover : e.hover uri = e'.hover uri'
  completions : e.completions uri = e'.completions uri'
  symbols : e.symbols uri = e'.symbols uri'

/-- Documents with the same text are the same. -/
theorem Sound.alike {uri uri' : String} (sound : e.Sound limit) (sound' : e'.Sound limit)
    (same : (e.find? uri).map (·.text) = (e'.find? uri').map (·.text)) : Alike e uri e' uri' := by
  have documents : e.find? uri = e'.find? uri' := by
    match found : e.find? uri, found' : e'.find? uri' with
    | none, none => rfl
    | none, some d | some d, none => simp [found, found'] at same
    | some d, some d' =>
      obtain ⟨text, o⟩ := d
      obtain ⟨text', o'⟩ := d'
      obtain rfl : text = text' := by simpa [found, found'] using same
      have outline : Except.ok o = Except.ok o' :=
        (sound.indexed uri ⟨text, o⟩ found).symm.trans (sound'.indexed uri' ⟨text, o'⟩ found')
      rw [Except.ok.inj outline]
  constructor
  · funext line column
    rw [Editor.hover, Editor.hover, documents]
  · rw [Editor.completions, Editor.completions, documents]
  · rw [Editor.symbols, Editor.symbols, documents]

/-- Over every session the documents follow the notifications about them: which are open, what their
texts are, their outlines and what was published last. What an editor is answered depends on the text
alone, and a notification about one document leaves all others as they are. -/
theorem run_follows (ns : List Notification)
    (manageable : ∀ n ∈ ns, ∀ text ∈ n.texts, Manageable limit text) :
    ∃ e ps, Editor.run limit empty ns = .ok (e, ps) ∧ Follows limit ns e ps ∧
      (∀ ns' e' ps' uri uri', (∀ n ∈ ns', ∀ text ∈ n.texts, Manageable limit text) →
        Editor.run limit empty ns' = .ok (e', ps') → text? uri ns = text? uri' ns' →
        Alike e uri e' uri') ∧
      ∀ n, (∀ text ∈ n.texts, Manageable limit text) → ∃ e' p, e.notify limit n = .ok (e', [p]) ∧
        p.uri = n.uri ∧ ∀ uri, uri ≠ n.uri → e'.find? uri = e.find? uri := by
  obtain ⟨e, ps, ran, follows⟩ := (follows_empty limit).run ns manageable
  rw [List.nil_append] at follows
  refine ⟨e, ps, ran, follows, ?_, ?_⟩
  · intro ns' e' ps' uri uri' manageable' ran' same
    obtain ⟨e'', ps'', ran'', follows'⟩ := (follows_empty limit).run ns' manageable'
    cases ran'.symm.trans ran''
    refine follows.sound.alike follows'.sound ?_
    rw [follows.text, follows'.text, List.nil_append, same]
  · intro n given
    obtain ⟨e', p, notified, changes⟩ := follows.sound.notify n given
    exact ⟨e', p, notified, changes.about, changes.others⟩

/-- One document is opened, changed twice, the second time to what it is; another one is closed without
being open, changed to nothing and closed. -/
def twoDocuments : List Notification :=
  [.opened "a" "(define x 1)".toList, .closed "b", .changed "a" ["(".toList, "(f x".toList],
    .changed "b" [], .changed "a" [], .closed "b"]

theorem run_follows_twoDocuments :
    (∀ n ∈ twoDocuments, ∀ text ∈ n.texts, Manageable none text) ∧
      ∃ e ps, Editor.run none empty twoDocuments = .ok (e, ps) ∧ Follows none twoDocuments e ps ∧
        text? "a" twoDocuments = some "(f x".toList ∧ text? "b" twoDocuments = none := by
  have manageable : ∀ n ∈ twoDocuments, ∀ text ∈ n.texts, Manageable none text := by
    have short : ∀ n ∈ twoDocuments, ∀ text ∈ n.texts, ∀ t ∈ (lex text).tokens,
        ∀ integer ∈ Atom.integer? t.text.toList, integer.2.length ≤ maxDigits := by
      decide +kernel
    exact fun n among text given => .of_digits (short n among text given)
  obtain ⟨e, ps, ran, follows, -⟩ := run_follows twoDocuments manageable
  exact ⟨manageable, e, ps, ran, follows, by decide +kernel, by decide +kernel⟩

end Session

end Editor

end LazyLisp
