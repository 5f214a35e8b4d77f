import LazyLisp.Proofs.Printing
import LazyLisp.Proofs.StoreEvolution
import Mathlib.Data.List.Perm.Subperm
import Mathlib.Logic.Relation

/-!
When the text of a value comes to an end.

Eager pairs are trees, but a half that has been forced may lead back to the pair that it is a half
of. On a value from which the printer gets nowhere twice it comes to an end; a value from which it
does has no text.
-/

namespace LazyLisp

open Relation

namespace Store

/-- What the printer goes on to: the halves of a pair that it need not force, and the value of an
error. -/
inductive Shows (s : Store) : Value → Value → Prop where
  | car {mark car cdr} : Shows s (.pair mark car cdr) car
  | cdr {mark car cdr} : Shows s (.pair mark car cdr) cdr
  | head {ref p v} : s.lazyPairs[ref]? = some p → p.car = .ready v → Shows s (.lazyPair ref) v
  | tail {ref p v} : s.lazyPairs[ref]? = some p → p.cdr = .ready v → Shows s (.lazyPair ref) v
  | payload {ref f v} : s.errors[ref]? = some f → f.value = some v → Shows s (.error ref) v

/-- The value leads to one that leads back to itself. -/
def Tied (s : Store) (v : Value) : Prop :=
  ∃ w, ReflTransGen s.Shows v w ∧ TransGen s.Shows w w

def objects (s : Store) : List Value :=
  (List.range s.lazyPairs.size).map .lazyPair ++ (List.range s.errors.size).map .error

/-- The value has its text at hand, as far as the value itself goes. -/
def Legible (s : Store) : Value → Prop
  | .atom a => a.hasText = true
  | .lazyPair ref => ref < s.lazyPairs.size
  | .error ref => ref < s.errors.size
  | _ => True

variable {s : Store} {v w : Value}

theorem Tied.of_reaches (reaches : ReflTransGen s.Shows v w) (tied : s.Tied w) : s.Tied v := by
  obtain ⟨u, first, loop⟩ := tied
  exact ⟨u, reaches.trans first, loop⟩

theorem length_objects (s : Store) : s.objects.length = s.lazyPairs.size + s.errors.size := by
  simp [objects]

theorem length_objects_lt (s : Store) (room : Option Nat) :
    s.objects.length < s.enoughHops room := by
  rw [length_objects, enoughHops]
  exact Nat.lt_succ_of_le (Nat.le_mul_of_pos_left _ (Nat.succ_pos _))

theorem abbreviation?_eq_some {car cdr : Value} {mark : String}
    (found : abbreviation? car cdr = some mark) :
    ∃ name m item, car = .symbol name ∧ cdr = .pair m item .nil := by
  unfold abbreviation? at found
  split at found
  · exact ⟨_, _, _, rfl, rfl⟩
  · cases found

theorem mem_objects_lazyPair {ref : Nat} : .lazyPair ref ∈ s.objects ↔ ref < s.lazyPairs.size := by
  simp [objects]

theorem mem_objects_error {ref : Nat} : .error ref ∈ s.objects ↔ ref < s.errors.size := by
  simp [objects]

theorem quotation?_eq_some {p : LazyPair} {sign : String} {item : Value}
    (found : quotation? p = some (sign, item)) :
    ∃ name m, p.car = .ready (.symbol name) ∧ p.cdr = .ready (.pair m item .nil) := by
  unfold quotation? at found
  split at found
  · next car cdr =>
    obtain ⟨mark, quoted, same⟩ := Option.map_eq_some_iff.mp found
    obtain ⟨name, _, _, rfl, pair⟩ := abbreviation?_eq_some quoted
    cases pair
    cases same
    exact ⟨name, _, car, cdr⟩
  · cases found

theorem descend_eq_none {room deeper : Option Nat} (deep : descend room = some deeper)
    (none : room = none) : deeper = .none := by
  subst none
  cases deep
  rfl

section Writing

variable {readable : Bool} {room : Option Nat} {soFar : Option String}

/-- The text of a lazy pair goes on with its halves, on the same level or on the next. -/
theorem lazyPair_cases (ref : Nat) :
    (∀ hop, s.writeWith hop readable room soFar (.lazyPair ref) = .error .tooDeep) ∧
      (s.lazyPairs[ref]? = none ∨ descend room = none) ∨
    ∃ p deeper, s.lazyPairs[ref]? = some p ∧ (room = none → deeper = none) ∧
      ∀ hop, s.writeWith hop readable room soFar (.lazyPair ref) =
        writeLazy hop readable deeper soFar p := by
  cases held : s.lazyPairs[ref]? with
  | none => exact .inl ⟨fun hop => by simp only [writeWith, held], .inl rfl⟩
  | some p =>
    cases soFar with
    | some items => exact .inr ⟨p, room, rfl, id, fun hop => by simp [writeWith, held]⟩
    | none =>
      cases deep : descend room with
      | none => exact .inl ⟨fun hop => by simp [writeWith, held, deep], .inr rfl⟩
      | some deeper =>
        refine .inr ⟨p, deeper, rfl, descend_eq_none deep, fun hop => ?_⟩
        simp [writeWith, held, deep]

def writePayload (hop : Writer) (room : Option Nat) : Option Value → Written
  | some v => hop true room none v
  | none => .ok "#<void>"

theorem error_cases (ref : Nat) :
    (∀ hop, s.writeWith hop readable room soFar (.error ref) = .error .tooDeep) ∧
      (s.errors[ref]? = none ∨ descend room = none) ∨
    ∃ f deeper, s.errors[ref]? = some f ∧ (room = none → deeper = none) ∧
      ∀ hop, s.writeWith hop readable room soFar (.error ref) =
        (fun payload => closeList soFar ("#<error " ++ f.kind ++ ": " ++ payload ++ ">")) <$>
          writePayload hop deeper f.value := by
  cases held : s.errors[ref]? with
  | none => exact .inl ⟨fun hop => by simp only [writeWith, held], .inl rfl⟩
  | some f =>
    cases deep : descend room with
    | none => exact .inl ⟨fun hop => by simp only [writeWith, held, deep], .inr rfl⟩
    | some deeper =>
      refine .inr ⟨f, deeper, rfl, descend_eq_none deep, fun hop => ?_⟩
      cases value : f.value <;> simp [writeWith, held, deep, value, writePayload]

/-- The text of a pair goes on with its halves in order, or with what a quotation quotes. -/
theorem pair_cases (mark : Nat) (car cdr : Value) :
    (∀ hop, s.writeWith hop readable room soFar (.pair mark car cdr) = .error .tooDeep) ∧
      descend room = none ∨
    ∃ deeper, (room = none → deeper = none) ∧
      ((∃ sign name m item, car = .symbol name ∧ cdr = .pair m item .nil ∧
        ∀ hop, s.writeWith hop readable room soFar (.pair mark car cdr) =
          (sign ++ ·) <$> s.writeWith hop readable deeper none item) ∨
      ∀ hop, s.writeWith hop readable room soFar (.pair mark car cdr) =
        s.writeWith hop readable deeper none car >>= fun item =>
          s.writeWith hop readable deeper (some (addItem soFar item)) cdr) := by
  cases soFar with
  | some items => exact .inr ⟨room, id, .inr fun hop => by simp only [writeWith]⟩
  | none =>
    cases deep : descend room with
    | none => exact .inl ⟨fun hop => by simp only [writeWith, deep], rfl⟩
    | some deeper =>
      refine .inr ⟨deeper, descend_eq_none deep, ?_⟩
      cases found : abbreviation? car cdr with
      | none => exact .inr fun hop => by simp only [writeWith, deep, found]
      | some sign =>
        obtain ⟨name, m, item, rfl, rfl⟩ := abbreviation?_eq_some found
        refine .inl ⟨sign, name, m, item, rfl, rfl, fun hop => ?_⟩
        simp only [writeWith, deep, found]

/-- The text of a lazy pair goes on with its halves in order, or with what a quotation quotes. -/
theorem writeLazy_cases (p : LazyPair) :
    (∃ sign name m item, p.car = .ready (.symbol name) ∧ p.cdr = .ready (.pair m item .nil) ∧
      ∀ hop, writeLazy hop readable room soFar p = (sign ++ ·) <$> hop readable room none item) ∨
    ∀ hop, writeLazy hop readable room soFar p =
      writeHead hop readable room p.car >>= fun item =>
        writeTail hop readable room (addItem soFar item) p.cdr := by
  cases soFar with
  | some items => exact .inr fun hop => by simp only [writeLazy]
  | none =>
    cases found : quotation? p with
    | none => exact .inr fun hop => by simp only [writeLazy, found]
    | some quoted =>
      obtain ⟨sign, item⟩ := quoted
      obtain ⟨name, m, car, cdr⟩ := quotation?_eq_some found
      exact .inl ⟨sign, name, m, item, car, cdr, fun hop => by simp only [writeLazy, found]⟩

end Writing

def FailsOnly (allowed : WriteFailure → Prop) (text : Written) : Prop :=
  ∀ e, text = .error e → allowed e

def Unhindered (s : Store) (allowed : WriteFailure → Prop) (room : Option Nat) (v : Value) : Prop :=
  allowed .tooDeep ∧ allowed .tooManyDigits ∨
    room = none ∧ ∀ w, ReflTransGen s.Shows v w → s.Legible w

section FailsOnly

variable {allowed : WriteFailure → Prop} {room deeper : Option Nat}

theorem FailsOnly.ok (text : String) : FailsOnly allowed (.ok text) := nofun

theorem FailsOnly.error {e : WriteFailure} (allows : allowed e) : FailsOnly allowed (.error e) := by
  rintro _ ⟨⟩
  exact allows

theorem FailsOnly.bind {first : Written} {rest : String → Written} (begins : FailsOnly allowed first)
    (goesOn : ∀ text, FailsOnly allowed (rest text)) : FailsOnly allowed (first >>= rest) := by
  cases first with
  | ok text => exact goesOn text
  | error e => exact .error (begins e rfl)

theorem FailsOnly.map {text : Written} (written : FailsOnly allowed text) (f : String → String) :
    FailsOnly allowed (f <$> text) := by
  cases text with
  | ok text => exact .ok _
  | error e => exact .error (written e rfl)

theorem Unhindered.onward (free : s.Unhindered allowed room v) (leads : ReflTransGen s.Shows v w)
    (unlimited : room = none → deeper = none) : s.Unhindered allowed deeper w := by
  refine free.imp_right ?_
  rintro ⟨none, legible⟩
  exact ⟨unlimited none, fun u onward => legible u (leads.trans onward)⟩

theorem Unhindered.tooDeep (free : s.Unhindered allowed room v)
    (stops : ¬ s.Legible v ∨ descend room = none) : allowed .tooDeep := by
  rcases free with ⟨allows, -⟩ | ⟨rfl, legible⟩
  · exact allows
  · exact stops.elim (fun illegible => (illegible (legible v .refl)).elim) nofun

theorem Unhindered.writeAtom {a : Atom} (free : s.Unhindered allowed room (.atom a))
    (readable : Bool) : FailsOnly allowed (writeAtom readable a) := by
  unfold Store.writeAtom
  split
  · exact .ok _
  · next noText =>
    rcases free with ⟨-, allows⟩ | ⟨-, legible⟩
    · exact .error allows
    · exact (noText (legible _ .refl)).elim

theorem writeLazy_failsOnly {hop : Writer} {ref : Nat} {p : LazyPair}
    (held : s.lazyPairs[ref]? = some p)
    (later : ∀ v, TransGen s.Shows (.lazyPair ref) v → ∀ readable soFar,
      FailsOnly allowed (hop readable room soFar v)) (readable : Bool) (soFar : Option String) :
    FailsOnly allowed (writeLazy hop readable room soFar p) := by
  rcases writeLazy_cases p with ⟨sign, name, m, item, -, ready, written⟩ | written
  · rw [written hop]
    exact (later item (.tail (.single (.tail held ready)) .car) readable none).map _
  · rw [written hop]
    refine .bind ?_ fun text => ?_
    · cases ready : p.car with
      | pending _ _ => exact .ok _
      | ready v => exact later v (.single (.head held ready)) readable none
    · cases ready : p.cdr with
      | pending _ _ => exact .ok _
      | ready v => exact later v (.single (.tail held ready)) readable _

theorem writeWith_failsOnly {hop : Writer} {room : Option Nat} (v : Value) (readable : Bool)
    (soFar : Option String) (free : s.Unhindered allowed room v)
    (later : ∀ o w room, o ∈ s.objects → ReflTransGen s.Shows v o → TransGen s.Shows o w →
      s.Unhindered allowed room w → ∀ readable soFar,
      FailsOnly allowed (hop readable room soFar w)) :
    FailsOnly allowed (s.writeWith hop readable room soFar v) := by
  match v with
  | .atom a =>
    have written := (free.writeAtom readable).map (closeList soFar)
    cases soFar <;> cases a <;> first | exact written | exact .ok _
  | .nan _ | .procedure _ | .input _ => exact .ok _
  | .lazyPair ref =>
    rcases lazyPair_cases ref with ⟨written, stops⟩ | ⟨p, deeper, held, unlimited, written⟩
    · rw [written hop]
      refine .error (free.tooDeep (stops.imp_left fun missing => ?_))
      exact Nat.not_lt.mpr (Array.getElem?_eq_none_iff.mp missing)
    · rw [written hop]
      refine writeLazy_failsOnly held (fun w leads => ?_) readable soFar
      exact later _ w deeper (mem_objects_lazyPair.mpr (Hidden.old_of_getElem? held)) .refl leads
        (free.onward leads.to_reflTransGen unlimited)
  | .error ref =>
    rcases error_cases ref with ⟨written, stops⟩ | ⟨f, deeper, held, unlimited, written⟩
    · rw [written hop]
      refine .error (free.tooDeep (stops.imp_left fun missing => ?_))
      exact Nat.not_lt.mpr (Array.getElem?_eq_none_iff.mp missing)
    · rw [written hop]
      refine .map ?_ _
      cases value : f.value with
      | none => exact .ok _
      | some w =>
        have leads : TransGen s.Shows (.error ref) w := .single (.payload held value)
        exact later _ w deeper (mem_objects_error.mpr (Hidden.old_of_getElem? held)) .refl leads
          (free.onward leads.to_reflTransGen unlimited) true none
  | .pair mark car cdr =>
    have part {w : Value} {deeper : Option Nat} (leads : ReflTransGen s.Shows (.pair mark car cdr) w)
        (unlimited : room = none → deeper = none) := And.intro (free.onward leads unlimited)
      fun o u room member (reaches : ReflTransGen s.Shows w o) =>
        later o u room member (leads.trans reaches)
    rcases pair_cases mark car cdr with
      ⟨written, stops⟩ | ⟨deeper, unlimited, ⟨sign, name, m, item, rfl, rfl, written⟩ | written⟩
    · rw [written hop]
      exact .error (free.tooDeep (.inr stops))
    · rw [written hop]
      obtain ⟨free, later⟩ := part (.tail (.single .cdr) .car) unlimited
      exact (writeWith_failsOnly item readable none free later).map _
    · rw [written hop]
      refine .bind ?_ fun text => ?_
      · obtain ⟨free, later⟩ := part (.single .car) unlimited
        exact writeWith_failsOnly car readable none free later
      · obtain ⟨free, later⟩ := part (.single .cdr) unlimited
        exact writeWith_failsOnly cdr readable _ free later

theorem writeWithin_failsOnly (hops : Nat) {seen : List Value} (nodup : seen.Nodup)
    (old : ∀ o ∈ seen, o ∈ s.objects ∧ TransGen s.Shows o v)
    (enough : s.objects.length < hops + seen.length) (untied : ¬ s.Tied v)
    (free : s.Unhindered allowed room v) (readable : Bool) (soFar : Option String) :
    FailsOnly allowed (s.writeWithin hops readable room soFar v) := by
  induction hops generalizing seen v room readable soFar with
  | zero =>
    have fits := (List.subperm_of_subset nodup fun o member => (old o member).1).length_le
    omega
  | succ hops ih =>
    refine writeWith_failsOnly v readable soFar free ?_
    intro o w room member reaches leads free readable soFar
    have new : o ∉ seen := fun again =>
      untied ⟨o, reaches, .trans_left (old o again).2 reaches⟩
    refine ih (List.nodup_cons.mpr ⟨new, nodup⟩) ?_ ?_ ?_ free readable soFar
    · intro u known
      rcases List.mem_cons.mp known with rfl | known
      · exact ⟨member, leads⟩
      · exact ⟨(old u known).1, (old u known).2.trans_left reaches |>.trans leads⟩
    · rw [List.length_cons]
      omega
    · exact fun tied => untied (tied.of_reaches (reaches.trans leads.to_reflTransGen))

end FailsOnly

def Grounded (s : Store) (v : Value) : Prop := Acc (fun w u => s.Shows u w) v

theorem Grounded.not_loop (grounded : s.Grounded v) : ¬ TransGen s.Shows v v := by
  have everyWay : Acc (TransGen fun w u => s.Shows u w) v := grounded.transGen
  induction everyWay with
  | intro v _ ih =>
    intro loop
    have back := transGen_swap.mpr loop
    exact ih v back grounded loop

theorem Grounded.onward (grounded : s.Grounded v) (reaches : ReflTransGen s.Shows v w) :
    s.Grounded w := by
  induction reaches with
  | refl => exact grounded
  | tail _ step ih => exact ih.inv step

theorem Grounded.not_tied (grounded : s.Grounded v) : ¬ s.Tied v := by
  rintro ⟨w, reaches, loop⟩
  exact (grounded.onward reaches).not_loop loop

theorem Grounded.atom (a : Atom) : s.Grounded (.atom a) := ⟨_, nofun⟩

theorem Grounded.pair {mark : Nat} {car cdr : Value} (first : s.Grounded car)
    (second : s.Grounded cdr) : s.Grounded (.pair mark car cdr) := by
  refine ⟨_, fun w shown => ?_⟩
  cases shown with
  | car => exact first
  | cdr => exact second

section Written

variable {hop : Writer} {room : Option Nat} {soFar : Option String} {text : String}

theorem grounded_of_writeLazy
    (later : ∀ {readable room soFar v text}, hop readable room soFar v = .ok text → s.Grounded v)
    {ref : Nat} {p : LazyPair} (held : s.lazyPairs[ref]? = some p) {readable : Bool}
    (written : writeLazy hop readable room soFar p = .ok text) : s.Grounded (.lazyPair ref) := by
  have grounded (first : ∀ v, p.car = .ready v → s.Grounded v)
      (second : ∀ v, p.cdr = .ready v → s.Grounded v) : s.Grounded (.lazyPair ref) := by
    refine ⟨_, fun w shown => ?_⟩
    cases shown with
    | head again ready =>
      cases held.symm.trans again
      exact first w ready
    | tail again ready =>
      cases held.symm.trans again
      exact second w ready
  rcases writeLazy_cases p with ⟨sign, name, m, item, car, cdr, goesOn⟩ | goesOn
  · rw [goesOn hop] at written
    obtain ⟨part, written, -⟩ := exists_of_map written
    refine grounded ?_ ?_
    · rintro v ready
      cases car.symm.trans ready
      exact .atom _
    · rintro v ready
      cases cdr.symm.trans ready
      exact .pair (later written) (.atom _)
  · rw [goesOn hop] at written
    obtain ⟨part, head, tail⟩ := exists_of_bind written
    refine grounded ?_ ?_
    · intro v ready
      rw [ready] at head
      exact later head
    · intro v ready
      rw [ready] at tail
      exact later tail

theorem grounded_of_writeWith {room : Option Nat} {soFar : Option String} {text : String}
    (later : ∀ {readable room soFar v text}, hop readable room soFar v = .ok text → s.Grounded v)
    {readable : Bool} (v : Value) (written : s.writeWith hop readable room soFar v = .ok text) :
    s.Grounded v := by
  match v with
  | .atom _ | .nan _ | .procedure _ | .input _ => exact ⟨_, nofun⟩
  | .lazyPair ref =>
    rcases lazyPair_cases ref with ⟨failed, -⟩ | ⟨p, deeper, held, -, goesOn⟩
    · cases (failed hop).symm.trans written
    · exact grounded_of_writeLazy later held ((goesOn hop).symm.trans written)
  | .error ref =>
    rcases error_cases ref with ⟨failed, -⟩ | ⟨f, deeper, held, -, goesOn⟩
    · cases (failed hop).symm.trans written
    · obtain ⟨part, payload, -⟩ := exists_of_map ((goesOn hop).symm.trans written)
      refine ⟨_, fun w shown => ?_⟩
      cases shown with
      | payload again value =>
        cases held.symm.trans again
        rw [value] at payload
        exact later payload
  | .pair mark car cdr =>
    rcases pair_cases mark car cdr with
      ⟨failed, -⟩ | ⟨deeper, -, ⟨sign, name, m, item, rfl, rfl, goesOn⟩ | goesOn⟩
    · cases (failed hop).symm.trans written
    · obtain ⟨part, written, -⟩ := exists_of_map ((goesOn hop).symm.trans written)
      exact .pair (.atom _) (.pair (grounded_of_writeWith later item written) (.atom _))
    · obtain ⟨part, first, rest⟩ := exists_of_bind ((goesOn hop).symm.trans written)
      exact .pair (grounded_of_writeWith later car first) (grounded_of_writeWith later cdr rest)

theorem grounded_of_writeWithin (hops : Nat) {readable : Bool} {room : Option Nat}
    {soFar : Option String} {v : Value} {text : String}
    (written : s.writeWithin hops readable room soFar v = .ok text) : s.Grounded v := by
  induction hops generalizing readable room soFar v text with
  | zero => cases written
  | succ hops ih => exact grounded_of_writeWith ih v written

end Written

def Sharpens (text sharper : Written) : Prop := text = .error .endless ∨ sharper = text

section Sharpens

theorem Sharpens.bind {text sharper : Written} {rest sharperRest : String → Written}
    (first : Sharpens text sharper) (goesOn : ∀ part, Sharpens (rest part) (sharperRest part)) :
    Sharpens (text >>= rest) (sharper >>= sharperRest) := by
  rcases first with rfl | rfl
  · exact .inl rfl
  · cases sharper with
    | ok part => exact goesOn part
    | error e => exact .inr rfl

theorem Sharpens.map {text sharper : Written} (first : Sharpens text sharper)
    (f : String → String) : Sharpens (f <$> text) (f <$> sharper) := by
  rcases first with rfl | rfl
  · exact .inl rfl
  · exact .inr rfl

variable {hop sharper : Writer} {readable : Bool}

theorem writeWith_sharpens {room : Option Nat} {soFar : Option String}
    (later : ∀ readable room soFar v,
      Sharpens (hop readable room soFar v) (sharper readable room soFar v)) (v : Value) :
    Sharpens (s.writeWith hop readable room soFar v) (s.writeWith sharper readable room soFar v) := by
  match v with
  | .atom a => exact .inr (by cases soFar <;> cases a <;> rfl)
  | .nan _ | .procedure _ | .input _ => exact .inr rfl
  | .lazyPair ref =>
    rcases lazyPair_cases ref with ⟨failed, -⟩ | ⟨p, deeper, -, -, goesOn⟩
    · exact .inr ((failed _).trans (failed _).symm)
    · rw [goesOn, goesOn]
      rcases writeLazy_cases p with ⟨sign, name, m, item, -, -, goesOn⟩ | goesOn
      · rw [goesOn, goesOn]
        exact (later readable deeper none item).map _
      · rw [goesOn, goesOn]
        refine .bind ?_ fun part => ?_
        · cases p.car with
          | pending _ _ => exact .inr rfl
          | ready v => exact later readable deeper none v
        · cases p.cdr with
          | pending _ _ => exact .inr rfl
          | ready v => exact later readable deeper _ v
  | .error ref =>
    rcases error_cases ref with ⟨failed, -⟩ | ⟨f, deeper, -, -, goesOn⟩
    · exact .inr ((failed _).trans (failed _).symm)
    · rw [goesOn, goesOn]
      refine .map ?_ _
      cases f.value with
      | none => exact .inr rfl
      | some v => exact later true deeper none v
  | .pair mark car cdr =>
    rcases pair_cases mark car cdr with
      ⟨failed, -⟩ | ⟨deeper, -, ⟨sign, name, m, item, rfl, rfl, goesOn⟩ | goesOn⟩
    · exact .inr ((failed _).trans (failed _).symm)
    · rw [goesOn, goesOn]
      exact (writeWith_sharpens later item).map _
    · rw [goesOn, goesOn]
      exact .bind (writeWith_sharpens later car) fun part => writeWith_sharpens later cdr

theorem writeWithin_sharpens {few many : Nat} (fewer : few ≤ many) (readable : Bool)
    (room : Option Nat) (soFar : Option String) (v : Value) :
    Sharpens (s.writeWithin few readable room soFar v)
      (s.writeWithin many readable room soFar v) := by
  induction few generalizing many readable room soFar v with
  | zero => exact .inl rfl
  | succ few ih =>
    obtain ⟨many, rfl⟩ := Nat.exists_eq_add_of_le' (Nat.lt_of_lt_of_le (Nat.succ_pos few) fewer)
    exact writeWith_sharpens (ih (Nat.le_of_succ_le_succ fewer)) v

end Sharpens

def readyHalves (p : LazyPair) : Option Value × Option Value := (p.car.value?, p.cdr.value?)

theorem writeLazy_of_readyHalves {p q : LazyPair} (same : readyHalves q = readyHalves p)
    (hop : Writer) (readable : Bool) (room : Option Nat) (soFar : Option String) :
    writeLazy hop readable room soFar q = writeLazy hop readable room soFar p := by
  obtain ⟨car, cdr⟩ := p
  obtain ⟨car', cdr'⟩ := q
  obtain ⟨first, second⟩ := Prod.mk.inj same
  have half {slot slot' : Slot} (same : slot'.value? = slot.value?) :
      slot' = slot ∨ ∃ expr i expr' i', slot = .pending expr i ∧ slot' = .pending expr' i' := by
    cases slot with
    | ready v =>
      cases slot' with
      | ready v' => exact .inl (congrArg _ (Option.some.inj same))
      | pending _ _ => cases same
    | pending expr i =>
      cases slot' with
      | ready _ => cases same
      | pending expr' i' => exact .inr ⟨expr, i, expr', i', rfl, rfl⟩
  rcases half first with same | ⟨_, _, _, _, same, same'⟩ <;>
    rcases half second with other | ⟨_, _, _, _, other, other'⟩ <;>
    simp_all [writeLazy, quotation?, writeHead, writeTail]

section Pending

variable {lazyPairs : Array LazyPair}

theorem writeWith_lazyPairs
    (same : ∀ ref : Nat, lazyPairs[ref]?.map readyHalves = s.lazyPairs[ref]?.map readyHalves)
    (hop : Writer) (readable : Bool) (room : Option Nat) (soFar : Option String) (v : Value) :
    writeWith { s with lazyPairs } hop readable room soFar v =
      s.writeWith hop readable room soFar v := by
  match v with
  | .atom a => cases soFar <;> cases a <;> rfl
  | .nan _ | .procedure _ | .input _ | .error _ => rfl
  | .lazyPair ref =>
    have entry := same ref
    simp only [writeWith]
    cases held : s.lazyPairs[ref]? with
    | none =>
      rw [held] at entry
      rw [Option.map_eq_none_iff.mp entry]
    | some p =>
      rw [held] at entry
      obtain ⟨q, held', same⟩ := Option.map_eq_some_iff.mp entry
      rw [held']
      cases if soFar.isNone then descend room else some room with
      | none => rfl
      | some room => exact writeLazy_of_readyHalves same hop readable room soFar
  | .pair _ car cdr =>
    have item := fun room => writeWith_lazyPairs same hop readable room none car
    have rest := fun room items => writeWith_lazyPairs same hop readable room (some items) cdr
    cases soFar with
    | some items => simp only [writeWith, item, rest]
    | none =>
      simp only [writeWith]
      split
      · rfl
      · split
        · next item _ _ => rw [writeWith_lazyPairs same hop readable _ none item]
        · simp only [item, rest]

theorem writeWithin_lazyPairs
    (same : ∀ ref : Nat, lazyPairs[ref]?.map readyHalves = s.lazyPairs[ref]?.map readyHalves)
    (hops : Nat) : writeWithin { s with lazyPairs } hops = s.writeWithin hops := by
  induction hops with
  | zero => rfl
  | succ hops ih =>
    funext readable room soFar v
    rw [writeWithin, writeWithin, ih]
    exact writeWith_lazyPairs same _ readable room soFar v

theorem size_of_readyHalves
    (same : ∀ ref : Nat, lazyPairs[ref]?.map readyHalves = s.lazyPairs[ref]?.map readyHalves) :
    lazyPairs.size = s.lazyPairs.size := by
  have missing (ref : Nat) : lazyPairs.size ≤ ref ↔ s.lazyPairs.size ≤ ref := by
    rw [← Array.getElem?_eq_none_iff, ← Array.getElem?_eq_none_iff, ← Option.map_eq_none_iff, same,
      Option.map_eq_none_iff]
  exact Nat.le_antisymm ((missing _).mpr (Nat.le_refl _)) ((missing _).mp (Nat.le_refl _))

theorem write_lazyPairs
    (same : ∀ ref : Nat, lazyPairs[ref]?.map readyHalves = s.lazyPairs[ref]?.map readyHalves)
    (room : Option Nat) (readable : Bool) (v : Value) :
    write { s with lazyPairs } room readable v = s.write room readable v := by
  rw [write, write, writeWithin_lazyPairs same, enoughHops, enoughHops, size_of_readyHalves same]

end Pending

theorem writeWithin_endless {ref : Nat} {expr : Value} {frame : FrameId}
    (held : s.lazyPairs[ref]? = some ⟨.pending expr frame, .ready (.lazyPair ref)⟩)
    {room deeper : Option Nat} (deep : descend room = some deeper) (hops : Nat) (readable : Bool) :
    s.writeWithin hops readable room none (.lazyPair ref) = .error .endless := by
  have within (hops : Nat) (items : String) :
      s.writeWithin hops readable deeper (some items) (.lazyPair ref) = .error .endless := by
    induction hops generalizing items with
    | zero => rfl
    | succ hops ih =>
      simp only [writeWithin, writeWith, held, writeLazy, writeHead, writeTail]
      exact ih _
  cases hops with
  | zero => rfl
  | succ hops =>
    simp only [writeWithin, writeWith, held, Option.isNone_none, if_true, deep, writeLazy,
      quotation?, writeHead, writeTail]
    exact within hops _

/-- The printer comes to an end on every value that is not tied, and more hops would change nothing.
If nothing is in its way, there is a text. A tied value has none, however long the printer goes on.
What waits in a half without a value makes no difference. -/
theorem printer_ends_unless_tied (s : Store) (v : Value) (readable : Bool) :
    (¬ s.Tied v → ∀ room, s.write room readable v ≠ .error .endless ∧
      ∀ hops, s.enoughHops room ≤ hops →
        s.writeWithin hops readable room none v = s.write room readable v) ∧
    (¬ s.Tied v → (∀ w, ReflTransGen s.Shows v w → s.Legible w) →
      ∃ text, s.write none readable v = .ok text) ∧
    (s.Tied v → ∀ room hops text, s.writeWithin hops readable room none v ≠ .ok text) ∧
    ∀ lazyPairs : Array LazyPair,
      (∀ ref : Nat, lazyPairs[ref]?.map readyHalves = s.lazyPairs[ref]?.map readyHalves) →
      ∀ room, write { s with lazyPairs } room readable v = s.write room readable v := by
  have failsOnly {allowed : WriteFailure → Prop} {room : Option Nat} (untied : ¬ s.Tied v)
      (free : s.Unhindered allowed room v) : FailsOnly allowed (s.write room readable v) :=
    writeWithin_failsOnly (s.enoughHops room) .nil nofun (s.length_objects_lt room) untied free
      readable none
  refine ⟨fun untied room => ?_, fun untied legible => ?_, fun tied room hops text written => ?_, ?_⟩
  · have fails : FailsOnly (· ≠ .endless) (s.write room readable v) :=
      failsOnly untied (.inl ⟨nofun, nofun⟩)
    have ends : s.write room readable v ≠ .error .endless := fun endless => fails _ endless rfl
    refine ⟨ends, fun hops enough => ?_⟩
    exact (writeWithin_sharpens enough readable room none v).resolve_left ends
  · have fails : FailsOnly (fun _ => False) (s.write none readable v) :=
      failsOnly untied (.inr ⟨rfl, legible⟩)
    cases written : s.write none readable v with
    | ok text => exact ⟨text, rfl⟩
    | error e => exact (fails e written).elim
  · exact (grounded_of_writeWithin hops written).not_tied tied
  · exact fun lazyPairs same room => write_lazyPairs same room readable v

end Store

def tying : String := "(define p (lazy-cons 1 p)) (cdr p)"

def tiedStore : Store := after (Session.eval bareWorld 20 tying bareStore)

def isTied : EStateM.Result Interrupt Store Value → Bool
  | .ok (.lazyPair 0) s =>
    match s.lazyPairs.toList with
    | [⟨.pending _ _, .ready (.lazyPair 0)⟩] => true
    | _ => false
  | _ => false

theorem exists_of_isTied {result : EStateM.Result Interrupt Store Value}
    (tied : isTied result = true) :
    result = .ok (.lazyPair 0) (after result) ∧ ∃ expr frame,
      (after result).lazyPairs[0]? = some ⟨.pending expr frame, .ready (.lazyPair 0)⟩ := by
  unfold isTied at tied
  split at tied
  · next s =>
    split at tied
    · next expr frame only =>
      refine ⟨rfl, expr, frame, ?_⟩
      rw [after, ← Array.getElem?_toList, only]
      rfl
    · cases tied
  · cases tied

theorem eval_tying :
    Session.eval bareWorld 20 tying bareStore = .ok (.lazyPair 0) tiedStore ∧ ∃ expr frame,
      tiedStore.lazyPairs[0]? = some ⟨.pending expr frame, .ready (.lazyPair 0)⟩ :=
  have tied : isTied (Session.eval bareWorld 20 tying bareStore) = true := by decide +kernel
  exists_of_isTied tied

/-- Beside it, a lazy list whose second half has been forced. The result has it in two places, as it
is and as the value of an error. -/
def sharing : String :=
  "(define q (lazy-cons 2 (cons 3 nil))) (cdr q) (cons (catch-error (throw-error 'boom q)) q)"

def sharedStore : Store := after (Session.eval bareWorld 20 sharing tiedStore)

def shared : Value := .pair 30 (.error 0) (.lazyPair 1)

def isShared : EStateM.Result Interrupt Store Value → Bool
  | .ok (.pair 30 (.error 0) (.lazyPair 1)) s =>
    match s.lazyPairs.toList, s.errors.toList with
    | [⟨.pending _ _, .ready (.lazyPair 0)⟩, ⟨.pending _ _, .ready (.pair _ (.atom (.int 3)) .nil)⟩],
      [⟨_, some (.lazyPair 1), _, _, _, _, _, _⟩] => true
    | _, _ => false
  | _ => false

theorem exists_of_isShared {result : EStateM.Result Interrupt Store Value}
    (isShared : isShared result = true) : result = .ok shared (after result) ∧
      (∃ expr frame, (after result).lazyPairs[0]? =
        some ⟨.pending expr frame, .ready (.lazyPair 0)⟩) ∧
      (∃ expr frame mark, (after result).lazyPairs[1]? =
        some ⟨.pending expr frame, .ready (.pair mark (.atom (.int 3)) .nil)⟩) ∧
      ∃ f, (after result).errors[0]? = some f ∧ f.value = some (.lazyPair 1) := by
  unfold LazyLisp.isShared at isShared
  split at isShared
  · next s =>
    split at isShared
    · next pairs errors =>
      simp only [after, ← Array.getElem?_toList, pairs, errors]
      exact ⟨rfl, ⟨_, _, rfl⟩, ⟨_, _, _, rfl⟩, _, rfl, rfl⟩
    · cases isShared
  · cases isShared

theorem eval_sharing : Session.eval bareWorld 20 sharing tiedStore = .ok shared sharedStore ∧
    (∃ expr frame, sharedStore.lazyPairs[0]? =
      some ⟨.pending expr frame, .ready (.lazyPair 0)⟩) ∧
    (∃ expr frame mark, sharedStore.lazyPairs[1]? =
      some ⟨.pending expr frame, .ready (.pair mark (.atom (.int 3)) .nil)⟩) ∧
    ∃ f, sharedStore.errors[0]? = some f ∧ f.value = some (.lazyPair 1) :=
  have isShared : isShared (Session.eval bareWorld 20 sharing tiedStore) = true := by decide +kernel
  exists_of_isShared isShared

/-- The printer goes through what the value shows, and each part of it has its text at hand. -/
def Store.Clear (s : Store) (v : Value) : Prop :=
  s.Grounded v ∧ ∀ w, ReflTransGen s.Shows v w → s.Legible w

theorem Store.Clear.of_shows {s : Store} {v : Value} (legible : s.Legible v)
    (clear : ∀ w, s.Shows v w → s.Clear w) : s.Clear v := by
  refine ⟨⟨_, fun w shown => (clear w shown).1⟩, fun w reaches => ?_⟩
  rcases reaches.cases_head with rfl | ⟨u, shown, further⟩
  · exact legible
  · exact (clear u shown).2 w further

theorem clear_shared : sharedStore.Clear shared := by
  obtain ⟨-, -, ⟨expr, frame, mark, held⟩, f, error, value⟩ := eval_sharing
  have written : (Atom.int 3).hasText = true := by decide +kernel
  have three : sharedStore.Clear (.atom (.int 3)) := .of_shows written nofun
  have ending : sharedStore.Clear .nil := .of_shows rfl nofun
  have list : sharedStore.Clear (.pair mark (.atom (.int 3)) .nil) := by
    refine .of_shows trivial fun w shown => ?_
    cases shown with
    | car => exact three
    | cdr => exact ending
  have lazyList : sharedStore.Clear (.lazyPair 1) := by
    refine .of_shows (Array.getElem?_eq_some_iff.mp held).1 fun w shown => ?_
    cases shown with
    | head found ready => cases held.symm.trans found; cases ready
    | tail found ready => cases held.symm.trans found; cases ready; exact list
  have failed : sharedStore.Clear (.error 0) := by
    refine .of_shows (Array.getElem?_eq_some_iff.mp error).1 fun w shown => ?_
    cases shown with
    | payload found payload =>
      cases error.symm.trans found
      cases value.symm.trans payload
      exact lazyList
  refine .of_shows trivial fun w shown => ?_
  cases shown with
  | car => exact failed
  | cdr => exact lazyList

/-- A value that shows the same list twice has a text, the tied one has none. -/
theorem printer_ends_unless_tied_sharedStore :
    ¬ sharedStore.Tied shared ∧ (∃ text, sharedStore.write none true shared = .ok text) ∧
    sharedStore.Tied (.lazyPair 0) ∧
    ∀ room hops text, sharedStore.writeWithin hops true room none (.lazyPair 0) ≠ .ok text := by
  obtain ⟨grounded, legible⟩ := clear_shared
  obtain ⟨-, ⟨expr, frame, held⟩, -⟩ := eval_sharing
  have tied : sharedStore.Tied (.lazyPair 0) := ⟨.lazyPair 0, .refl, .single (.tail held rfl)⟩
  obtain ⟨-, text, -, -⟩ := Store.printer_ends_unless_tied sharedStore shared true
  obtain ⟨-, -, none, -⟩ := Store.printer_ends_unless_tied sharedStore (.lazyPair 0) true
  exact ⟨grounded.not_tied, text grounded.not_tied legible, tied, none tied⟩

/-- A session can tie a list into itself so that its text has no end. -/
theorem printer_goes_on_for_ever :
    Reachable tiedStore ∧
    Session.eval bareWorld 20 tying bareStore = .ok (.lazyPair 0) tiedStore ∧
    ∀ hops readable,
      tiedStore.writeWithin hops readable (some Session.room) none (.lazyPair 0) =
        .error .endless := by
  obtain ⟨result, _, _, held⟩ := eval_tying
  refine ⟨?_, result, fun hops readable => Store.writeWithin_endless held rfl hops readable⟩
  have reachable : Reachable bareStore := .start bareWorld 0 .unset .none ""
  exact reachable.eval bareWorld 20 tying

end LazyLisp
