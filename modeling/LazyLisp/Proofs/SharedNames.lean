import LazyLisp.Proofs.RenamedRuns

/-!
Renamings where one computation makes something alone. What the other one does not have gets no
name, and what both make afterwards gets names again.
-/

namespace LazyLisp

namespace Renaming

variable {ρ : Renaming} {s t : Store}

namespace Stores

variable (stores : ρ.Stores s t)

include stores

theorem mark_lt {m n : Nat} (known : (ρ.upTo s).marks m n) : n < t.nextMark := by
  by_contra outside
  obtain ⟨k, rfl⟩ := Nat.exists_eq_add_of_le (Nat.le_of_not_lt outside)
  have same := (ρ.marks_iff known.2 (stores.nextMarks k)).mpr rfl
  have inside := known.1
  omega

theorem procedure_lt {p q : Nat} (known : (ρ.upTo s).procedures p q) : q < t.procedures.size := by
  by_contra outside
  obtain ⟨k, rfl⟩ := Nat.exists_eq_add_of_le (Nat.le_of_not_lt outside)
  have same := (ρ.procedures_iff known.2 (stores.nextProcedures k)).mpr rfl
  have inside := known.1
  omega

omit stores in
def skipMarks (stores : ρ.Stores s t) (a b : Nat) : Renaming where
  marks m n := (ρ.upTo s).marks m n ∨ ∃ k, m = s.nextMark + a + k ∧ n = t.nextMark + b + k
  procedures := ρ.procedures
  spare := ρ.spare
  marks_iff := by
    rintro m n m' n' (first | ⟨k, rfl, rfl⟩) (second | ⟨j, rfl, rfl⟩)
    · exact ρ.marks_iff first.2 second.2
    · have inside := first.1
      have inside' := stores.mark_lt first
      omega
    · have inside := second.1
      have inside' := stores.mark_lt second
      omega
    · omega
  procedures_iff := ρ.procedures_iff
  not_spare := ρ.not_spare

theorem stores_skipMarks (a b : Nat) :
    (stores.skipMarks a b).Stores { s with nextMark := s.nextMark + a }
      { t with nextMark := t.nextMark + b } := by
  have le : (ρ.upTo s).Le ((stores.skipMarks a b).upTo { s with nextMark := s.nextMark + a }) := by
    refine ⟨fun known => ⟨?_, .inl known⟩, fun known => known⟩
    exact Nat.lt_of_lt_of_le known.1 (Nat.le_add_right _ _)
  refine stores.renumber le ?_ stores.spare (fun k => .inr ⟨k, rfl, rfl⟩) stores.nextProcedures
  exact fun inside known => rel_imp (stores.procedures ⟨inside, known⟩) fun _ _ => le.procedure

omit stores in
def skipProcedure (stores : ρ.Stores s t) (x : Procedure) : Renaming where
  marks := ρ.marks
  procedures p q := (ρ.upTo s).procedures p q ∨
    ∃ k, p = s.procedures.size + k ∧ q = t.procedures.size + 1 + k
  spare q := if q = t.procedures.size then some x else ρ.spare q
  marks_iff := ρ.marks_iff
  procedures_iff := by
    rintro p q p' q' (first | ⟨k, rfl, rfl⟩) (second | ⟨j, rfl, rfl⟩)
    · exact ρ.procedures_iff first.2 second.2
    · have inside := first.1
      have inside' := stores.procedure_lt first
      omega
    · have inside := second.1
      have inside' := stores.procedure_lt second
      omega
    · omega
  not_spare := by
    rintro p q (known | ⟨k, rfl, rfl⟩)
    · rw [if_neg (Nat.ne_of_lt (stores.procedure_lt known))]
      exact ρ.not_spare known.2
    · rw [if_neg (by omega), Nat.add_assoc]
      exact ρ.not_spare (stores.nextProcedures (1 + k))

theorem stores_skipProcedure (x : Procedure) :
    (stores.skipProcedure x).Stores s { t with procedures := t.procedures.push x } := by
  have le : (ρ.upTo s).Le ((stores.skipProcedure x).upTo s) :=
    ⟨fun known => known, fun known => ⟨known.1, .inl known⟩⟩
  refine stores.renumber le ?_ ?_ stores.nextMarks ?_
  · rintro p q inside (known | ⟨k, rfl, rfl⟩)
    · rw [Array.getElem?_push, if_neg (Nat.ne_of_lt (stores.procedure_lt known))]
      exact rel_imp (stores.procedures known) fun _ _ => le.procedure
    · omega
  · intro q y isSpare
    change (if q = t.procedures.size then some x else ρ.spare q) = some y at isSpare
    rw [Array.getElem?_push]
    by_cases last : q = t.procedures.size
    · rwa [if_pos last] at isSpare ⊢
    · rw [if_neg last] at isSpare ⊢
      exact stores.spare isSpare
  · intro k
    refine .inr ⟨k, rfl, ?_⟩
    rw [Array.size_push]

end Stores

structure Keeps (ρ : Renaming) (s : Store) : Prop where
  marks : ∀ {m}, m < s.nextMark → ρ.marks m m
  procedures : ∀ {p}, p < s.procedures.size → ρ.procedures p p

theorem keeps_unchanged (s : Store) : unchanged.Keeps s := ⟨fun _ => rfl, fun _ => rfl⟩

namespace Keeps

variable {c : Store} (keeps : ρ.Keeps c) (older : Older c s)

include keeps older

theorem values {v : Value} (owned : c.Owns v) : (ρ.upTo s).Values v v := by
  have le : (unchanged.upTo c).Le (ρ.upTo s) := by
    constructor
    · rintro m _ ⟨inside, rfl⟩
      exact ⟨Nat.lt_of_lt_of_le inside older.marks, keeps.marks inside⟩
    · rintro p _ ⟨inside, rfl⟩
      exact ⟨Nat.lt_of_lt_of_le inside older.procedures, keeps.procedures inside⟩
  exact le.values owned

theorem all {vs : List Value} (owned : ∀ v ∈ vs, c.Owns v) : (ρ.upTo s).All vs vs :=
  List.forall₂_same.mpr fun v member => keeps.values older (owned v member)

theorem skipMarks (stores : ρ.Stores s t) (a b : Nat) : (stores.skipMarks a b).Keeps c where
  marks inside := .inl ⟨Nat.lt_of_lt_of_le inside older.marks, keeps.marks inside⟩
  procedures := keeps.procedures

theorem skipProcedure (stores : ρ.Stores s t) (x : Procedure) :
    (stores.skipProcedure x).Keeps c where
  marks := keeps.marks
  procedures inside := .inl ⟨Nat.lt_of_lt_of_le inside older.procedures, keeps.procedures inside⟩

end Keeps

end Renaming

end LazyLisp
