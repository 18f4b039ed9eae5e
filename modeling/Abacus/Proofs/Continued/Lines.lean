import Abacus.Proofs.Alike.Heads

/-! What reading the first statement of a list depends on. A statement reads a line or the tokens up
to a block, and looks at no more than the token behind them. So the list may go on differently, the
block may hold other tokens, and a line may be continued, without another statement being read. The
amount of a loop is the exception: it ends with its line. -/

namespace Abacus

open Token Statement

/-- The right side of an assignment. A compound assignment starts its value with the name itself and
puts what is behind its sign into a bracket. -/
def Statement.operand (name : Token) : List Token → List Token
  | [first, op, last] => if first.index = name.index then last.children else [first, op, last]
  | value => value

/-- The tokens that a statement evaluates, at its own bracket level. -/
def Statement.expression : Statement → List Token
  | .assign _ name value _ _ _ => operand name value
  | .define _ _ _ value _ => value
  | .inline _ value => value
  | .ifThen _ _ condition _ _ => condition
  | .elseIf _ _ condition _ _ => condition
  | .otherwise .. => []
  | .loop .. => []
  | .repeatUntil _ _ condition _ _ => condition
  | .repeatTimes _ _ amount _ _ => amount
  | .repeatWith _ _ amount _ _ _ => amount
  | .giveBack _ _ value => value
  | .leave .. => []
  | .print .. => []
  | .throw .. => []

/-- What a statement shows of the source itself. -/
def Statement.text? : Statement → Option String
  | .print _ _ text => some text
  | .throw _ _ text => some text
  | _ => none

/-- The loops whose number of turns is written between `repeat` and `times`. -/
def Statement.Kind.isCounted : Statement.Kind → Bool
  | .repeatTimes | .repeatWith => true
  | _ => false

/-- A backslash and the newline that it takes away, at the place `k`. -/
def Token.continuation (k : Int) : List Token :=
  [.leaf .symbol "\\" k k, .leaf .symbol "\n" k k]

section Lines

variable {k : Int} {p : Nat} {U V S E X D : List Token} {r b : Token}

/-- A line that goes on behind a place may be continued there. -/
theorem lineFrom_continued (h : (lineFrom p (U ++ V)).2.length ≤ V.length) :
    lineFrom p (U ++ continuation k ++ V) = lineFrom p (U ++ V) := by
  induction U generalizing p with
  | nil => rfl
  | cons t U ih =>
    simp only [List.cons_append, lineFrom] at h ⊢
    split
    · next ht =>
      rw [if_pos ht] at h
      cases p with
      | zero =>
        simp only [List.length_cons, List.length_append] at h
        omega
      | succ p => exact ih h
    · next ht =>
      rw [if_neg ht] at h
      split
      · next hb =>
        rw [if_pos hb] at h
        exact ih h
      · next hb =>
        rw [if_neg hb] at h
        rw [ih h]

/-- A line ends in front of an end of a line, whatever follows it. -/
theorem lineFrom_ended (h : lineFrom p S = (E, r :: X)) : r.isTerminator = true ∧
    ∃ D, S = D ++ r :: X ∧ ∀ Y, lineFrom p (D ++ r :: Y) = (E, r :: Y) := by
  induction S generalizing p E with
  | nil => cases h
  | cons t S ih =>
    simp only [lineFrom] at h
    split at h
    · next ht =>
      cases p with
      | zero =>
        cases h
        exact ⟨ht, [], rfl, fun Y => by simp [lineFrom, ht]⟩
      | succ p =>
        obtain ⟨hr, D, rfl, hD⟩ := ih h
        exact ⟨hr, t :: D, rfl, fun Y => by simpa [lineFrom, ht] using hD Y⟩
    · next ht =>
      split at h
      · next hb =>
        obtain ⟨hr, D, rfl, hD⟩ := ih h
        exact ⟨hr, t :: D, rfl, fun Y => by simpa [lineFrom, ht, hb] using hD Y⟩
      · next hb =>
        obtain ⟨rfl, hbehind⟩ := Prod.mk.inj h
        obtain ⟨hr, D, hS, hD⟩ := ih (Prod.ext rfl hbehind)
        refine ⟨hr, t :: D, congrArg (t :: ·) hS, fun Y => ?_⟩
        simp only [List.cons_append, lineFrom, ht, hb, hD Y]
        rfl

theorem blockFrom_continued (h : blockFrom p (U ++ V) = some (E, b, X))
    (hX : X.length < V.length) : blockFrom p (U ++ continuation k ++ V) = some (E, b, X) := by
  induction U generalizing p E with
  | nil => exact h
  | cons t U ih =>
    simp only [List.cons_append, blockFrom] at h ⊢
    split
    · next hblock =>
      rw [if_pos hblock] at h
      cases h
      simp only [List.length_append] at hX
      omega
    · next hblock =>
      rw [if_neg hblock] at h
      split
      · next ht =>
        rw [if_pos ht] at h
        cases p with
        | zero => cases h
        | succ p => exact ih h
      · next ht =>
        rw [if_neg ht] at h
        split
        · next hb =>
          rw [if_pos hb] at h
          exact ih h
        · next hb =>
          rw [if_neg hb, Option.map_eq_some_iff] at h
          obtain ⟨⟨E', b', X'⟩, hfound, heq⟩ := h
          cases heq
          rw [ih hfound]
          rfl

/-- Which block is found does not depend on what it holds or on what follows it. -/
theorem blockFrom_replaced (h : blockFrom p S = some (E, b, X)) :
    ∃ D, S = D ++ b :: X ∧
      ∀ b' Y, b'.isBlock = true → blockFrom p (D ++ b' :: Y) = some (E, b', Y) := by
  induction S generalizing p E with
  | nil => cases h
  | cons t S ih =>
    simp only [blockFrom] at h
    split at h
    · cases h
      exact ⟨[], rfl, fun b' Y hb' => by simp [blockFrom, hb']⟩
    · next hblock =>
      split at h
      · next ht =>
        cases p with
        | zero => cases h
        | succ p =>
          obtain ⟨D, rfl, hD⟩ := ih h
          exact ⟨t :: D, rfl, fun b' Y hb' => by
            simpa [blockFrom, hblock, ht] using hD b' Y hb'⟩
      · next ht =>
        split at h
        · next hb =>
          obtain ⟨D, rfl, hD⟩ := ih h
          exact ⟨t :: D, rfl, fun b' Y hb' => by
            simpa [blockFrom, hblock, ht, hb] using hD b' Y hb'⟩
        · next hb =>
          obtain ⟨⟨E', b', X'⟩, hfound, heq⟩ := Option.map_eq_some_iff.mp h
          cases heq
          obtain ⟨D, rfl, hD⟩ := ih hfound
          exact ⟨t :: D, rfl, fun b' Y hb' => by simp [blockFrom, hblock, ht, hb, hD b' Y hb']⟩

/-- An amount is read without what is behind the word `times`. -/
theorem amountFrom_replaced (h : amountFrom S = some (E, X)) :
    ∃ D, S = D ++ X ∧ ∀ Y, amountFrom (D ++ Y) = some (E, Y) := by
  induction S generalizing E with
  | nil => cases h
  | cons t S ih =>
    simp only [amountFrom] at h
    split at h
    · cases h
    · next ht =>
      split at h
      · next hw =>
        cases h
        exact ⟨[t], rfl, fun Y => by simp [amountFrom, ht, hw]⟩
      · next hw =>
        obtain ⟨⟨E', X'⟩, hfound, heq⟩ := Option.map_eq_some_iff.mp h
        cases heq
        obtain ⟨D, rfl, hD⟩ := ih hfound
        exact ⟨t :: D, rfl, fun Y => by simp [amountFrom, ht, hw, hD]⟩

/-- An amount is not read across the end of a line, a backslash in front of it or not. -/
theorem amountFrom_continued (h : amountFrom (U ++ V) = some (E, X)) (hX : X.length < V.length) :
    amountFrom (U ++ continuation k ++ V) = none := by
  induction U generalizing E with
  | nil => rfl
  | cons t U ih =>
    simp only [List.cons_append, amountFrom] at h ⊢
    split
    · rfl
    · next ht =>
      rw [if_neg ht] at h
      split
      · next hw =>
        rw [if_pos hw] at h
        cases h
        simp only [List.length_append] at hX
        omega
      · next hw =>
        rw [if_neg hw, Option.map_eq_some_iff] at h
        obtain ⟨⟨E', X'⟩, hfound, heq⟩ := h
        cases heq
        rw [ih hfound, Option.map_none]

end Lines

end Abacus
