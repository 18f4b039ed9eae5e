import Abacus.Proofs.Reading.Blocks

/-! What a list of tokens must begin with for a statement of a kind to be read from it. An `else` is
only read right behind a condition, a loop without a count has its word, and a definition has a
bracket before the sign for equality. -/

namespace Abacus

open Token Statement

/-- The text of the token ends with a round bracket. -/
def Token.closes : Token → Bool
  | .call .. => true
  | t => t.isParenthesized

/-- A token that closes a round bracket with `=` right behind it. -/
def DefinesIn (T : List Token) : Prop :=
  ∃ A s e E, T = A ++ s :: e :: E ∧ s.closes = true ∧ e.isSymbol "=" = true

/-- What stands at the head of a list from which a statement of this kind is read. -/
def Statement.Kind.Asks (after : Bool) (t : Token) (rest : List Token) : Statement.Kind → Prop
  | .elseIf | .otherwise => after = true
  | .loop => t.is .word "loop" = true
  | .repeatUntil => ∃ u ∈ rest, u.is .word "until" = true
  | .define => DefinesIn (t :: rest)
  | _ => True

section Heads

variable {source : String} {strict after : Bool} {t : Token} {rest : List Token} {h : Head}

theorem closes_of_parenthesized {t : Token} (h : t.isParenthesized = true) : t.closes = true := by
  cases t with
  | call => rfl
  | _ => exact h

theorem compound_kind {name : Token} (hh : compound? source name rest = some h)
    (body : List Statement) : (h.finish body).kind = .assign := by
  match rest with
  | [] | [_] => simp [compound?] at hh
  | op :: second :: rest =>
    simp only [compound?] at hh
    split at hh
    · split at hh
      · split at hh
        · cases hh
          rfl
        · cases hh
      · split at hh
        · cases hh
          rfl
        · cases hh
    · cases hh

theorem assign_kind (hh : assign? source t rest = some h) (body : List Statement) :
    (h.finish body).kind = .assign := by
  unfold assign? at hh
  split at hh
  · split at hh
    · next head hc =>
      cases hh
      exact compound_kind hc body
    · split at hh
      · split at hh
        · cases hh
          rfl
        · cases hh
      · cases hh
  · cases hh

theorem declareHead_kind {keyword : Token} {constant : Bool}
    (hh : declareHead source keyword constant rest = .ok h) (body : List Statement) :
    (h.finish body).kind = .assign := by
  match rest with
  | [] => simp [declareHead] at hh
  | [name] =>
    simp only [declareHead] at hh
    split at hh <;> cases hh
  | name :: equals :: rest =>
    simp only [declareHead] at hh
    split at hh
    · split at hh
      · cases hh
        rfl
      · cases hh
    · cases hh

theorem declare_kind (hh : declare? source t rest = some (.ok h)) (body : List Statement) :
    (h.finish body).kind = .assign := by
  unfold declare? at hh
  split at hh
  · exact declareHead_kind (Option.some.inj hh) body
  · split at hh
    · exact declareHead_kind (Option.some.inj hh) body
    · cases hh

theorem defineHead_kind {call name arguments equals : Token}
    (hh : defineHead source strict call name arguments equals rest = .ok h)
    (body : List Statement) : (h.finish body).kind = .define := by
  unfold defineHead at hh
  cases hp : parameterNames strict (arguments.children.filter (fun t => !t.isTerminator)) with
  | error f =>
    rw [hp] at hh
    cases hh
  | ok parameters =>
    rw [hp] at hh
    cases hh
    rfl

theorem define_asks (hh : define? source strict t rest = some (.ok h)) (body : List Statement) :
    (h.finish body).kind.Asks after t rest := by
  rcases define_cases hh with ⟨_, _, _, _, _, _, equals, after, rfl, he, rfl, hd⟩ | hl
  · rw [defineHead_kind hd.symm body]
    exact ⟨[], _, equals, after, rfl, rfl, he⟩
  · obtain ⟨arguments, equals, after, _, _, hgroup, he, rfl, hd⟩ := looseDefine_cases hl
    rw [defineHead_kind hd.symm body]
    exact ⟨[t], arguments, equals, after, rfl, closes_of_parenthesized hgroup, he⟩

theorem elseHead_asks (hh : elseHead source after t rest = .ok h) (body : List Statement) :
    (h.finish body).kind.Asks after t rest := by
  unfold elseHead at hh
  split at hh
  · next ha =>
    split at hh
    · obtain ⟨block, behind, heq, _⟩ := blockHead_cases hh
      cases heq
    · split at hh
      · obtain ⟨D, block, behind, o, s, _, _, rfl⟩ := conditionHead_cases hh
        exact ha
      · obtain ⟨block, behind, _, _, rfl⟩ := blockHead_cases hh
        exact ha
  · cases hh

theorem timesHead_asks (hh : timesHead source t rest = .ok h) (body : List Statement) :
    (h.finish body).kind.Asks after t rest := by
  unfold timesHead at hh
  split at hh
  · cases hh
  · next amount behind hfound =>
    clear hfound
    split at hh
    · cases hh
    · dsimp only at hh
      split at hh
      · next u tail =>
        split at hh
        · cases tail with
          | nil => simp [counterHead] at hh
          | cons counter tail =>
            simp only [counterHead] at hh
            split at hh
            · obtain ⟨block, behind, _, _, rfl⟩ := blockHead_cases hh
              trivial
            · cases hh
        · obtain ⟨block, behind, _, _, rfl⟩ := blockHead_cases hh
          trivial
      · obtain ⟨block, behind, heq, _⟩ := blockHead_cases hh
        cases heq

theorem repeatHead_asks (hh : repeatHead source t rest = .ok h) (body : List Statement) :
    (h.finish body).kind.Asks after t rest := by
  unfold repeatHead at hh
  split at hh
  · next u tail =>
    split at hh
    · next hu =>
      obtain ⟨D, block, behind, o, s, _, _, rfl⟩ := conditionHead_cases hh
      exact ⟨u, List.mem_cons_self, hu⟩
    · exact timesHead_asks hh body
  · exact timesHead_asks hh body

theorem keywordHead_asks (hh : keywordHead? source after t rest = some (.ok h))
    (body : List Statement) : (h.finish body).kind.Asks after t rest := by
  unfold keywordHead? at hh
  split at hh
  · next hword =>
    split at hh
    · obtain ⟨D, block, behind, o, s, _, _, rfl⟩ := conditionHead_cases (Option.some.inj hh)
      trivial
    · exact elseHead_asks (Option.some.inj hh) body
    · exact repeatHead_asks (Option.some.inj hh) body
    · next hvalue =>
      obtain ⟨block, behind, _, _, rfl⟩ := blockHead_cases (Option.some.inj hh)
      show t.is .word "loop" = true
      simp [is, hword, hvalue]
    all_goals first | (cases hh; trivial) | cases hh
  · cases hh

theorem inlineHead_kind (hh : inlineHead source t rest = .ok h) (body : List Statement) :
    (h.finish body).kind = .inline := by
  unfold inlineHead at hh
  split at hh
  · cases hh
    rfl
  · cases hh

/-- The kind of a statement tells what it was read from. -/
theorem head_asks (hh : head source strict after t rest = .ok h) (body : List Statement) :
    (h.finish body).kind.Asks after t rest := by
  unfold head at hh
  cases ha : assign? source t rest with
  | some head =>
    rw [ha] at hh
    cases hh
    rw [assign_kind ha body]
    trivial
  | none =>
    rw [ha] at hh
    cases hd : declare? source t rest with
    | some head =>
      rw [hd] at hh
      rw [declare_kind (hd.trans (congrArg some hh)) body]
      trivial
    | none =>
      rw [hd] at hh
      cases hf : define? source strict t rest with
      | some head =>
        rw [hf] at hh
        exact define_asks (hf.trans (congrArg some hh)) body
      | none =>
        rw [hf] at hh
        cases hk : keywordHead? source after t rest with
        | some head =>
          rw [hk] at hh
          exact keywordHead_asks (hk.trans (congrArg some hh)) body
        | none =>
          rw [hk] at hh
          rw [inlineHead_kind hh body]
          trivial

end Heads

end Abacus
