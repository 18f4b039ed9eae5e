import Abacus.Proofs.Alike.Lines

/-! Argument lists are split exactly. A list has one way to be put together from runs without commas;
these are the arguments if none of them is empty, and the first one that is empty is blamed. -/

namespace Abacus.Token

open Likeness.Tokens (isOperand splitFrom_eq)

variable {closer : Int} {run rest T before : List Token} {runs : List (List Token)} {comma : Token}

/-- Runs without commas, and the list they make with one comma between each two. -/
inductive CommaJoined : List (List Token) → List Token → Prop where
  | last {run : List Token} (h : ∀ t ∈ run, t.isSymbol "," = false) : CommaJoined [run] run
  | cons {run rest : List Token} {comma : Token} {runs : List (List Token)}
      (h : ∀ t ∈ run, t.isSymbol "," = false) (hc : comma.isSymbol "," = true)
      (hr : CommaJoined runs rest) : CommaJoined (run :: runs) (run ++ comma :: rest)

/-- A comma of a list, behind the tokens `before`, without a token since the comma in front of it or
since the beginning. -/
structure LooseComma (T before : List Token) (comma : Token) : Prop where
  behind : ∃ after, T = before ++ comma :: after
  isComma : comma.isSymbol "," = true
  bare : before.getLast?.all (·.isSymbol ",") = true

/-- The fault of a list of arguments: at the first loose comma, or at the closing bracket if there is
none. -/
inductive Blames (T : List Token) (closer : Int) : Fault → Prop where
  | comma {before : List Token} {comma : Token} (h : LooseComma T before comma)
      (hfirst : ∀ b c, LooseComma T b c → before.length ≤ b.length) :
      Blames T closer ⟨comma.index, "Unexpected comma.", 1⟩
  | bracket (h : ∀ b c, ¬ LooseComma T b c) :
      Blames T closer ⟨closer, "Unexpected end of the call argument.", 1⟩

theorem exists_commaJoined (T : List Token) : ∃ runs, CommaJoined runs T := by
  induction T with
  | nil => exact ⟨[[]], .last (by simp)⟩
  | cons t T ih =>
    obtain ⟨runs, h⟩ := ih
    cases ht : t.isSymbol "," with
    | true => exact ⟨[] :: runs, .cons (by simp) ht h⟩
    | false =>
      cases h with
      | last h => exact ⟨_, .last (List.forall_mem_cons.mpr ⟨ht, h⟩)⟩
      | cons h hc hr => exact ⟨_, .cons (List.forall_mem_cons.mpr ⟨ht, h⟩) hc hr⟩

section Splitting

theorem operands_append (h : ∀ t ∈ run, t.isSymbol "," = false) (T : List Token) :
    (run ++ T).takeWhile isOperand = run ++ T.takeWhile isOperand ∧
      (run ++ T).dropWhile isOperand = T.dropWhile isOperand := by
  have hrun : ∀ t ∈ run, isOperand t = true := fun t ht => by simp [isOperand, h t ht]
  exact ⟨List.takeWhile_append_of_pos hrun, List.dropWhile_append_of_pos hrun⟩

theorem splitFrom_last (closer : Int) (h : ∀ t ∈ run, t.isSymbol "," = false) :
    splitFrom closer [] run =
      if run.isEmpty then .error ⟨closer, "Unexpected end of the call argument.", 1⟩
      else .ok [run] := by
  obtain ⟨htake, hdrop⟩ := operands_append h []
  simp only [List.append_nil, List.takeWhile_nil, List.dropWhile_nil] at htake hdrop
  simp only [splitFrom_eq, htake, hdrop, List.reverse_nil, List.nil_append]

theorem splitFrom_cons (closer : Int) (h : ∀ t ∈ run, t.isSymbol "," = false)
    (hc : comma.isSymbol "," = true) (rest : List Token) :
    splitFrom closer [] (run ++ comma :: rest) =
      if run.isEmpty then .error ⟨comma.index, "Unexpected comma.", 1⟩
      else (splitFrom closer [] rest).map (run :: ·) := by
  obtain ⟨htake, hdrop⟩ := operands_append h (comma :: rest)
  have hstop : ¬ isOperand comma = true := by simp [isOperand, hc]
  rw [List.takeWhile_cons_of_neg hstop, List.append_nil] at htake
  rw [List.dropWhile_cons_of_neg hstop] at hdrop
  rw [splitFrom_eq]
  simp only [htake, hdrop, List.reverse_nil, List.nil_append]

/-- Runs of which none is empty are the arguments. -/
theorem CommaJoined.split (h : CommaJoined runs T) (hne : [] ∉ runs) (closer : Int) :
    splitFrom closer [] T = .ok runs := by
  induction h with
  | @last run h =>
    have hrun : run ≠ [] := fun hh => hne (hh ▸ List.mem_cons_self)
    rw [splitFrom_last closer h, if_neg (by simpa using hrun)]
  | @cons run rest comma runs h hc hr ih =>
    have hrun : run ≠ [] := fun hh => hne (hh ▸ List.mem_cons_self)
    rw [splitFrom_cons closer h hc, if_neg (by simpa using hrun),
      ih (fun hh => hne (List.mem_cons_of_mem _ hh))]
    rfl

end Splitting

section Faults

/-- The last token of a run is no comma. -/
theorem not_bare (h : ∀ t ∈ run, t.isSymbol "," = false) (hne : run ≠ []) :
    run.getLast?.all (·.isSymbol ",") = false := by
  rw [List.getLast?_eq_some_getLast hne]
  exact h _ (List.getLast_mem hne)

theorem bare_behind (hc : comma.isSymbol "," = true) (run b : List Token) :
    (run ++ comma :: b).getLast?.all (·.isSymbol ",") = b.getLast?.all (·.isSymbol ",") := by
  cases b with
  | nil => simp [hc]
  | cons t b => simp [List.getLast?_append, List.getLast?_cons]

/-- Behind the first run, unless it is empty, a comma is loose exactly if it is loose in the rest. -/
theorem looseComma_cons (h : ∀ t ∈ run, t.isSymbol "," = false) (hc : comma.isSymbol "," = true)
    (hne : run ≠ []) {c : Token} :
    LooseComma (run ++ comma :: rest) before c ↔
      ∃ b, before = run ++ comma :: b ∧ LooseComma rest b c := by
  constructor
  · rintro ⟨⟨after, heq⟩, hcomma, hlast⟩
    -- the comma behind the first run has the last token of that run before it
    have hbehind : before ≠ run := by
      rintro rfl
      simp [not_bare h hne] at hlast
    rcases List.append_eq_append_iff.mp heq with ⟨b, hb, hrest⟩ | ⟨b, hb, hrest⟩
    · cases b with
      | nil => exact absurd (by simpa using hb) hbehind
      | cons d b =>
        obtain ⟨rfl, rfl⟩ := List.cons.inj hrest
        exact ⟨b, hb, ⟨after, rfl⟩, hcomma, by rwa [hb, bare_behind hc] at hlast⟩
    · cases b with
      | nil => exact absurd (by simpa using hb.symm) hbehind
      | cons d b =>
        obtain ⟨rfl, _⟩ := List.cons.inj hrest
        exact absurd hcomma (by simp [h c (by simp [hb])])
  · rintro ⟨b, rfl, ⟨after, rfl⟩, hcomma, hlast⟩
    exact ⟨⟨after, by simp⟩, hcomma, by rwa [bare_behind hc]⟩

theorem not_looseComma (h : ∀ t ∈ run, t.isSymbol "," = false) (before : List Token) (c : Token) :
    ¬ LooseComma run before c := by
  rintro ⟨⟨after, rfl⟩, hcomma, _⟩
  exact absurd hcomma (by simp [h c (by simp)])

theorem Blames.behind {f : Fault} (hb : Blames rest closer f)
    (h : ∀ t ∈ run, t.isSymbol "," = false) (hc : comma.isSymbol "," = true) (hne : run ≠ []) :
    Blames (run ++ comma :: rest) closer f := by
  cases hb with
  | @comma before c hloose hfirst =>
    refine .comma ((looseComma_cons h hc hne).mpr ⟨before, rfl, hloose⟩) (fun b d hd => ?_)
    obtain ⟨b', rfl, hd'⟩ := (looseComma_cons h hc hne).mp hd
    have hle := hfirst b' d hd'
    simp only [List.length_append, List.length_cons]
    omega
  | bracket hnone =>
    refine .bracket (fun b c hloose => ?_)
    obtain ⟨b, _, hloose⟩ := (looseComma_cons h hc hne).mp hloose
    exact hnone b c hloose

/-- An empty run is blamed. -/
theorem CommaJoined.refuse (h : CommaJoined runs T) (hempty : [] ∈ runs) (closer : Int) :
    ∃ f, splitFrom closer [] T = .error f ∧ Blames T closer f := by
  induction h with
  | @last run h =>
    obtain rfl : [] = run := List.mem_singleton.mp hempty
    exact ⟨_, rfl, .bracket (not_looseComma h)⟩
  | @cons run rest comma runs h hc hr ih =>
    rw [splitFrom_cons closer h hc]
    cases run with
    | nil =>
      exact ⟨_, rfl, .comma ⟨⟨rest, rfl⟩, hc, rfl⟩ (fun _ _ _ => Nat.zero_le _)⟩
    | cons t run =>
      obtain ⟨f, hf, hblames⟩ := ih ((List.mem_cons.mp hempty).resolve_left (by simp))
      exact ⟨f, by simp [hf, Except.map], hblames.behind h hc (by simp)⟩

end Faults

theorem splitFrom_eq_ok (closer : Int) :
    splitFrom closer [] T = .ok runs ↔ CommaJoined runs T ∧ [] ∉ runs := by
  constructor
  · intro hok
    obtain ⟨joined, hjoined⟩ := exists_commaJoined T
    by_cases hempty : [] ∈ joined
    · obtain ⟨f, hf, _⟩ := hjoined.refuse hempty closer
      rw [hok] at hf
      cases hf
    · obtain rfl : runs = joined := Except.ok.inj (hok.symm.trans (hjoined.split hempty closer))
      exact ⟨hjoined, hempty⟩
  · rintro ⟨hjoined, hempty⟩
    exact hjoined.split hempty closer

theorem splitFrom_fails (closer : Int) :
    (∃ f, splitFrom closer [] T = .error f) ↔ ∃ runs, CommaJoined runs T ∧ [] ∈ runs := by
  constructor
  · rintro ⟨f, hf⟩
    obtain ⟨joined, hjoined⟩ := exists_commaJoined T
    refine ⟨joined, hjoined, ?_⟩
    by_contra hempty
    rw [hjoined.split hempty closer] at hf
    cases hf
  · rintro ⟨runs, hjoined, hempty⟩
    obtain ⟨f, hf, _⟩ := hjoined.refuse hempty closer
    exact ⟨f, hf⟩

theorem splitFrom_blames {f : Fault} (hf : splitFrom closer [] T = .error f) :
    Blames T closer f := by
  obtain ⟨runs, hjoined, hempty⟩ := (splitFrom_fails closer).mp ⟨f, hf⟩
  obtain ⟨g, hg, hblames⟩ := hjoined.refuse hempty closer
  obtain rfl : f = g := Except.error.inj (hf.symm.trans hg)
  exact hblames

/-- Arguments are split exactly. Without newlines, the tokens of a bracket are its arguments with a
comma between each two, none of them empty, or there are no tokens and no arguments. It is refused
exactly if there are tokens and a run of them is empty, and the fault is at the first comma that has no
tokens since the one before it, or at the closing bracket if there is no such comma. -/
theorem arguments_split_exactly (group : Token) :
    let tokens := group.children.filter (fun t => !t.isNewline)
    let arguments := splitArguments group.closerIndex group.children
    (∀ runs, arguments = .ok runs ↔
      tokens = [] ∧ runs = [] ∨ tokens ≠ [] ∧ CommaJoined runs tokens ∧ [] ∉ runs) ∧
    ((∃ f, arguments = .error f) ↔ tokens ≠ [] ∧ ∃ runs, CommaJoined runs tokens ∧ [] ∈ runs) ∧
    ∀ f, arguments = .error f → Blames tokens group.closerIndex f := by
  intro tokens arguments
  have hsplit : arguments =
      if tokens = [] then .ok [] else splitFrom group.closerIndex [] tokens := by
    show splitArguments _ _ = _
    unfold splitArguments
    split
    · next h => exact (if_pos h).symm
    · next h => exact (if_neg h).symm
  by_cases htokens : tokens = []
  · rw [if_pos htokens] at hsplit
    simp [hsplit, htokens, eq_comm]
  · rw [if_neg htokens] at hsplit
    simp only [hsplit, htokens, false_and, false_or, ne_eq, not_false_eq_true, true_and]
    exact ⟨fun _ => splitFrom_eq_ok _, splitFrom_fails _, fun _ => splitFrom_blames⟩

end Abacus.Token
