import Abacus.Proofs.Rendered.Reached

/-! Compound assignments and the tokens of what they stand for. What is put in stands at places of
its own, behind the end of the source. In brackets ends of lines may stand between the tokens. -/

namespace Abacus

open Token Statement

/-- The tokens of a compound assignment behind its name, and the text of what is combined with the
name when the assignment is written out. -/
inductive Token.Compound (source : String) (op : Token) : List Token → String → Prop where
  | assign {equals : Token} {value : List Token} (ho : op.kind = .operator)
      (hv : op.value ∈ compoundOperators) (he : equals.isSymbol "=" = true)
      (hs : ∀ t ∈ value, t.isSignificant = true) (hc : ∀ t ∈ value, t.isSymbol ")" = false) :
      Compound source op (op :: equals :: value) ("(" ++ sourceOf source value ++ ")")
  | step {second : Token} (ho : op.kind = .operator) (hv : op.value = "+" ∨ op.value = "-")
      (hs : second.is .operator op.value = true) : Compound source op [op, second] "1"

/-- A name, an operator and what stands behind it, from the place `i` on. -/
def Token.operation (name op : String) (operand : Int → Token) (i : Int) : List Token :=
  [.leaf .word name i (i + name.length),
    .leaf .operator op (i + 1 + name.length) (i + 2 + name.length), operand (i + 3 + name.length)]

/-- The tokens of `= name op operand`, at the place `i`. -/
def Token.expansion (name op : String) (operand : Int → Token) (i : Int) : List Token :=
  .leaf .symbol "=" (i + 1) (i + 2) :: operation name op operand (i + 3)

/-- A bracket at the place `i` around tokens from elsewhere. -/
def Token.bracketed (source : String) (value : List Token) (i : Int) : Token :=
  .group .group (Text.slice source i (i + 2)) i (i + 2) value (.leaf .symbol "(" i (i + 1))
    (.leaf .symbol ")" (i + 1) (i + 2))

/-- The tokens `Z` of a compound assignment as they stand in their bracket, with the ends of lines
among them; what is combined with the name when it is written out, at some place and as a text. -/
inductive Token.Scattered (source : String) (op : Token) :
    List Token → List Token → (Int → Token) → String → Prop where
  | assign {equals : Token} {N V : List Token} (ho : op.kind = .operator)
      (hv : op.value ∈ compoundOperators) (he : equals.isSymbol "=" = true)
      (hN : unbroken N = [op, equals]) (hs : ∀ t ∈ unbroken V, t.isSignificant = true)
      (hc : ∀ t ∈ V, t.isSymbol ")" = false) (hfirst : ∀ t ∈ V.head?, t.isNewline = false)
      (hlast : ∀ t ∈ (N ++ V).getLast?, t.isNewline = false) :
      Scattered source op (op :: equals :: unbroken V) (N ++ V) (bracketed source V)
        ("(" ++ sourceOf source V ++ ")")
  | step {second : Token} {N : List Token} (ho : op.kind = .operator)
      (hv : op.value = "+" ∨ op.value = "-") (hs : second.is .operator op.value = true)
      (hN : unbroken N = [op, second]) (hlast : ∀ t ∈ N.getLast?, t.isNewline = false) :
      Scattered source op [op, second] N (fun i => .leaf .integer "1" i (i + 1)) "1"

section Scattering

variable {source text : String} {op : Token} {old Z T A B : List Token}

theorem unbroken_append (A B : List Token) : unbroken (A ++ B) = unbroken A ++ unbroken B :=
  List.filter_append A B

/-- Where a list without its ends of lines can be cut, so can the list. The second part does not
start with the end of a line. -/
theorem unbroken_cut (h : unbroken T = A ++ B) : ∃ A' B', T = A' ++ B' ∧ unbroken A' = A ∧
    unbroken B' = B ∧ ∀ t ∈ B'.head?, t.isNewline = false := by
  obtain ⟨A', B', rfl, rfl, rfl⟩ := List.filter_eq_append_iff.mp h
  have hlines : unbroken (B'.takeWhile isNewline) = [] := by
    refine List.filter_eq_nil_iff.mpr (fun t ht => ?_)
    simp [List.mem_takeWhile_imp ht]
  have hsplit := List.takeWhile_append_dropWhile (p := isNewline) (l := B')
  refine ⟨A' ++ B'.takeWhile isNewline, B'.dropWhile isNewline, ?_, ?_, ?_, fun t ht => ?_⟩
  · rw [List.append_assoc, hsplit]
  · rw [unbroken_append, hlines, List.append_nil]
  · have hbehind := unbroken_append (B'.takeWhile isNewline) (B'.dropWhile isNewline)
    rw [hsplit, hlines, List.nil_append] at hbehind
    exact hbehind.symm
  · have hfirst := List.head?_dropWhile_not isNewline B'
    rw [Option.mem_def] at ht
    simpa [ht] using hfirst

theorem stopOf_unbroken (h : ∀ z ∈ Z.getLast?, z.isNewline = false) (d : Int) :
    stopOf (unbroken Z) d = stopOf Z d := by
  rcases List.eq_nil_or_concat Z with rfl | ⟨Z, z, rfl⟩
  · rfl
  · have hz := h z (by simp)
    simp [stopOf, hz]

theorem sourceOf_unbroken (hfirst : ∀ t ∈ Z.head?, t.isNewline = false)
    (hlast : ∀ z ∈ Z.getLast?, z.isNewline = false) :
    sourceOf source (unbroken Z) = sourceOf source Z := by
  cases Z with
  | nil => rfl
  | cons z Z =>
    have hz := hfirst z (by simp)
    have hkeep : unbroken (z :: Z) = z :: unbroken Z := List.filter_cons_of_pos (by simp [hz])
    have hstop := stopOf_unbroken hlast z.stop
    rw [hkeep, stopOf_cons, stopOf_cons] at hstop
    rw [hkeep, sourceOf_cons, sourceOf_cons, hstop]

theorem Token.Compound.scattered (h : Compound source op old text) (hZ : unbroken Z = old)
    (hlast : ∀ z ∈ Z.getLast?, z.isNewline = false) :
    ∃ operand, Scattered source op old Z operand text := by
  cases h with
  | @assign equals value ho hv he hs hc =>
    have hcut : unbroken Z = [op, equals] ++ value := hZ
    obtain ⟨N, V, rfl, hN, rfl, hfirst⟩ := unbroken_cut hcut
    have hend : ∀ z ∈ V.getLast?, z.isNewline = false := by
      intro z hz
      exact hlast z (by simp [List.getLast?_append, Option.mem_def.mp hz])
    rw [sourceOf_unbroken hfirst hend]
    refine ⟨_, .assign ho hv he hN hs (fun t ht => ?_) hfirst hlast⟩
    cases hline : t.isNewline with
    | true =>
      simp only [isNewline, isSymbol, Token.is, Bool.and_eq_true, beq_iff_eq] at hline
      simp [isSymbol, Token.is, hline]
    | false => exact hc t (List.mem_filter.mpr ⟨ht, by simp [hline]⟩)
  | step ho hv hs => exact ⟨_, .step ho hv hs hZ hlast⟩

namespace Token.Scattered

variable {operand : Int → Token}

theorem unbroken_eq (h : Scattered source op old Z operand text) : unbroken Z = old := by
  cases h with
  | assign _ _ _ hN _ _ _ _ =>
    rw [unbroken_append, hN]
    rfl
  | step _ _ _ hN _ => exact hN

theorem last (h : Scattered source op old Z operand text) :
    ∀ t ∈ Z.getLast?, t.isNewline = false := by
  cases h with
  | assign _ _ _ _ _ _ _ hlast => exact hlast
  | step _ _ _ _ hlast => exact hlast

theorem stopOf_eq (h : Scattered source op old Z operand text) (d : Int) :
    stopOf old d = stopOf Z d := by
  rw [← h.unbroken_eq]
  exact stopOf_unbroken h.last d

theorem operator (h : Scattered source op old Z operand text) :
    op.kind = .operator ∧ op.value ∈ compoundOperators := by
  cases h with
  | assign ho hv _ _ _ _ _ _ => exact ⟨ho, hv⟩
  | step ho hv _ _ _ =>
    refine ⟨ho, ?_⟩
    rcases hv with hv | hv <;> simp [hv, compoundOperators]

end Token.Scattered

end Scattering

section Statements

variable {source text : String} {strict : Bool} {name op : Token} {operand : Int → Token} {i : Int}
  {old Z rest : List Token}

theorem Token.Compound.significant (h : Compound source op old text) :
    ∀ t ∈ old, t.isSignificant = true := by
  cases h with
  | @assign equals _ ho _ he hs _ =>
    have hequals : equals.isSignificant = true := by
      by_contra hnot
      have hother := (kind_of_not_significant (Bool.not_eq_true _ ▸ hnot)).2
      simp [he] at hother
    exact List.forall_mem_cons.mpr ⟨significant_of_kind (by simp [ho]),
      List.forall_mem_cons.mpr ⟨hequals, hs⟩⟩
  | step ho _ hs =>
    simp only [Token.is, Bool.and_eq_true, beq_iff_eq] at hs
    exact List.forall_mem_cons.mpr ⟨significant_of_kind (by simp [ho]),
      List.forall_mem_singleton.mpr (significant_of_kind (by simp [hs.1]))⟩

theorem Token.Scattered.compound (h : Scattered source op old Z operand text) :
    ∃ text, Compound source op old text := by
  cases h with
  | assign ho hv he _ hs hc _ _ =>
    exact ⟨_, .assign ho hv he hs (fun t ht => hc t (List.mem_of_mem_filter ht))⟩
  | step ho hv hs _ _ => exact ⟨_, .step ho hv hs⟩

theorem Token.Scattered.significant (h : Scattered source op old Z operand text) :
    ∀ t ∈ old, t.isSignificant = true := by
  obtain ⟨_, hc⟩ := h.compound
  exact hc.significant

theorem Token.Scattered.operand_kind (h : Scattered source op old Z operand text) (i : Int) :
    (operand i).kind = .group ∨ (operand i).kind = .integer := by
  cases h with
  | assign => simp only [bracketed, Token.kind, true_or]
  | step => simp only [Token.kind, or_true]

/-- A line goes up to its end. -/
theorem line_of_significant {value : List Token} (hs : ∀ t ∈ value, t.isSignificant = true)
    (hr : rest.head?.all isTerminator = true) : line (value ++ rest) = (value, rest) := by
  induction value with
  | nil =>
    cases rest with
    | nil => rfl
    | cons t rest =>
      have ht : t.isTerminator = true := hr
      simp [line, lineFrom, ht]
  | cons t value ih =>
    have ht := hs t List.mem_cons_self
    have hvalue := ih (fun u hu => hs u (List.mem_cons_of_mem t hu))
    simp only [isSignificant, Bool.and_eq_true, Bool.not_eq_true'] at ht
    simp only [line] at hvalue ⊢
    simp [lineFrom, ht.1, ht.2, hvalue]

theorem head_of_assign {after : Bool} {t : Token} {T : List Token} {h : Head}
    (ha : assign? source t T = some h) : head source strict after t T = .ok h := by
  simp [head, ha]

theorem operation_significant (name op : String) (hl : ∀ i, (operand i).isSignificant = true)
    (i : Int) : ∀ t ∈ operation name op operand i, t.isSignificant = true :=
  List.forall_mem_cons.mpr ⟨significant_of_kind (by simp [Token.kind]),
    List.forall_mem_cons.mpr ⟨significant_of_kind (by simp [Token.kind]),
      List.forall_mem_singleton.mpr (hl _)⟩⟩

/-- The tokens that are put in are read as an assignment. -/
theorem assign_expansion (source op : String) (hm : name.isName = true)
    (hl : ∀ i, (operand i).isSignificant = true) (hr : rest.head?.all isTerminator = true) :
    ∃ o x, assign? source name (expansion name.value op operand i ++ rest) =
      some (.simple (.assign o name (operation name.value op operand (i + 3)) false false x)
        rest) := by
  have hcompound : ∀ T, compound? source name (.leaf .symbol "=" (i + 1) (i + 2) :: T) = none :=
    compound_of_not_operator (by simp [Token.kind])
  have hequals : (Token.leaf .symbol "=" (i + 1) (i + 2)).isSymbol "=" = true := rfl
  simp only [expansion, List.cons_append, assign?, hm, if_true, hcompound, hequals, assignHead,
    line_of_significant (operation_significant name.value op hl (i + 3)) hr]
  exact ⟨_, _, rfl⟩

/-- A compound assignment is read as an assignment of the same value, at other places. -/
theorem Token.Scattered.assign_like {R : Rendering} (hR : R.Steady source strict)
    (h : Scattered source op old Z operand text) (hm : name.isName = true)
    (hw : ∀ t ∈ name :: old, t.Whole source strict) (hr : rest.head?.all isTerminator = true) :
    ∃ o o' v v' x x', assign? source name (old ++ rest) =
        some (.simple (.assign o name v false false x) rest) ∧
      assign? source name (expansion name.value op.value operand i ++ rest) =
        some (.simple (.assign o' name v' false false x') rest) ∧ R.Runs v v' := by
  have hk := kind_of_isName hm
  obtain ⟨j, k, hname⟩ := (hw name List.mem_cons_self).eq_leaf (by simp [hk]) (by simp [hk])
  have hmet : ∀ j' k', R.Met name (.leaf .word name.value j' k') := by
    intro j' k'
    rw [hname, hk]
    exact .leaf
  have hop : op ∈ old → op.kind = .operator → ∀ j' k',
      R.Met op (.leaf .operator op.value j' k') := by
    intro ho hk' j' k'
    obtain ⟨j, k, hleaf⟩ := (hw op (by simp [ho])).eq_leaf (by simp [hk']) (by simp [hk'])
    rw [hleaf, hk']
    exact .leaf
  have hoperand : ∀ i, (operand i).isSignificant = true := by
    intro i
    rcases h.operand_kind i with hk' | hk' <;> exact significant_of_kind (by simp [hk'])
  obtain ⟨o', x', hnew⟩ := assign_expansion source op.value (i := i) hm hoperand hr
  cases h with
  | @assign equals _ V ho hv heq _ hs _ _ _ =>
    have hline := line_of_significant hs hr
    have hsecond := not_operator_of_symbol heq
    have hold : assign? source name (op :: equals :: unbroken V ++ rest) =
        some (compoundHead source name op equals (unbroken V ++ rest)) := by
      simp [assign?, hm, compound?, ho, hv, hsecond, heq]
    simp only [compoundHead, hline] at hold
    refine ⟨_, o', _, _, _, x', hold, hnew, ?_⟩
    have hvalue : R.Spoken (unbroken (unbroken V)) (unbroken V) := by
      rw [Rendering.unbroken_eq (fun t ht => by simpa using (List.mem_filter.mp ht).2)]
      exact .inl (hR.pairs_self (fun t ht => hw t (by simp only [List.mem_cons]; tauto)))
    exact Rendering.runs_operated (hmet _ _) hm (hop (by simp) ho _ _) ho
      (.parentheses rfl rfl hvalue) (.inl rfl)
  | @step second _ ho hv hs _ _ =>
    have hops : op.value ∈ compoundOperators := by
      rcases hv with hv | hv <;> simp [hv, compoundOperators]
    simp only [Token.is, Bool.and_eq_true, beq_iff_eq] at hs
    have hold : assign? source name ([op, second] ++ rest) =
        some (stepHead source name op second rest) := by
      simp [assign?, hm, compound?, ho, hops, hv, hs, hr]
    simp only [stepHead] at hold
    refine ⟨_, o', _, _, _, x', hold, hnew, ?_⟩
    exact Rendering.runs_operated (hmet _ _) hm (hop (by simp) ho _ _) ho .leaf (.inr rfl)

end Statements

end Abacus
