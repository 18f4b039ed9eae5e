import Abacus.Proofs.Joined.Scan

/-! Reading two sources on separate lines. The end of the tokens ends a line as a newline does, so
the statements of the first source stay what they are when more lines follow; an `else` is the only
word that looks back. -/

namespace Abacus

open Token Statement

/-- Behind the last token that is neither the end of a line nor a backslash stands a backslash. -/
def Token.endsInBackslash (T : List Token) : Bool :=
  T.any isSignificant &&
    (T.reverse.takeWhile (fun t => !t.isSignificant)).any (fun t => t.isSymbol "\\")

/-- No backslash is left at the end that would take the next end of a line away. -/
def Settled (T : List Token) : Prop :=
  ∀ P S, T = P ++ S → (∀ s ∈ S, s.isSignificant = false) → ∀ s ∈ S, s.isSymbol "\\" = false

theorem Settled.of_append {P T : List Token} (h : Settled (P ++ T)) : Settled T := by
  rintro Q S rfl
  exact h (P ++ Q) S (List.append_assoc P Q S).symm

theorem Settled.tail {t : Token} {T : List Token} (h : Settled (t :: T)) : Settled T :=
  Settled.of_append (P := [t]) h

/-- Behind a backslash of a settled list stands a significant token. -/
theorem Settled.behind {t : Token} {T : List Token} (h : Settled (t :: T))
    (ht : t.isSymbol "\\" = true) : ∃ s ∈ T, s.isSignificant = true := by
  by_contra hnone
  have hall : ∀ s ∈ t :: T, s.isSignificant = false := by
    refine List.forall_mem_cons.mpr ⟨by simp [isSignificant, ht], fun s hs => ?_⟩
    by_contra hsig
    exact hnone ⟨s, hs, by simpa using hsig⟩
  have hfalse := h [] (t :: T) rfl hall t List.mem_cons_self
  simp [ht] at hfalse

section Lines

variable {n : Nat} {X : List Token}

theorem isTerminator_newlineAt (n : Nat) : (newlineAt n).isTerminator = true := rfl

theorem lineFrom_append {pending : Nat} {T : List Token} (hT : Settled T)
    (hp : pending = 0 ∨ ∃ t ∈ T, t.isSignificant = true) :
    lineFrom pending (T ++ newlineAt n :: X) =
      ((lineFrom pending T).1, (lineFrom pending T).2 ++ newlineAt n :: X) := by
  induction T generalizing pending with
  | nil =>
    obtain rfl : pending = 0 := by simpa using hp
    simp [lineFrom, isTerminator_newlineAt]
  | cons t T ih =>
    by_cases hterm : t.isTerminator = true
    · cases pending with
      | zero => simp [lineFrom, hterm]
      | succ pending =>
        have hmore : ∃ s ∈ T, s.isSignificant = true := by
          simpa [isSignificant, hterm] using hp
        simpa [lineFrom, hterm] using ih hT.tail (.inr hmore)
    · by_cases hback : t.isSymbol "\\" = true
      · simpa [lineFrom, hterm, hback] using ih hT.tail (.inr (hT.behind hback))
      · simp [lineFrom, hterm, hback, ih hT.tail (.inl rfl)]

theorem line_append {T : List Token} (hT : Settled T) :
    line (T ++ newlineAt n :: X) = ((line T).1, (line T).2 ++ newlineAt n :: X) :=
  lineFrom_append hT (.inl rfl)

theorem blockFrom_append {pending : Nat} {T line rest : List Token} {block : Token}
    (h : blockFrom pending T = some (line, block, rest)) (Y : List Token) :
    blockFrom pending (T ++ Y) = some (line, block, rest ++ Y) := by
  induction T generalizing pending line with
  | nil => cases h
  | cons t T ih =>
    simp only [blockFrom] at h
    simp only [List.cons_append, blockFrom]
    split
    · next hblock =>
      rw [if_pos hblock] at h
      cases h
      rfl
    · next hblock =>
      rw [if_neg hblock] at h
      split
      · next hterm =>
        rw [if_pos hterm] at h
        cases pending with
        | zero => cases h
        | succ pending => exact ih h
      · next hterm =>
        rw [if_neg hterm] at h
        split
        · next hback =>
          rw [if_pos hback] at h
          exact ih h
        · next hback =>
          rw [if_neg hback, Option.map_eq_some_iff] at h
          obtain ⟨⟨line', block', rest'⟩, hfound, heq⟩ := h
          cases heq
          rw [ih hfound]
          rfl

theorem amountFrom_append {T amount rest : List Token} (h : amountFrom T = some (amount, rest))
    (Y : List Token) : amountFrom (T ++ Y) = some (amount, rest ++ Y) := by
  induction T generalizing amount with
  | nil => cases h
  | cons t T ih =>
    simp only [amountFrom] at h
    simp only [List.cons_append, amountFrom]
    split
    · next hend =>
      rw [if_pos hend] at h
      cases h
    · next hend =>
      rw [if_neg hend] at h
      split
      · next htimes =>
        rw [if_pos htimes] at h
        cases h
        rfl
      · next htimes =>
        rw [if_neg htimes, Option.map_eq_some_iff] at h
        obtain ⟨⟨amount', rest'⟩, hfound, heq⟩ := h
        cases heq
        rw [ih hfound]
        rfl

end Lines

section Heads

/-- The same statement with more tokens behind it. -/
def Statement.Head.before (h : Head) (Y : List Token) : Head :=
  ⟨h.inner, h.finish, h.rest ++ Y⟩

/-- A head that was found is found again when `Y` follows. -/
def Persists (Y : List Token) (r r' : Except Fault Head) : Prop :=
  ∀ h, r = .ok h → r' = .ok (h.before Y)

/-- Whether a statement of some kind starts here does not change when `Y` follows. -/
inductive PersistsIf (Y : List Token) :
    Option (Except Fault Head) → Option (Except Fault Head) → Prop where
  | none : PersistsIf Y none none
  | some {r r' : Except Fault Head} (h : Persists Y r r') : PersistsIf Y (some r) (some r')

theorem PersistsIf.orElse {Y : List Token} {x x' y y' : Option (Except Fault Head)}
    (hx : PersistsIf Y x x') (hy : PersistsIf Y y y') : PersistsIf Y (x <|> y) (x' <|> y') := by
  cases hx with
  | none => simpa using hy
  | some h => exact .some h

theorem PersistsIf.getD {Y : List Token} {x x' : Option (Except Fault Head)}
    {r r' : Except Fault Head} (hx : PersistsIf Y x x') (hr : Persists Y r r') :
    Persists Y (x.getD r) (x'.getD r') := by
  cases hx with
  | none => exact hr
  | some h => exact h

theorem Persists.ok {Y : List Token} {h h' : Head} (hh : h' = h.before Y) :
    Persists Y (.ok h) (.ok h') := by
  rintro _ ⟨⟩
  rw [hh]

theorem Persists.error {Y : List Token} {f : Fault} (r : Except Fault Head) :
    Persists Y (.error f) r :=
  nofun

variable {source : String} {n : Nat} {X T : List Token}

theorem persists_compound (name : Token) (hT : Settled T) :
    PersistsIf (newlineAt n :: X) ((compound? source name T).map .ok)
      ((compound? source name (T ++ newlineAt n :: X)).map .ok) := by
  have hend : ∀ T : List Token, (T ++ newlineAt n :: X).head?.all isTerminator =
      T.head?.all isTerminator := by
    intro T
    cases T <;> rfl
  rcases T with _ | ⟨op, _ | ⟨second, T⟩⟩
  · cases X <;> exact .none
  · have hnone : compound? source name (op :: newlineAt n :: X) = none := by
      simp only [compound?, newlineAt, Token.kind]
      split <;> simp [isSymbol, is, Token.kind, Token.value]
    simp only [List.singleton_append, hnone]
    exact .none
  · simp only [List.cons_append, compound?, hend]
    split
    · split
      · split
        · exact .some (.ok rfl)
        · exact .none
      · split
        · refine .some (.ok ?_)
          simp only [compoundHead, line_append hT.tail.tail]
          rfl
        · exact .none
    · exact .none

theorem persists_assign (t : Token) (hT : Settled T) :
    PersistsIf (newlineAt n :: X) ((assign? source t T).map .ok)
      ((assign? source t (T ++ newlineAt n :: X)).map .ok) := by
  simp only [assign?]
  split
  · have hcompound : PersistsIf (newlineAt n :: X) ((compound? source t T).map .ok)
        ((compound? source t (T ++ newlineAt n :: X)).map .ok) := persists_compound t hT
    cases hc : compound? source t T with
    | some head =>
      rw [hc] at hcompound
      generalize compound? source t (T ++ newlineAt n :: X) = c at hcompound ⊢
      cases c with
      | none => cases hcompound
      | some _ => exact hcompound
    | none =>
      rw [hc] at hcompound
      generalize compound? source t (T ++ newlineAt n :: X) = c at hcompound ⊢
      cases c with
      | some _ => cases hcompound
      | none =>
        cases T with
        | nil => exact .none
        | cons equals T =>
          simp only [List.cons_append]
          split
          · refine .some (.ok ?_)
            simp only [assignHead, line_append hT.tail]
            rfl
          · exact .none
  · exact .none

theorem persists_declareHead (keyword : Token) (constant : Bool) (hT : Settled T) :
    Persists (newlineAt n :: X) (declareHead source keyword constant T)
      (declareHead source keyword constant (T ++ newlineAt n :: X)) := by
  rcases T with _ | ⟨name, _ | ⟨equals, T⟩⟩
  · exact .error _
  · simp only [declareHead]
    split <;> exact .error _
  · simp only [List.cons_append, declareHead]
    split
    · split
      · refine .ok ?_
        simp only [assignHead, line_append hT.tail.tail]
        rfl
      · exact .error _
    · exact .error _

theorem persists_declare (t : Token) (hT : Settled T) :
    PersistsIf (newlineAt n :: X) (declare? source t T)
      (declare? source t (T ++ newlineAt n :: X)) := by
  simp only [declare?]
  split
  · exact .some (persists_declareHead t false hT)
  · split
    · exact .some (persists_declareHead t true hT)
    · exact .none

theorem persists_defineHead (strict : Bool) (call name arguments equals : Token) (hT : Settled T) :
    Persists (newlineAt n :: X) (defineHead source strict call name arguments equals T)
      (defineHead source strict call name arguments equals (T ++ newlineAt n :: X)) := by
  simp only [defineHead, line_append hT, bind, Except.bind]
  split
  · exact .error _
  · exact .ok rfl

theorem persists_looseDefine (strict : Bool) (t : Token) (hT : Settled T) :
    PersistsIf (newlineAt n :: X) (looseDefine? source strict t T)
      (looseDefine? source strict t (T ++ newlineAt n :: X)) := by
  have hequals : (newlineAt n).isSymbol "=" = false := by
    simp [newlineAt, isSymbol, is, Token.kind, Token.value]
  have hgroup : (newlineAt n).isParenthesized = false := rfl
  rcases T with _ | ⟨arguments, _ | ⟨equals, T⟩⟩
  · cases X with
    | nil => exact .none
    | cons x X =>
      simp only [List.nil_append, looseDefine?, hgroup, Bool.and_false, Bool.false_and]
      exact .none
  · simp only [List.cons_append, List.nil_append, looseDefine?, hequals, Bool.and_false]
    exact .none
  · simp only [List.cons_append, looseDefine?]
    split
    · exact .some (persists_defineHead strict _ _ _ _ hT.tail.tail)
    · exact .none

theorem persists_define (strict : Bool) (t : Token) (hT : Settled T) :
    PersistsIf (newlineAt n :: X) (define? source strict t T)
      (define? source strict t (T ++ newlineAt n :: X)) := by
  have hloose : PersistsIf (newlineAt n :: X) (looseDefine? source strict t T)
      (looseDefine? source strict t (T ++ newlineAt n :: X)) := persists_looseDefine strict t hT
  cases t with
  | call =>
    cases T with
    | nil => exact hloose
    | cons equals T =>
      simp only [List.cons_append, define?] at hloose ⊢
      split
      · exact .some (persists_defineHead strict _ _ _ _ hT.tail)
      · exact hloose
  | leaf | group => exact hloose

theorem persists_conditionHead (keyword : Token) (what : String)
    (make : Origin → List Token → List Statement → String → Statement) (Y : List Token) :
    Persists Y (conditionHead source keyword what make T)
      (conditionHead source keyword what make (T ++ Y)) := by
  simp only [conditionHead]
  split
  · exact .error _
  · next condition block rest hblock =>
    rw [blockFrom_append hblock]
    dsimp only
    split
    · exact .error _
    · exact .ok rfl

theorem persists_blockHead (keyword : Token) (what : String)
    (make : Origin → List Statement → Statement) (Y : List Token) :
    Persists Y (blockHead source keyword what make T)
      (blockHead source keyword what make (T ++ Y)) := by
  cases T with
  | nil => exact .error _
  | cons block T =>
    simp only [List.cons_append, blockHead]
    split
    · exact .ok rfl
    · exact .error _

theorem persists_elseHead (after : Bool) (keyword : Token) (Y : List Token) :
    Persists Y (elseHead source after keyword T) (elseHead source after keyword (T ++ Y)) := by
  cases T with
  | nil =>
    simp only [elseHead]
    split <;> exact .error _
  | cons t T =>
    simp only [List.cons_append, elseHead]
    split
    · split
      · exact persists_conditionHead _ _ _ Y
      · exact persists_blockHead (T := t :: T) _ _ _ Y
    · exact .error _

theorem persists_timesHead (keyword : Token) (Y : List Token) :
    Persists Y (timesHead source keyword T) (timesHead source keyword (T ++ Y)) := by
  simp only [timesHead]
  split
  · exact .error _
  · next amount rest hamount =>
    rw [amountFrom_append hamount]
    dsimp only
    split
    · exact .error _
    · cases rest with
      | nil => exact .error _
      | cons t rest =>
        simp only [List.cons_append]
        split
        · cases rest with
          | nil => exact .error _
          | cons counter rest =>
            simp only [List.cons_append, counterHead]
            split
            · exact persists_blockHead _ _ _ Y
            · exact .error _
        · exact persists_blockHead (T := t :: rest) _ _ _ Y

theorem persists_repeatHead (keyword : Token) (Y : List Token) :
    Persists Y (repeatHead source keyword T) (repeatHead source keyword (T ++ Y)) := by
  cases T with
  | nil => exact .error _
  | cons t T =>
    simp only [List.cons_append, repeatHead]
    split
    · exact persists_conditionHead _ _ _ Y
    · exact persists_timesHead (T := t :: T) _ Y

theorem persists_keyword (after : Bool) (t : Token) (hT : Settled T) :
    PersistsIf (newlineAt n :: X) (keywordHead? source after t T)
      (keywordHead? source after t (T ++ newlineAt n :: X)) := by
  simp only [keywordHead?]
  split
  · split
    · exact .some (persists_conditionHead _ _ _ _)
    · exact .some (persists_elseHead _ _ _)
    · exact .some (persists_repeatHead _ _)
    · exact .some (persists_blockHead _ _ _ _)
    · refine .some (.ok ?_)
      simp only [returnHead, line_append hT]
      rfl
    · exact .some (.ok rfl)
    · refine .some (.ok ?_)
      simp only [textHead, line_append hT]
      rfl
    · refine .some (.ok ?_)
      simp only [textHead, line_append hT]
      rfl
    · exact .none
  · exact .none

theorem persists_inline (t : Token) (hT : Settled T) :
    Persists (newlineAt n :: X) (inlineHead source t T)
      (inlineHead source t (T ++ newlineAt n :: X)) := by
  simp only [inlineHead]
  split
  · refine .ok ?_
    rw [line_append hT]
    rfl
  · exact .error _

theorem head_append {strict after : Bool} {t : Token} {h : Head}
    (hh : head source strict after t T = .ok h) (hT : Settled T) :
    head source strict after t (T ++ newlineAt n :: X) = .ok (h.before (newlineAt n :: X)) :=
  ((persists_assign t hT).orElse ((persists_declare t hT).orElse
    ((persists_define strict t hT).orElse (persists_keyword after t hT)))).getD
    (persists_inline t hT) h hh

/-- What is read where no `else` may stand is read anywhere. -/
theorem head_after {strict : Bool} {t : Token} {h : Head}
    (hh : head source strict false t T = .ok h) (after : Bool) :
    head source strict after t T = .ok h := by
  have hkeyword : PersistsIf [] (keywordHead? source false t T)
      (keywordHead? source after t T) := by
    have hsame : ∀ r : Except Fault Head, PersistsIf [] (some r) (some r) :=
      fun r => .some (fun h hr => by simp [hr, Head.before])
    simp only [keywordHead?]
    split
    · split
      · exact hsame _
      · exact .some (.error _)
      all_goals first | exact hsame _ | exact .none
    · exact .none
  unfold head at hh ⊢
  generalize (assign? source t T).map Except.ok = a at hh ⊢
  generalize declare? source t T = b at hh ⊢
  generalize define? source strict t T = c at hh ⊢
  rcases a with _ | a
  · rcases b with _ | b
    · rcases c with _ | c
      · have hinline : Persists [] (inlineHead source t T) (inlineHead source t T) :=
          fun h hr => by simp [hr, Head.before]
        have hpersists := hkeyword.getD hinline h hh
        simpa [Head.before] using hpersists
      · exact hh
    · exact hh
  · exact hh

end Heads

section Lists

variable {source : String} {strict : Bool} {n : Nat}

theorem ReadsTo.anywhere {T : List Token} {body : List Statement}
    (h : ReadsTo source strict false T (.ok body)) (after : Bool) :
    ReadsTo source strict after T (.ok body) := by
  generalize hb : false = b at h
  induction h using ReadsTo.ok_induction with
  | done => exact .done
  | skip ht _ ih => exact .skip ht (ih hb)
  | cons ht hh hi ho _ _ =>
    subst hb
    exact .cons ht (head_after hh after) hi ho

/-- The statements of two lists with a newline between them. -/
theorem ReadsTo.append {after : Bool} {T X : List Token} {A B : List Statement}
    (h : ReadsTo source strict after T (.ok A)) (hT : Settled T)
    (hX : ReadsTo source strict false X (.ok B)) :
    ReadsTo source strict after (T ++ newlineAt n :: X) (.ok (A ++ B)) := by
  induction h using ReadsTo.ok_induction with
  | done => exact .skip rfl (hX.anywhere _)
  | skip ht _ ih => exact .skip ht (ih hT.tail)
  | @cons after t rest h body others ht hh hi ho _ ih =>
    obtain ⟨used, hsplit, _⟩ := head_takes hh
    have hrest : Settled h.rest := (hsplit ▸ hT).of_append
    exact .cons (h := h.before (newlineAt n :: X)) ht (head_append hh hT.tail) hi (ih hrest)

/-- A backslash starts no statement. -/
theorem ReadsTo.terminators {after : Bool} {T : List Token} {body : List Statement}
    (h : ReadsTo source strict after T (.ok body)) (hg : ∀ t ∈ T, Grouped source strict t)
    (hs : ∀ t ∈ T, t.isSignificant = false) : ∀ t ∈ T, t.isTerminator = true := by
  induction h using ReadsTo.ok_induction with
  | done => simp
  | skip ht _ ih =>
    obtain ⟨_, hg⟩ := List.forall_mem_cons.mp hg
    obtain ⟨_, hs⟩ := List.forall_mem_cons.mp hs
    exact List.forall_mem_cons.mpr ⟨ht, ih hg hs⟩
  | @cons after t rest h body others ht hh hi ho _ _ =>
    have hback : t.isSymbol "\\" = true := by
      simpa [isSignificant, ht] using hs t List.mem_cons_self
    obtain ⟨hkind, hvalue⟩ : t.kind = .symbol ∧ t.value = "\\" := by
      simpa [isSymbol, is] using hback
    have hname : t.isName = false := by simp [isName, hkind]
    have hdefine : define? source strict t rest = none := by
      cases hg t List.mem_cons_self with
      | leaf => exact looseDefine_none hname source strict rest
      | group => cases hkind
      | call => cases hkind
    have herror : head source strict after t rest = .error (t.fault "Unexpected symbol.") := by
      simp [head, assign?, hname, declare?, is, hkind, hdefine, keywordHead?, inlineHead, isValue]
    cases herror.symm.trans hh

end Lists

theorem Token.Grouped.significant_inside {source : String} {strict : Bool} {t : Token}
    (h : Grouped source strict t) (hs : t.isSignificant = true) :
    ∃ u ∈ flatten t, u.isSignificant = true := by
  cases h with
  | leaf => exact ⟨_, List.mem_cons_self, hs⟩
  | @group children opener closer ho _ _ _ _ =>
    refine ⟨opener, List.mem_cons_self, ?_⟩
    rcases ho.value_eq with hvalue | hvalue <;>
      simp [isSignificant, isTerminator, isSymbol, is, hvalue]
  | @call name arguments _ hn _ _ =>
    refine ⟨name, List.mem_cons_self, significant_of_kind ?_⟩
    have hword : name.kind = .word := beq_iff_eq.mp (Bool.and_eq_true_iff.mp hn).1
    simp [hword]

/-- What a script ends with, seen on its flat tokens and on its forest. -/
theorem settled_of_scan {source : String} {strict : Bool} {F : List Token} {body : List Statement}
    (hF : groupAll source strict (scan source) = .ok F)
    (hread : ReadsTo source strict false F (.ok body))
    (hend : endsInBackslash (scan source) = false) : Settled F := by
  obtain ⟨hw, hflat, _⟩ := groupAll_forestOf hF
  have hleaves : ∀ T ⊆ F, (∀ t ∈ T, t.isSignificant = false) → flattenAll T = T := by
    intro T hT hs
    induction T with
    | nil => rfl
    | cons t T ih =>
      obtain ⟨ht, hT⟩ := List.cons_subset.mp hT
      obtain ⟨hts, hs⟩ := List.forall_mem_cons.mp hs
      have hkind : t.kind = .symbol := by
        by_contra hk
        rw [significant_of_kind hk] at hts
        cases hts
      have hleaf : flatten t = [t] := by
        cases hw.grouped t ht with
        | leaf => rfl
        | group => cases hkind
        | call => cases hkind
      rw [flattenAll, hleaf, ih hT hs]
      rfl
  rintro P S rfl hS s hs
  have hscan : scan source = flattenAll P ++ S := by
    rw [← hflat, flattenAll_append, hleaves S (List.subset_append_right P S) hS]
  by_cases hany : (scan source).any isSignificant = true
  · simp only [endsInBackslash, hany, Bool.true_and, List.any_eq_false] at hend
    have hmem : s ∈ (scan source).reverse.takeWhile (fun t => !t.isSignificant) := by
      rw [hscan, List.reverse_append, List.takeWhile_append_of_pos (by simpa using hS)]
      exact List.mem_append_left _ (List.mem_reverse.mpr hs)
    simpa using hend s hmem
  · -- then nothing but ends of lines can be read
    have hnone : ∀ t ∈ P ++ S, t.isSignificant = false := by
      intro t ht
      by_contra hsig
      obtain ⟨u, hu, husig⟩ := (hw.grouped t ht).significant_inside (by simpa using hsig)
      exact hany (List.any_eq_true.mpr ⟨u, hflat ▸ (flatten_sublist ht).subset hu, husig⟩)
    have hterm := hread.terminators hw.grouped hnone s (List.mem_append_right P hs)
    simp only [isTerminator, isSymbol, is, Bool.or_eq_true, Bool.and_eq_true, beq_iff_eq] at hterm
    rcases hterm with ⟨_, hvalue⟩ | ⟨_, hvalue⟩ <;> simp [isSymbol, is, hvalue]

theorem ReadsTo.moved {source source' : String} {d : Int} {strict : Bool} {F : List Token}
    {body : List Statement} (hread : ReadsTo source strict false F (.ok body))
    (h : Contains source' source d) (hF : groupAll source strict (scan source) = .ok F) :
    ReadsTo source' strict false (Token.shiftAll d F) (.ok (Statement.shiftAll d body)) := by
  have hmoved := ofTokens_readsTo source' strict (Token.shiftAll d F)
  rw [ofTokens_shiftAll h (groupAll_forestOf hF) (fun t ht => ⟨F, .here F, ht⟩),
    hread.ofTokens_eq] at hmoved
  exact hmoved

theorem Program.parse_of_readsTo {source : String} {strict : Bool} {F : List Token}
    {body : List Statement} (hF : groupAll source strict (scan source) = .ok F)
    (hread : ReadsTo source strict false F (.ok body)) :
    Program.parse source strict = .ok ⟨source, body⟩ := by
  rw [Program.parse_of_groupAll hF, hread.ofTokens_eq]
  rfl

/-- The forest of two sources on separate lines and the statements in it. -/
theorem readsTo_joined {a b : String} {strict : Bool} {p q : Program}
    (hp : Program.parse a strict = .ok p) (hq : Program.parse b strict = .ok q)
    (hend : endsInBackslash (scan a) = false) :
    ∃ F, groupAll (a ++ "\n" ++ b) strict (scan (a ++ "\n" ++ b)) = .ok F ∧
      ReadsTo (a ++ "\n" ++ b) strict false F
        (.ok (p.body ++ Statement.shiftAll (a.length + 1) q.body)) := by
  obtain ⟨F, hF, hreadF⟩ := Program.parse_ok hp
  obtain ⟨G, hG, hreadG⟩ := Program.parse_ok hq
  have hfirst := hreadF.moved (contains_first a b) hF
  rw [Token.shiftAll_zero, Statement.shiftAll_zero] at hfirst
  exact ⟨_, groupAll_joined hF hG,
    hfirst.append (settled_of_scan hF hreadF hend) (hreadG.moved (contains_second a b) hG)⟩

/-- Reading lines one after the other is reading them together: two sources that can be read can be
read as one, and the statements of the second stand behind those of the first, moved by the length
of the first and of the newline. -/
theorem Program.parse_joined {a b : String} {strict : Bool} {p q : Program}
    (hp : Program.parse a strict = .ok p) (hq : Program.parse b strict = .ok q)
    (hend : endsInBackslash (scan a) = false) :
    Program.parse (a ++ "\n" ++ b) strict =
      .ok ⟨a ++ "\n" ++ b, p.body ++ Statement.shiftAll (a.length + 1) q.body⟩ := by
  obtain ⟨F, hF, hread⟩ := readsTo_joined hp hq hend
  exact Program.parse_of_readsTo hF hread

/-- A number that goes on behind a backslash, and a condition without an `else`. -/
def upperLines : String :=
  "x = 1 + \\\n 2.5 # not yet\nif x > 2 \x7bf(y) = y + x; print \\x\x7d"

/-- A dot with its digits at the beginning and a backslash at the end. -/
def lowerLines : String :=
  ".5 + f(2)\nrepeat 2 times with i \x7bx += i\x7d\nx \\"

theorem upperLines_lowerLines_parsed : ∃ p q, Program.parse upperLines false = .ok p ∧
    Program.parse lowerLines false = .ok q ∧ p.body.length = 2 ∧ q.body.length = 3 ∧
    Program.parse (upperLines ++ "\n" ++ lowerLines) false = .ok
      ⟨upperLines ++ "\n" ++ lowerLines,
        p.body ++ Statement.shiftAll (upperLines.length + 1) q.body⟩ := by
  have hupper : (match Program.parse upperLines false with
      | .ok p => p.body.length == 2
      | .error _ => false) = true := by decide +kernel
  have hlower : (match Program.parse lowerLines false with
      | .ok q => q.body.length == 3
      | .error _ => false) = true := by decide +kernel
  cases hp : Program.parse upperLines false with
  | error f =>
    rw [hp] at hupper
    cases hupper
  | ok p =>
    cases hq : Program.parse lowerLines false with
    | error f =>
      rw [hq] at hlower
      cases hlower
    | ok q =>
      rw [hp] at hupper
      rw [hq] at hlower
      exact ⟨p, q, rfl, rfl, beq_iff_eq.mp hupper, beq_iff_eq.mp hlower,
        Program.parse_joined hp hq (by decide +kernel)⟩

end Abacus
