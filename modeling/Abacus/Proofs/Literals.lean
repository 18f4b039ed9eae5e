import Abacus.Proofs.Forest.Expression
import Abacus.Proofs.Forest.Grouping
import Mathlib.Data.List.TakeWhile

/-! The texts that a script reads as numbers. Those of a source are digits with at most one dot, and
whatever is read from tokens has no other numbers than they have, but for the one of `name++`. -/

namespace Abacus

open Token Statement

def Digits (cs : List Char) : Prop :=
  cs ≠ [] ∧ ∀ c ∈ cs, c.isDigit

theorem toNat_of_isDigit {c : Char} (h : c.isDigit) : 48 ≤ c.toNat ∧ c.toNat ≤ 57 := by
  simp only [Char.isDigit, Bool.and_eq_true, decide_eq_true_eq, ge_iff_le,
    UInt32.le_iff_toNat_le] at h
  exact h

inductive Numeral : String → Prop where
  | whole {cs : List Char} (h : Digits cs) : Numeral (String.ofList cs)
  | decimal {cs ds : List Char} (h : Digits cs) (h' : Digits ds) :
      Numeral (String.ofList cs ++ "." ++ String.ofList ds)

theorem numeral_zero : Numeral "0" :=
  @Numeral.whole ['0'] ⟨by simp, by simp⟩

theorem numeral_one : Numeral "1" :=
  @Numeral.whole ['1'] ⟨by simp, by simp⟩

/-- Every number in a token, also between its brackets, is one of certain texts. -/
inductive Token.Reads (literal : String → Prop) : Token → Prop where
  | intro {t : Token} (number : t.IsNumber → literal t.value)
      (contents : ∀ c ∈ t.contents, c.Reads literal) : t.Reads literal

def ReadsOnly (literal : String → Prop) (tokens : List Token) : Prop :=
  ∀ t ∈ tokens, t.Reads literal

variable {literal : String → Prop} {T : List Token}

theorem Token.Reads.contents_readsOnly {t : Token} (h : t.Reads literal) :
    ReadsOnly literal t.contents := by
  cases h with
  | intro _ hc => exact hc

theorem Token.Reads.children_readsOnly {t : Token} (h : t.Reads literal) :
    ReadsOnly literal t.children := by
  have hc := h.contents_readsOnly
  cases t with
  | leaf => exact hc
  | group => exact hc
  | call =>
    intro c hm
    cases hm

theorem Token.Reads.mono {t : Token} {other : String → Prop} (h : t.Reads literal)
    (hl : ∀ text, literal text → other text) : t.Reads other := by
  induction h with
  | intro hn _ ih => exact .intro (fun hk => hl _ (hn hk)) ih

theorem Token.Reads.of_leaf {kind : Kind} {value : String} (index stop : Int)
    (h : kind = .integer ∨ kind = .float → literal value) :
    (Token.leaf kind value index stop).Reads literal :=
  .intro h (fun _ hc => nomatch hc)

namespace ReadsOnly

theorem subset {T' : List Token} (h : ReadsOnly literal T) (hs : T' ⊆ T) :
    ReadsOnly literal T' :=
  fun t ht => h t (hs ht)

theorem nil : ReadsOnly literal [] :=
  fun _ ht => nomatch ht

theorem cons {t : Token} (ht : t.Reads literal) (h : ReadsOnly literal T) :
    ReadsOnly literal (t :: T) :=
  List.forall_mem_cons.mpr ⟨ht, h⟩

theorem head {t : Token} (h : ReadsOnly literal (t :: T)) : t.Reads literal :=
  h t List.mem_cons_self

theorem tail {t : Token} (h : ReadsOnly literal (t :: T)) : ReadsOnly literal T :=
  h.subset (List.subset_cons_self t T)

theorem line (h : ReadsOnly literal T) :
    ReadsOnly literal (Token.line T).1 ∧ ReadsOnly literal (Token.line T).2 := by
  obtain ⟨D, hT, hD⟩ := lineFrom_eq 0 T
  refine ⟨h.subset (fun t ht => ?_), h.subset (line_suffix T).subset⟩
  have hmem : t ∈ D := (List.mem_filter.mp (hD ▸ ht)).1
  rw [hT]
  exact List.mem_append_left _ hmem

end ReadsOnly

/-- The parts of a statement that is being read have no numbers of their own. -/
structure HeadReads (literal : String → Prop) (h : Head) : Prop where
  inner : ReadsOnly literal h.inner
  rest : ReadsOnly literal h.rest
  finish : ∀ body, AllFit (ReadsOnly literal) body → (h.finish body).Fit (ReadsOnly literal)

section Heads

variable {source : String} {rest : List Token} {h : Head}

theorem simple_reads {s : Statement} (hs : s.Fit (ReadsOnly literal))
    (hr : ReadsOnly literal rest) : HeadReads literal (.simple s rest) :=
  ⟨.nil, hr, fun _ _ => hs⟩

theorem blockHead_reads {keyword : Token} {what : String}
    {make : Origin → List Statement → Statement} (hr : ReadsOnly literal rest)
    (hh : blockHead source keyword what make rest = .ok h)
    (hm : ∀ o body, AllFit (ReadsOnly literal) body → (make o body).Fit (ReadsOnly literal)) :
    HeadReads literal h := by
  obtain ⟨block, after, rfl, _, rfl⟩ := blockHead_cases hh
  exact ⟨hr.head.children_readsOnly, hr.tail, hm _⟩

theorem conditionHead_reads {keyword : Token} {what : String}
    {make : Origin → List Token → List Statement → String → Statement}
    (hr : ReadsOnly literal rest) (hh : conditionHead source keyword what make rest = .ok h)
    (hm : ∀ o c body s, ReadsOnly literal c → AllFit (ReadsOnly literal) body →
      (make o c body s).Fit (ReadsOnly literal)) : HeadReads literal h := by
  obtain ⟨D, block, after, o, s, rfl, _, rfl⟩ := conditionHead_cases hh
  have hblock : ReadsOnly literal (block :: after) := hr.subset (List.subset_append_right _ _)
  have hD : ReadsOnly literal (D.filter isSignificant) :=
    hr.subset (fun t ht => List.mem_append_left _ (List.mem_filter.mp ht).1)
  exact ⟨hblock.head.children_readsOnly, hblock.tail, fun body => hm o _ body s hD⟩

theorem timesHead_reads {keyword : Token} (hr : ReadsOnly literal rest)
    (hh : timesHead source keyword rest = .ok h) : HeadReads literal h := by
  obtain ⟨amount, times, after, tail, make, rfl, _, htail, hblock, hm⟩ := timesHead_cases hh
  have hamount : ReadsOnly literal amount := hr.subset (List.subset_append_left _ _)
  have hafter : ReadsOnly literal (times :: after) := hr.subset (List.subset_append_right _ _)
  exact blockHead_reads (hafter.tail.subset htail.subset) hblock
    (fun o body hbody => (hm _ o body).mpr ⟨hamount, hbody⟩)

theorem assign_reads (hone : literal "1") {t : Token} (hr : ReadsOnly literal (t :: rest))
    (hh : assign? source t rest = some h) : HeadReads literal h := by
  have hcompound : compound? source t rest = some h → HeadReads literal h := by
    intro hc
    match rest with
    | [] | [_] => simp [compound?] at hc
    | op :: second :: rest =>
      have hrest := hr.tail.tail.tail
      simp only [compound?] at hc
      split at hc
      · split at hc
        · split at hc
          · cases hc
            have hone' := Token.Reads.of_leaf second.index second.stop
              (fun _ : Kind.integer = .integer ∨ Kind.integer = .float => hone)
            exact simple_reads (.cons hr.head (.cons hr.tail.head (.cons hone' .nil))) hrest
          · cases hc
        · split at hc
          · cases hc
            -- the bracket around the value is a group, whose contents are the line
            refine simple_reads (.cons hr.head (.cons hr.tail.head (.cons ?_ .nil))) hrest.line.2
            exact .intro (fun hn => by rcases hn with hn | hn <;> cases hn) hrest.line.1
          · cases hc
      · cases hc
  unfold assign? at hh
  split at hh
  · split at hh
    · next head hc =>
      cases hh
      exact hcompound hc
    · split at hh
      · next equals rest =>
        split at hh
        · cases hh
          exact simple_reads hr.tail.tail.line.1 hr.tail.tail.line.2
        · cases hh
      · cases hh
  · cases hh

theorem declare_reads {t : Token} (hr : ReadsOnly literal rest)
    (hh : declare? source t rest = some (.ok h)) : HeadReads literal h := by
  have hdeclare : ∀ constant, declareHead source t constant rest = .ok h → HeadReads literal h := by
    intro constant hd
    match rest with
    | [] => simp [declareHead] at hd
    | [name] =>
      simp only [declareHead] at hd
      split at hd <;> cases hd
    | name :: equals :: rest =>
      simp only [declareHead] at hd
      split at hd
      · split at hd
        · cases hd
          exact simple_reads hr.tail.tail.line.1 hr.tail.tail.line.2
        · cases hd
      · cases hd
  unfold declare? at hh
  split at hh
  · exact hdeclare _ (Option.some.inj hh)
  · split at hh
    · exact hdeclare _ (Option.some.inj hh)
    · cases hh

theorem define_reads {strict : Bool} {t : Token} (hr : ReadsOnly literal rest)
    (hh : define? source strict t rest = some (.ok h)) : HeadReads literal h := by
  have hdefine : ∀ call name arguments equals after, ReadsOnly literal after →
      defineHead source strict call name arguments equals after = .ok h → HeadReads literal h := by
    intro call name arguments equals after ha hd
    unfold defineHead at hd
    cases hp : parameterNames strict (arguments.children.filter (fun t => !t.isTerminator)) with
    | error f =>
      rw [hp] at hd
      cases hd
    | ok parameters =>
      rw [hp] at hd
      cases hd
      exact simple_reads ha.line.1 ha.line.2
  rcases define_cases hh with ⟨_, _, _, _, _, _, _, _, rfl, _, rfl, hd⟩ | hl
  · exact hdefine _ _ _ _ _ hr.tail hd.symm
  · obtain ⟨_, _, _, _, _, _, _, rfl, hd⟩ := looseDefine_cases hl
    exact hdefine _ _ _ _ _ hr.tail.tail hd.symm

theorem keywordHead_reads {afterCondition : Bool} {t : Token} (hr : ReadsOnly literal rest)
    (hh : keywordHead? source afterCondition t rest = some (.ok h)) : HeadReads literal h := by
  unfold keywordHead? at hh
  split at hh
  · split at hh
    · exact conditionHead_reads hr (Option.some.inj hh) (fun _ _ _ _ hc hb => ⟨hc, hb⟩)
    · have he := Option.some.inj hh
      unfold elseHead at he
      split at he
      · split at he
        · exact blockHead_reads hr he (fun _ _ hb => hb)
        · split at he
          · exact conditionHead_reads hr.tail he (fun _ _ _ _ hc hb => ⟨hc, hb⟩)
          · exact blockHead_reads hr he (fun _ _ hb => hb)
      · cases he
    · have he := Option.some.inj hh
      unfold repeatHead at he
      split at he
      · split at he
        · exact conditionHead_reads hr.tail he (fun _ _ _ _ hc hb => ⟨hc, hb⟩)
        · exact timesHead_reads hr he
      · exact timesHead_reads hr he
    · exact blockHead_reads hr (Option.some.inj hh) (fun _ _ hb => hb)
    · cases hh
      exact simple_reads hr.line.1 hr.line.2
    · cases hh
      exact simple_reads trivial hr
    · cases hh
      exact simple_reads trivial hr.line.2
    · cases hh
      exact simple_reads trivial hr.line.2
    · cases hh
  · cases hh

theorem head_reads (hone : literal "1") {strict afterCondition : Bool} {t : Token}
    (hr : ReadsOnly literal (t :: rest)) (hh : head source strict afterCondition t rest = .ok h) :
    HeadReads literal h := by
  unfold head at hh
  cases ha : assign? source t rest with
  | some found =>
    rw [ha] at hh
    cases hh
    exact assign_reads hone hr ha
  | none =>
    rw [ha] at hh
    cases hd : declare? source t rest with
    | some found =>
      rw [hd] at hh
      exact declare_reads hr.tail (hd.trans (congrArg some hh))
    | none =>
      rw [hd] at hh
      cases hf : define? source strict t rest with
      | some found =>
        rw [hf] at hh
        exact define_reads hr.tail (hf.trans (congrArg some hh))
      | none =>
        rw [hf] at hh
        cases hk : keywordHead? source afterCondition t rest with
        | some found =>
          rw [hk] at hh
          exact keywordHead_reads hr.tail (hk.trans (congrArg some hh))
        | none =>
          rw [hk] at hh
          have hi : inlineHead source t rest = .ok h := hh
          unfold inlineHead at hi
          split at hi
          · cases hi
            exact simple_reads (.cons hr.head hr.tail.line.1) hr.tail.line.2
          · cases hi

end Heads

theorem readFrom_reads (hone : literal "1") {source : String} {strict : Bool} {fuel : Nat}
    {afterCondition : Bool} {body : List Statement} (hT : ReadsOnly literal T)
    (hb : readFrom source strict fuel afterCondition T = .ok body) :
    AllFit (ReadsOnly literal) body := by
  induction fuel generalizing afterCondition T body with
  | zero =>
    cases hb
    trivial
  | succ fuel ih =>
    cases T with
    | nil =>
      cases hb
      trivial
    | cons t rest =>
      simp only [readFrom] at hb
      split at hb
      · exact ih hT.tail hb
      · cases hh : head source strict afterCondition t rest with
        | error f =>
          rw [hh] at hb
          cases hb
        | ok h =>
          have hreads := head_reads hone hT hh
          rw [hh] at hb
          cases hi : readFrom source strict fuel false h.inner with
          | error f =>
            simp only [hi, bind, Except.bind] at hb
            cases hb
          | ok inner =>
            simp only [hi, bind, Except.bind] at hb
            cases ho : readFrom source strict fuel (h.finish inner).isCondition h.rest with
            | error f =>
              rw [ho] at hb
              cases hb
            | ok others =>
              rw [ho] at hb
              cases hb
              exact ⟨hreads.finish inner (ih hreads.inner hi), ih hreads.rest ho⟩

theorem ofTokens_reads (hone : literal "1") {source : String} {strict : Bool}
    {body : List Statement} (hT : ReadsOnly literal T)
    (hb : ofTokens source strict T = .ok body) : AllFit (ReadsOnly literal) body :=
  readFrom_reads hone hT hb

theorem splitWords_reads {isFunction : String → Bool} (hT : ReadsOnly literal T) :
    ReadsOnly literal (splitWords isFunction T) := by
  have hlong : ReadsOnly literal (splitLong isFunction T) := by
    intro t ht
    rcases mem_splitLong ht with hm | ⟨_, _, _, rfl⟩
    · exact hT t hm
    · exact .of_leaf _ _ (by simp)
  intro t ht
  rcases mem_fuseOnto (List.mem_reverse.mp ht) with hm | hm | ⟨name, g, rfl, hg, _⟩
  · cases hm
  · exact hlong t hm
  · refine .intro (fun hn => ?_) (hlong g hg).children_readsOnly
    rcases hn with hn | hn <;> cases hn

theorem Token.Reads.fit {t : Token} (h : t.Reads literal) :
    t.Fit literal (ReadsOnly literal) (fun _ => ReadsOnly literal) := by
  have hc := h.contents_readsOnly
  cases h with
  | intro hn _ =>
    refine ⟨hn, ?_⟩
    cases t with
    | leaf => trivial
    | group =>
      simp only [PartsFit]
      split <;> exact hc
    | call kind value index stop name arguments =>
      intro runs hruns run hrun
      obtain ⟨P, S, hsplit, _⟩ := splitArguments_between hruns hrun
      refine hc.subset (fun u hu => ?_)
      have hmem : u ∈ arguments.children.filter (fun t => !t.isNewline) := by
        rw [hsplit]
        exact List.mem_append_left _ (List.mem_append_right _ hu)
      exact (List.mem_filter.mp hmem).1

/-- A run of digits is an integer, and a number with a dot is a numeral. -/
structure Token.Spelled (t : Token) : Prop where
  integer : t.kind = .integer → ∃ cs, Digits cs ∧ t.value = String.ofList cs
  float : t.kind = .float → Numeral t.value

theorem Token.Spelled.numeral {t : Token} (h : t.Spelled) (hn : t.IsNumber) : Numeral t.value := by
  rcases hn with hi | hf
  · obtain ⟨cs, hcs, hv⟩ := h.integer hi
    exact hv ▸ .whole hcs
  · exact h.float hf

theorem attach_spelled {before : List Token} {t : Token} (hb : ∀ s ∈ before, s.Spelled)
    (ht : t.Spelled) : ∀ s ∈ attach before t, s.Spelled := by
  rcases attach_cases before t with h | ⟨whole, index, rest, hi, h, hrest, hwhole⟩
  · rw [h]
    exact List.forall_mem_cons.mpr ⟨ht, hb⟩
  · rw [h]
    obtain ⟨ds, hds, hv⟩ := ht.integer hi
    have hdigits : ∃ cs, Digits cs ∧ whole = String.ofList cs := by
      rcases hwhole with rfl | ⟨w, hw, hk, rfl⟩
      · exact ⟨['0'], ⟨by simp, by simp⟩, rfl⟩
      · exact (hb w hw).integer hk
    obtain ⟨cs, hcs, rfl⟩ := hdigits
    rw [hv]
    have hfloat := Numeral.decimal hcs hds
    exact List.forall_mem_cons.mpr ⟨⟨nofun, fun _ => hfloat⟩,
      fun s hs => hb s (hrest.subset hs)⟩

theorem first_spelled (c : Char) (cs : List Char) {kind : Kind}
    (h : (Lexeme.first c cs).kind = some kind) (index stop : Int) :
    (Token.leaf kind (String.ofList (Lexeme.first c cs).text) index stop).Spelled := by
  have hother : kind ≠ .integer → kind ≠ .float → ∀ value : String,
      (Token.leaf kind value index stop).Spelled :=
    fun hi hf _ => ⟨fun hk => (hi hk).elim, fun hk => (hf hk).elim⟩
  unfold Lexeme.first at h ⊢
  split at h
  · cases h
  · split at h
    · cases h
    · split at h
      · cases h
        exact hother (by simp) (by simp) _
      · split at h
        · cases h
          exact hother (by simp) (by simp) _
        · split at h
          · cases h
            exact hother (by simp) (by simp) _
          · split at h
            · next hd =>
              cases h
              have hdigits : Digits (c :: cs.takeWhile Char.isDigit) := by
                refine ⟨by simp, List.forall_mem_cons.mpr ⟨hd, fun d hm => ?_⟩⟩
                exact List.mem_takeWhile_imp hm
              simp_all only [if_false]
              exact ⟨fun _ => ⟨_, hdigits, rfl⟩, fun hk => nomatch hk⟩
            · cases h
              exact hother (by simp) (by simp) _

theorem lexemesFrom_spelled (skip : Nat) (cs : List Char) :
    ∀ l ∈ lexemesFrom skip cs, ∀ kind, l.kind = some kind → ∀ index stop,
      (Token.leaf kind (String.ofList l.text) index stop).Spelled := by
  induction cs generalizing skip with
  | nil => exact fun _ hl => nomatch hl
  | cons c cs ih =>
    cases skip with
    | succ skip => exact ih skip
    | zero => exact List.forall_mem_cons.mpr ⟨fun _ hk => first_spelled c cs hk, ih _⟩

theorem foldl_attach_spelled {lexemes : List Lexeme}
    (hl : ∀ l ∈ lexemes, ∀ kind, l.kind = some kind → ∀ index stop,
      (Token.leaf kind (String.ofList l.text) index stop).Spelled) (offset : Nat)
    {before : List Token} (hb : ∀ s ∈ before, s.Spelled) :
    ∀ s ∈ (place offset lexemes).foldl attach before, s.Spelled := by
  induction lexemes generalizing offset before with
  | nil => exact hb
  | cons lexeme lexemes ih =>
    obtain ⟨hfirst, hrest⟩ := List.forall_mem_cons.mp hl
    obtain ⟨kind, text⟩ := lexeme
    cases kind with
    | none => exact ih hrest _ hb
    | some kind => exact ih hrest _ (attach_spelled hb (hfirst kind rfl _ _))

theorem scan_reads (source : String) : ReadsOnly Numeral (scan source) := by
  intro t ht
  have hm := List.mem_reverse.mp ht
  have hspelled := foldl_attach_spelled (lexemesFrom_spelled 0 source.toList) 0 (by simp) t hm
  have hleaf := foldl_attach_isLeaf (lexemes source.toList) 0 (by simp) t hm
  refine .intro hspelled.numeral ?_
  cases t with
  | leaf => exact fun _ hc => nomatch hc
  | group => cases hleaf
  | call => cases hleaf

theorem settle_reads (strict : Bool) {before : List Token} {group : Token}
    (hb : ReadsOnly literal before) (hg : group.Reads literal) :
    ReadsOnly literal (settle strict before group) := by
  unfold settle
  split
  · split
    · refine .cons (.intro (fun hn => ?_) hg.children_readsOnly) hb.tail
      rcases hn with hn | hn <;> cases hn
    · exact .cons hg hb
  · exact .cons hg .nil

theorem groupFrom_reads {source : String} {strict : Bool} {tokens F : List Token}
    {stack : List OpenGroup} {top : List Token} (hT : ReadsOnly literal tokens)
    (hs : ∀ g ∈ stack, ReadsOnly literal g.children) (htop : ReadsOnly literal top)
    (hF : groupFrom source strict stack top tokens = .ok F) : ReadsOnly literal F := by
  induction tokens generalizing stack top with
  | nil =>
    cases stack with
    | nil =>
      simp only [groupFrom] at hF
      cases hF
      exact htop.subset (fun _ ht => List.mem_reverse.mp ht)
    | cons g outer => simp [groupFrom] at hF
  | cons t rest ih =>
    rw [groupFrom_cons] at hF
    split at hF
    · exact ih hT.tail (List.forall_mem_cons.mpr ⟨.nil, hs⟩) htop hF
    · cases stack with
      | nil => exact ih hT.tail hs (.cons hT.head htop) hF
      | cons g outer =>
        obtain ⟨hg, houter⟩ := List.forall_mem_cons.mp hs
        dsimp only at hF
        split at hF
        · have hclosed : (close source g t).Reads literal := by
            refine .intro (fun hn => ?_) (hg.subset (fun _ hc => List.mem_reverse.mp hc))
            rcases hn with hn | hn <;> cases hn
          cases outer with
          | nil => exact ih hT.tail houter (settle_reads strict htop hclosed) hF
          | cons o outer =>
            obtain ⟨ho, houter⟩ := List.forall_mem_cons.mp houter
            have hfilled := settle_reads strict ho hclosed
            exact ih hT.tail (List.forall_mem_cons.mpr ⟨hfilled, houter⟩) htop hF
        · exact ih hT.tail (List.forall_mem_cons.mpr ⟨.cons hT.head hg, houter⟩) htop hF

/-- Every number of a program is one of certain texts. -/
def Program.Reads (literal : String → Prop) (p : Program) : Prop :=
  AllFit (ReadsOnly literal) p.body

theorem Program.parse_reads (hl : ∀ text, Numeral text → literal text) {source : String}
    {strict : Bool} {p : Program} (h : Program.parse source strict = .ok p) :
    p.Reads literal := by
  unfold Program.parse at h
  cases hg : groupAll source strict (scan source) with
  | error f =>
    rw [hg] at h
    cases h
  | ok F =>
    rw [hg] at h
    have hF : ReadsOnly Numeral F := groupFrom_reads (scan_reads source) (by simp) .nil hg
    cases hb : ofTokens source strict F with
    | error f =>
      simp only [hb, bind, Except.bind] at h
      cases h
    | ok body =>
      simp only [hb, bind, Except.bind] at h
      cases h
      have hmono : ReadsOnly literal F := fun t ht => (hF t ht).mono hl
      exact ofTokens_reads (hl _ numeral_one) hmono hb

end Abacus
