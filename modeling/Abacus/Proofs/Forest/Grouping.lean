import Abacus.Proofs.Forest.Source
import Mathlib.Data.List.Chain

/-! Grouping undoes flattening. A flat token list has at most one well-formed forest; grouping finds
it, or names the innermost bracket that is still open at the end. -/

namespace Abacus.Token

def IsLeaf : Token → Prop
  | .leaf .. => True
  | _ => False

/-- An opening bracket. -/
def Opens (t : Token) : Prop :=
  t.kind = .symbol ∧ (closing? t.value).isSome = true

/-- The token is the bracket that closes `opener`. -/
def Closes (opener t : Token) : Prop :=
  t.kind = .symbol ∧ closing? opener.value = some t.value

mutual

def flatten : Token → List Token
  | .leaf kind value index stop => [.leaf kind value index stop]
  | .group _ _ _ _ children opener closer => opener :: (flattenAll children ++ [closer])
  | .call _ _ _ _ name arguments => name :: flatten arguments

def flattenAll : List Token → List Token
  | [] => []
  | t :: rest => flatten t ++ flattenAll rest

end

/-- Outside strict mode no name stands right before a parenthesized group. -/
def Apart (strict : Bool) (F : List Token) : Prop :=
  strict = false → F.IsChain (fun s t => ¬ (s.isName = true ∧ t.isParenthesized = true))

/-- A token of a well-formed forest. A group covers its two brackets and shows that part of the
source; a call covers its name and arguments and shows them one after the other. -/
inductive Grouped (source : String) (strict : Bool) : Token → Prop where
  | leaf {kind : Kind} {value : String} {index stop : Int}
      (h : ¬ (Token.leaf kind value index stop).Opens) :
      Grouped source strict (.leaf kind value index stop)
  | group {children : List Token} {opener closer : Token} (ho : opener.Opens)
      (hc : Closes opener closer) (hg : ∀ c ∈ children, Grouped source strict c)
      (hn : ∀ c ∈ children, ¬ Closes opener c) (ha : Apart strict children) :
      Grouped source strict (.group .group (Text.slice source opener.index closer.stop)
        opener.index closer.stop children opener closer)
  | call {name arguments : Token} (hs : strict = false) (hn : name.isName = true)
      (hp : arguments.isParenthesized = true) (hg : Grouped source strict arguments) :
      Grouped source strict (.call .call (name.value ++ arguments.value) name.index arguments.stop
        name arguments)

structure WellFormed (source : String) (strict : Bool) (F : List Token) : Prop where
  grouped : ∀ t ∈ F, Grouped source strict t
  apart : Apart strict F

/-- The innermost bracket that is still open at the end of the tokens: what follows it is complete
and does not close it. -/
def LastOpen (source : String) (strict : Bool) (tokens : List Token) (o : Token) : Prop :=
  ∃ before F, tokens = before ++ o :: flattenAll F ∧ o.Opens ∧ WellFormed source strict F ∧
    ∀ c ∈ F, ¬ Closes o c

variable {source : String} {strict : Bool}

theorem flattenAll_append (F G : List Token) :
    flattenAll (F ++ G) = flattenAll F ++ flattenAll G := by
  induction F with
  | nil => rfl
  | cons t F ih => simp only [List.cons_append, flattenAll, ih, List.append_assoc]

theorem flattenAll_reverse_cons (t : Token) (before : List Token) :
    flattenAll (t :: before).reverse = flattenAll before.reverse ++ flatten t := by
  simp only [List.reverse_cons, flattenAll_append, flattenAll, List.append_nil]

theorem Opens.value_eq {t : Token} (h : t.Opens) : t.value = "(" ∨ t.value = "\x7b" := by
  have hc := h.2
  unfold closing? at hc
  split at hc
  · exact .inl ‹_›
  · split at hc
    · exact .inr ‹_›
    · cases hc

theorem not_opens_of_closes {opener t : Token} (h : Closes opener t) : ¬ t.Opens := by
  rintro ⟨_, ho⟩
  have hc := h.2
  unfold closing? at hc
  split at hc
  · rw [← Option.some.inj hc] at ho
    exact absurd ho (by decide)
  · split at hc
    · rw [← Option.some.inj hc] at ho
      exact absurd ho (by decide)
    · cases hc

theorem IsLeaf.not_parenthesized {t : Token} (h : t.IsLeaf) : t.isParenthesized = false := by
  cases t with
  | leaf => rfl
  | group => exact h.elim
  | call => exact h.elim

theorem IsLeaf.flatten_eq {t : Token} (h : t.IsLeaf) : flatten t = [t] := by
  cases t with
  | leaf => rfl
  | group => exact h.elim
  | call => exact h.elim

theorem IsLeaf.grouped {t : Token} (h : t.IsLeaf) (ho : ¬ t.Opens) : Grouped source strict t := by
  cases t with
  | leaf => exact .leaf ho
  | group => exact h.elim
  | call => exact h.elim

/-- A token put behind a pile, which stands in reverse, does not become part of a call. -/
def StaysOut (strict : Bool) (before : List Token) (t : Token) : Prop :=
  strict = false → ∀ s ∈ before.head?, ¬ (s.isName = true ∧ t.isParenthesized = true)

theorem StaysOut.of_not_parenthesized {t : Token} (h : t.isParenthesized = false)
    (before : List Token) : StaysOut strict before t := by
  intro _ s _ hh
  simp [h] at hh

namespace Apart

theorem nil : Apart strict [] :=
  fun _ => .nil

/-- One more token behind a pile, which stands in reverse. -/
theorem push {before : List Token} {t : Token} (h : Apart strict before.reverse)
    (ht : StaysOut strict before t) : Apart strict (t :: before).reverse := by
  intro hs
  rw [List.reverse_cons, List.isChain_append]
  refine ⟨h hs, by simp, ?_⟩
  intro s hlast u hu
  obtain rfl : t = u := by simpa using hu
  exact ht hs s (by simpa using hlast)

theorem below {before : List Token} {t : Token} (h : Apart strict (t :: before).reverse) :
    Apart strict before.reverse := by
  intro hs
  have hchain := h hs
  rw [List.reverse_cons] at hchain
  exact hchain.left_of_append

end Apart

theorem close_eq (source : String) (opener closer : Token) (before : List Token) :
    close source ⟨opener, before⟩ closer =
      .group .group (Text.slice source opener.index closer.stop) opener.index closer.stop
        before.reverse opener closer := rfl

/-- A pile under construction is well formed, read from its other end. -/
theorem WellFormed.push {before : List Token} {t : Token}
    (h : WellFormed source strict before.reverse) (ht : Grouped source strict t)
    (ha : StaysOut strict before t) : WellFormed source strict (t :: before).reverse := by
  refine ⟨?_, h.apart.push ha⟩
  intro s hs
  rcases List.mem_cons.mp (List.mem_reverse.mp hs) with rfl | hs
  · exact ht
  · exact h.grouped s (List.mem_reverse.mpr hs)

theorem WellFormed.below {before : List Token} {t : Token}
    (h : WellFormed source strict (t :: before).reverse) :
    WellFormed source strict before.reverse ∧ Grouped source strict t := by
  refine ⟨⟨fun s hs => ?_, h.apart.below⟩, h.grouped t (by simp)⟩
  have hm := List.mem_reverse.mp hs
  exact h.grouped s (by simp [hm])

/-- What `settle` does: a name and the parenthesized group after it become a call, and everything
else is put behind what is there. -/
theorem settle_cases (strict : Bool) (before : List Token) (t : Token) :
    (∃ name rest, before = name :: rest ∧ strict = false ∧ name.isName = true ∧
      t.isParenthesized = true ∧ settle strict before t = fuse name t :: rest) ∨
    (settle strict before t = t :: before ∧ StaysOut strict before t) := by
  cases before with
  | nil => exact .inr ⟨rfl, fun _ s hs => by simp at hs⟩
  | cons name rest =>
    by_cases hf : strict = false ∧ name.isName = true ∧ t.isParenthesized = true
    · obtain ⟨hs, hn, hp⟩ := hf
      exact .inl ⟨name, rest, rfl, hs, hn, hp, by simp [settle, hs, hn, hp]⟩
    · refine .inr ⟨?_, fun hs s hm hh => ?_⟩
      · have hcond : (!strict && name.isName && t.isParenthesized) = false := by
          cases strict <;> cases hn : name.isName <;> cases hp : t.isParenthesized <;>
            simp_all
        simp [settle, hcond]
      · obtain rfl : name = s := by simpa using hm
        exact hf ⟨hs, hh⟩

theorem settle_eq_cons {before : List Token} {t : Token}
    (h : StaysOut strict before t) :
    settle strict before t = t :: before := by
  rcases settle_cases strict before t with ⟨name, rest, rfl, hs, hn, hp, _⟩ | ⟨he, _⟩
  · exact (h hs name rfl ⟨hn, hp⟩).elim
  · exact he

theorem settle_of_not_parenthesized {t : Token} (h : t.isParenthesized = false)
    (before : List Token) : settle strict before t = t :: before :=
  settle_eq_cons (.of_not_parenthesized h before)

theorem settle_wellFormed {before : List Token} {t : Token}
    (h : WellFormed source strict before.reverse) (ht : Grouped source strict t) :
    WellFormed source strict (settle strict before t).reverse := by
  rcases settle_cases strict before t with ⟨name, rest, rfl, hs, hn, hp, he⟩ | ⟨he, ha⟩
  · rw [he]
    exact h.below.1.push (.call hs hn hp ht) (.of_not_parenthesized rfl _)
  · rw [he]
    exact h.push ht ha

theorem Grouped.leaf_of_isName {t : Token} (h : Grouped source strict t) (hn : t.isName = true) :
    t.IsLeaf := by
  cases h with
  | leaf _ => exact trivial
  | group _ _ _ _ _ => simp [isName, kind] at hn
  | call _ _ _ _ => simp [isName, kind] at hn

theorem Grouped.kind_of_parenthesized {t : Token} (h : Grouped source strict t)
    (hp : t.isParenthesized = true) : t.kind = .group := by
  cases h with
  | leaf _ => cases hp
  | group _ _ _ _ _ => rfl
  | call _ _ _ _ => cases hp

theorem flattenAll_settle {before : List Token} {t : Token}
    (h : WellFormed source strict before.reverse) :
    flattenAll (settle strict before t).reverse = flattenAll before.reverse ++ flatten t := by
  rcases settle_cases strict before t with ⟨name, rest, rfl, _, hn, _, he⟩ | ⟨he, _⟩
  · have hname := (h.below.2.leaf_of_isName hn).flatten_eq
    rw [he, flattenAll_reverse_cons, flattenAll_reverse_cons, hname]
    simp [fuse, flatten]
  · rw [he, flattenAll_reverse_cons]

/-- No direct child of a pile closes the bracket before it, also after `settle`. -/
theorem settle_not_closes {opener : Token} {before : List Token} {t : Token}
    (h : ∀ c ∈ before, ¬ Closes opener c) (ht : ¬ Closes opener t) :
    ∀ c ∈ settle strict before t, ¬ Closes opener c := by
  rcases settle_cases strict before t with ⟨name, rest, rfl, _, _, _, he⟩ | ⟨he, _⟩
  · rw [he]
    refine List.forall_mem_cons.mpr ⟨?_, fun c hc => h c (List.mem_cons_of_mem _ hc)⟩
    rintro ⟨hk, _⟩
    simp [fuse, kind] at hk
  · rw [he]
    exact List.forall_mem_cons.mpr ⟨ht, h⟩

/-- The tokens behind the innermost open bracket, in reverse. -/
def innermost : List OpenGroup → List Token → List Token
  | [], top => top
  | g :: _, _ => g.children

/-- The same open brackets with other tokens behind the innermost one. -/
def refill : List OpenGroup → List Token → List Token → List OpenGroup × List Token
  | [], _, pile => ([], pile)
  | g :: outer, top, pile => (⟨g.opener, pile⟩ :: outer, top)

/-- The innermost open bracket is closed by none of the tokens. -/
def LeavesOpen (stack : List OpenGroup) (F : List Token) : Prop :=
  ∀ g ∈ stack.head?, ∀ c ∈ F, ¬ Closes g.opener c

theorem innermost_refill (stack : List OpenGroup) (top pile : List Token) :
    innermost (refill stack top pile).1 (refill stack top pile).2 = pile := by
  cases stack <;> rfl

theorem refill_refill (stack : List OpenGroup) (top pile pile' : List Token) :
    refill (refill stack top pile).1 (refill stack top pile).2 pile' = refill stack top pile' := by
  cases stack <;> rfl

theorem LeavesOpen.refill {stack : List OpenGroup} {F : List Token} (h : LeavesOpen stack F)
    (top pile : List Token) : LeavesOpen (refill stack top pile).1 F := by
  cases stack with
  | nil => exact h
  | cons g outer =>
    intro g' hg'
    obtain rfl : ⟨g.opener, pile⟩ = g' := by simpa [Token.refill] using hg'
    exact h g rfl

theorem LeavesOpen.mono {stack : List OpenGroup} {F G : List Token} (h : LeavesOpen stack F)
    (hs : G ⊆ F) : LeavesOpen stack G :=
  fun g hg c hc => h g hg c (hs hc)

theorem groupFrom_open {t : Token} (h : t.Opens) (stack : List OpenGroup) (top rest : List Token) :
    groupFrom source strict stack top (t :: rest) =
      groupFrom source strict (⟨t, []⟩ :: stack) top rest := by
  rw [groupFrom_cons]
  exact if_pos h

theorem groupFrom_close {g : OpenGroup} {t : Token} (h : Closes g.opener t)
    (outer : List OpenGroup) (top rest : List Token) :
    groupFrom source strict (g :: outer) top (t :: rest) =
      groupFrom source strict
        (refill outer top (settle strict (innermost outer top) (close source g t))).1
        (refill outer top (settle strict (innermost outer top) (close source g t))).2 rest := by
  have ho : ¬ (t.kind = .symbol ∧ (closing? t.value).isSome = true) := not_opens_of_closes h
  have hc : t.kind = .symbol ∧ closing? g.opener.value = some t.value := h
  rw [groupFrom_cons, if_neg ho]
  dsimp only
  rw [if_pos hc]
  cases outer <;> rfl

theorem groupFrom_plain {t : Token} (ho : ¬ t.Opens) {stack : List OpenGroup}
    (hs : LeavesOpen stack [t]) (top rest : List Token) :
    groupFrom source strict stack top (t :: rest) =
      groupFrom source strict (refill stack top (t :: innermost stack top)).1
        (refill stack top (t :: innermost stack top)).2 rest := by
  have ho' : ¬ (t.kind = .symbol ∧ (closing? t.value).isSome = true) := ho
  rw [groupFrom_cons, if_neg ho']
  cases stack with
  | nil => rfl
  | cons g outer =>
    have hc : ¬ (t.kind = .symbol ∧ closing? g.opener.value = some t.value) :=
      hs g rfl t List.mem_cons_self
    dsimp only
    rw [if_neg hc]
    rfl

/-- The tokens that were read to get to a state, in their order. -/
def held : List OpenGroup → List Token → List Token
  | [], top => flattenAll top.reverse
  | g :: outer, top => held outer top ++ g.opener :: flattenAll g.children.reverse

/-- Every pile of a state is well formed, and no bracket of it is closed yet. -/
def Pending (source : String) (strict : Bool) : List OpenGroup → List Token → Prop
  | [], top => WellFormed source strict top.reverse
  | g :: outer, top =>
    g.opener.Opens ∧ WellFormed source strict g.children.reverse ∧
      (∀ c ∈ g.children, ¬ Closes g.opener c) ∧ Pending source strict outer top

theorem held_refill {stack : List OpenGroup} {top pile more : List Token}
    (h : flattenAll pile.reverse = flattenAll (innermost stack top).reverse ++ more) :
    held (refill stack top pile).1 (refill stack top pile).2 = held stack top ++ more := by
  cases stack with
  | nil => exact h
  | cons g outer =>
    simp only [innermost] at h
    simp only [refill, held, h, List.append_assoc, List.cons_append]

namespace Pending

variable {stack : List OpenGroup} {top : List Token}

theorem innermost_wellFormed (h : Pending source strict stack top) :
    WellFormed source strict (innermost stack top).reverse := by
  cases stack with
  | nil => exact h
  | cons g outer => exact h.2.1

theorem innermost_open (h : Pending source strict stack top) :
    LeavesOpen stack (innermost stack top) := by
  cases stack with
  | nil => exact fun _ hg => by simp at hg
  | cons g outer =>
    intro g' hg'
    obtain rfl : g = g' := by simpa using hg'
    exact h.2.2.1

theorem refill {pile : List Token} (h : Pending source strict stack top)
    (hw : WellFormed source strict pile.reverse) (hn : LeavesOpen stack pile) :
    Pending source strict (refill stack top pile).1 (refill stack top pile).2 := by
  cases stack with
  | nil => exact hw
  | cons g outer => exact ⟨h.1, hw, hn g rfl, h.2.2.2⟩

/-- The bracket that closes the innermost group makes it a well-formed one. -/
theorem close {g : OpenGroup} {outer : List OpenGroup} {t : Token}
    (h : Pending source strict (g :: outer) top) (ht : Closes g.opener t) :
    Grouped source strict (close source g t) := by
  obtain ⟨ho, hw, hn, _⟩ := h
  refine .group ho ht hw.grouped ?_ hw.apart
  exact fun c hc => hn c (List.mem_reverse.mp hc)

end Pending

theorem not_closes_close (source : String) (g : OpenGroup) (t opener : Token) :
    ¬ Closes opener (close source g t) := by
  rintro ⟨hk, _⟩
  simp [close, kind] at hk

/-- What grouping says about the tokens `all`. -/
def Answers (source : String) (strict : Bool) (all : List Token) :
    Except Fault (List Token) → Prop
  | .ok F => WellFormed source strict F ∧ flattenAll F = all
  | .error f => ∃ o, LastOpen source strict all o ∧ f = ⟨o.index, "Unfinished bracket.", 1⟩

theorem groupFrom_nil_answers {stack : List OpenGroup} {top : List Token}
    (h : Pending source strict stack top) :
    Answers source strict (held stack top) (groupFrom source strict stack top []) := by
  cases stack with
  | nil => exact ⟨h, rfl⟩
  | cons g outer =>
    obtain ⟨ho, hw, hn, _⟩ := h
    exact ⟨g.opener, ⟨held outer top, g.children.reverse, rfl, ho, hw,
      fun c hc => hn c (List.mem_reverse.mp hc)⟩, rfl⟩

theorem groupFrom_answers (source : String) (strict : Bool) (tokens : List Token)
    (hl : ∀ t ∈ tokens, t.IsLeaf) (stack : List OpenGroup) (top : List Token)
    (h : Pending source strict stack top) :
    Answers source strict (held stack top ++ tokens)
      (groupFrom source strict stack top tokens) := by
  induction tokens generalizing stack top with
  | nil =>
    rw [List.append_nil]
    exact groupFrom_nil_answers h
  | cons t rest ih =>
    have ht : t.IsLeaf := hl t List.mem_cons_self
    have hrest : ∀ s ∈ rest, s.IsLeaf := fun s hs => hl s (List.mem_cons_of_mem _ hs)
    have hflat : flatten t = [t] := ht.flatten_eq
    by_cases ho : t.Opens
    · rw [groupFrom_open ho]
      have hh := ih hrest (⟨t, []⟩ :: stack) top ⟨ho, ⟨by simp, .nil⟩, by simp, h⟩
      simpa [held, flattenAll] using hh
    · by_cases hs : LeavesOpen stack [t]
      · rw [groupFrom_plain ho hs]
        have hw := h.innermost_wellFormed.push (ht.grouped ho)
          (.of_not_parenthesized ht.not_parenthesized _)
        have hopen : LeavesOpen stack (t :: innermost stack top) :=
          fun g hg => List.forall_mem_cons.mpr
            ⟨hs g hg t List.mem_cons_self, h.innermost_open g hg⟩
        have hh := ih hrest _ _ (h.refill hw hopen)
        have hpile : flattenAll (t :: innermost stack top).reverse =
            flattenAll (innermost stack top).reverse ++ [t] := by
          rw [flattenAll_reverse_cons, hflat]
        rw [held_refill hpile, List.append_assoc] at hh
        exact hh
      · -- the bracket that closes the innermost group
        cases stack with
        | nil => exact (hs (fun _ hg => by simp at hg)).elim
        | cons g outer =>
          have hc : Closes g.opener t := by simpa [LeavesOpen] using hs
          have hgroup := h.close hc
          have hout : Pending source strict outer top := h.2.2.2
          rw [groupFrom_close hc]
          have hw := settle_wellFormed hout.innermost_wellFormed hgroup
          have hopen : LeavesOpen outer
              (settle strict (innermost outer top) (close source g t)) :=
            fun g' hg' => settle_not_closes (hout.innermost_open g' hg')
              (not_closes_close source g t g'.opener)
          have hh := ih hrest _ _ (hout.refill hw hopen)
          have hheld := held_refill (flattenAll_settle (t := close source g t)
            hout.innermost_wellFormed)
          have hflatten : flatten (close source g t) =
            g.opener :: (flattenAll g.children.reverse ++ [t]) := rfl
          rw [hheld, hflatten] at hh
          simpa only [held, List.append_assoc, List.cons_append, List.nil_append] using hh

/-- The tokens of a tree are read as a whole and put behind the innermost open bracket. -/
def ReadWhole (source : String) (strict : Bool) (t : Token) : Prop :=
  ∀ (stack : List OpenGroup) (top rest : List Token), LeavesOpen stack [t] →
    groupFrom source strict stack top (flatten t ++ rest) =
      groupFrom source strict (refill stack top (settle strict (innermost stack top) t)).1
        (refill stack top (settle strict (innermost stack top) t)).2 rest

theorem groupFrom_flattenAll {F : List Token} (hF : ∀ t ∈ F, ReadWhole source strict t)
    (stack : List OpenGroup) (top rest : List Token) (hs : LeavesOpen stack F)
    (ha : Apart strict ((innermost stack top).reverse ++ F)) :
    groupFrom source strict stack top (flattenAll F ++ rest) =
      groupFrom source strict (refill stack top (F.reverse ++ innermost stack top)).1
        (refill stack top (F.reverse ++ innermost stack top)).2 rest := by
  induction F generalizing stack top with
  | nil => cases stack <;> rfl
  | cons t F ih =>
    -- the token before `t` is no name that would take it in
    have hplain : StaysOut strict (innermost stack top) t := by
      intro hstrict s hm
      have hchain := (List.isChain_append.mp (ha hstrict)).2.2
      exact hchain s (by simpa using hm) t (by simp)
    have hhead := hF t List.mem_cons_self stack top (flattenAll F ++ rest) (hs.mono (by simp))
    rw [settle_eq_cons hplain] at hhead
    have hnext : Apart strict ((t :: innermost stack top).reverse ++ F) := by
      simpa only [List.reverse_cons, List.append_assoc, List.singleton_append] using ha
    have hopen : LeavesOpen stack F := hs.mono (List.subset_cons_self t F)
    have htail := ih (fun u hu => hF u (List.mem_cons_of_mem _ hu))
      (refill stack top (t :: innermost stack top)).1
      (refill stack top (t :: innermost stack top)).2 (hopen.refill top _)
      (by rw [innermost_refill]; exact hnext)
    rw [flattenAll, List.append_assoc, hhead, htail, innermost_refill, refill_refill]
    simp only [List.reverse_cons, List.append_assoc, List.singleton_append]

theorem Grouped.readWhole {t : Token} (h : Grouped source strict t) :
    ReadWhole source strict t := by
  induction h with
  | leaf ho =>
    intro stack top rest hs
    rw [settle_of_not_parenthesized rfl]
    exact groupFrom_plain ho hs top rest
  | @group children opener closer ho hc hg hn ha ih =>
    intro stack top rest _
    have hinner : LeavesOpen (⟨opener, []⟩ :: stack) children := by
      intro g hm
      obtain rfl : ⟨opener, []⟩ = g := by simpa using hm
      exact hn
    have hforest := groupFrom_flattenAll ih (⟨opener, []⟩ :: stack) top (closer :: rest) hinner ha
    have hclose := @groupFrom_close source strict ⟨opener, children.reverse⟩ closer hc stack top
      rest
    rw [close_eq, List.reverse_reverse] at hclose
    simp only [flatten, List.cons_append, List.append_assoc, List.nil_append]
    rw [groupFrom_open ho, hforest, ← hclose]
    simp only [refill, innermost, List.append_nil]
  | @call name arguments hs hn hp hg ih =>
    intro stack top rest _
    have hname : name.kind = .word := beq_iff_eq.mp (Bool.and_eq_true_iff.mp hn).1
    have hargs : arguments.kind = .group := hg.kind_of_parenthesized hp
    have hopen : ∀ t : Token, t.kind ≠ .symbol → LeavesOpen stack [t] := by
      intro t hk g _ c hc hh
      obtain rfl : c = t := by simpa using hc
      exact hk hh.1
    have hplain : ¬ name.Opens := fun ho => absurd (hname.symm.trans ho.1) (by decide)
    have hfirst := @groupFrom_plain source strict name hplain stack (hopen name (by simp [hname]))
      top (flatten arguments ++ rest)
    have hsecond := ih (refill stack top (name :: innermost stack top)).1
      (refill stack top (name :: innermost stack top)).2 rest
      ((hopen arguments (by simp [hargs])).refill top _)
    have hfuse : settle strict (name :: innermost stack top) arguments =
        settle strict (innermost stack top) (fuse name arguments) := by
      have hcall : (fuse name arguments).isParenthesized = false := rfl
      rw [settle_of_not_parenthesized hcall]
      simp [settle, hs, hn, hp]
    rw [innermost_refill, refill_refill, hfuse] at hsecond
    exact hfirst.trans hsecond

theorem WellFormed.groupAll_flattenAll {F : List Token} (h : WellFormed source strict F) :
    groupAll source strict (flattenAll F) = .ok F := by
  have hh := groupFrom_flattenAll (fun t ht => (h.grouped t ht).readWhole) [] [] []
    (fun _ hg => by simp at hg) h.apart
  rw [List.append_nil] at hh
  simpa [groupAll, refill, innermost, groupFrom] using hh

/-- Reading a list leads to some state, from which the tokens behind it are read. -/
theorem groupFrom_append (source : String) (strict : Bool) (tokens : List Token)
    (stack : List OpenGroup) (top : List Token) :
    ∃ stack' top', ∀ rest, groupFrom source strict stack top (tokens ++ rest) =
      groupFrom source strict stack' top' rest := by
  induction tokens generalizing stack top with
  | nil => exact ⟨stack, top, fun _ => rfl⟩
  | cons t tokens ih =>
    by_cases ho : t.Opens
    · obtain ⟨stack', top', hh⟩ := ih (⟨t, []⟩ :: stack) top
      exact ⟨stack', top', fun rest => (groupFrom_open ho _ _ _).trans (hh rest)⟩
    · by_cases hs : LeavesOpen stack [t]
      · obtain ⟨stack', top', hh⟩ := ih (refill stack top (t :: innermost stack top)).1
          (refill stack top (t :: innermost stack top)).2
        exact ⟨stack', top', fun rest => (groupFrom_plain ho hs _ _).trans (hh rest)⟩
      · cases stack with
        | nil => exact (hs (fun _ hg => by simp at hg)).elim
        | cons g outer =>
          have hc : Closes g.opener t := by simpa [LeavesOpen] using hs
          obtain ⟨stack', top', hh⟩ := ih
            (refill outer top (settle strict (innermost outer top) (close source g t))).1
            (refill outer top (settle strict (innermost outer top) (close source g t))).2
          exact ⟨stack', top', fun rest => (groupFrom_close hc _ _ _).trans (hh rest)⟩

theorem LastOpen.groupAll_eq {tokens : List Token} {o : Token}
    (h : LastOpen source strict tokens o) :
    groupAll source strict tokens = .error ⟨o.index, "Unfinished bracket.", 1⟩ := by
  obtain ⟨before, F, rfl, ho, hw, hn⟩ := h
  obtain ⟨stack, top, hstate⟩ := groupFrom_append source strict before [] []
  have hopen : LeavesOpen (⟨o, []⟩ :: stack) F := by
    intro g hg
    obtain rfl : ⟨o, []⟩ = g := by simpa using hg
    exact hn
  have hforest := groupFrom_flattenAll (fun t ht => (hw.grouped t ht).readWhole) (⟨o, []⟩ :: stack)
    top [] hopen hw.apart
  rw [List.append_nil] at hforest
  rw [groupAll, hstate, groupFrom_open ho, hforest]
  rfl

/-- Grouping is exactly the inverse of flattening. What it finds is the only well-formed forest
with these tokens; if it fails there is none, and the innermost open bracket is to blame. -/
theorem groupAll_inverts_flattenAll (source : String) (strict : Bool) (tokens : List Token)
    (hl : ∀ t ∈ tokens, t.IsLeaf) :
    match groupAll source strict tokens with
    | .ok F => WellFormed source strict F ∧ flattenAll F = tokens ∧
        ∀ G, WellFormed source strict G → flattenAll G = tokens → G = F
    | .error f => (∀ G, WellFormed source strict G → flattenAll G ≠ tokens) ∧
        (∃ o, LastOpen source strict tokens o) ∧
        ∀ o, LastOpen source strict tokens o → f = ⟨o.index, "Unfinished bracket.", 1⟩ := by
  have hanswer := groupFrom_answers source strict tokens hl [] [] ⟨by simp, .nil⟩
  have honly : ∀ G, WellFormed source strict G → flattenAll G = tokens →
      groupAll source strict tokens = .ok G := fun G hG he => he ▸ hG.groupAll_flattenAll
  change Answers source strict tokens (groupAll source strict tokens) at hanswer
  cases hg : groupAll source strict tokens with
  | ok F =>
    rw [hg] at hanswer
    refine ⟨hanswer.1, hanswer.2, fun G hG he => ?_⟩
    exact Except.ok.inj ((honly G hG he).symm.trans hg)
  | error f =>
    rw [hg] at hanswer
    obtain ⟨o, ho, _⟩ := hanswer
    refine ⟨fun G hG he => ?_, ⟨o, ho⟩, fun o' ho' => ?_⟩
    · cases (honly G hG he).symm.trans hg
    · exact Except.error.inj (hg.symm.trans ho'.groupAll_eq)

theorem attach_isLeaf {before : List Token} {t : Token} (hb : ∀ s ∈ before, s.IsLeaf)
    (ht : t.IsLeaf) : ∀ s ∈ attach before t, s.IsLeaf := by
  rcases attach_cases before t with h | ⟨whole, index, rest, _, h, hrest, _⟩
  · rw [h]
    exact List.forall_mem_cons.mpr ⟨ht, hb⟩
  · rw [h]
    exact List.forall_mem_cons.mpr ⟨trivial, fun s hs => hb s (hrest.subset hs)⟩

theorem foldl_attach_isLeaf (lexemes : List Lexeme) (offset : Nat) {before : List Token}
    (hb : ∀ s ∈ before, s.IsLeaf) : ∀ s ∈ (place offset lexemes).foldl attach before, s.IsLeaf := by
  induction lexemes generalizing offset before with
  | nil => exact hb
  | cons lexeme lexemes ih =>
    obtain ⟨kind, text⟩ := lexeme
    cases kind with
    | none => exact ih (offset + text.length) hb
    | some kind => exact ih (offset + text.length) (attach_isLeaf hb trivial)

/-- A source is scanned into a flat list. -/
theorem scan_isLeaf (source : String) : ∀ t ∈ scan source, t.IsLeaf := by
  intro t ht
  exact foldl_attach_isLeaf (lexemes source.toList) 0 (by simp) t (List.mem_reverse.mp ht)

/-- A call, a bracket that closes nothing, and a word that is no name. -/
def crossing : String :=
  "f(\x7bx)\x7d) + if (y)"

def unfinished : String :=
  "1 + (2 * \x7b3"

theorem crossing_grouped :
    (∃ F, groupAll crossing false (scan crossing) = .ok F ∧
      WellFormed crossing false F ∧ flattenAll F = scan crossing) ∧
    groupAll unfinished false (scan unfinished) = .error ⟨9, "Unfinished bracket.", 1⟩ ∧
      ∀ G, WellFormed unfinished false G → flattenAll G ≠ scan unfinished := by
  have hcrossing : (groupAll crossing false (scan crossing)).isOk = true := by decide +kernel
  have hopen : (match groupAll unfinished false (scan unfinished) with
      | .ok _ => false
      | .error f => f == ⟨9, "Unfinished bracket.", 1⟩) = true := by decide +kernel
  have hfirst := groupAll_inverts_flattenAll crossing false (scan crossing) (scan_isLeaf crossing)
  have hsecond :=
    groupAll_inverts_flattenAll unfinished false (scan unfinished) (scan_isLeaf unfinished)
  constructor
  · cases hg : groupAll crossing false (scan crossing) with
    | ok F =>
      rw [hg] at hfirst
      exact ⟨F, rfl, hfirst.1, hfirst.2.1⟩
    | error f =>
      rw [hg] at hcrossing
      cases hcrossing
  · cases hg : groupAll unfinished false (scan unfinished) with
    | ok F =>
      rw [hg] at hopen
      cases hopen
    | error f =>
      rw [hg] at hopen hsecond
      exact ⟨congrArg Except.error (beq_iff_eq.mp hopen), hsecond.1⟩

end Abacus.Token
