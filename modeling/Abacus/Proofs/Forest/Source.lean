import Abacus.Proofs.Forest.Basic

/-! Scanning and grouping a source give tokens that follow each other and cover what is inside
them. -/

namespace Abacus

open Token

/-- Tokens in reverse that follow each other and stop before a place. -/
structure Piled (limit : Int) (L : List Token) : Prop where
  pairwise : L.Pairwise (fun s t => t.Before s)
  placed : ∀ t ∈ L, t.Placed
  bound : ∀ t ∈ L, t.stop ≤ limit

namespace Piled

variable {limit : Int} {L : List Token}

theorem nil (limit : Int) : Piled limit [] :=
  ⟨.nil, by simp, by simp⟩

theorem mono (h : Piled limit L) {limit' : Int} (hl : limit ≤ limit') : Piled limit' L :=
  ⟨h.pairwise, h.placed, fun t ht => Int.le_trans (h.bound t ht) hl⟩

theorem ordered (h : Piled limit L) : Ordered L.reverse :=
  ⟨List.pairwise_reverse.mpr h.pairwise, fun t ht => h.placed t (List.mem_reverse.mp ht)⟩

theorem push {t : Token} (h : Piled t.index L) (ht : t.Placed) : Piled t.stop (t :: L) := by
  have hlt := ht.index_lt_stop
  refine ⟨List.pairwise_cons.mpr ⟨h.bound, h.pairwise⟩, ?_, ?_⟩
  · exact List.forall_mem_cons.mpr ⟨ht, h.placed⟩
  · refine List.forall_mem_cons.mpr ⟨Int.le_refl _, fun s hs => ?_⟩
    have hb := h.bound s hs
    omega

theorem below {t : Token} (h : Piled limit (t :: L)) : Piled t.index L :=
  ⟨(List.pairwise_cons.mp h.pairwise).2, fun s hs => h.placed s (List.mem_cons_of_mem _ hs),
    (List.pairwise_cons.mp h.pairwise).1⟩

theorem top_placed {t : Token} (h : Piled limit (t :: L)) : t.Placed ∧ t.stop ≤ limit :=
  ⟨h.placed t List.mem_cons_self, h.bound t List.mem_cons_self⟩

end Piled

theorem first_text_ne_nil (c : Char) (cs : List Char) : (Lexeme.first c cs).text ≠ [] := by
  unfold Lexeme.first
  repeat' split
  all_goals simp

theorem lexemesFrom_text_ne_nil (skip : Nat) (cs : List Char) :
    ∀ l ∈ lexemesFrom skip cs, l.text ≠ [] := by
  induction cs generalizing skip with
  | nil => simp [lexemesFrom]
  | cons c cs ih =>
    cases skip with
    | succ skip => exact ih skip
    | zero => exact List.forall_mem_cons.mpr ⟨first_text_ne_nil c cs, ih _⟩

/-- A token is added as it is, or digits behind a dot make a number with what was there before. -/
theorem attach_cases (before : List Token) (t : Token) :
    attach before t = t :: before ∨ ∃ whole index rest, t.kind = .integer ∧
      attach before t = .leaf .float (whole ++ "." ++ t.value) index t.stop :: rest ∧
      rest <:+ before ∧ (whole = "0" ∨ ∃ w ∈ before, w.kind = .integer ∧ w.value = whole) := by
  unfold attach
  split
  · next hi =>
    split
    · next dot whole rest =>
      split
      · split
        · next hw =>
          refine .inr ⟨whole.value, _, rest, hi, rfl, ⟨[dot, whole], rfl⟩, .inr ?_⟩
          exact ⟨whole, by simp, hw, rfl⟩
        · exact .inr ⟨"0", _, _, hi, rfl, ⟨[dot], rfl⟩, .inl rfl⟩
      · exact .inl rfl
    · next dot =>
      split
      · exact .inr ⟨"0", _, _, hi, rfl, ⟨[dot], rfl⟩, .inl rfl⟩
      · exact .inl rfl
    · exact .inl rfl
  · exact .inl rfl

/-- A number that takes in the digits or the dot before it still starts behind what is left. -/
theorem attach_piled {before : List Token} {t : Token} (h : Piled t.index before)
    (ht : t.Placed) : Piled t.stop (attach before t) := by
  have hlt := ht.index_lt_stop
  unfold attach
  split
  · split
    · next dot whole rest =>
      obtain ⟨hdot, hdotstop⟩ := h.top_placed
      obtain ⟨hwhole, hwholestop⟩ := h.below.top_placed
      have hdotlt := hdot.index_lt_stop
      have hwholelt := hwhole.index_lt_stop
      split
      · split
        · exact (h.below.below).push (t := .leaf .float _ whole.index t.stop)
            (.leaf (by omega))
        · exact h.below.push (t := .leaf .float _ dot.index t.stop) (.leaf (by omega))
      · exact h.push ht
    · next dot =>
      obtain ⟨hdot, hdotstop⟩ := h.top_placed
      have hdotlt := hdot.index_lt_stop
      split
      · exact h.below.push (t := .leaf .float _ dot.index t.stop) (.leaf (by omega))
      · exact h.push ht
    · exact h.push ht
  · exact h.push ht

theorem place_piled {lexemes : List Lexeme} (hl : ∀ l ∈ lexemes, l.text ≠ []) (offset : Nat)
    {before : List Token} (h : Piled offset before) :
    ∃ limit, Piled limit ((place offset lexemes).foldl attach before) := by
  induction lexemes generalizing offset before with
  | nil => exact ⟨offset, h⟩
  | cons l lexemes ih =>
    obtain ⟨kind, text⟩ := l
    have hne := List.length_pos_iff.mpr (hl ⟨kind, text⟩ List.mem_cons_self)
    have hrest := fun l hm => hl l (List.mem_cons_of_mem _ hm)
    cases kind with
    | none => exact ih hrest (offset + text.length) (h.mono (by omega))
    | some kind =>
      refine ih hrest (offset + text.length) ?_
      exact attach_piled (t := .leaf kind _ offset (offset + text.length : Nat)) h
        (.leaf (by simp only [] at hne; omega))

theorem scan_ordered (source : String) : Ordered (scan source) := by
  obtain ⟨limit, h⟩ := place_piled (lexemesFrom_text_ne_nil 0 source.toList) 0 (.nil 0)
  exact h.ordered

/-- Open brackets, the innermost first, with what was found behind each of them, and the tokens
outside all of them. -/
def OpenAt (limit : Int) : List OpenGroup → List Token → Prop
  | [], top => Piled limit top
  | g :: outer, top =>
    Piled limit g.children ∧ (∀ c ∈ g.children, g.opener.stop ≤ c.index) ∧
      g.opener.index < g.opener.stop ∧ g.opener.stop ≤ limit ∧ OpenAt g.opener.index outer top

theorem OpenAt.mono {limit limit' : Int} {stack : List OpenGroup} {top : List Token}
    (h : OpenAt limit stack top) (hl : limit ≤ limit') : OpenAt limit' stack top := by
  cases stack with
  | nil => exact Piled.mono h hl
  | cons g outer =>
    obtain ⟨hp, hc, hlt, hle, ho⟩ := h
    exact ⟨hp.mono hl, hc, hlt, Int.le_trans hle hl, ho⟩

theorem close_placed (source : String) {g : OpenGroup} {t : Token} {limit : Int}
    (hp : Piled limit g.children) (hc : ∀ c ∈ g.children, g.opener.stop ≤ c.index)
    (hg : g.opener.index < g.opener.stop) (hl : g.opener.stop ≤ limit) (ht : t.Placed)
    (hi : limit ≤ t.index) : (close source g t).Placed := by
  have hlt := ht.index_lt_stop
  refine .group (by omega) ?_ ?_ hp.ordered.pairwise
  · exact hp.ordered.placed
  · intro c hm
    have hmem := List.mem_reverse.mp hm
    have hbound := hp.bound c hmem
    have hstart := hc c hmem
    omega

theorem settle_piled (strict : Bool) {before : List Token} (group : Token)
    (h : Piled group.index before) (hg : group.Placed) :
    Piled group.stop (settle strict before group) := by
  unfold settle
  split
  · next name rest =>
    obtain ⟨hname, hstop⟩ := h.top_placed
    have hlt := hname.index_lt_stop
    split
    · have hfuse : (fuse name group).Placed := .call (by omega) hg
      exact Piled.push (t := fuse name group) h.below hfuse
    · exact h.push hg
  · exact h.push hg

theorem index_settle (strict : Bool) {before : List Token} {group : Token} {limit : Int}
    (hb : ∀ c ∈ before, limit ≤ c.index) (hg : limit ≤ group.index) :
    ∀ c ∈ settle strict before group, limit ≤ c.index := by
  unfold settle
  split
  · next name rest =>
    obtain ⟨hname, hrest⟩ := List.forall_mem_cons.mp hb
    split
    · exact List.forall_mem_cons.mpr ⟨hname, hrest⟩
    · exact List.forall_mem_cons.mpr ⟨hg, hb⟩
  · exact List.forall_mem_cons.mpr ⟨hg, by simp⟩

theorem groupFrom_cons (source : String) (strict : Bool) (stack : List OpenGroup)
    (top : List Token) (t : Token) (rest : List Token) :
    groupFrom source strict stack top (t :: rest) =
      if t.kind = .symbol ∧ (closing? t.value).isSome then
        groupFrom source strict (⟨t, []⟩ :: stack) top rest
      else match stack with
        | [] => groupFrom source strict [] (t :: top) rest
        | g :: outer =>
          if t.kind = .symbol ∧ closing? g.opener.value = some t.value then
            match outer with
            | [] => groupFrom source strict [] (settle strict top (close source g t)) rest
            | h :: outer =>
              groupFrom source strict
                (⟨h.opener, settle strict h.children (close source g t)⟩ :: outer) top rest
          else groupFrom source strict (⟨g.opener, t :: g.children⟩ :: outer) top rest := by
  cases stack <;> rfl

theorem groupFrom_ordered (source : String) (strict : Bool) {tokens F : List Token}
    {stack : List OpenGroup} {top : List Token} {limit : Int} (hs : OpenAt limit stack top)
    (ho : Ordered tokens) (hl : ∀ t ∈ tokens, limit ≤ t.index)
    (hF : groupFrom source strict stack top tokens = .ok F) : Ordered F := by
  induction tokens generalizing stack top limit with
  | nil =>
    cases stack with
    | nil =>
      simp only [groupFrom] at hF
      cases hF
      exact Piled.ordered hs
    | cons g outer => simp [groupFrom] at hF
  | cons t rest ih =>
    have ht := ho.placed t List.mem_cons_self
    have hlt := ht.index_lt_stop
    have hi := hl t List.mem_cons_self
    have hrest : Ordered rest := ho.sublist (List.sublist_cons_self t rest)
    have hafter := (List.pairwise_cons.mp ho.pairwise).1
    rw [groupFrom_cons] at hF
    split at hF
    · -- an opening bracket
      have hopen : OpenAt t.stop (⟨t, []⟩ :: stack) top :=
        ⟨.nil _, by simp, hlt, Int.le_refl _, hs.mono hi⟩
      exact ih hopen hrest hafter hF
    · cases stack with
      | nil =>
        have htop : OpenAt t.stop [] (t :: top) := (Piled.mono hs hi).push ht
        exact ih htop hrest hafter hF
      | cons g outer =>
        obtain ⟨hp, hc, hg, hgl, hout⟩ := hs
        dsimp only at hF
        split at hF
        · -- the bracket that closes the innermost group
          have hgroup := close_placed source hp hc hg hgl ht hi
          cases outer with
          | nil =>
            have htop : OpenAt t.stop [] (settle strict top (close source g t)) :=
              settle_piled strict (close source g t) hout hgroup
            exact ih htop hrest hafter hF
          | cons h outer =>
            obtain ⟨hp', hc', hg', hgl', hout'⟩ := hout
            have hopen : OpenAt t.stop
                (⟨h.opener, settle strict h.children (close source g t)⟩ :: outer) top :=
              ⟨settle_piled strict (close source g t) hp' hgroup, index_settle strict hc' hgl', hg',
                by dsimp only; omega, hout'⟩
            exact ih hopen hrest hafter hF
        · have hopen : OpenAt t.stop (⟨g.opener, t :: g.children⟩ :: outer) top :=
            ⟨(hp.mono hi).push ht, List.forall_mem_cons.mpr ⟨by dsimp only; omega, hc⟩, hg,
              by dsimp only; omega, hout⟩
          exact ih hopen hrest hafter hF

theorem groupAll_ordered {source : String} {strict : Bool} {tokens F : List Token}
    (ho : Ordered tokens) (hF : groupAll source strict tokens = .ok F) : Ordered F := by
  have hnil : ∀ limit, OpenAt limit [] [] := Piled.nil
  cases tokens with
  | nil => exact groupFrom_ordered source strict (hnil 0) ho (by simp) hF
  | cons t rest =>
    refine groupFrom_ordered source strict (hnil t.index) ho ?_ hF
    have hafter := (List.pairwise_cons.mp ho.pairwise).1
    have hlt := (ho.placed t List.mem_cons_self).index_lt_stop
    refine List.forall_mem_cons.mpr ⟨Int.le_refl _, fun s hs => ?_⟩
    exact Int.le_trans (Int.le_of_lt hlt) (hafter s hs)

end Abacus
