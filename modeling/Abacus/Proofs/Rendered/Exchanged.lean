import Abacus.Proofs.Continued.Forest
import Abacus.Proofs.Rendered.Found
import Abacus.Proofs.Rendered.Scan
import Abacus.Proofs.Strict.Forest

/-! A forest in which the tokens of a compound assignment give way to those of what it stands for.
It stays well formed, and its flat tokens are those of before but for the ones that are exchanged. -/

namespace Abacus

open Token Statement

variable {source text : String} {strict : Bool} {name op : Token} {operand : Int → Token} {i : Int}
  {old Z F F' U V : List Token}

theorem Token.IsSeparator.of_terminator {t : Token} (h : t.isTerminator = true) :
    t.IsSeparator := by
  simp only [isTerminator, isSymbol, Token.is, Bool.or_eq_true, Bool.and_eq_true, beq_iff_eq] at h
  rcases h with ⟨hk, hv⟩ | ⟨hk, hv⟩ <;> exact ⟨hk, by simp [hv]⟩

theorem Token.IsSeparator.of_comma {t : Token} (h : t.isSymbol "," = true) : t.IsSeparator := by
  simp only [isSymbol, Token.is, Bool.and_eq_true, beq_iff_eq] at h
  exact ⟨h.1, by simp [h.2]⟩

theorem Token.IsSeparator.of_closes {o t : Token} (h : Closes o t) : t.IsSeparator := by
  refine ⟨h.1, ?_⟩
  rcases Spliced.closing_eq h.2 with hv | hv <;> simp [hv]

/-- The contents of a bracket or a call are cast to others. -/
inductive Rendering.Casts (R : Rendering) (s : Token) (C' : List Token) : Prop where
  | pairs (h : R.Pairs s.contents C')
  | block (hb : s.isBlock = true) (h : R.recast s.contents C')
  | bracket {W W' : List Token} {Y : List (List Token)} (hp : s.isParenthesized = true)
      (h : R.Bare (unbroken s.contents) (unbroken C'))
      (hs : R.strict = true → CommaJoined (W :: Y) (unbroken s.contents) ∧
        CommaJoined (W' :: Y) (unbroken C') ∧ R.Bare W W')
      (hY : ∀ run ∈ Y, ∀ t ∈ run, t ∈ s.contents)
  | argument {W W' : List Token} {X Y : List (List Token)} (hk : s.kind = .call)
      (h : CommaJoined (X ++ W :: Y) (unbroken s.contents))
      (h' : CommaJoined (X ++ W' :: Y) (unbroken C')) (hW : R.Bare W W')

/-- A list and the same list with tokens exchanged somewhere in it, behind a name. -/
structure Exchanged (source : String) (strict : Bool) (name : Token) (old new : List Token)
    (F F' : List Token) : Prop where
  wellFormed : WellFormed source strict F'
  closes : ∀ o, (∀ t ∈ F, ¬ Closes o t) → ∀ t ∈ F', ¬ Closes o t
  flat : ∃ U V, flattenAll F = U ++ name :: (flattenAll old ++ V) ∧
    flattenAll F' = U ++ name :: (flattenAll new ++ V) ∧ ∀ t ∈ V.head?, t.IsSeparator

section Expansion

theorem expansion_not_closes {o t : Token} (hl : ∀ i, (operand i).kind ≠ .symbol)
    (ht : t ∈ expansion name.value op.value operand i) : ¬ Closes o t := by
  rintro ⟨hk, hv⟩
  simp only [expansion, operation, List.mem_cons, List.not_mem_nil, or_false] at ht
  rcases ht with rfl | rfl | rfl | rfl
  · rcases Spliced.closing_eq hv with hv | hv <;> simp [Token.value] at hv
  · cases hk
  · cases hk
  · exact hl _ hk

theorem Token.Scattered.operand_grouped (h : Scattered source op old Z operand text)
    (hF : WellFormed source strict Z) : Grouped source strict (operand i) := by
  cases h with
  | @assign equals N V _ _ _ _ _ hc _ _ =>
    have hopens : (Token.leaf .symbol "(" i (i + 1)).Opens := ⟨rfl, rfl⟩
    have hcloses : Closes (.leaf .symbol "(" i (i + 1)) (.leaf .symbol ")" (i + 1) (i + 2)) :=
      ⟨rfl, rfl⟩
    have hout : ∀ t ∈ V, ¬ Closes (.leaf .symbol "(" i (i + 1)) t := by
      rintro t ht ⟨hk, hv⟩
      have hclosing := hc t ht
      have hvalue : t.value = ")" := (Option.some.inj hv).symm
      simp [isSymbol, Token.is, hk, hvalue] at hclosing
    have hgroup := Grouped.group hopens hcloses
      (fun t ht => hF.grouped t (List.mem_append_right N ht)) hout
      (fun hs => (hF.apart hs).right_of_append)
    exact hgroup
  | step => exact .leaf (by simp [Opens, Token.kind])

theorem expansion_grouped (hl : ∀ i, Grouped source strict (operand i)) :
    ∀ t ∈ expansion name.value op.value operand i, Grouped source strict t := by
  simp only [expansion, operation, List.forall_mem_cons, List.not_mem_nil, false_implies,
    implies_true, and_true]
  exact ⟨.leaf (by simp [Opens, closing?, Token.kind, Token.value]),
    .leaf (by simp [Opens, Token.kind]), .leaf (by simp [Opens, Token.kind]), hl _⟩

theorem apart_expansion (hl : ∀ i, (operand i).isName = false)
    (hF : Apart strict (U ++ name :: (Z ++ V))) :
    Apart strict (U ++ name :: (expansion name.value op.value operand i ++ V)) := by
  intro hs
  obtain ⟨hfront, hback⟩ := List.isChain_split.mp (hF hs)
  have hrest : ∀ i, (operand i :: V).IsChain
      (fun s t => ¬ (s.isName = true ∧ t.isParenthesized = true)) := by
    intro i
    cases V with
    | nil => exact .singleton _
    | cons v V =>
      refine .cons_cons (fun hh => by simp [hl] at hh) ?_
      rw [← List.cons_append] at hback
      exact hback.right_of_append
  refine List.isChain_split.mpr ⟨hfront, ?_⟩
  simp only [expansion, operation, List.cons_append, List.nil_append]
  exact .cons_cons (fun hh => absurd hh.2 Bool.false_ne_true)
    (.cons_cons (fun hh => absurd hh.2 Bool.false_ne_true)
      (.cons_cons (fun hh => absurd hh.2 Bool.false_ne_true)
        (.cons_cons (fun hh => absurd hh.1 Bool.false_ne_true) (hrest _))))

end Expansion

namespace Exchanged

/-- A compound assignment is written out. -/
theorem here (h : Scattered source op old Z operand text) (hm : name.isName = true)
    (hF : WellFormed source strict (U ++ name :: (Z ++ V))) (hV : ∀ t ∈ V.head?, t.IsSeparator) :
    Exchanged source strict name Z (expansion name.value op.value operand i)
      (U ++ name :: (Z ++ V)) (U ++ name :: (expansion name.value op.value operand i ++ V)) := by
  have hoperand : ∀ k, (operand k).kind ≠ .symbol ∧ (operand k).isName = false := by
    intro k
    rcases h.operand_kind (i := k) with hk | hk <;> simp [hk, isName]
  have hinside : WellFormed source strict Z := by
    refine ⟨fun t ht => hF.grouped t (by simp [ht]), fun hs => ?_⟩
    exact (List.isChain_split.mp (hF.apart hs)).2.tail.left_of_append
  have hname := ((hF.grouped name (by simp)).leaf_of_isName hm).flatten_eq
  have hnew : ∀ t ∈ expansion name.value op.value operand i, Grouped source strict t :=
    expansion_grouped (fun _ => h.operand_grouped hinside)
  refine ⟨⟨fun t ht => ?_, apart_expansion (fun k => (hoperand k).2) hF.apart⟩, fun o ho t ht => ?_,
    flattenAll U, flattenAll V, ?_, ?_, ?_⟩
  · simp only [List.mem_append, List.mem_cons] at ht
    rcases ht with ht | rfl | ht | ht
    · exact hF.grouped t (by simp [ht])
    · exact hF.grouped t (by simp)
    · exact hnew t ht
    · exact hF.grouped t (by simp [ht])
  · simp only [List.mem_append, List.mem_cons] at ht
    rcases ht with ht | rfl | ht | ht
    · exact ho t (by simp [ht])
    · exact ho t (by simp)
    · exact expansion_not_closes (fun k => (hoperand k).1) ht
    · exact ho t (by simp [ht])
  · simp [flattenAll_append, flattenAll, hname]
  · simp [flattenAll_append, flattenAll, hname]
  · cases V with
    | nil => simp [flattenAll]
    | cons v V =>
      have hsep := hV v rfl
      rw [flattenAll, (hF.grouped v (by simp)).flatten_of_kind hsep.1]
      simpa using hsep

/-- A list in one token of which tokens are exchanged. -/
theorem inside {new A B : List Token} {s s' : Token}
    (hF : WellFormed source strict (A ++ s :: B)) (hs : Grouped source strict s')
    (hk : s'.kind ≠ .symbol) (hm : s'.isName = false) (hp : s'.isParenthesized = s.isParenthesized)
    (hflat : ∃ U V, flatten s = U ++ name :: (flattenAll old ++ V) ∧
      flatten s' = U ++ name :: (flattenAll new ++ V) ∧ V ≠ [] ∧ ∀ t ∈ V.head?, t.IsSeparator) :
    Exchanged source strict name old new (A ++ s :: B) (A ++ s' :: B) := by
  obtain ⟨U, V, hold, hnew, hne, hV⟩ := hflat
  obtain ⟨v, V, rfl⟩ := List.exists_cons_of_ne_nil hne
  refine ⟨⟨fun t ht => ?_, fun hst => ?_⟩, fun o ho t ht => ?_, flattenAll A ++ U,
    v :: V ++ flattenAll B, ?_, ?_, hV⟩
  · rcases List.mem_append.mp ht with ht | ht
    · exact hF.grouped t (by simp [ht])
    · rcases List.mem_cons.mp ht with rfl | ht
      · exact hs
      · exact hF.grouped t (by simp [ht])
  · -- the token looks the same from outside
    obtain ⟨hfront, hback⟩ := List.isChain_split.mp (hF.apart hst)
    refine List.isChain_split.mpr ⟨?_, ?_⟩
    · obtain ⟨hA, _, hlast⟩ := List.isChain_append.mp hfront
      refine List.isChain_append.mpr ⟨hA, .singleton _, fun x hx y hy hh => ?_⟩
      obtain rfl := Option.some.inj hy
      exact hlast x hx _ rfl ⟨hh.1, hp ▸ hh.2⟩
    · cases B with
      | nil => exact .singleton _
      | cons b B =>
        exact .cons_cons (fun hh => by simp [hm] at hh) (List.isChain_cons_cons.mp hback).2
  · rcases List.mem_append.mp ht with ht | ht
    · exact ho t (by simp [ht])
    · rcases List.mem_cons.mp ht with rfl | ht
      · exact fun hh => hk hh.1
      · exact ho t (by simp [ht])
  · simp [flattenAll_append, flattenAll, hold]
  · simp [flattenAll_append, flattenAll, hnew]

/-- The contents of one bracket are exchanged, directly or as those of a call. -/
structure Into (source : String) (strict : Bool) (name : Token) (old new : List Token)
    (s s' : Token) : Prop where
  grouped : Grouped source strict s'
  kind_ne : s'.kind ≠ .symbol
  unnamed : s'.isName = false
  parenthesized : s'.isParenthesized = s.isParenthesized
  flat : ∃ U V, flatten s = U ++ name :: (flattenAll old ++ V) ∧
    flatten s' = U ++ name :: (flattenAll new ++ V) ∧ V ≠ [] ∧ ∀ t ∈ V.head?, t.IsSeparator

theorem into_group {new C C' : List Token} {o c : Token} {v : String} {i s : Int}
    (hg : Grouped source strict (.group .group v i s C o c))
    (h : Exchanged source strict name old new C C') :
    Into source strict name old new (.group .group v i s C o c) (.group .group v i s C' o c) := by
  cases hg with
  | group ho hc _ hn _ =>
    obtain ⟨U, V, hold, hnew, hV⟩ := h.flat
    refine ⟨.group ho hc h.wellFormed.grouped (h.closes o hn) h.wellFormed.apart, by
      simp [Token.kind], rfl, ?_, o :: U, V ++ [c], ?_, ?_, by simp, fun t ht => ?_⟩
    · simp only [isParenthesized, inside?]
      split <;> rfl
    · simp [flatten, hold]
    · simp [flatten, hnew]
    · cases V with
      | nil =>
        obtain rfl : c = t := by simpa using ht
        exact .of_closes hc
      | cons v V => exact hV t (by simpa using ht)

theorem into_call {new : List Token} {n a a' : Token} (hs : strict = false)
    (hn : n.isName = true) (hp : a.isParenthesized = true)
    (h : Into source strict name old new a a') :
    Into source strict name old new (fuse n a) (fuse n a') := by
  obtain ⟨hgrouped, _, _, hparen, U, V, hold, hnew, hne, hV⟩ := h
  refine ⟨.call hs hn (hparen.trans hp) hgrouped, by simp [Token.kind, fuse], rfl, rfl, n :: U, V,
    ?_, ?_, hne, hV⟩
  · simp [flatten, fuse, hold]
  · simp [flatten, fuse, hnew]

theorem ne_nil {new : List Token} (h : Exchanged source strict name old new [] F') : False := by
  obtain ⟨U, V, hold, _⟩ := h.flat
  simp [flattenAll] at hold

theorem pair_of_group {R : Rendering} {C C' : List Token} {o c : Token} {v : String} {i s : Int}
    (hb : ∀ i, R.begins i i) (ho : o.Opens) (hself : ∀ t ∈ C, R.Pair t t)
    (hC : R.Casts (.group .group v i s C o c) C') :
    R.Pair (.group .group v i s C o c) (.group .group v i s C' o c) := by
  have hvalue : ∀ bracket, ((Token.group .group v i s C o c).inside? bracket).isSome = true →
      o.value = bracket := by
    intro bracket hinside
    by_contra hne
    simp [inside?, hne] at hinside
  cases hC with
  | pairs hC =>
    rcases ho.value_eq with hv | hv
    · exact .parentheses Iff.rfl hv hv (hb _) hC
    · exact .braces Iff.rfl hv hv hC
  | block hblock hC => exact .recast Iff.rfl (hvalue _ hblock) (hvalue _ hblock) hC
  | bracket hp hC hs hY =>
    exact .bare Iff.rfl (hvalue _ hp) (hvalue _ hp) (hb _) hC hs (List.forall₂_same.mpr
      (fun run hrun => List.forall₂_same.mpr (fun t ht => hself t (hY run hrun t ht))))
  | argument hk => cases hk

/-- Exchanging in the contents of a token exchanges in the token. -/
theorem exists_into {new C' : List Token} {s : Token} {R : Rendering} (he : ∀ i, R.ends i i)
    (hb : ∀ i, R.begins i i) (hw : s.Whole source strict) (hC : R.Casts s C')
    (h : Exchanged source strict name old new s.contents C') :
    ∃ s', R.Pair s s' ∧ Into source strict name old new s s' := by
  have hself := hw.contents
  obtain ⟨hg, hf⟩ := hw
  cases hg with
  | leaf _ => exact h.ne_nil.elim
  | @group C o c ho hc hgrouped hn ha =>
    have hpairs : ∀ t ∈ C, R.Pair t t := fun t ht => (hself t ht).pair_self he hb
    exact ⟨_, pair_of_group hb ho hpairs hC, into_group (.group ho hc hgrouped hn ha) h⟩
  | @call n a hs hn hp hgrouped =>
    have hname : n.IsLeaf := hf n (by simp [flatten])
    cases hgrouped with
    | leaf _ => exact h.ne_nil.elim
    | call _ _ _ _ => cases hp
    | @group C o c ho hc hg hn' ha =>
      have hleaf : R.Leaf n n := by
        cases n with
        | leaf => exact .intro (fun _ => ⟨he _, fun _ _ _ => he _⟩)
        | group => exact hname.elim
        | call => exact hname.elim
      have hinto : Into source strict name old new _
          (.group .group (Text.slice source o.index c.stop) o.index c.stop C' o c) :=
        into_group (.group ho hc hg hn' ha) h
      have hsame : ∀ {X : List (List Token)}, (∀ run ∈ X, ∀ t ∈ run, t ∈ C) →
          List.Forall₂ R.Pairs X X := fun hX => List.forall₂_same.mpr (fun run hrun =>
        List.forall₂_same.mpr (fun t ht => (hself t (hX run hrun t ht)).pair_self he hb))
      refine ⟨fuse n _, ?_, into_call hs hn hp hinto⟩
      cases hC with
      | pairs hC => exact .call Iff.rfl hleaf hp (hinto.parenthesized.trans hp) hC
      | block hblock => cases hblock
      | bracket hparen => cases hparen
      | @argument W W' X Y _ hjoined hjoined' hW =>
        have hmem : ∀ run ∈ X ++ W :: Y, ∀ t ∈ run, t ∈ C := fun run hrun t ht =>
          List.mem_of_mem_filter (Rendering.mem_of_joined hjoined hrun ht)
        exact .bareCall Iff.rfl hleaf hp (hinto.parenthesized.trans hp) hjoined hjoined'
          (hsame fun run hrun => hmem run (by simp [hrun])) hW
          (hsame fun run hrun => hmem run (by simp [hrun]))

/-- Some token of a list gives way to another one. -/
theorem exists_around {new A B : List Token} {s s' : Token} {R : Rendering}
    (hself : ∀ t ∈ A ++ s :: B, R.Pair t t) (hF : WellFormed source strict (A ++ s :: B))
    (hs : R.Pair s s') (h : Into source strict name old new s s') :
    R.Pairs (A ++ s :: B) (A ++ s' :: B) ∧
      Exchanged source strict name old new (A ++ s :: B) (A ++ s' :: B) :=
  ⟨List.rel_append (List.forall₂_same.mpr (fun t ht => hself t (by simp [ht])))
      (.cons hs (List.forall₂_same.mpr (fun t ht => hself t (by simp [ht])))),
    inside hF h.grouped h.kind_ne h.unnamed h.parenthesized h.flat⟩

end Exchanged

theorem Token.Grouped.contents_wellFormed {t : Token} (h : Grouped source strict t) :
    WellFormed source strict t.contents := by
  refine ⟨h.contents_grouped, ?_⟩
  cases h with
  | leaf _ => exact .nil
  | group _ _ _ _ ha => exact ha
  | call _ _ _ hg =>
    cases hg with
    | leaf _ => exact .nil
    | group _ _ _ _ ha => exact ha
    | call _ _ _ _ => exact .nil

/-- Where a statement is found: in the script, in a block in braces, in round brackets that are read
as one expression, or in an argument of a call, at any depth. -/
inductive Token.Hosts (source : String) (strict : Bool)
    (Admits : Token → Token → List Token → Prop) (F : List Token) (name : Token)
    (old : List Token) : Prop where
  | script (h : Finds source strict name old F)
  | block {T : List Token} {b : Token} (hL : Level F T) (hb : b ∈ T) (hblock : b.isBlock = true)
      (h : Finds source strict name old b.contents)
  | bracket {T : List Token} {b : Token} (hL : Level F T) (hb : b ∈ T)
      (hp : b.isParenthesized = true) (ha : Admits b name old)
      (hstarts : (unbroken b.contents).head?.any Eval.startsBlock = true)
      (h : Finds source strict name old (unbroken b.contents))
  | argument {T run : List Token} {c : Token} {runs : List (List Token)} (hL : Level F T)
      (hc : c ∈ T) (hk : c.kind = .call) (hj : CommaJoined runs (unbroken c.contents))
      (hr : run ∈ runs) (hstarts : run.head?.any Eval.startsBlock = true)
      (h : Finds source strict name old run)

/-- Round brackets without a comma up to the end of the statement. In strict mode those with one are
read as one expression or as the arguments of a call, depending on what the name in front of them
stands for, and the statement does not end at the same place. -/
def Token.ReadOnce (strict : Bool) (b name : Token) (old : List Token) : Prop :=
  strict = true → ∀ A B, unbroken b.contents = A ++ name :: (old ++ B) →
    ∀ t ∈ A ++ name :: old, t.isSymbol "," = false

/-- Exchanging in a token at any depth exchanges in the forest. -/
theorem Level.exchanged {T new C' : List Token} {b : Token} {R : Rendering}
    (he : ∀ i, R.ends i i) (hi : ∀ i, R.begins i i) (hL : Level F T) (hb : b ∈ T)
    (hC : R.Casts b C') (h : Exchanged source strict name old new b.contents C')
    (hw : ∀ t ∈ F, t.Whole source strict) (hF : WellFormed source strict F) :
    ∃ F', R.Pairs F F' ∧ Exchanged source strict name old new F F' := by
  induction hL with
  | here F =>
    obtain ⟨A, B, rfl⟩ := List.append_of_mem hb
    obtain ⟨b', hpair, hinto⟩ := h.exists_into he hi (hw b hb) hC
    exact ⟨_, Exchanged.exists_around (fun t ht => (hw t ht).pair_self he hi) hF hpair hinto⟩
  | @into F L s hs hl ih =>
    obtain ⟨C'', hpairs, hexchanged⟩ :=
      ih hb (hw s hs).contents (hw s hs).grouped.contents_wellFormed
    obtain ⟨s', hpair, hinto⟩ := hexchanged.exists_into he hi (hw s hs) (.pairs hpairs)
    obtain ⟨A, B, rfl⟩ := List.append_of_mem hs
    exact ⟨_, Exchanged.exists_around (fun t ht => (hw t ht).pair_self he hi) hF hpair hinto⟩

theorem Level.whole {L : List Token} (h : Level F L) (hF : ∀ t ∈ F, t.Whole source strict) :
    ∀ t ∈ L, t.Whole source strict := by
  induction h with
  | here F => exact hF
  | into hs _ ih => exact ih (hF _ hs).contents

theorem Level.wellFormed {L : List Token} (h : Level F L) (hF : WellFormed source strict F) :
    WellFormed source strict L := by
  induction h with
  | here F => exact hF
  | into hs _ ih => exact ih (hF.grouped _ hs).contents_wellFormed

theorem ForestOf.whole (h : ForestOf source strict F) : ∀ t ∈ F, t.Whole source strict := by
  intro t ht
  refine ⟨h.wellFormed.grouped t ht, fun x hx => scan_isLeaf source x ?_⟩
  rw [← h.flat]
  exact mem_flattenAll_of_mem ht hx

section Zones

variable {T A B : List Token} {t : Token}

/-- A token that is no end of a line stands in the list as well. -/
theorem unbroken_at (h : unbroken T = A ++ t :: B) :
    ∃ A' B', T = A' ++ t :: B' ∧ unbroken A' = A ∧ unbroken B' = B := by
  obtain ⟨A', R, rfl, rfl, hR⟩ := List.filter_eq_append_iff.mp h
  obtain ⟨N, B', rfl, hN, _, rfl⟩ := List.filter_eq_cons_iff.mp hR
  have hnone : unbroken N = [] := List.filter_eq_nil_iff.mpr hN
  exact ⟨A' ++ N, B', by simp, by rw [unbroken_append, hnone, List.append_nil], rfl⟩

/-- The tokens of a compound assignment, with the ends of lines among them. -/
theorem Token.Compound.exists_scattered (hc : Compound source op old text)
    (h : unbroken T = A ++ name :: (old ++ B)) : ∃ U Z V operand, T = U ++ name :: (Z ++ V) ∧
      unbroken U = A ∧ Scattered source op old Z operand text ∧ unbroken V = B := by
  obtain ⟨W, l, hW⟩ := List.eq_nil_or_concat old |>.resolve_left (by cases hc <;> simp)
  rw [List.concat_eq_append] at hW
  obtain ⟨U, R, rfl, hU, hR⟩ := unbroken_at h
  rw [hW, List.append_assoc] at hR
  obtain ⟨Z, V, rfl, hZ, hV⟩ := unbroken_at hR
  have hl : l.isNewline = false := not_newline_of_significant (hc.significant l (by simp [hW]))
  have hzone : unbroken (Z ++ [l]) = old := by
    rw [unbroken_append, hZ, hW]
    simp [hl]
  obtain ⟨operand, hraw⟩ := hc.scattered hzone (by simp [hl])
  exact ⟨U, Z ++ [l], V, operand, by simp, hU, hraw, hV⟩

/-- What comes next is a separator, or the end of a line in front of it. -/
theorem separator_of_unbroken (h : ∀ t ∈ (unbroken V).head?, t.IsSeparator) :
    ∀ t ∈ V.head?, t.IsSeparator := by
  cases V with
  | nil => simp
  | cons v V =>
    intro t ht
    obtain rfl : v = t := by simpa using ht
    cases hline : v.isNewline with
    | true =>
      refine .of_terminator ?_
      rw [isNewline] at hline
      simp [isTerminator, hline]
    | false => exact h v (by simp [hline])

/-- The tokens up to the first comma of a list, behind which other runs come. -/
theorem Token.exists_first_run (T : List Token) : ∃ run Y, run <+: T ∧
    (∀ r ∈ Y, ∀ t ∈ r, t ∈ T) ∧
    ∀ A, (∀ t ∈ A, t.isSymbol "," = false) → CommaJoined ((A ++ run) :: Y) (A ++ T) := by
  obtain ⟨runs, h⟩ := exists_commaJoined T
  cases h with
  | last hplain =>
    refine ⟨T, [], List.prefix_rfl, by simp, fun A hA => .last ?_⟩
    exact List.forall_mem_append.mpr ⟨hA, hplain⟩
  | @cons run rest comma Y hplain hcomma hrest =>
    refine ⟨run, Y, List.prefix_append _ _, fun r hr t ht => ?_, fun A hA => ?_⟩
    · simp [Rendering.mem_of_joined hrest hr ht]
    · rw [← List.append_assoc]
      exact .cons (List.forall_mem_append.mpr ⟨hA, hplain⟩) hcomma hrest

/-- Other tokens may stand for one of the runs between the commas. -/
theorem Token.CommaJoined.exists_around {runs : List (List Token)} {run : List Token}
    (h : CommaJoined runs T) (hr : run ∈ runs) : ∃ X Y A B, runs = X ++ run :: Y ∧
      T = A ++ (run ++ B) ∧ (∀ t ∈ run, t.isSymbol "," = false) ∧
      (∀ t ∈ B.head?, t.isSymbol "," = true) ∧
      ∀ run', (∀ t ∈ run', t.isSymbol "," = false) →
        CommaJoined (X ++ run' :: Y) (A ++ (run' ++ B)) := by
  induction h with
  | @last run₀ hlast =>
    obtain rfl := List.mem_singleton.mp hr
    exact ⟨[], [], [], [], rfl, by simp, hlast, by simp, fun run' h' => by simpa using .last h'⟩
  | @cons run₀ rest comma runs hrun hcomma hrest ih =>
    rcases List.mem_cons.mp hr with rfl | hr
    · exact ⟨[], runs, [], comma :: rest, rfl, by simp, hrun, by simp [hcomma],
        fun run' h' => .cons h' hcomma hrest⟩
    · obtain ⟨X, Y, A, B, rfl, rfl, hplain, hB, hothers⟩ := ih hr
      refine ⟨run₀ :: X, Y, run₀ ++ comma :: A, B, rfl, by simp, hplain, hB, fun run' h' => ?_⟩
      have hjoined := CommaJoined.cons hrun hcomma (hothers run' h')
      simpa using hjoined

end Zones

section Found

variable {T A B : List Token}

theorem expansion_plain (hl : ∀ i, (operand i).kind ≠ .symbol) :
    ∀ t ∈ expansion name.value op.value operand i, t.isSymbol "," = false := by
  simp only [expansion, operation, List.forall_mem_cons, List.not_mem_nil, false_implies,
    implies_true, and_true]
  exact ⟨rfl, rfl, rfl, by simp [isSymbol, Token.is, hl]⟩

/-- A compound assignment is written out where ends of lines do not count. -/
theorem Exchanged.exists_unbroken (hc : Compound source op old text) (hm : name.isName = true)
    (hT : WellFormed source strict T) (h : unbroken T = A ++ name :: (old ++ B))
    (hB : ∀ t ∈ B.head?, t.IsSeparator) (i : Int) : ∃ Z operand T',
      Scattered source op old Z operand text ∧ Z ⊆ T ∧
      unbroken T' = A ++ name :: (expansion name.value op.value operand i ++ B) ∧
      Exchanged source strict name Z (expansion name.value op.value operand i) T T' := by
  obtain ⟨U, Z, V, operand, rfl, rfl, hraw, rfl⟩ := hc.exists_scattered h
  have hline : ∀ t ∈ name :: expansion name.value op.value operand i, t.isNewline = false := by
    refine List.forall_mem_cons.mpr ⟨not_newline_of_significant ?_, fun t ht =>
      not_newline_of_significant (expansion_significant hraw.operand_significant t ht)⟩
    exact significant_of_kind (by simp [kind_of_isName hm])
  have hkept : unbroken (name :: expansion name.value op.value operand i) =
      name :: expansion name.value op.value operand i :=
    List.filter_eq_self.mpr (fun t ht => by simp [hline t ht])
  refine ⟨Z, operand, U ++ name :: (expansion name.value op.value operand i ++ V), hraw,
    fun t ht => by simp [ht], ?_, .here hraw hm hT (separator_of_unbroken hB)⟩
  rw [unbroken_append, ← List.cons_append, unbroken_append, hkept, List.cons_append]

/-- In the list `C` a compound assignment to `name` can be written out, behind the name and with ends
of lines among its tokens. `Casts` relates what comes of it to the rest. -/
def Token.WrittenOut (source : String) (strict : Bool) (name op : Token) (old : List Token)
    (text : String) (i : Int) (Casts : Rendering → List Token → Prop) (C : List Token) : Prop :=
  ∃ Z operand C', Scattered source op old Z operand text ∧
    (∀ t ∈ name :: Z, t.Whole source strict) ∧
    Casts (.beside source strict name old (expansion name.value op.value operand i)) C' ∧
    Exchanged source strict name Z (expansion name.value op.value operand i) C C'

section Cases

variable {C : List Token} {b : Token} (hc : Compound source op old text) (hm : name.isName = true)
  (hw : ∀ t ∈ C, t.Whole source strict) (hC : WellFormed source strict C) (ho : Ordered C) (i : Int)

include hc hm hw hC ho

/-- Among the statements of a list. -/
theorem Statement.Finds.recast (h : Finds source strict name old C) :
    WrittenOut source strict name op old text i (fun R C' => R.recast C C') C := by
  obtain ⟨X, rest, rfl, hr⟩ := h.exists_parts
  have hself : unbroken old = old :=
    List.filter_eq_self.mpr (fun t ht => by simp [not_newline_of_significant (hc.significant t ht)])
  obtain ⟨operand, hraw⟩ := hc.scattered hself (fun t ht =>
    not_newline_of_significant (hc.significant t (List.mem_of_getLast? ht)))
  refine ⟨old, operand, _, hraw, fun t ht => hw t ?_, ⟨hw, ho, h, X, rest, rfl, rfl⟩,
    .here hraw hm hC (fun t ht => .of_terminator ?_)⟩
  · rcases List.mem_cons.mp ht with rfl | ht
    · simp
    · simp [ht]
  · rw [Option.mem_def] at ht
    simpa [ht] using hr

/-- In an expression that is read as a block. -/
theorem Statement.Finds.written {A W B : List Token} (h : Finds source strict name old W)
    (hW : unbroken C = A ++ (W ++ B)) (hstarts : W.head?.any Eval.startsBlock = true)
    (hB : ∀ t ∈ B.head?, t.IsSeparator) : ∃ X rest, W = X ++ name :: (old ++ rest) ∧
      WrittenOut source strict name op old text i (fun R C' =>
        ∃ new, (∀ t ∈ new, t.isSymbol "," = false) ∧
          unbroken C' = A ++ (X ++ name :: (new ++ rest) ++ B) ∧
          ∀ rest', rest' <+: rest →
            R.Bare (X ++ name :: (old ++ rest')) (X ++ name :: (new ++ rest'))) C := by
  obtain ⟨X, rest, hparts, hr⟩ := h.exists_parts
  have hsub : W.Sublist C := by
    have hinside : W.Sublist (unbroken C) := by
      rw [hW]
      exact (List.sublist_append_left W B).trans (List.sublist_append_right A _)
    exact hinside.trans List.filter_sublist
  have hbehind : ∀ t ∈ (rest ++ B).head?, t.IsSeparator := by
    cases rest with
    | nil => exact hB
    | cons r rest =>
      intro t ht
      obtain rfl : r = t := by simpa using ht
      exact .of_terminator (by simpa using hr)
  have hplace : unbroken C = A ++ X ++ name :: (old ++ (rest ++ B)) := by simp [hW, hparts]
  obtain ⟨Z, operand, C', hraw, hZ, hunbroken, hexchanged⟩ :=
    Exchanged.exists_unbroken hc hm hC hplace hbehind i
  refine ⟨X, rest, hparts, Z, operand, C', hraw, fun t ht => hw t ?_,
    ⟨expansion name.value op.value operand i, expansion_plain (fun k => ?_), by simp [hunbroken],
      fun rest' hrest => ?_⟩, hexchanged⟩
  · rcases List.mem_cons.mp ht with rfl | ht
    · exact hsub.subset (by simp [hparts])
    · exact hZ ht
  · rcases hraw.operand_kind k with hk | hk <;> simp [hk]
  · have hcut : (X ++ name :: (old ++ rest')).Sublist W :=
      hparts ▸ (((hrest.sublist.append_left old).cons_cons name).append_left X)
    have hended : rest'.head?.all isTerminator = true := by
      obtain ⟨V, rfl⟩ := hrest
      cases rest' with
      | nil => rfl
      | cons r rest' => exact hr
    have hfound := h.cut (ho.sublist hsub) hm hc.significant hparts hended
    refine Rendering.bare_beside hfound rfl hm ?_ (fun x hx => ?_)
      (expansion_significant hraw.operand_significant)
      (fun x hx => hw x ((hcut.trans hsub).subset hx)) (ho.sublist (hcut.trans hsub))
    · rw [hparts] at hstarts
      cases X with
      | nil => exact hstarts
      | cons x X => exact hstarts
    · have hx' : x ∈ unbroken C := by simp [hW, hcut.subset hx]
      simpa using (List.mem_filter.mp hx').2

end Cases

/-- A compound assignment is written out where it is found. -/
theorem Token.Hosts.exchanged (h : Hosts source strict (ReadOnce strict) F name old)
    (hF : ForestOf source strict F) (hc : Compound source op old text) (hm : name.isName = true)
    (i : Int) :
    WrittenOut source strict name op old text i (fun R F' => R.Blocks F F') F := by
  have hwhole := hF.whole
  -- if the contents of a token can be cast, so can the forest
  have hinside : ∀ {T : List Token} {b : Token}, Level F T → b ∈ T →
      WrittenOut source strict name op old text i (fun R C' => R.Casts b C') b.contents →
      WrittenOut source strict name op old text i (fun R F' => R.Blocks F F') F := by
    rintro T b hL hb ⟨Z, operand, C', hraw, hZ, hcasts, hexchanged⟩
    obtain ⟨F', hpairs, hexchanged'⟩ := hL.exchanged (fun _ => rfl) (fun _ => rfl) hb hcasts
      hexchanged hwhole hF.wellFormed
    exact ⟨Z, operand, F', hraw, hZ, .inl hpairs, hexchanged'⟩
  cases h with
  | script h =>
    obtain ⟨Z, operand, F', hraw, hZ, hrecast, hexchanged⟩ :=
      h.recast hc hm hwhole hF.wellFormed hF.ordered i
    exact ⟨Z, operand, F', hraw, hZ, .inr hrecast, hexchanged⟩
  | block hL hb hblock h =>
    have hlevel := hL.contents hb
    obtain ⟨Z, operand, C', hraw, hZ, hrecast, hexchanged⟩ := h.recast hc hm
      (hlevel.whole hwhole) (hlevel.wellFormed hF.wellFormed) (hlevel.ordered hF.ordered) i
    exact hinside hL hb ⟨Z, operand, C', hraw, hZ, .block hblock hrecast, hexchanged⟩
  | @bracket T b hL hb hp hs hstarts h =>
    have hlevel := hL.contents hb
    obtain ⟨X, rest, hparts, Z, operand, C', hraw, hZ, ⟨new, hnew, hunbroken, hbare⟩,
      hexchanged⟩ := h.written hc hm (hlevel.whole hwhole) (hlevel.wellFormed hF.wellFormed)
        (hlevel.ordered hF.ordered) i (A := []) (B := []) (by simp) hstarts (by simp)
    obtain ⟨run, Y, hrun, hY, hjoined⟩ := exists_first_run rest
    refine hinside hL hb ⟨Z, operand, C', hraw, hZ, .bracket (Y := Y) hp ?_
      (fun hst => ⟨?_, ?_, hbare run hrun⟩) (fun r hr t ht => ?_), hexchanged⟩
    · rw [hunbroken, hparts]
      simpa using hbare rest List.prefix_rfl
    · have hplain := hs hst X rest hparts
      rw [hparts]
      simpa using hjoined (X ++ name :: old) hplain
    · have hplain := hs hst X rest hparts
      have hplain' : ∀ t ∈ X ++ name :: new, t.isSymbol "," = false := by
        rw [List.forall_mem_append, List.forall_mem_cons] at hplain ⊢
        exact ⟨hplain.1, hplain.2.1, hnew⟩
      rw [hunbroken]
      simpa using hjoined (X ++ name :: new) hplain'
    · have ht' : t ∈ unbroken b.contents := by simp [hparts, hY r hr t ht]
      exact List.mem_of_mem_filter ht'
  | @argument T run c runs hL hc' hk hj hr hstarts h =>
    have hlevel := hL.contents hc'
    obtain ⟨X', Y', A, B, rfl, hjoin, hplain, hB, hothers⟩ := hj.exists_around hr
    obtain ⟨X, rest, hparts, Z, operand, C', hraw, hZ, ⟨new, hnew, hunbroken, hbare⟩,
      hexchanged⟩ := h.written hc hm (hlevel.whole hwhole) (hlevel.wellFormed hF.wellFormed)
        (hlevel.ordered hF.ordered) i hjoin hstarts (fun t ht => .of_comma (hB t ht))
    have hwhole := hbare rest List.prefix_rfl
    rw [← hparts] at hwhole
    refine hinside hL hc' ⟨Z, operand, C', hraw, hZ, .argument hk hj ?_ hwhole, hexchanged⟩
    rw [hunbroken]
    refine hothers _ ?_
    rw [hparts] at hplain
    simp only [List.forall_mem_append, List.forall_mem_cons] at hplain ⊢
    exact ⟨hplain.1, hplain.2.1, hnew, hplain.2.2.2⟩

end Found

end Abacus
