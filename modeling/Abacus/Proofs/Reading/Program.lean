import Abacus.Proofs.Reading.Blocks
import Abacus.Proofs.Scanning

/-! From a source to a program. Every source has an answer: a program, or a fault that points at one
of its tokens. The statements of a program stand where their texts are in the source, and no token
but ends of lines and backslashes is outside of them. -/

namespace Abacus

open Token Statement

section Forest

variable {source : String} {strict : Bool} {F L : List Token} {t : Token}

theorem Token.Grouped.contents_grouped (h : Grouped source strict t) :
    ∀ c ∈ t.contents, Grouped source strict c := by
  cases h with
  | leaf _ => simp [contents]
  | group _ _ hg _ _ => exact hg
  | call _ _ _ hg =>
    cases hg with
    | leaf _ => simp [contents, children]
    | group _ _ hg _ _ => exact hg
    | call _ _ _ _ => simp [contents, children]

/-- The text of a token stands in one piece in the text of its list. -/
theorem flatten_piece (h : t ∈ L) : flatten t <:+: flattenAll L := by
  obtain ⟨A, B, rfl⟩ := List.append_of_mem h
  exact ⟨flattenAll A, flattenAll B, by simp [flattenAll_append, flattenAll]⟩

theorem flatten_sublist (h : t ∈ L) : (flatten t).Sublist (flattenAll L) :=
  (flatten_piece h).sublist

theorem children_piece (t : Token) : flattenAll t.children <:+: flatten t := by
  cases t with
  | leaf => exact List.nil_infix
  | group kind value index stop children opener closer => exact ⟨[opener], [closer], rfl⟩
  | call => exact List.nil_infix

theorem contents_piece (t : Token) : flattenAll t.contents <:+: flatten t := by
  cases t with
  | leaf => exact List.nil_infix
  | group kind value index stop children opener closer => exact ⟨[opener], [closer], rfl⟩
  | call kind value index stop name arguments =>
    exact (children_piece arguments).trans (List.suffix_cons _ _).isInfix

theorem Level.grouped (h : Level F L) (hF : ∀ t ∈ F, Grouped source strict t) :
    ∀ t ∈ L, Grouped source strict t := by
  induction h with
  | here F => exact hF
  | into hs _ ih => exact ih (hF _ hs).contents_grouped

theorem Level.flattenAll_piece (h : Level F L) : flattenAll L <:+: flattenAll F := by
  induction h with
  | here F => exact List.infix_rfl
  | into hs _ ih => exact (ih.trans (contents_piece _)).trans (flatten_piece hs)

/-- A token starts with its first flat token and stops with its last one. -/
theorem Token.Grouped.ends (h : Grouped source strict t) :
    ∃ first last, (flatten t).head? = some first ∧ (flatten t).getLast? = some last ∧
      first.index = t.index ∧ last.stop = t.stop := by
  induction h with
  | @leaf kind value index stop _ => exact ⟨_, _, rfl, rfl, rfl, rfl⟩
  | @group children opener closer _ _ _ _ _ _ =>
    refine ⟨opener, closer, rfl, ?_, rfl, rfl⟩
    simp only [flatten, List.getLast?_cons, List.getLast?_append]
    rfl
  | @call name arguments _ _ _ _ ih =>
    obtain ⟨_, last, _, hlast, _, hstop⟩ := ih
    refine ⟨name, last, rfl, ?_, rfl, hstop⟩
    simp only [flatten, List.getLast?_cons, hlast]
    rfl

/-- What grouping makes of the tokens of a source. -/
structure ForestOf (source : String) (strict : Bool) (F : List Token) : Prop where
  wellFormed : WellFormed source strict F
  flat : flattenAll F = scan source
  ordered : Ordered F

theorem groupAll_forestOf (h : groupAll source strict (scan source) = .ok F) :
    ForestOf source strict F := by
  have hanswer := groupFrom_answers source strict (scan source) (scan_isLeaf source) [] []
    ⟨by simp, .nil⟩
  have hg : groupFrom source strict [] [] (scan source) = .ok F := h
  rw [hg] at hanswer
  exact ⟨hanswer.1, hanswer.2, groupAll_ordered (scan_ordered source) h⟩

namespace ForestOf

theorem grouped (h : ForestOf source strict F) (ht : InForest F t) : Grouped source strict t := by
  obtain ⟨L, hL, ht⟩ := ht
  exact hL.grouped h.wellFormed.grouped t ht

theorem flatten_scan (h : ForestOf source strict F) (ht : InForest F t) :
    (flatten t).Sublist (scan source) := by
  obtain ⟨L, hL, ht⟩ := ht
  rw [← h.flat]
  exact ((flatten_piece ht).trans hL.flattenAll_piece).sublist

/-- A token covers the tokens in it. -/
theorem covers (h : ForestOf source strict F) (ht : InForest F t) {s : Token}
    (hs : s ∈ flatten t) : t.index ≤ s.index ∧ s.stop ≤ t.stop := by
  obtain ⟨first, last, hfirst, hlast, hindex, hstop⟩ := (h.grouped ht).ends
  have ho : Ordered (flatten t) := (scan_ordered source).sublist (h.flatten_scan ht)
  obtain ⟨rest, heq⟩ := List.head?_eq_some_iff.mp hfirst
  rw [heq] at ho hs hlast
  obtain ⟨hle, hle'⟩ := span_of_ordered ho s hs
  rw [stopOf, hlast] at hle'
  exact ⟨hindex ▸ hle, hstop ▸ hle'⟩

theorem first_mem (h : ForestOf source strict F) (ht : InForest F t) :
    ∃ s ∈ scan source, s.index = t.index := by
  obtain ⟨first, _, hfirst, _, hindex, _⟩ := (h.grouped ht).ends
  exact ⟨first, (h.flatten_scan ht).subset (List.mem_of_mem_head? hfirst), hindex⟩

theorem last_mem (h : ForestOf source strict F) (ht : InForest F t) :
    ∃ s ∈ scan source, s.stop = t.stop := by
  obtain ⟨_, last, _, hlast, _, hstop⟩ := (h.grouped ht).ends
  exact ⟨last, (h.flatten_scan ht).subset (List.mem_of_mem_getLast? hlast), hstop⟩

end ForestOf

theorem scan_lexed (source : String) (h : t ∈ scan source) : Lexed source.toList t :=
  (scan_laid source).lexed t (List.mem_reverse.mpr h)

theorem scan_spanned (h : t ∈ scan source) :
    0 ≤ t.index ∧ t.index < t.stop ∧ t.stop ≤ source.length :=
  have hl := scan_lexed source h
  ⟨hl.start, hl.proper, hl.within⟩

/-- Every token but a decimal number shows its part of the source. -/
theorem value_of_scan {t : Token} (h : t ∈ scan source) (hk : t.kind ≠ .float) :
    t.value = Text.slice source t.index t.stop := by
  have hvalue := (scan_lexed source h).value
  rwa [Kind.valueOf, if_neg hk] at hvalue

/-- The text from an opening bracket on is no comma. -/
theorem slice_of_opens {o : Token} (ho : o ∈ scan source) (h : o.Opens) (stop : Int) :
    Text.slice source o.index stop ≠ "," := by
  have htext := value_of_scan ho (by simp [h.1])
  -- both texts begin with the character at the bracket
  have hhead : ∀ j c, (Text.slice source o.index j).toList.head? = some c →
      (source.toList.drop (Text.position source.toList.length o.index)).head? = some c := by
    intro j c hj
    simp only [Text.slice, Text.sliceChars, String.toList_ofList, List.head?_take] at hj
    split at hj
    · cases hj
    · exact hj
  intro hcomma
  have hx := hhead stop ',' (by rw [hcomma]; rfl)
  rcases h.value_eq with hv | hv
  · have hy := hhead o.stop '(' (by rw [← htext, hv]; rfl)
    rw [hx] at hy
    cases hy
  · have hy := hhead o.stop '\x7b' (by rw [← htext, hv]; rfl)
    rw [hx] at hy
    cases hy

/-- A text that begins with a name is no comma. -/
theorem append_of_isName {n : Token} (hn : n ∈ scan source) (hm : n.isName = true)
    (text : String) : n.value ++ text ≠ "," := by
  have hk := kind_of_isName hm
  have hspelled := (scan_lexed source hn).spells
  have htext := value_of_scan hn (by simp [hk])
  rw [hk] at hspelled
  obtain ⟨hne, _, hword⟩ := hspelled
  intro hcomma
  have hchars : n.value.toList = Text.sliceChars source.toList n.index n.stop := by
    rw [htext, Text.slice, String.toList_ofList]
  rw [← hchars] at hne hword
  cases hv : n.value.toList with
  | nil => exact hne hv
  | cons c cs =>
    have hfirst : c = ',' := by
      have happ := congrArg String.toList hcomma
      rw [String.toList_append, hv] at happ
      exact (List.cons.inj happ).1
    have hc := hword c (by simp [hv])
    rw [hfirst] at hc
    exact absurd hc (by decide)

theorem ForestOf.in_source (h : ForestOf source strict F) (ht : InForest F t) :
    0 ≤ t.index ∧ t.index < t.stop ∧ t.stop ≤ source.length := by
  obtain ⟨s, hs, hindex⟩ := h.first_mem ht
  obtain ⟨u, hu, hstop⟩ := h.last_mem ht
  have hlt := (ht.placed h.ordered).index_lt_stop
  have hstart := (scan_lexed source hs).start
  have hwithin := (scan_lexed source hu).within
  rw [String.length_toList] at hwithin
  omega

theorem slice_pos {start stop : Int} (hs : 0 ≤ start) (hlt : start < stop)
    (hle : stop ≤ source.length) : (1 : Int) ≤ (Text.slice source start stop).length := by
  rw [← String.length_toList] at hle
  rw [Text.slice, String.length_ofList, length_sliceChars hs (by omega) hle]
  omega

theorem Lexed.value_pos {cs : List Char} (h : Lexed cs t) : 1 ≤ t.length := by
  have hproper := h.proper
  have hstart := h.start
  have hlen := length_sliceChars hstart (by omega) h.within
  show (1 : Int) ≤ (t.value.length : Int)
  rw [h.value, String.length_ofList]
  by_cases hk : t.kind = .float
  · obtain ⟨whole, fraction, _, _, he⟩ := hk ▸ h.spells
    simp only [Kind.valueOf, if_pos hk, he, List.length_append, List.length_cons]
    omega
  · simp only [Kind.valueOf, if_neg hk, hlen]
    omega

/-- No token of a source has an empty text. -/
theorem ForestOf.value_pos (h : ForestOf source strict F) (ht : InForest F t) : 1 ≤ t.length := by
  have hspan := h.in_source ht
  have hflat := h.flatten_scan ht
  cases h.grouped ht with
  | leaf _ => exact (scan_lexed source (hflat.subset List.mem_cons_self)).value_pos
  | @group children opener closer _ _ _ _ _ =>
    obtain ⟨hstart, hlt, hwithin⟩ := hspan
    exact slice_pos hstart hlt hwithin
  | @call name arguments _ _ _ _ =>
    have hname := (scan_lexed source (hflat.subset List.mem_cons_self)).value_pos
    show (1 : Int) ≤ ((name.value ++ arguments.value).length : Int)
    rw [String.length_append]
    simp only [length] at hname
    omega

end Forest

theorem mem_flattenAll {L : List Token} {s : Token} (h : s ∈ flattenAll L) :
    ∃ t ∈ L, s ∈ flatten t := by
  induction L with
  | nil => cases h
  | cons t L ih =>
    rcases List.mem_append.mp h with h | h
    · exact ⟨t, List.mem_cons_self, h⟩
    · obtain ⟨u, hu, hs⟩ := ih h
      exact ⟨u, List.mem_cons_of_mem _ hu, hs⟩

/-- What is between two brackets is behind the first and before the second. -/
theorem ForestOf.between {source : String} {strict : Bool} {F children : List Token}
    {value : String} {index stop : Int} {opener closer : Token} (h : ForestOf source strict F)
    (hb : InForest F (.group .group value index stop children opener closer)) :
    ∀ c ∈ children, opener.stop ≤ c.index ∧ c.stop ≤ closer.index := by
  intro c hc
  obtain ⟨L, hL, hm⟩ := id hb
  have hchild : InForest F c := ⟨children, hL.contents hm, hc⟩
  obtain ⟨first, last, hfirst, hlast, hindex, hstop⟩ := (h.grouped hchild).ends
  have hall := (scan_ordered source).pairwise.sublist (h.flatten_scan hb)
  obtain ⟨hopener, hrest⟩ := List.pairwise_cons.mp hall
  obtain ⟨_, _, hcloser⟩ := List.pairwise_append.mp hrest
  have hmem : ∀ s ∈ flatten c, s ∈ flattenAll children :=
    fun s hs => (flatten_sublist hc).subset hs
  have hbefore : opener.stop ≤ first.index :=
    hopener first (List.mem_append_left _ (hmem first (List.mem_of_mem_head? hfirst)))
  have hafter : last.stop ≤ closer.index :=
    hcloser last (hmem last (List.mem_of_mem_getLast? hlast)) closer (by simp)
  omega

/-- A block is a group between braces of the source. -/
theorem ForestOf.braces {source : String} {strict : Bool} {F : List Token} {b : Token}
    (h : ForestOf source strict F) (hin : InForest F b) (hb : b.isBlock = true) :
    ∃ value opener closer,
      b = .group .group value opener.index closer.stop b.children opener closer ∧
      opener ∈ scan source ∧ closer ∈ scan source ∧ opener.value = "\x7b" ∧ closer.value = "\x7d" ∧
      ∀ c ∈ b.children, opener.stop ≤ c.index ∧ c.stop ≤ closer.index := by
  have hflat := h.flatten_scan hin
  cases h.grouped hin with
  | leaf _ => simp [isBlock, inside?] at hb
  | call _ _ _ _ => simp [isBlock, inside?] at hb
  | @group children opener closer _ hc _ _ _ =>
    have hopener : opener.value = "\x7b" := by
      by_contra hne
      simp [isBlock, inside?, hne] at hb
    have hcloser : closer.value = "\x7d" := by
      have hclosing := hc.2
      rw [hopener] at hclosing
      exact (Option.some.inj hclosing).symm
    exact ⟨_, opener, closer, rfl, hflat.subset List.mem_cons_self,
      hflat.subset (by simp [flatten]), hopener, hcloser, h.between hin⟩

/-- A token of the source that counts is in one of the forest that counts. -/
theorem ForestOf.significant_over {source : String} {strict : Bool} {F : List Token} {t : Token}
    (h : ForestOf source strict F) (ht : t ∈ scan source) (hs : t.isSignificant = true) :
    ∃ u ∈ F, u.isSignificant = true ∧ u.index ≤ t.index ∧ t.stop ≤ u.stop := by
  obtain ⟨u, hu, htu⟩ := mem_flattenAll (h.flat ▸ ht)
  have hin : InForest F u := ⟨F, .here F, hu⟩
  refine ⟨u, hu, ?_, h.covers hin htu⟩
  cases h.grouped hin with
  | leaf _ =>
    rw [List.mem_singleton.mp htu] at hs
    exact hs
  | group _ _ _ _ _ => exact significant_of_kind (by simp [Token.kind])
  | call _ _ _ _ => exact significant_of_kind (by simp [Token.kind])

theorem Program.parse_of_groupAll {source : String} {strict : Bool} {F : List Token}
    (h : groupAll source strict (scan source) = .ok F) :
    Program.parse source strict = (ofTokens source strict F).map (Program.mk source) := by
  simp only [Program.parse, h, bind, Except.bind]
  cases ofTokens source strict F <;> rfl

theorem Program.parse_ok {source : String} {strict : Bool} {p : Program}
    (h : Program.parse source strict = .ok p) :
    ∃ F, groupAll source strict (scan source) = .ok F ∧
      ReadsTo source strict false F (.ok p.body) := by
  cases hg : groupAll source strict (scan source) with
  | error f =>
    simp only [Program.parse, hg, bind, Except.bind] at h
    cases h
  | ok F =>
    refine ⟨F, rfl, ?_⟩
    have hread := ofTokens_readsTo source strict F
    rw [parse_of_groupAll hg] at h
    cases hb : ofTokens source strict F with
    | error f =>
      rw [hb] at h
      cases h
    | ok body =>
      rw [hb] at h hread
      cases h
      exact hread

theorem Program.parse_source {source : String} {strict : Bool} {p : Program}
    (h : Program.parse source strict = .ok p) : p.source = source := by
  obtain ⟨F, hF, hread⟩ := Program.parse_ok h
  rw [Program.parse_of_groupAll hF] at h
  cases hbody : ofTokens source strict F with
  | error f =>
    rw [hbody] at h
    cases h
  | ok body =>
    rw [hbody] at h
    cases h
    rfl

/-- Three blocks, of which the innermost is empty, on a host with room for one. -/
example : (Program.read framesPerBlock "loop\x7bloop\x7bloop\x7b\x7d\x7d\x7d" false).isOk = false ∧
    (Program.parse "loop\x7bloop\x7bloop\x7b\x7d\x7d\x7d" false).isOk = true := by
  decide +kernel

/-- The statements of a program stand where their texts are, one after the other, those of a block
between its braces, and every token that is no end of a line and no backslash is in one of them. -/
structure LosesNothing (source : String) (strict : Bool) (p : Program) : Prop where
  text : ∀ block, Nested p.body block → ∀ s ∈ block,
    s.source = Text.slice source s.origin.index s.origin.stop ∧ 0 ≤ s.origin.index ∧
      s.origin.index < s.origin.stop ∧ s.origin.stop ≤ source.length
  follow : ∀ block, Nested p.body block → block.Pairwise (fun s u =>
    s.origin.index < u.origin.index ∧ s.origin.stop ≤ u.origin.index)
  inside : ∀ block, Nested p.body block → ∀ s ∈ block, ∀ body, s.body? = some body →
    ∃ F opener closer value children, groupAll source strict (scan source) = .ok F ∧
      InForest F (.group .group value opener.index closer.stop children opener closer) ∧
      ReadsTo source strict false children (.ok body) ∧
      opener ∈ scan source ∧ closer ∈ scan source ∧ opener.value = "\x7b" ∧ closer.value = "\x7d" ∧
      s.origin.index < opener.index ∧ s.origin.stop = closer.stop ∧
      ∀ c ∈ body, opener.stop ≤ c.origin.index ∧ c.origin.stop ≤ closer.index
  covered : ∀ t ∈ scan source, t.isSignificant = true →
    ∃! s, s ∈ p.body ∧ s.origin.index ≤ t.index ∧ t.stop ≤ s.origin.stop

theorem Program.parse_loses_nothing {source : String} {strict : Bool} {p : Program}
    (h : Program.parse source strict = .ok p) : LosesNothing source strict p := by
  obtain ⟨F, hg, hread⟩ := Program.parse_ok h
  have hforest := groupAll_forestOf hg
  have hblock : ∀ block, Nested p.body block → ∃ L, Level F L ∧ Divides source L block := by
    intro block hn
    obtain ⟨L, after, hL, hr⟩ := hread.nested hforest.ordered hn
    exact ⟨L, hL, hr.divides (hL.ordered hforest.ordered)⟩
  have htext : ∀ block, Nested p.body block → ∀ s ∈ block,
      s.source = Text.slice source s.origin.index s.origin.stop ∧ 0 ≤ s.origin.index ∧
        s.origin.index < s.origin.stop ∧ s.origin.stop ≤ source.length := by
    intro block hn s hs
    obtain ⟨L, hL, hd⟩ := hblock block hn
    obtain ⟨first, hf, last, hl, hle, ho⟩ := hd.origin s hs
    obtain ⟨hstart, _, _⟩ := hforest.in_source ⟨L, hL, hf⟩
    obtain ⟨_, hlt, hwithin⟩ := hforest.in_source ⟨L, hL, hl⟩
    rw [Statement.source, ho]
    exact ⟨rfl, hstart, Int.lt_of_le_of_lt hle hlt, hwithin⟩
  constructor
  case text => exact htext
  case follow =>
    intro block hn
    obtain ⟨L, _, hd⟩ := hblock block hn
    refine hd.follow.imp_of_mem (fun hs _ hsu => ?_)
    obtain ⟨_, _, hlt, _⟩ := htext block hn _ hs
    exact ⟨Int.lt_of_lt_of_le hlt hsu, hsu⟩
  case inside =>
    intro block hn s hs body hb
    obtain ⟨L, after, hL, hr⟩ := hread.nested hforest.ordered hn
    obtain ⟨b, hm, hbrace, hindex, hstop, hbody⟩ := hr.block (hL.ordered hforest.ordered) hs hb
    obtain ⟨value, opener, closer, heq, ho, hc, hopener, hcloser, hbetween⟩ :=
      hforest.braces ⟨L, hL, hm⟩ hbrace
    have hordered : Ordered b.children := by
      rw [← contents_of_inside hbrace]
      exact (hL.contents hm).ordered hforest.ordered
    refine ⟨F, opener, closer, value, b.children, hg, heq ▸ ⟨L, hL, hm⟩, hbody, ho, hc, hopener,
      hcloser, ?_, ?_, fun c hcb => ?_⟩
    · rw [heq] at hindex
      exact hindex
    · rw [heq] at hstop
      exact hstop
    · obtain ⟨first, hf, last, hl, _, horigin⟩ := (hbody.divides hordered).origin c hcb
      rw [horigin]
      exact ⟨(hbetween first hf).1, (hbetween last hl).2⟩
  case covered =>
    intro t ht hsig
    have hd := hread.divides hforest.ordered
    have hlt := (scan_lexed source ht).proper
    obtain ⟨u, hu, husig, hle, hle'⟩ := hforest.significant_over ht hsig
    obtain ⟨s, hs, hsu, hus⟩ := hd.covered u hu husig
    refine ⟨s, ⟨hs, by omega, by omega⟩, ?_⟩
    rintro s' ⟨hs', hst, hts⟩
    exact hd.unique hs' hs (i := t.index) (by omega) (by omega)

/-- Blocks in blocks, an assignment that puts brackets of its own, and a line that goes on. -/
def nesting : String :=
  "if x > 1 \x7b\n  y *= 2 + \\\n3; loop \x7b break \x7d\n\x7d else \x7b\x7d\n"

theorem nesting_parsed :
    ∃ p, Program.parse nesting false = .ok p ∧ LosesNothing nesting false p := by
  have hok : (Program.parse nesting false).isOk = true := by decide +kernel
  cases hp : Program.parse nesting false with
  | ok p => exact ⟨p, rfl, Program.parse_loses_nothing hp⟩
  | error f =>
    rw [hp] at hok
    cases hok

end Abacus
