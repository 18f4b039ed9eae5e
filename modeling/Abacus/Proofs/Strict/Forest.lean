import Abacus.Proofs.Alike.Basic
import Abacus.Proofs.Reading.Program

/-! The forest of a source in strict mode. It is the other forest with its calls taken apart. Where
names are short and parentheses touch the names before them, the two correspond. -/

namespace Abacus

namespace Token

/-- Whether an opening parenthesis comes next and stands at the given place. -/
def opensAt (place : Int) (rest : List Token) : Bool :=
  rest.head?.any (fun t => t.isSymbol "(" && t.index == place)

/-- Whether only ends of lines, backslashes and semicolons that these take away stand before an
opening parenthesis. -/
def reaches : Nat → List Token → Bool
  | _, [] => false
  | pending, t :: rest =>
    if t.isNewline then reaches pending rest
    else if t.isSymbol ";" then
      match pending with
      | 0 => false
      | pending + 1 => reaches pending rest
    else if t.isSymbol "\\" then reaches (pending + 1) rest
    else t.isSymbol "("

/-- Whether every name passes a test that also sees the tokens behind it. -/
def eachName (ok : Token → List Token → Bool) : List Token → Bool
  | [] => true
  | t :: rest => (!t.isName || ok t rest) && eachName ok rest

/-- Every name has one character or is the name of a built-in function that is called at once, and
an opening parenthesis that a name has ahead of it touches the name. -/
structure Tidy (isBuiltin : String → Bool) (ahead : List Token → Bool) (tokens : List Token) :
    Prop where
  short : eachName (fun t rest =>
    t.value.length == 1 || isBuiltin t.value && opensAt t.stop rest) tokens = true
  touching : eachName (fun t rest => !ahead rest || opensAt t.stop rest) tokens = true

mutual

/-- A call becomes its name and its bracket, at every depth. -/
def loosen : Token → List Token
  | .leaf kind value index stop => [.leaf kind value index stop]
  | .group kind value index stop children opener closer =>
    [.group kind value index stop (loosenAll children) opener closer]
  | .call _ _ _ _ name arguments => name :: loosen arguments

def loosenAll : List Token → List Token
  | [] => []
  | t :: rest => loosen t ++ loosenAll rest

end

variable {source : String} {strict : Bool} {t : Token} {T : List Token}

theorem eachName_append {ok : Token → List Token → Bool} {before rest : List Token}
    (h : eachName ok (before ++ t :: rest) = true) (hn : t.isName = true) : ok t rest = true := by
  induction before with
  | nil =>
    simp only [List.nil_append, eachName, hn, Bool.not_true, Bool.false_or, Bool.and_eq_true] at h
    exact h.1
  | cons s before ih =>
    simp only [List.cons_append, eachName, Bool.and_eq_true] at h
    exact ih h.2

theorem opens_of_isSymbol (h : t.isSymbol "(" = true) : t.Opens := by
  simp only [isSymbol, is, Bool.and_eq_true, beq_iff_eq] at h
  exact ⟨h.1, by rw [h.2]; rfl⟩

theorem Grouped.flatten_of_kind (h : Grouped source strict t) (hk : t.kind = .symbol) :
    flatten t = [t] := by
  cases h with
  | leaf => rfl
  | group => cases hk
  | call => cases hk

/-- The first token of a tree is a parenthesis exactly if the tree is a parenthesized group. -/
theorem Grouped.first (h : Grouped source strict t) :
    ∃ first rest, flatten t = first :: rest ∧ first.index = t.index ∧
      first.isSymbol "(" = t.isParenthesized := by
  cases h with
  | @leaf kind value index stop ho =>
    refine ⟨_, [], rfl, rfl, ?_⟩
    exact Bool.eq_false_iff.mpr (fun hsymbol => ho (opens_of_isSymbol hsymbol))
  | @group children opener closer ho =>
    refine ⟨opener, _, rfl, rfl, ?_⟩
    by_cases hv : opener.value = "("
    · simp [isSymbol, is, isParenthesized, inside?, ho.1, hv]
    · simp [isSymbol, is, isParenthesized, inside?, hv]
  | @call name arguments _ hn =>
    refine ⟨name, _, rfl, rfl, ?_⟩
    have hk : name.kind = .word := kind_of_isName hn
    simp [isSymbol, is, hk, isParenthesized, inside?]

theorem reaches_of_isSymbol (n : Nat) (h : t.isSymbol "(" = true) (rest : List Token) :
    reaches n (t :: rest) = true := by
  simp only [isSymbol, is, Bool.and_eq_true, beq_iff_eq] at h
  simp [reaches, isNewline, isSymbol, is, h.1, h.2]

/-- What a name meets in its list it also reaches in the flat one. -/
theorem reaches_of_meets (hT : ∀ t ∈ T, Grouped source strict t) (behind : List Token) (n : Nat)
    (h : meets n T = true) : reaches n (flattenAll T ++ behind) = true := by
  induction T generalizing n with
  | nil => cases h
  | cons t T ih =>
    have ht := hT t (by simp)
    have hnext := ih (fun u hu => hT u (List.mem_cons_of_mem _ hu))
    have hleaf : ∀ value, t.isSymbol value = true →
        flattenAll (t :: T) ++ behind = t :: (flattenAll T ++ behind) := by
      intro value hs
      have hk : t.kind = .symbol := by
        simp only [isSymbol, is, Bool.and_eq_true, beq_iff_eq] at hs
        exact hs.1
      rw [flattenAll, ht.flatten_of_kind hk]
      rfl
    by_cases hnewline : t.isNewline = true
    · simp only [meets, hnewline, if_true] at h
      rw [hleaf _ hnewline]
      simpa only [reaches, hnewline, if_true] using hnext n h
    · by_cases hsemi : t.isSymbol ";" = true
      · rw [hleaf _ hsemi]
        cases n with
        | zero => simp [meets, hnewline, hsemi] at h
        | succ n =>
          simp only [meets, hnewline, hsemi, if_true, Bool.false_eq_true, if_false] at h
          simpa only [reaches, hnewline, hsemi, if_true, Bool.false_eq_true, if_false]
            using hnext n h
      · by_cases hback : t.isSymbol "\\" = true
        · simp only [meets, hnewline, hsemi, hback, if_true, Bool.false_eq_true, if_false] at h
          rw [hleaf _ hback]
          simpa only [reaches, hnewline, hsemi, hback, if_true, Bool.false_eq_true, if_false]
            using hnext (n + 1) h
        · simp only [meets, hnewline, hsemi, hback, Bool.false_eq_true, if_false] at h
          obtain ⟨first, rest, hfirst, _, hopens⟩ := ht.first
          rw [h] at hopens
          rw [flattenAll, hfirst]
          exact reaches_of_isSymbol n hopens _

/-- Behind a name that is no call no parenthesis opens. -/
theorem not_opensAt {n : Token} {behind : List Token} (hn : n.isName = true)
    (hT : ∀ t ∈ T, Grouped source strict t) (ha : Apart false (n :: T))
    (hb : ∀ t ∈ behind.head?, ¬ t.Opens) (place : Int) :
    opensAt place (flattenAll T ++ behind) = false := by
  by_contra hopens
  cases T with
  | nil =>
    cases behind with
    | nil => exact hopens rfl
    | cons t behind =>
      simp only [flattenAll, List.nil_append, opensAt, List.head?_cons, Option.any_some,
        Bool.not_eq_false, Bool.and_eq_true] at hopens
      exact hb t rfl (opens_of_isSymbol hopens.1)
  | cons t T =>
    obtain ⟨first, rest, hfirst, _, hsymbol⟩ := (hT t (by simp)).first
    simp only [flattenAll, hfirst, List.cons_append, opensAt, List.head?_cons, Option.any_some,
      Bool.not_eq_false, Bool.and_eq_true] at hopens
    have hchain := ha rfl
    rw [List.isChain_cons_cons] at hchain
    exact hchain.1 ⟨hn, hsymbol ▸ hopens.1⟩

section Loosened

theorem mem_loosenAll {u : Token} : u ∈ loosenAll T ↔ ∃ t ∈ T, u ∈ loosen t := by
  induction T with
  | nil => simp [loosenAll]
  | cons t T ih => simp [loosenAll, ih]

theorem flattenAll_loosenAll (h : ∀ t ∈ T, flattenAll (loosen t) = flatten t) :
    flattenAll (loosenAll T) = flattenAll T := by
  induction T with
  | nil => rfl
  | cons t T ih =>
    rw [loosenAll, flattenAll_append, flattenAll, h t (by simp),
      ih (fun u hu => h u (List.mem_cons_of_mem _ hu))]

/-- The tokens stay the same when calls are taken apart. -/
theorem Grouped.flattenAll_loosen (h : Grouped source strict t)
    (hl : ∀ u ∈ flatten t, u.IsLeaf) : flattenAll (loosen t) = flatten t := by
  induction h with
  | leaf => rfl
  | @group children opener closer ho hc hg hn ha ih =>
    have hinner : flattenAll (loosenAll children) = flattenAll children := by
      refine flattenAll_loosenAll (fun c hc => ih c hc (fun u hu => hl u ?_))
      have hu' := (flatten_sublist hc).subset hu
      simp [flatten, hu']
    simp only [loosen, flattenAll, flatten, hinner, List.append_nil]
  | @call name arguments _ _ _ _ ih =>
    have hname : name.IsLeaf := hl name (by simp [flatten])
    have harguments := ih (fun u hu => hl u (by simp [flatten, hu]))
    simp only [loosen, flattenAll, flatten, harguments, hname.flatten_eq, List.singleton_append]

/-- In strict mode a tree without its calls is well formed. -/
theorem Grouped.loosen_grouped (h : Grouped source false t) (hl : ∀ u ∈ flatten t, u.IsLeaf) :
    ∀ u ∈ loosen t, Grouped source true u ∧ (u = t ∨ u.kind ≠ .symbol) := by
  induction h with
  | @leaf kind value index stop ho =>
    intro u hu
    obtain rfl : u = .leaf kind value index stop := by simpa [loosen] using hu
    exact ⟨.leaf ho, .inl rfl⟩
  | @group children opener closer ho hc hg hn ha ih =>
    intro u hu
    simp only [loosen, List.mem_singleton] at hu
    subst hu
    have hchild : ∀ c ∈ children, ∀ u ∈ loosen c, Grouped source true u ∧
        (u = c ∨ u.kind ≠ .symbol) := by
      intro c hc
      refine ih c hc (fun u hu => hl u ?_)
      have hu' := (flatten_sublist hc).subset hu
      simp [flatten, hu']
    refine ⟨.group ho hc ?_ ?_ (fun hs => nomatch hs), .inr (by simp [kind])⟩
    · intro u hu
      obtain ⟨c, hc, hu⟩ := mem_loosenAll.mp hu
      exact (hchild c hc u hu).1
    · intro u hu hclose
      obtain ⟨c, hc, hu⟩ := mem_loosenAll.mp hu
      rcases (hchild c hc u hu).2 with rfl | hk
      · exact hn u hc hclose
      · exact hk hclose.1
  | @call name arguments _ hn hp hg ih =>
    intro u hu
    simp only [loosen, List.mem_cons] at hu
    have hk : name.kind = .word := kind_of_isName hn
    have hname : name.IsLeaf := hl name (by simp [flatten])
    have harguments := ih (fun u hu => hl u (by simp [flatten, hu]))
    rcases hu with rfl | hu
    · refine ⟨hname.grouped (fun ho => ?_), .inr (by simp [hk])⟩
      exact absurd (hk.symm.trans ho.1) (by decide)
    · obtain ⟨hgrouped, hsame⟩ := harguments u hu
      refine ⟨hgrouped, .inr ?_⟩
      rcases hsame with rfl | hkind
      · rw [hg.kind_of_parenthesized hp]
        decide
      · exact hkind

/-- Strict mode finds the forest without its calls. -/
theorem groupAll_loosenAll {F : List Token} (h : groupAll source false (scan source) = .ok F) :
    groupAll source true (scan source) = .ok (loosenAll F) := by
  obtain ⟨hw, hflat, _⟩ := groupAll_forestOf h
  have hleaves : ∀ t ∈ F, ∀ u ∈ flatten t, u.IsLeaf := by
    intro t ht u hu
    exact scan_isLeaf source u (hflat ▸ (flatten_sublist ht).subset hu)
  have hforest : WellFormed source true (loosenAll F) := by
    refine ⟨fun u hu => ?_, fun hs => nomatch hs⟩
    obtain ⟨t, ht, hu⟩ := mem_loosenAll.mp hu
    exact ((hw.grouped t ht).loosen_grouped (hleaves t ht) u hu).1
  have hsame : flattenAll (loosenAll F) = scan source := by
    rw [← hflat]
    exact flattenAll_loosenAll (fun t ht => (hw.grouped t ht).flattenAll_loosen (hleaves t ht))
  rw [← hsame]
  exact hforest.groupAll_flattenAll

end Loosened

end Token

namespace Likeness

open Token

/-- A source beside itself in strict mode. -/
def loosened (source : String) : Likeness where
  source := source
  source' := source
  strict := false
  strict' := true
  starts := Eq
  stops := Eq
  spot := Eq
  words t t' := t = t' ∧ t ∈ scan source
  faults := Eq
  verbatim := True
  loose := True
  lax := True
  spot_of_starts := id
  spot_of_stops := id
  slices := by
    rintro _ i _ j _ rfl rfl
    rfl
  plain := by
    rintro i _ message n n' rfl hn
    rw [hn trivial]
  thrown := by
    rintro t _ i _ j _ ⟨rfl, _⟩ _ _ rfl _ rfl
    rfl
  refused := by
    rintro t _ text text' ⟨rfl, _⟩ _ _ _ _ ht
    rw [ht trivial]
  same_mode h := absurd trivial h
  loose_mode _ := ⟨rfl, rfl, trivial⟩

variable {source : String} {isBuiltin : String → Bool} {t : Token} {T : List Token}

theorem leaf_of_scan (h : t ∈ scan source) : (loosened source).Leaf t t := by
  cases t with
  | leaf => exact .intro rfl rfl (fun _ => ⟨rfl, h⟩)
  | group => exact (scan_isLeaf source _ h).elim
  | call => exact (scan_isLeaf source _ h).elim

/-- A tree corresponds to the same tree without its calls, wherever it stands in a list. -/
def LoosensWell (source : String) (t : Token) : Prop :=
  ∀ {before behind R R' : List Token}, scan source = before ++ (flatten t ++ behind) →
    (t.isName = true → t.value.length = 1 ∧ meets 0 R = false) →
    (loosened source).Tokens R R' → (loosened source).Tokens (t :: R) (loosen t ++ R')

theorem tokens_loosenAll (htidy : Tidy isBuiltin (reaches 0) (scan source))
    (hT : ∀ t ∈ T, Grouped source false t) (hwell : ∀ t ∈ T, LoosensWell source t)
    (ha : Apart false T) {before behind : List Token}
    (hscan : scan source = before ++ (flattenAll T ++ behind))
    (hb : ∀ t ∈ behind.head?, ¬ t.Opens) : (loosened source).Tokens T (loosenAll T) := by
  induction T generalizing before with
  | nil => exact .nil
  | cons t T ih =>
    have hscan' : scan source = before ++ (flatten t ++ (flattenAll T ++ behind)) := by
      simpa only [flattenAll, List.append_assoc] using hscan
    have hrest : ∀ u ∈ T, Grouped source false u := fun u hu => hT u (List.mem_cons_of_mem _ hu)
    have hnext : (loosened source).Tokens T (loosenAll T) := by
      refine @ih hrest (fun u hu => hwell u (List.mem_cons_of_mem _ hu)) ?_ (before ++ flatten t) ?_
      · exact fun hs => (List.isChain_cons.mp (ha hs)).2
      · rw [hscan', List.append_assoc]
    refine hwell t (by simp) hscan' (fun hn => ?_) hnext
    -- a name that the forest leaves alone has no parenthesis ahead of it
    have hleaf : flatten t = [t] := by
      cases hT t (by simp) with
      | leaf => rfl
      | group => simp [isName, kind] at hn
      | call => simp [isName, kind] at hn
    rw [hleaf, List.singleton_append] at hscan'
    have hshort := htidy.short
    have htouching := htidy.touching
    rw [hscan'] at hshort htouching
    have hclear := not_opensAt hn hrest ha hb t.stop
    have hs := eachName_append hshort hn
    have hm := eachName_append htouching hn
    simp only [hclear, Bool.and_false, Bool.or_false, beq_iff_eq, Bool.not_eq_true'] at hs hm
    refine ⟨hs, Bool.eq_false_iff.mpr (fun hmeets => ?_)⟩
    rw [reaches_of_meets hrest behind 0 hmeets] at hm
    cases hm

theorem loosensWell (htidy : Tidy isBuiltin (reaches 0) (scan source))
    (h : Grouped source false t) : LoosensWell source t := by
  induction h with
  | @leaf kind value index stop ho =>
    intro before behind R R' hscan hn hR
    have hmem : Token.leaf kind value index stop ∈ scan source := by simp [hscan, flatten]
    exact .leaf (leaf_of_scan hmem) (fun _ => hn) hR
  | @group children opener closer ho hc hg hn ha ih =>
    intro before behind R R' hscan _ hR
    have hinner : scan source =
        (before ++ [opener]) ++ (flattenAll children ++ closer :: behind) := by
      simpa only [flatten, List.append_assoc, List.cons_append, List.nil_append] using hscan
    have hchildren := tokens_loosenAll htidy hg ih ha hinner (by
      intro t ht
      obtain rfl : closer = t := by simpa using ht
      exact not_opens_of_closes hc)
    have hopener : opener ∈ scan source := by simp [hinner]
    have hcloser : closer ∈ scan source := by simp [hinner]
    exact .group ⟨fun _ => rfl, Iff.rfl⟩ rfl (fun _ => rfl) rfl (leaf_of_scan hopener).edge
      (leaf_of_scan hcloser).edge hchildren hR
  | @call name arguments _ hn hp hg ih =>
    intro before behind R R' hscan _ hR
    have hscan' : scan source = (before ++ [name]) ++ (flatten arguments ++ behind) := by
      simpa only [flatten, List.append_assoc, List.cons_append, List.nil_append] using hscan
    have hmem : name ∈ scan source := by simp [hscan']
    have hgroup : arguments.isName = false := by
      simp [isName, hg.kind_of_parenthesized hp]
    have harguments : (loosened source).Tokens [arguments] (loosen arguments ++ []) :=
      ih hscan' (fun hh => absurd hh (by simp [hgroup])) .nil
    obtain ⟨a, ha, hindex⟩ : ∃ a, loosen arguments = [a] ∧ a.index = arguments.index := by
      cases hg with
      | leaf => exact ⟨_, rfl, rfl⟩
      | group => exact ⟨_, rfl, rfl⟩
      | call => simp [isParenthesized, inside?] at hp
    rw [ha, List.append_nil] at harguments
    -- the parenthesis behind the name touches it
    have htouches : name.stop = a.index := by
      obtain ⟨first, rest, hfirst, hplace, hopens⟩ := hg.first
      rw [hp] at hopens
      have htouching := htidy.touching
      rw [hscan', List.append_assoc, List.singleton_append, hfirst] at htouching
      have hok := eachName_append htouching hn
      simp only [List.cons_append, reaches_of_isSymbol 0 hopens, opensAt, List.head?_cons,
        Option.any_some, hopens, Bool.not_true, Bool.true_and, Bool.false_or, beq_iff_eq] at hok
      rw [hindex, ← hplace, hok]
    have hcomma := append_of_isName hmem hn arguments.value
    have hloose := Tokens.loose (L := loosened source) trivial (leaf_of_scan hmem) hn hcomma
      harguments hp htouches hR
    rw [loosen, ha]
    exact hloose

/-- The two forests of a tidy source correspond. -/
theorem forest_loosened (htidy : Tidy isBuiltin (reaches 0) (scan source)) {F : List Token}
    (h : groupAll source false (scan source) = .ok F) :
    (loosened source).Tokens F (loosenAll F) := by
  obtain ⟨hw, hflat, _⟩ := groupAll_forestOf h
  have hscan : scan source = [] ++ (flattenAll F ++ []) := by
    rw [hflat, List.append_nil, List.nil_append]
  exact tokens_loosenAll htidy hw.grouped (fun t ht => loosensWell htidy (hw.grouped t ht))
    hw.apart hscan (fun _ hh => nomatch hh)

end Likeness

end Abacus
