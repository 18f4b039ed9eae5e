import Abacus.Proofs.Continued.Program

/-! Sources that are put together from parts. A blank separates what stands around it, and so does a
round bracket, as long as it is not in a comment. -/

namespace Abacus

open Token
open Text (Uncommented)

section Raw

variable {c : Char} {cs ds text : List Char} {t : Token} {n : Nat}

/-- A token that is read at once shows the characters at its place. -/
theorem place_spelled (h : t ∈ place n (lexemes cs)) : ∃ before behind : List Char,
    cs = before ++ (t.value.toList ++ behind) ∧ t.index = n + before.length ∧
      t.stop = t.index + t.value.length ∧ t.kind.Spells t.value.toList ∧ t.kind ≠ .float := by
  induction hlen : cs.length using Nat.strong_induction_on generalizing cs n
  next len ih =>
  subst hlen
  cases cs with
  | nil => cases h
  | cons c cs =>
    obtain ⟨rest, hsplit, hreads⟩ := first_reads c cs
    have hpos := List.length_pos_iff.mpr (first_text_ne_nil c cs)
    have hlength := congrArg List.length hsplit
    rw [List.length_append] at hlength
    rw [lexemes_cons hsplit, place_cons] at h
    generalize Lexeme.first c cs = l at *
    rcases List.mem_append.mp h with h | h
    · cases hreads with
      | gap => cases h
      | comment => cases h
      | @token kind text _ hspells hk _ =>
        obtain rfl := List.mem_singleton.mp h
        refine ⟨[], rest, ?_, ?_, ?_, ?_, hk⟩
        · simpa [Token.value] using hsplit
        · simp [Token.index]
        · simp [Token.stop, Token.index, Token.value]
        · simpa [Token.kind, Token.value] using hspells
    · obtain ⟨before, behind, heq, hindex, hspan⟩ := ih rest.length (by omega) h rfl
      refine ⟨l.text ++ before, behind, by rw [hsplit, heq, List.append_assoc], ?_, hspan⟩
      rw [hindex, List.length_append]
      omega

/-- What is read at once has no blank in it. -/
theorem Kind.Spells.blank_notMem {kind : Kind} (h : kind.Spells text) (hk : kind ≠ .float) :
    ' ' ∉ text := by
  intro hm
  cases kind with
  | symbol =>
    obtain ⟨c, hc, rfl⟩ := h
    obtain rfl := List.mem_singleton.mp hm
    exact absurd hc (by decide)
  | operator =>
    obtain ⟨c, ⟨hc, rfl⟩ | ⟨hc, rfl⟩⟩ := h
    · obtain rfl := List.mem_singleton.mp hm
      exact absurd hc (by decide)
    · rcases List.mem_pair.mp hm with rfl | hm
      · exact absurd hc (by decide)
      · cases hm
  | integer => exact absurd (h.2 _ hm) (by decide)
  | float => exact hk rfl
  | word => exact absurd (h.2.2 _ hm) (by decide)
  | group | call | other => exact h

theorem place_spaced (hc : Uncommented cs) :
    place n (lexemes (cs ++ ' ' :: ds)) =
      place n (lexemes cs) ++ place (n + cs.length + 1) (lexemes ds) := by
  have hgap : Text.isGap ' ' = true := by decide
  rw [← place_gap hgap (n + cs.length)]
  refine place_cut hc (fun t ht hcross => ?_)
  obtain ⟨before, behind, heq, hindex, hstop, hspells, hk⟩ := place_spelled ht
  obtain ⟨hstart, hend⟩ := hcross
  -- the blank would be a character of the token
  refine hspells.blank_notMem hk (List.mem_of_getElem? (i := cs.length - before.length) ?_)
  have hblank : (cs ++ ' ' :: ds)[cs.length]? = some ' ' := by simp
  rw [heq, List.getElem?_append_right (by omega), List.getElem?_append_left] at hblank
  · exact hblank
  · rw [String.length_toList]
    omega

theorem first_word (h : Kind.Spells .word (c :: cs)) :
    Lexeme.first c cs = ⟨some .word, c :: cs⟩ := by
  obtain ⟨_, hdigit, hall⟩ := h
  obtain ⟨hfirst, hrest⟩ := List.forall_mem_cons.mp hall
  have hequals : cs.head? ≠ some '=' := by
    intro hh
    exact absurd (hrest _ (List.mem_of_mem_head? hh)) (by decide)
  have hrun : cs.takeWhile isWordChar = cs := List.takeWhile_eq_self_iff.mpr hrest
  simp only [isWordChar, Bool.not_eq_true', Bool.or_eq_false_iff, beq_eq_false_iff_ne] at hfirst
  obtain ⟨⟨⟨hblank, hoperator⟩, hsymbol⟩, hhash⟩ := hfirst
  simp only [List.head?_cons, Option.all_some, Bool.not_eq_true'] at hdigit
  simp [Lexeme.first, hhash, hblank, hequals, hoperator, hsymbol, hdigit, hrun]

end Raw

section Parts

variable {u : String}

/-- The word of a name alone. -/
theorem scan_word {value : String} (h : Kind.Spells .word value.toList) :
    scan value = [.leaf .word value 0 value.length] := by
  obtain ⟨c, cs, hvalue⟩ := List.exists_cons_of_ne_nil h.1
  have hread : lexemes value.toList = [⟨some .word, value.toList⟩] := by
    rw [hvalue] at h ⊢
    have hcons : lexemes (c :: cs) = Lexeme.first c cs :: lexemes [] :=
      lexemes_cons (by simp [first_word h])
    rw [hcons, first_word h]
    rfl
  simp [scan, hread, place, attach, String.length_toList]

/-- A blank separates what stands in front of it, if that is no part of a number, from what stands
behind it. -/
theorem scan_spaced {U : List Token} {s : Token} (hu : Uncommented u.toList)
    (hs : scan u = U ++ [s]) (hk : s.kind ≠ .integer) (hv : s.value ≠ ".") (v : String) :
    scan (u ++ (" " ++ v)) = scan u ++ (scan v).map (shift (u.length + 1)) := by
  have hchars : (u ++ (" " ++ v)).toList = u.toList ++ ' ' :: v.toList := by
    simp [String.toList_append]
  have hpile : (place 0 (lexemes u.toList)).foldl attach [] = [] ++ s :: U.reverse := by
    have hscan := congrArg List.reverse hs
    simpa [scan] using hscan
  have hmoved := place_shift (u.length + 1) 0 (lexemes v.toList)
  have hshift := foldl_attach_shift (u.length + 1) [] (place 0 (lexemes v.toList))
  rw [Nat.zero_add] at hmoved
  rw [List.map_nil] at hshift
  have hraw : place 0 (lexemes (u.toList ++ ' ' :: v.toList)) = _ := place_spaced hu
  rw [Nat.zero_add, String.length_toList, hmoved] at hraw
  rw [hs, scan, hchars, hraw, List.foldl_append, hpile, foldl_attach_beyond hk hv]
  simp only [Int.natCast_add, Int.natCast_one] at hshift ⊢
  rw [hshift]
  simp [scan, List.map_reverse]

/-- A round bracket is a token of its own. -/
theorem Kind.Spells.of_bracket {kind : Kind} {text : List Char} {c : Char} (h : kind.Spells text)
    (hc : c = '(' ∨ c = ')') (hm : c ∈ text) : text = [c] := by
  cases kind with
  | symbol =>
    obtain ⟨d, _, rfl⟩ := h
    rw [List.mem_singleton.mp hm]
  | operator =>
    obtain ⟨d, ⟨_, rfl⟩ | ⟨hd, rfl⟩⟩ := h
    · rw [List.mem_singleton.mp hm]
    · rcases List.mem_pair.mp hm with rfl | rfl
      · rcases hc with rfl | rfl <;> exact absurd hd (by decide)
      · rcases hc with hc | hc <;> cases hc
  | integer =>
    have hnumber := h.of_number (.inl rfl) _ hm
    rcases hc with rfl | rfl <;> exact absurd hnumber (by decide)
  | float =>
    have hnumber := h.of_number (.inr rfl) _ hm
    rcases hc with rfl | rfl <;> exact absurd hnumber (by decide)
  | word =>
    have hword := h.2.2 _ hm
    rcases hc with rfl | rfl <;> exact absurd hword (by decide)
  | group | call | other => exact h.elim

/-- No token goes on behind a place in front of which, or behind which, a round bracket stands. -/
theorem bracket_not_crossed {source : String} {c : Char} {i : Nat} {k : Int} {t : Token}
    (hc : c = '(' ∨ c = ')') (hi : source.toList[i]? = some c) (hk : k = i ∨ k = i + 1)
    (ht : t ∈ scan source) : ¬ t.Crosses k := by
  rintro ⟨hstart, hstop⟩
  have hl := scan_lexed source ht
  have hindex := hl.start
  have hm := (mem_sliceChars hindex (by omega) hl.within).mpr ⟨i, by omega, by omega, hi⟩
  have hlength := congrArg List.length (hl.spells.of_bracket hc hm)
  rw [length_sliceChars hindex (by omega) hl.within, List.length_singleton] at hlength
  omega

/-- A round bracket separates what stands around it. -/
theorem scan_bracket {c : Char} (hc : c = '(' ∨ c = ')') (hu : Uncommented u.toList)
    (v : String) : scan (u ++ (String.singleton c ++ v)) =
      scan u ++ .leaf .symbol (String.singleton c) u.length (u.length + 1) ::
        (scan v).map (shift (u.length + 1)) := by
  have halone : scan (String.singleton c) = [.leaf .symbol (String.singleton c) 0 1] := by
    rcases hc with rfl | rfl <;> rfl
  have hone : Uncommented (String.singleton c).toList := by
    intro xs ys heq
    have hm : '#' ∈ (String.singleton c).toList := by simp [heq]
    rcases hc with rfl | rfl <;> exact absurd hm (by decide)
  have hfirst : (u ++ (String.singleton c ++ v)).toList[u.length]? = some c := by
    rw [String.toList_append, ← String.length_toList, List.getElem?_append_right (Nat.le_refl _)]
    simp [String.toList_append]
  have hnext : (String.singleton c ++ v).toList[0]? = some c := by
    simp [String.toList_append]
  have hlength : (String.singleton c).length = 1 := by
    rw [← String.length_toList]
    simp
  rw [scan_cut hu (fun t ht => bracket_not_crossed hc hfirst (.inl rfl) ht),
    scan_cut hone (fun t ht => bracket_not_crossed hc hnext (.inr (by simp [hlength])) ht), halone,
    List.map_append, shift_scan, hlength]
  simp [shift, Int.add_comm]

/-- A symbol at which a statement ends. -/
def Token.IsSeparator (t : Token) : Prop :=
  t.kind = .symbol ∧ t.value ∈ ["\n", ";", ",", ")", "\x7d"]

/-- The character of a separator is in no number. -/
theorem Token.IsSeparator.not_number {source : String} {s : Token} (h : s.IsSeparator)
    (hs : s ∈ scan source) {text : List Char} {kind : Kind} (ht : kind.Spells text)
    (hk : kind = .integer ∨ kind = .float) {i : Nat} (hi : s.index = i) {c : Char}
    (hc : source.toList[i]? = some c) : c ∉ text := by
  intro hm
  have hl := scan_lexed source hs
  have hspells := hl.spells
  rw [h.1] at hspells
  obtain ⟨d, _, hd⟩ := hspells
  have hvalue := hl.value
  have hhead := head_sliceChars hl.start hl.proper hl.within
  rw [hd, hi, Int.toNat_natCast, hc] at hhead
  obtain rfl := Option.some.inj hhead
  rw [Kind.valueOf, if_neg (by simp [h.1]), hd] at hvalue
  have hnumber := ht.of_number hk _ hm
  have hlist := h.2
  rw [hvalue] at hlist
  have hchar : d ∈ ['\n', ';', ',', ')', '\x7d'] := by
    have hof : ∀ e : Char, String.ofList [d] = String.ofList [e] → d = e := by
      intro e he
      have hchars := congrArg String.toList he
      simpa using hchars
    simp only [List.mem_cons, List.not_mem_nil, or_false] at hlist ⊢
    exact hlist.imp (hof _) (Or.imp (hof _) (Or.imp (hof _) (Or.imp (hof _) (hof _))))
  simp only [List.mem_cons, List.not_mem_nil, or_false] at hchar
  rcases hchar with rfl | rfl | rfl | rfl | rfl <;> exact absurd hnumber (by decide)

/-- What begins with a digit and goes on is a number. -/
theorem Kind.Spells.of_digit {kind : Kind} {text : List Char} (h : kind.Spells ('1' :: text))
    (hne : text ≠ []) : (kind = .integer ∨ kind = .float) ∧ ∃ d ∈ text, Text.isGap d = false := by
  cases kind with
  | symbol =>
    obtain ⟨c, _, hc⟩ := h
    exact absurd (List.cons.inj hc).2 hne
  | operator =>
    obtain ⟨c, ⟨_, hc⟩ | ⟨hc', hc⟩⟩ := h
    · exact absurd (List.cons.inj hc).2 hne
    · rw [← (List.cons.inj hc).1] at hc'
      exact absurd hc' (by decide)
  | integer =>
    obtain ⟨d, text, rfl⟩ := List.exists_cons_of_ne_nil hne
    refine ⟨.inl rfl, d, List.mem_cons_self, ?_⟩
    have hd := toNat_of_isDigit (h.2 d (by simp))
    simp [Text.isGap, Text.isBlank]
    omega
  | float =>
    obtain ⟨whole, fraction, _, _, he⟩ := h
    refine ⟨.inr rfl, '.', ?_, by decide⟩
    have hm : '.' ∈ ('1' :: text).filter (!Text.isGap ·) := by simp [he]
    simpa using (List.mem_filter.mp hm).1
  | word => exact absurd h.2.1 (by simp)
  | group | call | other => exact h.elim

/-- A token that begins with the digit and goes on takes characters of what stands behind. -/
theorem spells_of_crosses {q : String} {t : Token} (ht : t ∈ scan ("1" ++ q)) (h : t.Crosses 1) :
    ∃ n : Nat, n < q.toList.length ∧ t.kind.Spells ('1' :: q.toList.take (n + 1)) := by
  obtain ⟨hstart, hstop⟩ := h
  have hl := scan_lexed _ ht
  have hindex : t.index = 0 := by
    have := hl.start
    omega
  have hchars : ("1" ++ q).toList = '1' :: q.toList := by simp [String.toList_append]
  obtain ⟨n, hn⟩ : ∃ n : Nat, t.stop = n + 2 := ⟨(t.stop - 2).toNat, by omega⟩
  have hwithin := hl.within
  rw [hchars, List.length_cons] at hwithin
  have htext : Text.sliceChars ("1" ++ q).toList t.index t.stop = '1' :: q.toList.take (n + 1) := by
    rw [hchars, hindex, hn, sliceChars_eq (by omega) (by omega) (by simp; omega)]
    have hlen : ((n : Int) + 2).toNat - (0 : Int).toNat = n + 1 + 1 := by omega
    rw [hlen]
    rfl
  exact ⟨n, by omega, htext ▸ hl.spells⟩

/-- A digit in front of what is no number does not go on there. -/
theorem digit_not_crossed {q : String} (hq : ∀ s ∈ (scan q).head?, s.IsSeparator) {t : Token}
    (ht : t ∈ scan ("1" ++ q)) : ¬ t.Crosses 1 := by
  intro hcross
  obtain ⟨n, hn, hspells⟩ := spells_of_crosses ht hcross
  have htail : ∀ {i : Nat} {c : Char}, q.toList[i]? = some c → i ≤ n →
      c ∈ '1' :: q.toList.take (n + 1) := by
    intro i c hc hi
    refine List.mem_cons_of_mem _ (List.mem_of_getElem? (i := i) ?_)
    rw [List.getElem?_take_of_lt (by omega)]
    exact hc
  have hne : q.toList.take (n + 1) ≠ [] := by
    intro hnil
    have hlength := congrArg List.length hnil
    rw [List.length_take, List.length_nil] at hlength
    omega
  obtain ⟨hkind, d, hd, hgap⟩ := hspells.of_digit hne
  obtain ⟨j, hj⟩ := List.getElem?_of_mem hd
  have hjn : j ≤ n := by
    obtain ⟨hlt, _⟩ := List.getElem?_eq_some_iff.mp hj
    rw [List.length_take] at hlt
    omega
  rw [List.getElem?_take_of_lt (by omega)] at hj
  by_cases hout : ∀ s ∈ scan q, ¬ s.Covers j
  · rcases scan_outside hj hout with hblank | ⟨i, hi, hhash, _⟩
    · exact absurd (hblank.symm.trans hgap) (by simp)
    · exact hspells.hash_notMem (htail hhash (by omega))
  · obtain ⟨s', hs', hcovered⟩ : ∃ s ∈ scan q, s.Covers j := by
      by_contra hnone
      exact hout (fun s hs hcover => hnone ⟨s, hs, hcover⟩)
    have hcover := hcovered.1
    -- the first token starts no later, and its character is in no number
    obtain ⟨s, rest, hscan⟩ := List.exists_cons_of_ne_nil (List.ne_nil_of_mem hs')
    have hs : s ∈ scan q := by simp [hscan]
    have hfirst := (span_of_ordered (hscan ▸ scan_ordered q) s' (hscan ▸ hs')).1
    obtain ⟨hspan, hspan', hspan''⟩ := scan_spanned hs
    obtain ⟨i, hi⟩ : ∃ i : Nat, s.index = i := ⟨s.index.toNat, by omega⟩
    obtain ⟨c, hc⟩ : ∃ c, q.toList[i]? = some c := by
      rw [← String.length_toList] at hspan''
      exact ⟨_, List.getElem?_eq_getElem (by omega)⟩
    exact (hq s (by simp [hscan])).not_number hs hspells hkind hi hc (htail hc (by omega))

/-- A digit in front of what is no number is a number of its own. -/
theorem scan_digit {q : String} (hq : ∀ s ∈ (scan q).head?, s.IsSeparator) :
    scan ("1" ++ q) = .leaf .integer "1" 0 1 :: (scan q).map (shift 1) := by
  have hone : Uncommented "1".toList := by
    intro xs ys heq
    have hm : '#' ∈ "1".toList := by simp [heq]
    exact absurd hm (by decide)
  have halone : scan "1" = [.leaf .integer "1" 0 1] := rfl
  rw [scan_cut hone (fun t ht => digit_not_crossed hq ht), halone]
  rfl

end Parts

end Abacus
