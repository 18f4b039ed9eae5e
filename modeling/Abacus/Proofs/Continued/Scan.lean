import Abacus.Proofs.Joined.Scan

/-! A source cut in two. Where the cut goes through no token and no comment, the tokens of the whole
are those of the two parts. A backslash with a newline behind it is such a place on both sides, so
putting one there puts just these two tokens between the tokens of the parts. -/

namespace Abacus

open Token

/-- Behind every `#` the line ends. -/
def Text.Uncommented (cs : List Char) : Prop :=
  ∀ xs ys, cs = xs ++ '#' :: ys → '\n' ∈ ys

/-- The token goes on behind the place at which it would be cut. -/
def Token.Crosses (k : Int) (t : Token) : Prop :=
  t.index < k ∧ k < t.stop

namespace Text.Uncommented

theorem of_append {cs ds : List Char} (h : Uncommented (cs ++ ds)) : Uncommented ds := by
  rintro xs ys rfl
  exact h (cs ++ xs) ys (by simp)

/-- The last character is not in a comment. -/
theorem of_not_inComment {cs : List Char} (h : ¬ InComment cs (cs.length - 1)) :
    Uncommented cs := by
  rintro xs ys rfl
  by_contra hline
  refine h ⟨xs.length, by simp, by simp, fun k hk hkl hnewline => ?_⟩
  obtain ⟨j, rfl⟩ := Nat.exists_eq_add_of_le hk
  rw [List.getElem?_append_right (by omega), Nat.add_sub_cancel_left] at hnewline
  rcases List.mem_cons.mp (List.mem_of_getElem? hnewline) with hm | hm
  · cases hm
  · exact hline hm

end Text.Uncommented

open Text (Uncommented)

/-- A backslash is a token of its own. -/
theorem Kind.Spells.of_backslash {kind : Kind} {text : List Char} (h : kind.Spells text)
    (hm : '\\' ∈ text) : text = ['\\'] := by
  cases kind with
  | symbol =>
    obtain ⟨c, _, rfl⟩ := h
    rw [List.mem_singleton.mp hm]
  | operator =>
    obtain ⟨c, ⟨hc, rfl⟩ | ⟨hc, rfl⟩⟩ := h
    · rw [List.mem_singleton.mp hm]
    · rcases List.mem_pair.mp hm with rfl | hm
      · exact absurd hc (by decide)
      · cases hm
  | integer => exact absurd (h.of_number (.inl rfl) _ hm) (by decide)
  | float => exact absurd (h.of_number (.inr rfl) _ hm) (by decide)
  | word => exact absurd (h.2.2 _ hm) (by decide)
  | group | call | other => exact h.elim

namespace Token

section Lexemes

variable {c : Char} {cs ds rest : List Char}

theorem takeWhile_cut {p : Char → Bool} (h : ((cs ++ ds).takeWhile p).length ≤ cs.length) :
    (cs ++ ds).takeWhile p = cs.takeWhile p := by
  rw [List.takeWhile_append] at h ⊢
  split
  · next hall =>
    rw [if_pos hall, List.length_append] at h
    have hnil : ds.takeWhile p = [] := List.eq_nil_of_length_eq_zero (by omega)
    rw [hnil, List.append_nil]
    exact ((List.takeWhile_prefix p).eq_of_length hall).symm
  · rfl

/-- A lexeme that does not reach behind the cut is read without what stands there. -/
theorem first_cut (h : (Lexeme.first c (cs ++ ds)).text.length ≤ cs.length + 1) :
    Lexeme.first c (cs ++ ds) = Lexeme.first c cs := by
  have hrun : ∀ p : Char → Bool, (c :: (cs ++ ds).takeWhile p).length ≤ cs.length + 1 →
      (cs ++ ds).takeWhile p = cs.takeWhile p := fun p hp => takeWhile_cut (by simpa using hp)
  unfold Lexeme.first at h ⊢
  split
  · next hc =>
    rw [if_pos hc] at h
    rw [hrun _ h]
  next hhash =>
  rw [if_neg hhash] at h
  split
  · next hc =>
    rw [if_pos hc] at h
    rw [hrun _ h]
  next hgap =>
  rw [if_neg hgap] at h
  have hpair : (isComparisonChar c = true ∧ (cs ++ ds).head? = some '=') ↔
      (isComparisonChar c = true ∧ cs.head? = some '=') := by
    cases cs with
    | cons => rfl
    | nil =>
      refine ⟨fun hc => ?_, fun hc => by simp at hc⟩
      rw [if_pos hc] at h
      simp at h
  simp only [hpair] at h ⊢
  split
  · rfl
  next hcomparison =>
  rw [if_neg hcomparison] at h
  split
  · rfl
  next hoperator =>
  rw [if_neg hoperator] at h
  split
  · rfl
  next hsymbol =>
  rw [if_neg hsymbol] at h
  split
  · next hc =>
    rw [if_pos hc] at h
    rw [hrun _ h]
  · next hc =>
    rw [if_neg hc] at h
    rw [hrun _ h]

theorem lexemes_cons (h : c :: cs = (Lexeme.first c cs).text ++ rest) :
    lexemes (c :: cs) = Lexeme.first c cs :: lexemes rest := by
  obtain ⟨d, text, htext⟩ := List.exists_cons_of_ne_nil (first_text_ne_nil c cs)
  rw [htext, List.cons_append] at h
  rw [lexemes, lexemesFrom, htext, lexemesFrom_drop, (List.cons.inj h).2]
  simp

/-- Blanks leave no token. -/
theorem place_gap (h : Text.isGap c = true) (n : Nat) :
    place n (lexemes (c :: cs)) = place (n + 1) (lexemes cs) := by
  have hfirst : ∀ {d : Char} (ds : List Char), Text.isGap d = true →
      Lexeme.first d ds = ⟨none, d :: ds.takeWhile Text.isGap⟩ := by
    intro d ds hd
    have hblank : d ≠ '\n' ∧ Text.isBlank d = true := by simpa [Text.isGap] using hd
    have hhash : d ≠ '#' := by
      rintro rfl
      exact absurd hd (by decide)
    rw [Lexeme.first, if_neg hhash, if_pos hblank]
    congr
    funext e
    simp [Text.isGap]
  have hcons : ∀ {d : Char} (ds : List Char) (m : Nat), Text.isGap d = true →
      place m (lexemes (d :: ds)) =
        place (m + 1 + (ds.takeWhile Text.isGap).length) (lexemes (ds.dropWhile Text.isGap)) := by
    intro d ds m hd
    have hread : lexemes (d :: ds) = Lexeme.first d ds :: lexemes (ds.dropWhile Text.isGap) :=
      lexemes_cons (by simp [hfirst ds hd])
    rw [hread, hfirst ds hd]
    simp only [place, List.length_cons]
    congr 1
    omega
  rw [hcons cs n h]
  cases cs with
  | nil => rfl
  | cons d ds =>
    by_cases hd : Text.isGap d = true
    · rw [hcons ds (n + 1) hd, List.takeWhile_cons_of_pos hd, List.dropWhile_cons_of_pos hd,
        List.length_cons]
      congr 1
      omega
    · rw [List.takeWhile_cons_of_neg hd, List.dropWhile_cons_of_neg hd]
      rfl

/-- The first lexeme ends in front of a place that no token crosses. -/
theorem first_within {n : Nat} {c : Char} (hc : Uncommented (c :: cs)) (hgap : ¬ Text.isGap c = true)
    (h : ∀ t ∈ place n [Lexeme.first c (cs ++ ds)], ¬ t.Crosses (n + (c :: cs).length : Nat)) :
    (Lexeme.first c (cs ++ ds)).text.length ≤ cs.length + 1 := by
  obtain ⟨rest, hsplit, hreads⟩ := first_reads c (cs ++ ds)
  by_contra hlong
  generalize Lexeme.first c (cs ++ ds) = l at *
  have hinside : c :: cs <+: l.text := by
    refine List.prefix_of_prefix_length_le ⟨ds, rfl⟩ ⟨rest, hsplit.symm⟩ ?_
    simp only [List.length_cons]
    omega
  cases hreads with
  | gap hall => exact hgap (hall c (hinside.subset List.mem_cons_self))
  | @comment text _ hline _ =>
    obtain ⟨rfl, hbegin⟩ := List.cons_prefix_cons.mp hinside
    exact hline _ (hbegin.subset (hc [] cs rfl)) rfl
  | @token kind text _ _ _ _ =>
    refine h _ List.mem_cons_self ⟨?_, ?_⟩
    · simp only [Token.index, List.length_cons]
      omega
    · simp only [Token.stop, List.length_cons]
      simp only at hlong
      omega

theorem place_cut {n : Nat} (hc : Uncommented cs)
    (h : ∀ t ∈ place n (lexemes (cs ++ ds)), ¬ t.Crosses (n + cs.length : Nat)) :
    place n (lexemes (cs ++ ds)) =
      place n (lexemes cs) ++ place (n + cs.length) (lexemes ds) := by
  induction hlen : cs.length using Nat.strong_induction_on generalizing cs n
  next len ih =>
  subst hlen
  cases cs with
  | nil => rfl
  | cons c cs =>
    by_cases hgap : Text.isGap c = true
    · have hnext : n + (c :: cs).length = n + 1 + cs.length := by simp; omega
      rw [List.cons_append, place_gap hgap, hnext] at h
      rw [List.cons_append, place_gap hgap, place_gap hgap, hnext]
      have hbehind : Uncommented ([c] ++ cs) := hc
      exact ih cs.length (by simp) hbehind.of_append h rfl
    · obtain ⟨rest, hsplit, _⟩ := first_reads c (cs ++ ds)
      have hpos := List.length_pos_iff.mpr (first_text_ne_nil c (cs ++ ds))
      have hlexemes : lexemes (c :: cs ++ ds) = Lexeme.first c (cs ++ ds) :: lexemes rest :=
        lexemes_cons hsplit
      rw [hlexemes, place_cons] at h ⊢
      have hshort := first_within hc hgap (fun t ht => h t (List.mem_append_left _ ht))
      have hfirst := first_cut hshort
      obtain ⟨left, hleft, hright⟩ : ∃ left, c :: cs = (Lexeme.first c cs).text ++ left ∧
          rest = left ++ ds := by
        rw [hfirst, ← List.cons_append] at hsplit
        rcases List.append_eq_append_iff.mp hsplit with ⟨more, htext, hds⟩ | ⟨left, hcs, hrest⟩
        · rw [hfirst, htext, List.length_append, List.length_cons] at hshort
          obtain rfl : more = [] := List.eq_nil_of_length_eq_zero (by omega)
          exact ⟨[], by simpa using htext.symm, by simpa using hds.symm⟩
        · exact ⟨left, hcs, hrest⟩
      rw [hfirst, hright] at h ⊢
      have hlength : n + (Lexeme.first c cs).text.length + left.length = n + (c :: cs).length := by
        rw [hleft, List.length_append]
        omega
      have hpos' := hfirst ▸ hpos
      have hleftc : Uncommented left := Uncommented.of_append (hleft ▸ hc)
      have htail : place (n + (Lexeme.first c cs).text.length) (lexemes (left ++ ds)) =
          place (n + (Lexeme.first c cs).text.length) (lexemes left) ++
            place (n + (Lexeme.first c cs).text.length + left.length) (lexemes ds) :=
        ih left.length (by rw [hleft, List.length_append]; omega) hleftc
          (fun t ht => by rw [hlength]; exact h t (List.mem_append_right _ ht)) rfl
      rw [htail, hlength, lexemes_cons hleft, place_cons n (Lexeme.first c cs) (lexemes left),
        List.append_assoc]

theorem place_ordered {L : List Lexeme} (hL : ∀ l ∈ L, l.text ≠ []) (n : Nat) :
    Ordered (place n L) ∧ ∀ t ∈ place n L, (n : Int) ≤ t.index := by
  induction L generalizing n with
  | nil => exact ⟨⟨.nil, by simp [place]⟩, by simp [place]⟩
  | cons l L ih =>
    obtain ⟨hne, hrest⟩ := List.forall_mem_cons.mp hL
    obtain ⟨kind, text⟩ := l
    have hpos : 0 < text.length := List.length_pos_iff.mpr hne
    obtain ⟨hordered, hbound⟩ := ih hrest (n + text.length)
    cases kind with
    | none => exact ⟨hordered, fun t ht => Int.le_trans (by omega) (hbound t ht)⟩
    | some kind =>
      refine ⟨⟨List.pairwise_cons.mpr ⟨hbound, hordered.pairwise⟩,
        List.forall_mem_cons.mpr ⟨.leaf (by omega), hordered.placed⟩⟩, ?_⟩
      exact List.forall_mem_cons.mpr
        ⟨Int.le_refl _, fun t ht => Int.le_trans (by omega) (hbound t ht)⟩

end Lexemes

section Numbers

variable {k limit : Int} {before front T : List Token} {s t : Token}

/-- What was read before is kept or becomes part of a number. -/
theorem attach_covers (h : Piled t.index before) (ht : t.Placed) (hs : s ∈ t :: before) :
    ∃ u ∈ attach before t, u.index ≤ s.index ∧ s.stop ≤ u.stop := by
  have hkept : ∀ {T : List Token}, s ∈ T → ∃ u ∈ T, u.index ≤ s.index ∧ s.stop ≤ u.stop :=
    fun hm => ⟨s, hm, Int.le_refl _, Int.le_refl _⟩
  have hjoined : ∀ {value : String} {first : Token} {rest : List Token},
      first.index ≤ s.index ∧ s.stop ≤ t.stop →
      ∃ u ∈ .leaf .float value first.index t.stop :: rest, u.index ≤ s.index ∧ s.stop ≤ u.stop :=
    fun hin => ⟨_, List.mem_cons_self, hin⟩
  have hlt := ht.index_lt_stop
  unfold attach
  split
  · split
    · next dot whole rest =>
      obtain ⟨hdot, hdotstop⟩ := h.top_placed
      obtain ⟨hwhole, hwholestop⟩ := h.below.top_placed
      have hdotlt := hdot.index_lt_stop
      have hwholelt := hwhole.index_lt_stop
      simp only [List.mem_cons] at hs
      split
      · split
        · rcases hs with rfl | rfl | rfl | hs
          · exact hjoined (by omega)
          · exact hjoined (by omega)
          · exact hjoined (by omega)
          · exact hkept (List.mem_cons_of_mem _ hs)
        · rcases hs with rfl | rfl | hs
          · exact hjoined (by omega)
          · exact hjoined (by omega)
          · exact hkept (List.mem_cons_of_mem _ (List.mem_cons.mpr hs))
      · exact hkept (by simpa using hs)
    · next dot =>
      obtain ⟨hdot, hdotstop⟩ := h.top_placed
      have hdotlt := hdot.index_lt_stop
      split
      · rcases List.mem_pair.mp hs with rfl | rfl
        · exact hjoined (by omega)
        · exact hjoined (by omega)
      · exact hkept hs
    · exact hkept hs
  · exact hkept hs

theorem foldl_attach_covers (h : Piled limit before) (hT : Ordered T)
    (hl : ∀ t ∈ T, limit ≤ t.index) (hs : s ∈ before ∨ s ∈ T) :
    ∃ u ∈ T.foldl attach before, u.index ≤ s.index ∧ s.stop ≤ u.stop := by
  induction T generalizing before limit s with
  | nil => exact ⟨s, hs.resolve_right (by simp), Int.le_refl _, Int.le_refl _⟩
  | cons t T ih =>
    have ht := hT.placed t List.mem_cons_self
    have hpile := h.mono (hl t List.mem_cons_self)
    have hbehind := (List.pairwise_cons.mp hT.pairwise).1
    have hrest := hT.sublist (List.sublist_cons_self t T)
    have hattached := attach_piled hpile ht
    rcases hs with hs | hs
    · obtain ⟨u, hu, hui, hus⟩ := attach_covers hpile ht (List.mem_cons_of_mem t hs)
      obtain ⟨v, hv, hvi, hvs⟩ := ih hattached hrest hbehind (.inl hu)
      exact ⟨v, hv, by omega, by omega⟩
    · rcases List.mem_cons.mp hs with rfl | hs
      · obtain ⟨u, hu, hui, hus⟩ := attach_covers hpile ht List.mem_cons_self
        obtain ⟨v, hv, hvi, hvs⟩ := ih hattached hrest hbehind (.inl hu)
        exact ⟨v, hv, by omega, by omega⟩
      · exact ih hattached hrest hbehind (.inr hs)

/-- A number that does not cross a place is made from what is behind it. -/
theorem attach_cut (hfront : Piled k front) (ht : t.Placed) (hk : k ≤ t.index)
    (h : ∀ u ∈ attach (before ++ front) t, ¬ u.Crosses k) :
    attach (before ++ front) t = attach before t ++ front := by
  have hlt := ht.index_lt_stop
  have hcrosses : ∀ (value : String) {first : Token}, first.Placed → first.stop ≤ k →
      (Token.leaf .float value first.index t.stop).Crosses k := by
    intro value first hplaced hstop
    have hfirst := hplaced.index_lt_stop
    exact ⟨(by omega : first.index < k), (by omega : k < t.stop)⟩
  unfold attach at h ⊢
  split
  · next hi =>
    rw [if_pos hi] at h
    rcases before with _ | ⟨dot, _ | ⟨whole, rest⟩⟩
    · rcases front with _ | ⟨dot, _ | ⟨whole, rest⟩⟩
      · rfl
      · obtain ⟨hdot, hdotstop⟩ := hfront.top_placed
        by_cases hd : dot.value = "."
        · exact absurd (hcrosses ("0." ++ t.value) hdot hdotstop) (h _ (by simp [hd]))
        · simp [hd]
      · obtain ⟨hdot, hdotstop⟩ := hfront.top_placed
        obtain ⟨hwhole, hwholestop⟩ := hfront.below.top_placed
        have hdotlt := hdot.index_lt_stop
        by_cases hd : dot.value = "."
        · by_cases hw : whole.kind = .integer
          · exact absurd (hcrosses (whole.value ++ "." ++ t.value) hwhole (by omega))
              (h _ (by simp [hd, hw]))
          · exact absurd (hcrosses ("0." ++ t.value) hdot hdotstop) (h _ (by simp [hd, hw]))
        · simp [hd]
    · rcases front with _ | ⟨whole, rest⟩
      · by_cases hd : dot.value = "." <;> simp [hd]
      · obtain ⟨hwhole, hwholestop⟩ := hfront.top_placed
        by_cases hd : dot.value = "."
        · by_cases hw : whole.kind = .integer
          · exact absurd (hcrosses (whole.value ++ "." ++ t.value) hwhole hwholestop)
              (h _ (by simp [hd, hw]))
          · simp [hd, hw]
        · simp [hd]
    · by_cases hd : dot.value = "."
      · by_cases hw : whole.kind = .integer <;> simp [hd, hw]
      · simp [hd]
  · rfl

theorem foldl_attach_cut (hfront : Piled k front) (hpile : Piled limit (before ++ front))
    (hT : Ordered T) (hk : ∀ t ∈ T, k ≤ t.index) (hl : ∀ t ∈ T, limit ≤ t.index)
    (h : ∀ u ∈ T.foldl attach (before ++ front), ¬ u.Crosses k) :
    T.foldl attach (before ++ front) = T.foldl attach before ++ front := by
  induction T generalizing before limit with
  | nil => rfl
  | cons t T ih =>
    have ht := hT.placed t List.mem_cons_self
    have htop := hpile.mono (hl t List.mem_cons_self)
    have hbehind := (List.pairwise_cons.mp hT.pairwise).1
    have hrest := hT.sublist (List.sublist_cons_self t T)
    have hattached := attach_piled htop ht
    have hcut := attach_cut hfront ht (hk t List.mem_cons_self) (fun u hu hcross => by
      obtain ⟨v, hv, hvi, hvs⟩ := foldl_attach_covers hattached hrest hbehind (.inl hu)
      exact h v hv ⟨Int.lt_of_le_of_lt hvi hcross.1, Int.lt_of_lt_of_le hcross.2 hvs⟩)
    rw [List.foldl_cons, hcut] at h
    rw [List.foldl_cons, List.foldl_cons, hcut]
    exact ih (hcut ▸ hattached) hrest (fun s hs => hk s (List.mem_cons_of_mem _ hs)) hbehind h

end Numbers

section Sources

variable {u v : String}

/-- Cutting a source between its tokens cuts their list. -/
theorem scan_cut (hu : Uncommented u.toList) (h : ∀ t ∈ scan (u ++ v), ¬ t.Crosses u.length) :
    scan (u ++ v) = scan u ++ (scan v).map (shift u.length) := by
  have hchars : (u ++ v).toList = u.toList ++ v.toList := String.toList_append
  have hplaced := place_ordered (lexemesFrom_text_ne_nil 0 (u ++ v).toList) 0
  have hraw : ∀ t ∈ place 0 (lexemes (u.toList ++ v.toList)),
      ¬ t.Crosses (0 + u.toList.length : Nat) := by
    intro t ht hcross
    rw [← hchars] at ht
    obtain ⟨s, hs, hsi, hss⟩ := foldl_attach_covers (.nil 0) hplaced.1 hplaced.2 (.inr ht)
    rw [Nat.zero_add, String.length_toList] at hcross
    exact h s (List.mem_reverse.mpr hs)
      ⟨Int.lt_of_le_of_lt hsi hcross.1, Int.lt_of_lt_of_le hcross.2 hss⟩
  have hcut := place_cut hu hraw
  rw [Nat.zero_add, String.length_toList] at hcut
  have hmoved := place_shift u.length 0 (lexemes v.toList)
  rw [Nat.zero_add] at hmoved
  have hfront : Piled u.length ((place 0 (lexemes u.toList)).foldl attach []) := by
    obtain ⟨_, hpile⟩ := place_piled (lexemesFrom_text_ne_nil 0 u.toList) 0 (.nil 0)
    exact ⟨hpile.pairwise, hpile.placed, fun t ht =>
      (scan_anchored (List.mem_reverse.mpr ht)).stop_within.2⟩
  have hback := place_ordered (lexemesFrom_text_ne_nil 0 v.toList) u.length
  have hfold : (place u.length (lexemes v.toList)).foldl attach
        ([] ++ (place 0 (lexemes u.toList)).foldl attach []) =
      (place u.length (lexemes v.toList)).foldl attach [] ++
        (place 0 (lexemes u.toList)).foldl attach [] :=
    foldl_attach_cut hfront hfront hback.1 hback.2 hback.2 (fun t ht => h t (by
      rw [scan, hchars, hcut, List.foldl_append]
      exact List.mem_reverse.mpr ht))
  have hshift := foldl_attach_shift u.length [] (place 0 (lexemes v.toList))
  rw [← hmoved, List.map_nil] at hshift
  rw [List.nil_append, hshift] at hfold
  rw [scan, hchars, hcut, List.foldl_append, hfold]
  simp [scan, List.map_reverse]

/-- The backslash behind `n` characters. -/
def backslashAt (n : Nat) : Token :=
  .leaf .symbol "\\" n (n + 1)

theorem backslash_not_crossed (u v : String) :
    ∀ t ∈ scan (u ++ ("\\\n" ++ v)), ¬ t.Crosses u.length := by
  rintro t ht ⟨hstart, hstop⟩
  have hl := scan_lexed _ ht
  have hindex := hl.start
  have hbackslash : (u ++ ("\\\n" ++ v)).toList[u.length]? = some '\\' := by
    rw [String.toList_append, ← String.length_toList, List.getElem?_append_right (Nat.le_refl _)]
    simp [String.toList_append]
  have hm := (mem_sliceChars hindex (by omega) hl.within).mpr ⟨_, by omega, hstop, hbackslash⟩
  have hlength := congrArg List.length (hl.spells.of_backslash hm)
  rw [length_sliceChars hindex (by omega) hl.within, List.length_singleton] at hlength
  omega

theorem shift_scan (v : String) (d e : Int) :
    ((scan v).map (shift d)).map (shift e) = (scan v).map (shift (d + e)) := by
  rw [List.map_map]
  refine List.map_congr_left fun t ht => ?_
  cases t with
  | leaf => simp [shift, Int.add_assoc]
  | group => exact (scan_isLeaf v _ ht).elim
  | call => exact (scan_isLeaf v _ ht).elim

/-- A backslash and a newline between two parts of a source put two tokens between theirs. -/
theorem scan_continued (hu : Uncommented u.toList) (v : String) :
    scan (u ++ "\\\n" ++ v) = scan u ++ backslashAt u.length :: newlineAt (u.length + 1) ::
      (scan v).map (shift (u.length + 2)) := by
  have hlines : scan ("\\\n" ++ v) = backslashAt 0 :: newlineAt 1 :: (scan v).map (shift 2) :=
    scan_joined "\\" v
  have hbackslash : (backslashAt 0).shift u.length = backslashAt u.length := by
    simp [backslashAt, shift, Int.add_comm]
  have hnewline : (newlineAt 1).shift u.length = newlineAt (u.length + 1) := by
    simp only [newlineAt, shift, Token.leaf.injEq, true_and]
    omega
  rw [String.append_assoc, scan_cut hu (backslash_not_crossed u v), hlines, List.map_cons,
    List.map_cons, hbackslash, hnewline, shift_scan, Int.add_comm]

end Sources

end Token

end Abacus
