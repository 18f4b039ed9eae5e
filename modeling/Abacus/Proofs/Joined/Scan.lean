import Abacus.Proofs.Joined.Shift

/-! Two sources on separate lines. No token reaches over the newline between them, so the tokens and
the groups of the whole are those of the first, the newline, and those of the second moved behind
it. -/

namespace Abacus

open Token

namespace Token

section Lexemes

theorem takeWhile_line {p : Char → Bool} (hp : p '\n' = false) (cs ds : List Char) :
    (cs ++ '\n' :: ds).takeWhile p = cs.takeWhile p := by
  induction cs with
  | nil => simp [hp]
  | cons c cs ih =>
    by_cases hc : p c = true
    · simp [hc, ih]
    · simp [hc]

/-- No lexeme goes on behind a newline. -/
theorem first_line (c : Char) (cs ds : List Char) :
    Lexeme.first c (cs ++ '\n' :: ds) = Lexeme.first c cs := by
  have hhead : ((cs ++ '\n' :: ds).head? = some '=') ↔ (cs.head? = some '=') := by
    cases cs <;> simp
  unfold Lexeme.first
  rw [takeWhile_line (by decide), takeWhile_line (by decide), takeWhile_line (by decide),
    takeWhile_line (by decide)]
  simp only [hhead]

theorem first_text_length_le (c : Char) (cs : List Char) :
    (Lexeme.first c cs).text.length ≤ cs.length + 1 := by
  obtain ⟨rest, hsplit, _⟩ := first_reads c cs
  have hlen := congrArg List.length hsplit
  simp only [List.length_cons, List.length_append] at hlen
  omega

theorem lexemesFrom_line {skip : Nat} {cs : List Char} (hs : skip ≤ cs.length) (ds : List Char) :
    lexemesFrom skip (cs ++ '\n' :: ds) =
      lexemesFrom skip cs ++ ⟨some .symbol, ['\n']⟩ :: lexemes ds := by
  induction cs generalizing skip with
  | nil =>
    obtain rfl : skip = 0 := by simpa using hs
    have hnewline : Lexeme.first '\n' ds = ⟨some .symbol, ['\n']⟩ := by
      simp [Lexeme.first, isComparisonChar, isOperatorChar, isSymbolChar]
    simp [lexemesFrom, lexemes, hnewline]
  | cons c cs ih =>
    simp only [List.length_cons] at hs
    cases skip with
    | zero =>
      have hlen := first_text_length_le c cs
      simp only [List.cons_append, lexemesFrom, first_line]
      rw [ih (by omega)]
    | succ skip =>
      simp only [List.cons_append, lexemesFrom]
      exact ih (by omega)

def textLength : List Lexeme → Nat
  | [] => 0
  | l :: rest => l.text.length + textLength rest

theorem textLength_lexemesFrom {skip : Nat} {cs : List Char} (hs : skip ≤ cs.length) :
    textLength (lexemesFrom skip cs) + skip = cs.length := by
  induction cs generalizing skip with
  | nil =>
    obtain rfl : skip = 0 := by simpa using hs
    rfl
  | cons c cs ih =>
    simp only [List.length_cons] at hs ⊢
    cases skip with
    | zero =>
      have hlen := first_text_length_le c cs
      have hpos := List.length_pos_iff.mpr (first_text_ne_nil c cs)
      have hrest := @ih ((Lexeme.first c cs).text.length - 1) (by omega)
      simp only [lexemesFrom, textLength] at hrest ⊢
      omega
    | succ skip =>
      have hrest := @ih skip (by omega)
      simp only [lexemesFrom]
      omega

theorem place_append (offset : Nat) (L M : List Lexeme) :
    place offset (L ++ M) = place offset L ++ place (offset + textLength L) M := by
  induction L generalizing offset with
  | nil => rfl
  | cons l L ih =>
    obtain ⟨kind, text⟩ := l
    have hsum : offset + textLength (⟨kind, text⟩ :: L) = offset + text.length + textLength L := by
      simp only [textLength]
      omega
    cases kind with
    | none => simp only [List.cons_append, place, ih, hsum]
    | some kind => simp only [List.cons_append, place, ih, hsum]

theorem place_shift (d offset : Nat) (L : List Lexeme) :
    place (offset + d) L = (place offset L).map (shift d) := by
  induction L generalizing offset with
  | nil => rfl
  | cons l L ih =>
    obtain ⟨kind, text⟩ := l
    have hnext := ih (offset + text.length)
    rw [Nat.add_right_comm] at hnext
    cases kind with
    | none => simpa only [place] using hnext
    | some kind =>
      simp only [place, hnext, List.map_cons, shift, Int.natCast_add]
      rw [Int.add_right_comm]

end Lexemes

section Numbers

/-- A number does not reach back over a token that is neither digits nor a dot. -/
theorem attach_beyond {s : Token} (hk : s.kind ≠ .integer) (hv : s.value ≠ ".")
    (before outer : List Token) (t : Token) :
    attach (before ++ s :: outer) t = attach before t ++ s :: outer := by
  unfold attach
  split
  · rcases before with _ | ⟨dot, _ | ⟨whole, rest⟩⟩
    · cases outer <;> simp [hv]
    · by_cases hdot : dot.value = "."
      · simp [hdot, hk]
      · simp [hdot]
    · by_cases hdot : dot.value = "."
      · by_cases hwhole : whole.kind = .integer
        · simp [hdot, hwhole]
        · simp [hdot, hwhole]
      · simp [hdot]
  · rfl

theorem attach_shift (d : Int) (before : List Token) (t : Token) :
    attach (before.map (shift d)) (t.shift d) = (attach before t).map (shift d) := by
  unfold attach
  rw [kind_shift]
  split
  · rcases before with _ | ⟨dot, _ | ⟨whole, rest⟩⟩
    · rfl
    · by_cases hdot : dot.value = "."
      · simp [hdot, shift]
      · simp [hdot]
    · by_cases hdot : dot.value = "."
      · by_cases hwhole : whole.kind = .integer
        · simp [hdot, hwhole, shift]
        · simp [hdot, hwhole, shift]
      · simp [hdot]
  · rfl

theorem foldl_attach_beyond {s : Token} (hk : s.kind ≠ .integer) (hv : s.value ≠ ".")
    (before outer T : List Token) :
    T.foldl attach (before ++ s :: outer) = T.foldl attach before ++ s :: outer := by
  induction T generalizing before with
  | nil => rfl
  | cons t T ih => rw [List.foldl_cons, List.foldl_cons, attach_beyond hk hv, ih]

theorem foldl_attach_shift (d : Int) (before T : List Token) :
    (T.map (shift d)).foldl attach (before.map (shift d)) =
      (T.foldl attach before).map (shift d) := by
  induction T generalizing before with
  | nil => rfl
  | cons t T ih => rw [List.map_cons, List.foldl_cons, List.foldl_cons, attach_shift, ih]

end Numbers

/-- The newline behind `n` characters. -/
def newlineAt (n : Nat) : Token :=
  .leaf .symbol "\n" n (n + 1)

theorem scan_joined (a b : String) :
    scan (a ++ "\n" ++ b) =
      scan a ++ newlineAt a.length :: (scan b).map (shift (a.length + 1)) := by
  have hchars : (a ++ "\n" ++ b).toList = a.toList ++ '\n' :: b.toList := by
    simp [String.toList_append]
  have hlength : textLength (lexemes a.toList) = a.length := by
    have hall := textLength_lexemesFrom (Nat.zero_le a.toList.length)
    rwa [Nat.add_zero, String.length_toList] at hall
  have hlexemes : lexemes (a ++ "\n" ++ b).toList =
      lexemes a.toList ++ ⟨some .symbol, ['\n']⟩ :: lexemes b.toList := by
    rw [hchars]
    exact lexemesFrom_line (Nat.zero_le _) b.toList
  have hplace : place 0 (lexemes (a ++ "\n" ++ b).toList) = place 0 (lexemes a.toList) ++
      newlineAt a.length :: (place 0 (lexemes b.toList)).map (shift (a.length + 1)) := by
    rw [hlexemes, place_append, hlength, Nat.zero_add]
    have hmoved := place_shift (a.length + 1) 0 (lexemes b.toList)
    rw [Nat.zero_add] at hmoved
    simp only [place, List.length_singleton, hmoved]
    rfl
  have hbeyond := foldl_attach_beyond (s := newlineAt a.length) (by simp [newlineAt, kind])
    (by simp [newlineAt, value]) [] ((place 0 (lexemes a.toList)).foldl attach [])
    ((place 0 (lexemes b.toList)).map (shift (a.length + 1)))
  have hmoved := foldl_attach_shift (a.length + 1) [] (place 0 (lexemes b.toList))
  have hnewline : attach ((place 0 (lexemes a.toList)).foldl attach []) (newlineAt a.length) =
      [] ++ newlineAt a.length :: (place 0 (lexemes a.toList)).foldl attach [] := rfl
  rw [List.map_nil] at hmoved
  rw [scan, hplace, List.foldl_append, List.foldl_cons, hnewline, hbeyond, hmoved]
  simp [scan, List.map_reverse]

/-- Scanned tokens that are moved differ in their offsets only. -/
theorem map_shift_scan (source : String) (d : Int) :
    (scan source).map (shift d) =
      (scan source).map (fun t => .leaf t.kind t.value (t.index + d) (t.stop + d)) := by
  refine List.map_congr_left (fun t ht => ?_)
  have hleaf := scan_isLeaf source t ht
  cases t with
  | leaf => rfl
  | group => exact hleaf.elim
  | call => exact hleaf.elim

/-- Scanning is local to lines. Whatever stands at the end of the first source and at the beginning of
the second one, no number, operator, comment or run of blanks reaches over the newline. -/
theorem scan_line_by_line (a b : String) :
    scan (a ++ "\n" ++ b) = scan a ++ .leaf .symbol "\n" a.length (a.length + 1) ::
      (scan b).map (fun t =>
        .leaf t.kind t.value (t.index + (a.length + 1)) (t.stop + (a.length + 1))) := by
  rw [scan_joined, map_shift_scan]
  rfl

/-- A digit run and a dot at the end of a line, and half of an operator, go on in no other line. -/
example : scan "1.\n5 >\n= # =" =
    [.leaf .integer "1" 0 1, .leaf .symbol "." 1 2, .leaf .symbol "\n" 2 3, .leaf .integer "5" 3 4,
      .leaf .operator ">" 5 6, .leaf .symbol "\n" 6 7, .leaf .symbol "=" 7 8] := by
  rfl

section Groups

theorem isName_shift (d : Int) (t : Token) : (t.shift d).isName = t.isName := by
  simp [isName]

theorem isParenthesized_shift (d : Int) (t : Token) :
    (t.shift d).isParenthesized = t.isParenthesized := by
  cases t with
  | leaf | call => rfl
  | group =>
    simp only [isParenthesized, inside?, shift, value_shift]
    split <;> rfl

theorem opens_shift (d : Int) (t : Token) : (t.shift d).Opens ↔ t.Opens := by
  simp [Opens]

theorem closes_shift (d : Int) (opener t : Token) :
    Closes (opener.shift d) (t.shift d) ↔ Closes opener t := by
  simp [Closes]

theorem apart_shiftAll {strict : Bool} {T : List Token} (h : Apart strict T) (d : Int) :
    Apart strict (shiftAll d T) := by
  intro hs
  rw [shiftAll_eq_map, List.isChain_map]
  refine (h hs).imp (fun s t hst => ?_)
  rwa [isName_shift, isParenthesized_shift]

mutual

theorem flatten_shift (d : Int) : ∀ t : Token, flatten (t.shift d) = (flatten t).map (shift d)
  | .leaf _ _ _ _ => rfl
  | .group _ _ _ _ children opener closer => by
    simp [shift, flatten, flattenAll_shiftAll d children]
  | .call _ _ _ _ name arguments => by
    simp [shift, flatten, flatten_shift d arguments]

theorem flattenAll_shiftAll (d : Int) :
    ∀ T : List Token, flattenAll (shiftAll d T) = (flattenAll T).map (shift d)
  | [] => rfl
  | t :: rest => by
    simp [shiftAll, flattenAll, flatten_shift d t, flattenAll_shiftAll d rest]

end

variable {source source' : String} {d : Int} {strict : Bool}

/-- A group shows the same text where it stands in a longer source. -/
theorem Grouped.shift {t : Token} (hg : Grouped source strict t) (h : Contains source' source d)
    (hs : ∀ u ∈ flatten t, u ∈ scan source) : Grouped source' strict (t.shift d) := by
  induction hg with
  | leaf ho => exact .leaf (fun ho' => ho ((opens_shift d _).mp ho'))
  | @group children opener closer ho hc hg hn ha ih =>
    have hopener := (scan_anchored (hs opener List.mem_cons_self)).index_within
    have hcloser := (scan_anchored (hs closer (by simp [flatten]))).stop_within
    have hgroup := @Grouped.group source' strict (shiftAll d children) _ _
      ((opens_shift d opener).mpr ho)
      ((closes_shift d opener closer).mpr hc) ?_ ?_ (apart_shiftAll ha d)
    · simpa [Token.shift, h _ _ hopener hcloser] using hgroup
    · rw [shiftAll_eq_map]
      refine List.forall_mem_map.mpr (fun c hm => ih c hm (fun u hu => hs u ?_))
      have hflat := (flatten_sublist hm).subset hu
      simp [flatten, hflat]
    · rw [shiftAll_eq_map]
      exact List.forall_mem_map.mpr (fun c hm hcl => hn c hm ((closes_shift d opener c).mp hcl))
  | @call name arguments hstrict hn hp hg ih =>
    have harguments := ih (fun u hu => hs u (List.mem_cons_of_mem _ hu))
    have hcall := Grouped.call hstrict ((isName_shift d name).trans hn)
      ((isParenthesized_shift d arguments).trans hp) harguments
    simpa [Token.shift] using hcall

theorem WellFormed.shiftAll {F : List Token} (hF : WellFormed source strict F)
    (h : Contains source' source d) (hs : ∀ u ∈ flattenAll F, u ∈ scan source) :
    WellFormed source' strict (shiftAll d F) := by
  refine ⟨?_, apart_shiftAll hF.apart d⟩
  rw [shiftAll_eq_map]
  exact List.forall_mem_map.mpr (fun t ht =>
    (hF.grouped t ht).shift h (fun u hu => hs u ((flatten_sublist ht).subset hu)))

/-- Two forests with a token between them that is no part of a call. -/
theorem WellFormed.append {F G : List Token} (hF : WellFormed source strict F)
    (hG : WellFormed source strict G) {t : Token} (ht : Grouped source strict t)
    (hn : t.isName = false) (hp : t.isParenthesized = false) :
    WellFormed source strict (F ++ t :: G) := by
  refine ⟨?_, fun hs => List.isChain_append.mpr ⟨hF.apart hs, ?_, ?_⟩⟩
  · intro s hm
    rcases List.mem_append.mp hm with hm | hm
    · exact hF.grouped s hm
    · rcases List.mem_cons.mp hm with rfl | hm
      · exact ht
      · exact hG.grouped s hm
  · exact List.isChain_cons.mpr ⟨fun s _ hh => by simp [hn] at hh, hG.apart hs⟩
  · intro s _ u hu hh
    obtain rfl : t = u := by simpa using hu
    simp [hp] at hh

end Groups

theorem contains_first (a b : String) : Contains (a ++ "\n" ++ b) a 0 := by
  rw [String.append_assoc]
  exact .ofAppend a _

theorem contains_second (a b : String) : Contains (a ++ "\n" ++ b) b (a.length + 1) := by
  have hlength : ((a ++ "\n").length : Int) = a.length + 1 := by
    rw [String.length_append]
    rfl
  rw [← hlength]
  exact .ofPrepend (a ++ "\n") b

/-- The forest of two sources on separate lines. -/
theorem groupAll_joined {a b : String} {strict : Bool} {F G : List Token}
    (hF : groupAll a strict (scan a) = .ok F) (hG : groupAll b strict (scan b) = .ok G) :
    groupAll (a ++ "\n" ++ b) strict (scan (a ++ "\n" ++ b)) =
      .ok (F ++ newlineAt a.length :: shiftAll (a.length + 1) G) := by
  obtain ⟨hwF, hflatF, _⟩ := groupAll_forestOf hF
  obtain ⟨hwG, hflatG, _⟩ := groupAll_forestOf hG
  have hbefore := hwF.shiftAll (contains_first a b) (fun u hu => hflatF ▸ hu)
  rw [shiftAll_zero] at hbefore
  have hafter := hwG.shiftAll (contains_second a b) (fun u hu => hflatG ▸ hu)
  have hnewline : ¬ (newlineAt a.length).Opens := by
    simp [newlineAt, Opens, value, closing?]
  have hforest := hbefore.append hafter (t := newlineAt a.length) (.leaf hnewline) rfl rfl
  have hflat : flattenAll (F ++ newlineAt a.length :: shiftAll (a.length + 1) G) =
      scan (a ++ "\n" ++ b) := by
    rw [scan_joined, flattenAll_append, flattenAll, flattenAll_shiftAll, hflatF, hflatG]
    rfl
  rw [← hflat]
  exact hforest.groupAll_flattenAll

end Token

end Abacus
