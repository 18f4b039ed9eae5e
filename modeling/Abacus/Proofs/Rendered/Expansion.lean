import Abacus.Proofs.Rendered.Exchanged
import Abacus.Proofs.Rendered.Relocated

/-! Compound assignments written out in the text of a script. -/

namespace Abacus

open Token
open Text (Uncommented)
open Statement (compoundOperators)

section Texts

variable {p x name op : String} {U : List Token} {n : Token}

theorem Kind.Spells.ne_dot {value : String} (h : Kind.Spells .word value.toList) : value ≠ "." := by
  rintro rfl
  exact absurd (h.2.2 '.' (by simp)) (by decide)

theorem scan_operator (h : op ∈ compoundOperators) :
    scan op = [.leaf .operator op 0 1] ∧ op.length = 1 ∧ '#' ∉ op.toList ∧ op ≠ "." := by
  simp only [compoundOperators, List.mem_cons, List.not_mem_nil, or_false] at h
  rcases h with rfl | rfl | rfl | rfl | rfl | rfl <;> exact ⟨rfl, rfl, by decide, by decide⟩

theorem uncommented_of_notMem {cs : List Char} (h : '#' ∉ cs) : Uncommented cs := by
  rintro xs ys rfl
  exact absurd (by simp) h

/-- What is put in behind a name is read token by token. -/
theorem scan_operation (hp : Uncommented p.toList) (hs : scan p = U ++ [n]) (hk : n.kind ≠ .integer)
    (hv : n.value ≠ ".") (hname : Kind.Spells .word name.toList) (hop : op ∈ compoundOperators)
    (x : String) : scan (p ++ " = " ++ name ++ " " ++ op ++ " " ++ x) = scan p ++
      (.leaf .symbol "=" (p.length + 1) (p.length + 2) ::
        .leaf .word name (p.length + 3) (p.length + 3 + name.length) ::
        .leaf .operator op (p.length + 4 + name.length) (p.length + 5 + name.length) ::
        (scan x).map (shift (p.length + 6 + name.length))) := by
  obtain ⟨hoperator, hlength, hhash, hdot⟩ := scan_operator hop
  have htext : p ++ " = " ++ name ++ " " ++ op ++ " " ++ x =
      p ++ (" " ++ ("=" ++ (" " ++ (name ++ (" " ++ (op ++ (" " ++ x))))))) := by
    have hequals : (" = " : String) = " " ++ ("=" ++ " ") := rfl
    simp only [hequals, String.append_assoc]
  have hword := scan_word hname
  have hequals : scan "=" = [] ++ [.leaf .symbol "=" 0 1] := rfl
  rw [htext, scan_spaced hp hs hk hv,
    scan_spaced (uncommented_of_notMem (by decide)) hequals (by simp [Token.kind])
      (by simp [Token.value]),
    scan_spaced (U := []) (uncommented_of_notMem hname.hash_notMem) hword (by simp [Token.kind])
      hname.ne_dot,
    scan_spaced (U := []) (uncommented_of_notMem hhash) hoperator (by simp [Token.kind]) hdot,
    hequals, hword, hoperator, hlength]
  simp only [List.nil_append, List.singleton_append, List.map_cons, shift_scan, shift]
  have hone : ("=".length : Int) = 1 := rfl
  simp only [hone, List.append_cancel_left_eq, List.cons.injEq, Token.leaf.injEq, true_and]
  refine ⟨⟨by omega, by omega⟩, ⟨by omega, by omega⟩, ⟨by omega, by omega⟩, ?_⟩
  congr 2
  omega

theorem scan_parenthesized {e : String} (he : Uncommented e.toList) (q : String) :
    scan ("(" ++ e ++ ")" ++ q) = .leaf .symbol "(" 0 1 :: ((scan e).map (shift 1) ++
      .leaf .symbol ")" (e.length + 1) (e.length + 2) :: (scan q).map (shift (e.length + 2))) := by
  have htext : "(" ++ e ++ ")" ++ q =
      "" ++ (String.singleton '(' ++ (e ++ (String.singleton ')' ++ q))) := by
    have hopening : (String.singleton '(') = "(" := rfl
    have hclosing : (String.singleton ')') = ")" := rfl
    rw [hopening, hclosing, String.empty_append]
    simp only [String.append_assoc]
  rw [htext, scan_bracket (.inl rfl) (uncommented_of_notMem (by simp)),
    scan_bracket (.inr rfl) he]
  have hnothing : scan "" = [] := rfl
  have hzero : ("".length : Int) = 0 := rfl
  simp only [hnothing, hzero, List.map_append, List.map_cons, shift_scan, shift, List.nil_append]
  congr 3

end Texts

section Values

variable {source : String} {strict : Bool} {t : Token} {value A B : List Token}

/-- The first flat token of what is no end of a line is none either. -/
theorem Token.Grouped.first_flat (h : Grouped source strict t) (hn : t.isNewline = false) :
    ∃ x Y, flatten t = x :: Y ∧ x.index = t.index ∧ x.isNewline = false := by
  cases h with
  | leaf _ => exact ⟨_, _, rfl, rfl, hn⟩
  | group ho _ _ _ _ =>
    refine ⟨_, _, rfl, rfl, ?_⟩
    rcases ho.value_eq with hv | hv <;> simp [isNewline, isSymbol, Token.is, hv]
  | call _ hname _ _ =>
    refine ⟨_, _, rfl, rfl, ?_⟩
    simp [isNewline, isSymbol, Token.is, kind_of_isName hname]

/-- The last flat token of a list stops where the list does. -/
theorem flattenAll_last (hg : ∀ t ∈ value, Grouped source strict t) (hne : value ≠ []) (d : Int) :
    ∃ X s, flattenAll value = X ++ [s] ∧ s.stop = stopOf value d := by
  obtain ⟨Z, l, hZ⟩ := List.eq_nil_or_concat value |>.resolve_left hne
  rw [List.concat_eq_append] at hZ
  subst hZ
  obtain ⟨_, s, _, hlast, _, hstop⟩ := (hg l (by simp)).ends
  obtain ⟨X, hX⟩ := List.getLast?_eq_some_iff.mp hlast
  refine ⟨flattenAll Z ++ X, s, ?_, ?_⟩
  · rw [flattenAll_append]
    simp [flattenAll, hX]
  · simp [stopOf, hstop]

/-- The text of a run of tokens is read to what it is made from. -/
theorem scan_sourceOf (h : scan source = A ++ (flattenAll value ++ B))
    (hfirst : ∀ t ∈ value.head?, t.isNewline = false) (hg : ∀ t ∈ value, Grouped source strict t)
    (d : Int) : Uncommented (sourceOf source value).toList ∧
      (scan (sourceOf source value)).map (shift ((value.head?.map Token.index).getD d)) =
        flattenAll value ∧
      ((sourceOf source value).length : Int) =
        stopOf value d - (value.head?.map Token.index).getD d := by
  cases value with
  | nil =>
    refine ⟨uncommented_of_notMem (by simp [sourceOf]), rfl, ?_⟩
    simp [sourceOf, stopOf]
  | cons v value =>
    obtain ⟨x, Y, hx, hindex, hn⟩ := (hg v List.mem_cons_self).first_flat (hfirst v rfl)
    obtain ⟨X, s, hend, hstop⟩ := flattenAll_last hg (by simp) d
    have hparts : flattenAll (v :: value) = x :: (Y ++ flattenAll value) := by
      simp [flattenAll, hx]
    have htext : sourceOf source (v :: value) = Text.slice source v.index (stopOf (v :: value) d) := by
      simp [sourceOf, stopOf, List.getLast?_cons]
    have hbetween := scan_between h hparts hend hn
    rw [hindex, hstop] at hbetween
    rw [htext]
    exact hbetween

end Values

section Written

variable {source text : String} {strict : Bool} {name op : Token} {operand : Int → Token}
  {old rest U V : List Token}

/-- The source in which a compound assignment to `name` is written out. -/
def Token.written (source : String) (name op : Token) (old : List Token) (text : String) : String :=
  Text.slice source 0 name.stop ++ " = " ++ name.value ++ " " ++ op.value ++ " " ++ text ++
    Text.slice source (stopOf old name.stop) source.length

theorem slice_take {k : Nat} (h : k ≤ source.length) :
    Text.slice source 0 k = String.ofList (source.toList.take k) := by
  rw [← String.length_toList] at h
  rw [Text.slice, sliceChars_eq (by omega) (by omega) (by omega)]
  simp

theorem slice_drop {k : Nat} (h : k ≤ source.length) :
    Text.slice source k source.length = String.ofList (source.toList.drop k) := by
  rw [← String.length_toList] at h ⊢
  rw [Text.slice, sliceChars_eq (by omega) (by omega) (by omega), Int.toNat_natCast,
    Int.toNat_natCast, List.take_of_length_le (by simp)]

/-- The tokens of the source that is written out, up to what is combined with the name. -/
theorem scan_written (h : scan source = U ++ name :: (flattenAll old ++ V))
    (hm : name.isName = true) (hop : op.value ∈ compoundOperators) (hne : old ≠ [])
    (hg : ∀ t ∈ old, Grouped source strict t) (text : String) :
    (scan (Text.slice source (stopOf old name.stop) source.length)).map
      (shift (stopOf old name.stop)) = V ∧
    scan (written source name op old text) = U ++ name ::
      (.leaf .symbol "=" (name.stop + 1) (name.stop + 2) ::
        .leaf .word name.value (name.stop + 3) (name.stop + 3 + name.value.length) ::
        .leaf .operator op.value (name.stop + 4 + name.value.length)
          (name.stop + 5 + name.value.length) ::
        (scan (text ++ Text.slice source (stopOf old name.stop) source.length)).map
          (shift (name.stop + 6 + name.value.length))) := by
  have hname : name ∈ scan source := by simp [h]
  obtain ⟨X, s, hold, hstop⟩ := flattenAll_last hg hne name.stop
  have hs : s ∈ scan source := by simp [h, hold]
  obtain ⟨hstart, hlt, hwithin⟩ := scan_spanned hname
  obtain ⟨hstart', hlt', hwithin'⟩ := scan_spanned hs
  obtain ⟨j, hj⟩ : ∃ j : Nat, name.stop = j := ⟨name.stop.toNat, by omega⟩
  obtain ⟨k, hk⟩ : ∃ k : Nat, s.stop = k := ⟨s.stop.toNat, by omega⟩
  obtain ⟨hfront, _⟩ := scan_behind h hj
  obtain ⟨_, hback⟩ := scan_behind (a := source) (A := U ++ name :: X) (t := s) (B := V)
    (by simp [h, hold]) hk
  have hspells := (scan_lexed source hname).spells
  have hvalue := value_of_scan hname (by simp [kind_of_isName hm])
  rw [kind_of_isName hm] at hspells
  have hword : Kind.Spells .word name.value.toList := by
    rw [hvalue, Text.slice, String.toList_ofList]
    exact hspells
  have huncommented := uncommented_before hname hj
  rw [← String.toList_ofList (l := source.toList.take j)] at huncommented
  rw [← hstop, hk, slice_drop (by omega)]
  refine ⟨hback, ?_⟩
  have hlength := length_ofList_take (a := source) (k := j) (by omega)
  have hread := scan_operation huncommented hfront (by simp [kind_of_isName hm])
    hword.ne_dot hword hop (text ++ String.ofList (source.toList.drop k))
  rw [written, ← hstop, hk, slice_drop (by omega), hj, slice_take (by omega), String.append_assoc,
    hread, hfront, hlength]
  simp

end Written

end Abacus
