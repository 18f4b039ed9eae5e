import Abacus.Proofs.Rendered.Scan

/-! Parts of a source. It may be cut where one of its tokens stops, or where one starts that is no end
of a line. -/

namespace Abacus

open Token
open Text (Uncommented)

section Cuts

variable {a u v : String} {A B : List Token} {t : Token} {k : Nat}

theorem inComment_of_take {cs : List Char} {i : Nat} (hi : i < k) (h : InComment (cs.take k) i) :
    InComment cs i := by
  obtain ⟨j, hj, hhash, hline⟩ := h
  refine ⟨j, hj, ?_, fun m hjm hmi hnewline => hline m hjm hmi ?_⟩
  · rwa [List.getElem?_take_of_lt (by omega)] at hhash
  · rwa [List.getElem?_take_of_lt (by omega)]

theorem uncommented_take (ht : t ∈ scan a) (h : t.Covers k) :
    Uncommented (a.toList.take (k + 1)) := by
  have hlt : k < a.toList.length := by
    have hwithin := (scan_lexed a ht).within
    have hcover := h.2
    omega
  refine .of_not_inComment (fun hin => ?_)
  rw [List.length_take, Nat.min_eq_left hlt, Nat.succ_sub_one] at hin
  exact (scan_laid a).apart t (List.mem_reverse.mpr ht) k h
    (inComment_of_take (Nat.lt_succ_self k) hin)

/-- In front of the place where a token stops there is no comment that goes on. -/
theorem uncommented_before (ht : t ∈ scan a) (h : t.stop = k) : Uncommented (a.toList.take k) := by
  obtain ⟨hstart, hlt, _⟩ := scan_spanned ht
  obtain ⟨j, rfl⟩ : ∃ j, k = j + 1 := ⟨k - 1, by omega⟩
  exact uncommented_take ht ⟨by omega, by omega⟩

/-- In front of the place where a token starts there is none either, unless it is the end of one. -/
theorem uncommented_behind (ht : t ∈ scan a) (h : t.index = k) (hn : a.toList[k]? ≠ some '\n') :
    Uncommented (a.toList.take k) := by
  obtain ⟨hstart, hlt, hwithin⟩ := scan_spanned ht
  rw [← String.length_toList] at hwithin
  have hnext := uncommented_take (k := k) ht ⟨by omega, by omega⟩
  have hk : k < a.toList.length := by omega
  rw [List.take_succ_eq_append_getElem hk] at hnext
  rintro xs ys heq
  have hm := hnext xs (ys ++ [a.toList[k]]) (by simp [heq])
  rcases List.mem_append.mp hm with hm | hm
  · exact hm
  · rw [List.mem_singleton] at hm
    exact absurd (hm ▸ List.getElem?_eq_getElem hk) hn

theorem ofList_take_append_drop (a : String) (k : Nat) :
    String.ofList (a.toList.take k) ++ String.ofList (a.toList.drop k) = a := by
  rw [← String.ofList_append, List.take_append_drop, String.ofList_toList]

theorem length_ofList_take {a : String} (h : k ≤ a.length) :
    (String.ofList (a.toList.take k)).length = k := by
  rw [String.length_ofList, List.length_take, String.length_toList]
  omega

/-- Around one of its tokens a source may be cut. -/
theorem Ordered.sides (h : Ordered (A ++ t :: B)) :
    (∀ x ∈ A ++ [t], x.stop ≤ t.stop) ∧ ∀ x ∈ B, t.stop ≤ x.index := by
  obtain ⟨_, hback, hfront⟩ := List.pairwise_append.mp h.pairwise
  have hlt := (h.placed t (by simp)).index_lt_stop
  refine ⟨fun x hx => ?_, (List.pairwise_cons.mp hback).1⟩
  rcases List.mem_append.mp hx with hx | hx
  · have hle : x.stop ≤ t.index := hfront x hx t List.mem_cons_self
    omega
  · exact Int.le_of_eq (by rw [List.mem_singleton.mp hx])

/-- The tokens up to one of them, and those behind it. -/
theorem scan_behind (h : scan a = A ++ t :: B) (hk : t.stop = k) :
    scan (String.ofList (a.toList.take k)) = A ++ [t] ∧
      (scan (String.ofList (a.toList.drop k))).map (shift k) = B := by
  have ht : t ∈ scan a := by simp [h]
  have hwithin := (scan_lexed a ht).within
  rw [String.length_toList] at hwithin
  have hlength := length_ofList_take (a := a) (k := k) (by omega)
  obtain ⟨hfront, hback⟩ := Ordered.sides (h ▸ scan_ordered a)
  have huncommented := uncommented_before ht hk
  rw [← String.toList_ofList (l := a.toList.take k)] at huncommented
  obtain ⟨hA, hB⟩ := scan_halves (A := A ++ [t]) (B := B) huncommented
    (by rw [ofList_take_append_drop, h]; simp) (by rw [hlength, ← hk]; exact hfront)
    (by rw [hlength, ← hk]; exact hback)
  rw [hlength] at hB
  exact ⟨hA.symm, hB.symm⟩

/-- A token that is no newline does not start with one. -/
theorem newline_not_first (ht : t ∈ scan a) (hn : t.isNewline = false) (hk : t.index = k) :
    a.toList[k]? ≠ some '\n' := by
  intro hline
  have hl := scan_lexed a ht
  have hproper := hl.proper
  have hstart := hl.start
  have hvalue := hl.value
  have hhead := head_sliceChars hl.start hl.proper hl.within
  rw [hk, Int.toNat_natCast, hline, ← hk] at hhead
  have hm := List.mem_of_mem_head? hhead
  have hspells := hl.spells
  generalize Text.sliceChars a.toList t.index t.stop = text at *
  cases hkind : t.kind with
  | symbol =>
    rw [hkind] at hspells
    obtain ⟨c, _, rfl⟩ := hspells
    obtain rfl := List.mem_singleton.mp hm
    rw [Kind.valueOf, if_neg (by simp [hkind])] at hvalue
    have htext : t.value = "\n" := hvalue
    simp [isNewline, isSymbol, Token.is, hkind, htext] at hn
  | operator =>
    rw [hkind] at hspells
    obtain ⟨c, ⟨hc, rfl⟩ | ⟨hc, rfl⟩⟩ := hspells
    · rw [← List.mem_singleton.mp hm] at hc
      exact absurd hc (by decide)
    · rcases List.mem_pair.mp hm with rfl | hm
      · exact absurd hc (by decide)
      · cases hm
  | integer => exact hspells.newline_notMem (.inl hkind) hm
  | float => exact hspells.newline_notMem (.inr hkind) hm
  | word =>
    rw [hkind] at hspells
    exact absurd (hspells.2.2 _ hm) (by decide)
  | group | call | other =>
    rw [hkind] at hspells
    exact hspells

/-- The text of tokens that follow each other is read to them. -/
theorem scan_between {s : Token} {X Y Y' : List Token} (h : scan a = A ++ (X ++ B))
    (hX : X = t :: Y) (hX' : X = Y' ++ [s]) (hn : t.isNewline = false) :
    Uncommented (Text.slice a t.index s.stop).toList ∧
      (scan (Text.slice a t.index s.stop)).map (shift t.index) = X ∧
      ((Text.slice a t.index s.stop).length : Int) = s.stop - t.index := by
  have ht : t ∈ scan a := by simp [h, hX]
  have hs : s ∈ scan a := by simp [h, hX']
  have hordered := scan_ordered a
  obtain ⟨hstart, hlt, _⟩ := scan_spanned ht
  obtain ⟨_, hlt', hwithin⟩ := scan_spanned hs
  have hle : t.stop ≤ s.stop := by
    obtain ⟨hfront, _⟩ := Ordered.sides (A := A ++ Y') (t := s) (B := B)
      (by simpa [h, hX'] using hordered)
    exact hfront t (by
      have hm : t ∈ Y' ++ [s] := by simp [← hX', hX]
      simpa [or_assoc] using Or.inr (List.mem_append.mp hm))
  obtain ⟨i, hi⟩ : ∃ i : Nat, t.index = i := ⟨t.index.toNat, by omega⟩
  obtain ⟨j, hj⟩ : ∃ j : Nat, s.stop = j := ⟨s.stop.toNat, by omega⟩
  -- the text up to its end, cut where it starts
  have hslice : Text.slice a t.index s.stop = String.ofList ((a.toList.take j).drop i) := by
    rw [Text.slice, sliceChars_eq hstart (by omega) (by rwa [String.length_toList]), hi, hj,
      Int.toNat_natCast, Int.toNat_natCast, List.drop_take]
  have hlength : (String.ofList (a.toList.take i)).length = i := length_ofList_take (by omega)
  have hsplit : String.ofList (a.toList.take i) ++ Text.slice a t.index s.stop =
      String.ofList (a.toList.take j) := by
    rw [hslice, ← String.ofList_append]
    congr 1
    have htake : a.toList.take i = (a.toList.take j).take i := by
      rw [List.take_take, Nat.min_eq_left (by omega)]
    rw [htake, List.take_append_drop]
  obtain ⟨hwhole, _⟩ := scan_behind (a := a) (A := A ++ Y') (t := s) (B := B)
    (by simp [h, hX']) hj
  have hbefore : ∀ x ∈ A, x.stop ≤ i := by
    intro x hx
    have hpair := (List.pairwise_append.mp (h ▸ hordered).pairwise).2.2 x hx t (by simp [hX])
    exact hi ▸ hpair
  have hafter : ∀ x ∈ X, (i : Int) ≤ x.index := by
    intro x hx
    rw [hX] at hx
    rcases List.mem_cons.mp hx with rfl | hx
    · omega
    · have hback := (Ordered.sides (A := A) (t := t) (B := Y ++ B)
        (by simpa [h, hX] using hordered)).2 x (by simp [hx])
      omega
  have huncommented := uncommented_behind ht hi (newline_not_first ht hn hi)
  rw [← String.toList_ofList (l := a.toList.take i)] at huncommented
  obtain ⟨_, hX''⟩ := scan_halves (A := A) (B := X) huncommented
    (by rw [hsplit, hwhole, hX']; simp) (by rwa [hlength]) (by rwa [hlength])
  rw [hlength, ← hi] at hX''
  refine ⟨?_, hX''.symm, ?_⟩
  · have hprefix := uncommented_before (k := j) hs hj
    rw [hslice, String.toList_ofList]
    rw [← List.take_append_drop i (a.toList.take j)] at hprefix
    exact hprefix.of_append
  · rw [hslice, String.length_ofList, List.length_drop, List.length_take, String.length_toList]
    omega

end Cuts

end Abacus
