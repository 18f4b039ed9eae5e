import Abacus.Proofs.Rendered.Expansion

/-! The flat tokens of a source in which a compound assignment is written out. They are those of the
first source with the tokens put in, at other places. -/

namespace Abacus

open Token
open Statement (compoundOperators)

variable {source : String} {strict : Bool} {name op : Token} {value N U V : List Token}

/-- No opening bracket is the first token behind a statement. -/
theorem behind_separator (hV : ∀ t ∈ V.head?, t.IsSeparator) (ho : Ordered V) {k : Int}
    (hk : ∀ t ∈ V, k ≤ t.index) : ∀ t ∈ V, k ≤ t.index ∧ (t.Opens → k < t.index) := by
  intro t ht
  refine ⟨hk t ht, fun hopens => ?_⟩
  cases V with
  | nil => cases ht
  | cons v V =>
    rcases List.mem_cons.mp ht with rfl | ht
    · have hlist := (hV t rfl).2
      rcases hopens.value_eq with hv | hv <;> simp [hv] at hlist
    · have hv := hk v List.mem_cons_self
      have hlt := (ho.placed v List.mem_cons_self).index_lt_stop
      have hle : v.stop ≤ t.index := (List.pairwise_cons.mp ho.pairwise).1 t ht
      omega

/-- Ends of lines, signs and operators are flat tokens. -/
theorem flattenAll_flat (hw : ∀ t ∈ N, t.Whole source strict)
    (h : ∀ t ∈ unbroken N, t.kind = .operator ∨ t.kind = .symbol) : flattenAll N = N := by
  induction N with
  | nil => rfl
  | cons t N ih =>
    have hk : t.kind = .operator ∨ t.kind = .symbol := by
      cases hline : t.isNewline with
      | true =>
        simp only [isNewline, isSymbol, Token.is, Bool.and_eq_true, beq_iff_eq] at hline
        exact .inr hline.1
      | false => exact h t (List.mem_filter.mpr ⟨List.mem_cons_self, by simp [hline]⟩)
    have hflat : flatten t = [t] := by
      refine (hw t List.mem_cons_self).flatten_eq ?_ ?_ <;> rcases hk with hk | hk <;> simp [hk]
    have hothers := ih (fun u hu => hw u (List.mem_cons_of_mem t hu)) (fun u hu => h u (by
      obtain ⟨hmem, hkeep⟩ := List.mem_filter.mp hu
      exact List.mem_filter.mpr ⟨List.mem_cons_of_mem t hmem, hkeep⟩))
    rw [flattenAll, hflat, hothers, List.singleton_append]

theorem flattenAll_front {second : Token} (hw : ∀ t ∈ N, t.Whole source strict)
    (hN : unbroken N = [op, second]) (ho : op.kind = .operator)
    (hs : second.kind = .operator ∨ second.kind = .symbol) : flattenAll N = N ∧ second ∈ N := by
  have hsecond : second ∈ unbroken N := by simp [hN]
  refine ⟨flattenAll_flat hw (fun t ht => ?_), List.mem_of_mem_filter hsecond⟩
  rw [hN] at ht
  simp only [List.mem_cons, List.not_mem_nil, or_false] at ht
  rcases ht with rfl | rfl
  · exact .inl ho
  · exact hs

theorem flattenAll_expansion (name op : String) (operand : Int → Token) (i : Int) :
    flattenAll (expansion name op operand i) =
      .leaf .symbol "=" (i + 1) (i + 2) :: .leaf .word name (i + 3) (i + 3 + name.length) ::
        .leaf .operator op (i + 4 + name.length) (i + 5 + name.length) ::
        flatten (operand (i + 6 + name.length)) := by
  have h1 : i + 3 + 1 = i + 4 := by omega
  have h2 : i + 3 + 2 = i + 5 := by omega
  have h3 : i + 3 + 3 = i + 6 := by omega
  simp [expansion, operation, flattenAll, flatten, h1, h2, h3]

/-- The places of tokens that are read from a part. -/
theorem places_of_shift {part : String} {k : Int} {T : List Token}
    (h : (scan part).map (shift k) = T) : ∀ t ∈ T, k ≤ t.index ∧ t.stop ≤ k + part.length := by
  rintro t ht
  rw [← h] at ht
  obtain ⟨s, hs, rfl⟩ := List.mem_map.mp ht
  obtain ⟨hstart, hlt, hwithin⟩ := scan_spanned hs
  rw [index_shift, stop_shift]
  omega

theorem shift_places {part : String} {k d e : Int} {T : List Token}
    (h : (scan part).map (shift k) = T) (he : k + d = e) :
    T.map (shift d) = (scan part).map (shift e) := by
  rw [← h, shift_scan, he]

section Lists

variable {b : String} {z : Zones} {operand : Int → Token} {M : List Token}

/-- What stands behind the statement is moved on. -/
theorem rest_pieces (h : scan source = U ++ V) (hV : ∀ t ∈ V.head?, t.IsSeparator)
    (hstop : ∀ t ∈ V, z.stop ≤ t.index) (hfar : z.far = source.length + 1)
    (hb : ∀ t ∈ V, t.shift z.behind ∈ scan b) :
    List.Forall₂ (Rendering.relocated source b strict z).Piece V (V.map (shift z.behind)) := by
  refine Rendering.relocated_behind (fun t ht => ⟨by simp [h, ht], hb t ht⟩)
    (behind_separator hV ((scan_ordered source).sublist ?_) hstop) (by omega)
  rw [h]
  exact List.sublist_append_right U V

/-- The tokens of both sources correspond if those from what is combined with the name on do. -/
theorem relocated_list (h : scan source = U ++ name :: (flattenAll value ++ V))
    (hm : name.isName = true) (hfront : z.front = name.stop) (hfar : z.far = source.length + 1)
    (hwidth : z.width = name.value.length)
    (hb : scan b = U ++ name :: (.leaf .symbol "=" (name.stop + 1) (name.stop + 2) ::
      .leaf .word name.value (name.stop + 3) (name.stop + 3 + name.value.length) ::
      .leaf .operator op.value (name.stop + 4 + name.value.length)
        (name.stop + 5 + name.value.length) :: M))
    (hM : List.Forall₂ (Rendering.relocated source b strict z).Piece
      (flatten (operand (source.length + 7 + name.value.length)) ++ V) M) :
    List.Forall₂ (Rendering.relocated source b strict z).Piece
      (U ++ name :: (flattenAll (expansion name.value op.value operand (source.length + 1)) ++ V))
      (scan b) := by
  obtain ⟨hbefore, _⟩ := Ordered.sides (h ▸ scan_ordered source)
  have hkept : List.Forall₂ (Rendering.relocated source b strict z).Piece (U ++ [name])
      (U ++ [name]) := by
    refine Rendering.relocated_front (fun t ht => ⟨?_, ?_⟩) (fun t ht => hfront ▸ hbefore t ht)
    · rw [h]
      simpa [or_assoc] using Or.inl (List.mem_append.mp ht)
    · rw [hb]
      simpa [or_assoc] using Or.inl (List.mem_append.mp ht)
  have hname : name ∈ scan source := by simp [h]
  have hword : (Rendering.relocated source b strict z).Piece _ _ :=
    Rendering.relocated_name hwidth (append_of_isName hname hm)
  rw [hfar, hfront] at hword
  have hplace : (source.length : Int) + 1 + 6 = source.length + 7 := by omega
  have hpieces := List.forall₂_same.mp hkept
  rw [hb, flattenAll_expansion, hplace]
  refine List.rel_append (List.forall₂_same.mpr (fun t ht => hpieces t (by simp [ht]))) ?_
  refine .cons (hpieces name (by simp)) (.cons (Rendering.relocated_plain (by simp) ?_) ?_)
  · simp [Opens, closing?, Token.kind, Token.value]
  refine .cons hword (.cons (Rendering.relocated_plain (by simp) ?_) hM)
  simp [Opens, Token.kind]

/-- The bracket that is put in around the value. -/
theorem bracket_pieces {s i' s' : Int}
    (hmem : ∀ t ∈ flattenAll value, t ∈ scan source ∧ t.shift z.near ∈ scan b)
    (hplaces : ∀ t ∈ flattenAll value, z.start ≤ t.index ∧ t.stop ≤ z.stop)
    (hfar : z.far = source.length + 1)
    (ho : Token.leaf .symbol "(" (z.front + 6 + z.width) s ∈ scan b)
    (hV : List.Forall₂ (Rendering.relocated source b strict z).Piece V M) :
    List.Forall₂ (Rendering.relocated source b strict z).Piece
      (flatten (bracketed source value (source.length + 7 + z.width)) ++ V)
      (.leaf .symbol "(" (z.front + 6 + z.width) s ::
        ((flattenAll value).map (shift z.near) ++ .leaf .symbol ")" i' s' :: M)) := by
  rw [bracketed, flatten, List.cons_append, List.append_assoc]
  refine .cons (Rendering.relocated_bracket (by omega) rfl (by omega) ho)
    (List.rel_append (Rendering.relocated_value hmem hplaces)
      (.cons (Rendering.relocated_plain (by simp) ?_) hV))
  simp [Opens, closing?, Token.kind, Token.value]

end Lists

section Assign

/-- The value starts behind the sign. -/
theorem start_of_value {d : Int} (hg : ∀ t ∈ value, Grouped source strict t)
    (h : ∀ x ∈ flattenAll value, d ≤ x.index) : d ≤ (value.head?.map Token.index).getD d := by
  cases value with
  | nil => exact Int.le_refl d
  | cons v value =>
    obtain ⟨x, _, hx, _, hindex, _⟩ := (hg v List.mem_cons_self).ends
    obtain ⟨Y, hY⟩ := List.head?_eq_some_iff.mp hx
    have hle := h x (by simp [flattenAll, hY])
    simpa [hindex] using hle

variable {equals : Token} (h : scan source = U ++ name :: (flattenAll (N ++ value) ++ V))
  (hw : ∀ t ∈ name :: (N ++ value), t.Whole source strict) (ho : op.kind = .operator)
  (he : equals.isSymbol "=" = true) (hN : unbroken N = [op, equals])

include h hw ho he hN

/-- The sign is a flat token in front of the value. -/
theorem assign_parts : equals ∈ N ∧ scan source = (U ++ name :: N) ++ (flattenAll value ++ V) := by
  have hsymbol : equals.kind = .symbol := by
    simp only [isSymbol, Token.is, Bool.and_eq_true, beq_iff_eq] at he
    exact he.1
  obtain ⟨hflat, hsign⟩ := flattenAll_front (fun t ht => hw t (by simp [ht])) hN ho (.inr hsymbol)
  exact ⟨hsign, by simp [h, flattenAll_append, hflat]⟩

/-- The value starts behind the name. -/
theorem assign_start : name.stop < (value.head?.map Token.index).getD equals.stop := by
  obtain ⟨hsign, hparts⟩ := assign_parts h hw ho he hN
  have hordered := scan_ordered source
  obtain ⟨N₁, N₂, hsplit⟩ := List.append_of_mem hsign
  obtain ⟨_, hnext⟩ := Ordered.sides (A := U) (t := name)
    (B := N ++ (flattenAll value ++ V)) (by simpa [hparts] using hordered)
  obtain ⟨_, hafter⟩ := Ordered.sides (A := U ++ name :: N₁) (t := equals)
    (B := N₂ ++ (flattenAll value ++ V)) (by simpa [hparts, hsplit] using hordered)
  have hname := hnext equals (by simp [hsign])
  have hlt := (hordered.placed equals (by simp [hparts, hsign])).index_lt_stop
  have hgrouped : ∀ t ∈ value, Grouped source strict t := fun t ht =>
    (hw t (by simp [ht])).grouped
  have hstart := start_of_value hgrouped (fun x hx => hafter x (by simp [hx]))
  omega

/-- What is rewritten ends where the value does, inside the source. -/
theorem assign_stop (hlast : ∀ t ∈ (N ++ value).getLast?, t.isNewline = false) :
    stopOf (N ++ value) name.stop = stopOf value equals.stop ∧
      stopOf value equals.stop ≤ source.length := by
  obtain ⟨hsign, _⟩ := assign_parts h hw ho he hN
  have hend : stopOf (N ++ value) name.stop = stopOf value equals.stop := by
    cases value with
    | nil =>
      rw [List.append_nil] at hlast ⊢
      rw [← stopOf_unbroken hlast, hN]
      rfl
    | cons v value => simp [stopOf, List.getLast?_append, List.getLast?_cons]
  have hne : N ++ value ≠ [] := List.append_ne_nil_of_left_ne_nil (List.ne_nil_of_mem hsign) _
  obtain ⟨_, s, hold, hstop⟩ := flattenAll_last
    (fun t ht => (hw t (List.mem_cons_of_mem _ ht)).grouped) hne name.stop
  have hsource : s ∈ scan source := by simp [h, hold]
  have hwithin := (scan_spanned hsource).2.2
  rw [hstop, hend] at hwithin
  exact ⟨hend, hwithin⟩

/-- The value and what stands behind the statement are moved, with a bracket around the value. -/
theorem assign_scan (hm : name.isName = true) (hv : op.value ∈ compoundOperators)
    (hfirst : ∀ t ∈ value.head?, t.isNewline = false)
    (hlast : ∀ t ∈ (N ++ value).getLast?, t.isNewline = false) {start stop : Int}
    (hstart : (value.head?.map Token.index).getD equals.stop = start)
    (hstop : stopOf value equals.stop = stop) :
    start ≤ stop ∧ (∀ t ∈ flattenAll value, start ≤ t.index ∧ t.stop ≤ stop) ∧
      (∀ t ∈ V, stop ≤ t.index) ∧
      scan (written source name op (N ++ value) ("(" ++ sourceOf source value ++ ")")) =
        U ++ name :: (.leaf .symbol "=" (name.stop + 1) (name.stop + 2) ::
          .leaf .word name.value (name.stop + 3) (name.stop + 3 + name.value.length) ::
          .leaf .operator op.value (name.stop + 4 + name.value.length)
            (name.stop + 5 + name.value.length) ::
          .leaf .symbol "(" (name.stop + 6 + name.value.length)
            (name.stop + 7 + name.value.length) ::
          ((flattenAll value).map (shift (name.stop + 7 + name.value.length - start)) ++
            .leaf .symbol ")" (name.stop + 7 + name.value.length + (stop - start))
              (name.stop + 8 + name.value.length + (stop - start)) ::
            V.map (shift (name.stop + 8 + name.value.length - start)))) := by
  obtain ⟨hsign, hparts⟩ := assign_parts h hw ho he hN
  have hg : ∀ t ∈ N ++ value, Grouped source strict t := fun t ht =>
    (hw t (List.mem_cons_of_mem _ ht)).grouped
  have hne : N ++ value ≠ [] := List.append_ne_nil_of_left_ne_nil (List.ne_nil_of_mem hsign) _
  obtain ⟨hend, _⟩ := assign_stop h hw ho he hN hlast
  obtain ⟨hbehind, hwritten⟩ :=
    scan_written h hm hv hne hg ("(" ++ sourceOf source value ++ ")")
  obtain ⟨hquiet, hvalue, hlength⟩ := scan_sourceOf hparts hfirst
    (fun t ht => hg t (by simp [ht])) equals.stop
  rw [hend] at hbehind hwritten
  rw [hstop] at hbehind hwritten hlength
  rw [hstart] at hvalue hlength
  have hplaces := places_of_shift hvalue
  refine ⟨by omega, fun t ht => ⟨(hplaces t ht).1, ?_⟩,
    fun t ht => (places_of_shift hbehind t ht).1, ?_⟩
  · have hle := (hplaces t ht).2
    omega
  · have hmoved : (flattenAll value).map (shift (name.stop + 7 + name.value.length - start)) =
        (scan (sourceOf source value)).map (shift (1 + (name.stop + 6 + name.value.length))) :=
      shift_places hvalue (by omega)
    have hmoved' : V.map (shift (name.stop + 8 + name.value.length - start)) =
        (scan (Text.slice source stop source.length)).map
          (shift ((sourceOf source value).length + 2 + (name.stop + 6 + name.value.length))) :=
      shift_places hbehind (by omega)
    rw [hwritten, scan_parenthesized hquiet, List.map_cons, List.map_append, List.map_cons,
      shift_scan, shift_scan, hmoved, hmoved', shift, shift]
    have hopening : (1 : Int) + (name.stop + 6 + name.value.length) =
        name.stop + 7 + name.value.length := by omega
    have hclosing : ((sourceOf source value).length : Int) + 1 +
        (name.stop + 6 + name.value.length) =
          name.stop + 7 + name.value.length + (stop - start) := by omega
    have hclosed : ((sourceOf source value).length : Int) + 2 +
        (name.stop + 6 + name.value.length) =
          name.stop + 8 + name.value.length + (stop - start) := by omega
    rw [Int.zero_add, hopening, hclosing, hclosed]

theorem assign_pieces (hm : name.isName = true) (hv : op.value ∈ compoundOperators)
    (hfirst : ∀ t ∈ value.head?, t.isNewline = false)
    (hlast : ∀ t ∈ (N ++ value).getLast?, t.isNewline = false)
    (hV : ∀ t ∈ V.head?, t.IsSeparator) {b : String}
    (hb : b = written source name op (N ++ value) ("(" ++ sourceOf source value ++ ")")) : ∃ z,
    List.Forall₂ (Rendering.relocated source b strict z).Piece
      (U ++ name :: (flattenAll (expansion name.value op.value (bracketed source value)
        (source.length + 1)) ++ V)) (scan b) := by
  obtain ⟨_, hparts⟩ := assign_parts h hw ho he hN
  have hlt := assign_start h hw ho he hN
  have hwithin := (assign_stop h hw ho he hN hlast).2
  obtain ⟨hle, hplaces, hrest, hwritten⟩ := assign_scan h hw ho he hN hm hv hfirst hlast rfl rfl
  rw [← hb] at hwritten
  generalize (value.head?.map Token.index).getD equals.stop = start at *
  generalize stopOf value equals.stop = stop at *
  let z : Zones := ⟨name.stop, start, stop, source.length + 1, name.value.length,
    name.stop + 7 + name.value.length - start, name.stop + 8 + name.value.length - start,
    by omega, by omega, by omega, by omega, by omega, by omega, by omega⟩
  have hmem : ∀ t ∈ flattenAll value, t ∈ scan source ∧ t.shift z.near ∈ scan b := by
    intro t ht
    rw [hwritten]
    simp only [hparts, List.mem_append, List.mem_cons, List.mem_map]
    exact ⟨.inr (.inl ht), .inr (.inr (.inr (.inr (.inr (.inr (.inl ⟨t, ht, rfl⟩))))))⟩
  have hopening : Token.leaf .symbol "(" (z.front + 6 + z.width) (z.front + 7 + z.width) ∈
      scan b := by
    rw [hwritten]
    simp [z]
  have hV' : List.Forall₂ (Rendering.relocated source b strict z).Piece V
      (V.map (shift z.behind)) := by
    refine rest_pieces (hparts.trans (List.append_assoc _ _ _).symm) hV hrest rfl (fun t ht => ?_)
    rw [hwritten]
    simp only [List.mem_append, List.mem_cons, List.mem_map]
    exact .inr (.inr (.inr (.inr (.inr (.inr (.inr (.inr ⟨t, ht, rfl⟩)))))))
  exact ⟨z, relocated_list h hm rfl rfl rfl hwritten
    (bracket_pieces hmem hplaces rfl hopening hV')⟩

end Assign

section Step

variable {second : Token}

theorem step_pieces (h : scan source = U ++ name :: (flattenAll N ++ V))
    (hm : name.isName = true) (hw : ∀ t ∈ name :: N, t.Whole source strict)
    (ho : op.kind = .operator) (hv : op.value ∈ compoundOperators)
    (hs : second.kind = .operator) (hN : unbroken N = [op, second])
    (hlast : ∀ t ∈ N.getLast?, t.isNewline = false) (hV : ∀ t ∈ V.head?, t.IsSeparator) {b : String}
    (hb : b = written source name op N "1") : ∃ z,
    List.Forall₂ (Rendering.relocated source b strict z).Piece
      (U ++ name :: (flattenAll (expansion name.value op.value
        (fun i => .leaf .integer "1" i (i + 1)) (source.length + 1)) ++ V)) (scan b) := by
  have hg : ∀ t ∈ N, Grouped source strict t := fun t ht =>
    (hw t (List.mem_cons_of_mem _ ht)).grouped
  obtain ⟨hflat, hsecond⟩ := flattenAll_front (fun t ht => hw t (by simp [ht])) hN ho (.inl hs)
  obtain ⟨hbehind, hwritten⟩ := scan_written h hm hv (List.ne_nil_of_mem hsecond) hg "1"
  have hend : stopOf N name.stop = second.stop := by
    rw [← stopOf_unbroken hlast, hN]
    rfl
  rw [hend] at hbehind hwritten
  rw [← hb] at hwritten
  have hparts : scan source = (U ++ name :: N) ++ V := by simp [h, hflat]
  have hordered := scan_ordered source
  obtain ⟨_, hnext⟩ := Ordered.sides (A := U) (t := name) (B := N ++ V)
    (by simpa [hparts] using hordered)
  have hname := hnext second (by simp [hsecond])
  have hmem : second ∈ scan source := by simp [hparts, hsecond]
  obtain ⟨_, hlt, hwithin⟩ := scan_spanned hmem
  have hrest := places_of_shift hbehind
  generalize Text.slice source second.stop source.length = q at *
  have hread := scan_digit (q := q) (fun s hsq => by
    have hm := hV (s.shift second.stop) (by rw [← hbehind, List.head?_map, hsq]; rfl)
    simpa [IsSeparator] using hm)
  let z : Zones := ⟨name.stop, second.stop, second.stop, source.length + 1, name.value.length,
    name.stop + 7 + name.value.length - second.stop,
    name.stop + 7 + name.value.length - second.stop,
    by omega, by omega, by omega, by omega, by omega, by omega, by omega⟩
  have hmoved : V.map (shift z.behind) =
      (scan q).map (shift (1 + (name.stop + 6 + name.value.length))) :=
    shift_places hbehind (by simp only [z]; omega)
  rw [hread, List.map_cons, shift_scan, ← hmoved, shift] at hwritten
  have hV' : List.Forall₂ (Rendering.relocated source b strict z).Piece V
      (V.map (shift z.behind)) := by
    refine rest_pieces hparts hV (fun t ht => (hrest t ht).1) rfl (fun t ht => ?_)
    rw [hwritten]
    simp only [List.mem_append, List.mem_cons, List.mem_map]
    exact .inr (.inr (.inr (.inr (.inr (.inr ⟨t, ht, rfl⟩)))))
  refine ⟨z, relocated_list h hm rfl rfl rfl hwritten ?_⟩
  rw [flatten]
  exact .cons (Rendering.relocated_plain (by simp) (by simp [Opens, Token.kind])) hV'

end Step

/-- The flat tokens of a forest in which a compound assignment is exchanged correspond to those of the
source in which it is written out. -/
theorem Token.Scattered.pieces {text : String} {operand : Int → Token} {old Z : List Token}
    (hc : Scattered source op old Z operand text) (hm : name.isName = true)
    (hw : ∀ t ∈ name :: Z, t.Whole source strict)
    (h : scan source = U ++ name :: (flattenAll Z ++ V)) (hV : ∀ t ∈ V.head?, t.IsSeparator) :
    ∃ z, List.Forall₂ (Rendering.relocated source (written source name op old text) strict z).Piece
      (U ++ name :: (flattenAll (expansion name.value op.value operand (source.length + 1)) ++ V))
      (scan (written source name op old text)) := by
  have hwritten : written source name op old text = written source name op Z text := by
    rw [written, hc.stopOf_eq, written]
  have hops := hc.operator.2
  cases hc with
  | assign ho _ he hN _ _ hfirst hlast =>
    exact assign_pieces h hw ho he hN hm hops hfirst hlast hV hwritten
  | step ho _ hs hN hlast =>
    simp only [Token.is, Bool.and_eq_true, beq_iff_eq] at hs
    exact step_pieces h hm hw ho hops hs.1 hN hlast hV hwritten

end Abacus
