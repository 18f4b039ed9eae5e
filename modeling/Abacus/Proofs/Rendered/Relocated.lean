import Abacus.Proofs.Rendered.Expression
import Abacus.Proofs.Rendered.Parts
import Abacus.Proofs.Rendered.Regrouped
import Abacus.Proofs.Strict.Rewriting

/-! The places of tokens when a part of a source is put elsewhere and text is put in. What is in front
stays, what is put in comes next, the part that is kept follows it, and the rest is moved on. In the
first source what is put in has places behind the end. -/

namespace Abacus

open Token

/-- The places of what is kept, from `start` to `stop`, and how far it and the rest are moved. -/
structure Token.Zones where
  front : Int
  start : Int
  stop : Int
  far : Int
  width : Int
  near : Int
  behind : Int
  front_lt_start : front < start
  start_le_stop : start ≤ stop
  stop_lt_far : stop < far
  width_nonneg : 0 ≤ width
  near_beyond : front + 7 + width ≤ start + near
  near_le_behind : near ≤ behind
  behind_beyond : front + 7 + width ≤ stop + behind

namespace Token.Zones

/-- Where words stop. -/
inductive Ends (z : Zones) : Int → Int → Prop where
  | front {s : Int} (h : s ≤ z.front) : Ends z s s
  | value {s : Int} (h : z.start < s) (h' : s ≤ z.stop) : Ends z s (s + z.near)
  | behind {s : Int} (h : z.stop < s) (h' : s < z.far) : Ends z s (s + z.behind)
  | added {s : Int} (h : z.far < s) (h' : s ≤ z.far + 3 + z.width) :
      Ends z s (s + (z.front - z.far))

/-- Where brackets open. The first one behind what is kept is not next to it. -/
inductive Begins (z : Zones) : Int → Int → Prop where
  | front {i : Int} (h : i < z.front) : Begins z i i
  | value {i : Int} (h : z.start ≤ i) (h' : i < z.stop) : Begins z i (i + z.near)
  | behind {i : Int} (h : z.stop < i) (h' : i < z.far) : Begins z i (i + z.behind)
  | added : Begins z (z.far + 6 + z.width) (z.front + 6 + z.width)

theorem touch (z : Zones) {s s' i i' : Int} (hs : z.Ends s s') (hi : z.Begins i i') :
    s = i ↔ s' = i' := by
  obtain ⟨front, start, stop, far, width, near, behind, h1, h2, h3, h4, h5, h6, h7⟩ := z
  cases hs <;> cases hi <;> simp only at * <;> omega

end Token.Zones

namespace Rendering

/-- A source beside another one in which tokens stand in other places. -/
def relocated (source source' : String) (strict : Bool) (z : Zones) : Rendering where
  source := source
  source' := source'
  strict := strict
  ends := z.Ends
  begins := z.Begins
  recast _ _ := False
  touch hs hi := z.touch hs hi

variable {source source' : String} {strict : Bool} {z : Zones} {t : Token} {d : Int}

theorem relocated_reads : (relocated source source' strict z).Reads := by
  rintro C C' (hC | hC)
  · exact hC.sameReading (fun _ hR => hR.elim)
  · exact hC.elim

/-- A token of both sources. -/
theorem relocated_piece (ht : t ∈ scan source) (ht' : t.shift d ∈ scan source')
    (hends : ∀ j, t.index < j → j ≤ t.stop → z.Ends j (j + d))
    (hbegins : t.Opens → z.Begins t.index (t.index + d)) :
    (relocated source source' strict z).Piece t (t.shift d) := by
  refine ⟨?_, fun ho => ⟨?_, fun stop stop' => ⟨slice_of_opens ht ho stop, ?_⟩⟩,
    fun hn text => append_of_isName ht hn text⟩
  · have hl := scan_lexed source ht
    have hproper := hl.proper
    by_cases hk : t.kind = .word
    · obtain ⟨cs, _, hword⟩ := word_of_scan ht hk
      rw [hword]
      refine .intro (fun _ => ⟨?_, fun j hj hle => ?_⟩)
      · have hstop : t.stop = t.index + cs.length := by rw [hword]; rfl
        exact hends _ (by omega) (by omega)
      · have hstop : t.stop = t.index + cs.length := by rw [hword]; rfl
        rw [String.length_ofList] at hle
        have hmoved := hends (t.index + j) (by omega) (by omega)
        rwa [Int.add_right_comm] at hmoved
    · cases t with
      | leaf => exact .of_kind hk _ _ _ _ _
      | group => exact (scan_isLeaf source _ ht).elim
      | call => exact (scan_isLeaf source _ ht).elim
  · rw [index_shift]
    exact hbegins ho
  · exact slice_of_opens ht' ((opens_shift d t).mpr ho) stop'

section Kept

variable {T : List Token}

theorem forall₂_shift {S : Token → Token → Prop} (h : ∀ t ∈ T, S t (t.shift d)) :
    List.Forall₂ S T (T.map (shift d)) :=
  List.forall₂_map_right_iff.mpr (List.forall₂_same.mpr h)

/-- What is in front stays. -/
theorem relocated_front (hT : ∀ t ∈ T, t ∈ scan source ∧ t ∈ scan source')
    (h : ∀ t ∈ T, t.stop ≤ z.front) :
    List.Forall₂ (relocated source source' strict z).Piece T T := by
  refine List.forall₂_same.mpr (fun t ht => ?_)
  have hlt := (scan_lexed source (hT t ht).1).proper
  have hstop := h t ht
  have hpiece : (relocated source source' strict z).Piece t (t.shift 0) := relocated_piece (hT t ht).1
    (by rw [shift_zero]; exact (hT t ht).2)
    (fun j _ hj => by rw [Int.add_zero]; exact .front (by omega))
    (fun _ => by rw [Int.add_zero]; exact .front (by omega))
  rwa [shift_zero] at hpiece

/-- What is kept follows what is put in. -/
theorem relocated_value (hT : ∀ t ∈ T, t ∈ scan source ∧ t.shift z.near ∈ scan source')
    (h : ∀ t ∈ T, z.start ≤ t.index ∧ t.stop ≤ z.stop) :
    List.Forall₂ (relocated source source' strict z).Piece T (T.map (shift z.near)) := by
  refine forall₂_shift (fun t ht => ?_)
  have hlt := (scan_lexed source (hT t ht).1).proper
  obtain ⟨hstart, hstop⟩ := h t ht
  exact relocated_piece (hT t ht).1 (hT t ht).2 (fun j hj hle => .value (by omega) (by omega))
    (fun _ => .value hstart (by omega))

/-- The rest is moved on. -/
theorem relocated_behind (hT : ∀ t ∈ T, t ∈ scan source ∧ t.shift z.behind ∈ scan source')
    (h : ∀ t ∈ T, z.stop ≤ t.index ∧ (t.Opens → z.stop < t.index))
    (hfar : source.length < z.far) :
    List.Forall₂ (relocated source source' strict z).Piece T (T.map (shift z.behind)) := by
  refine forall₂_shift (fun t ht => ?_)
  have hl := scan_lexed source (hT t ht).1
  have hlt := hl.proper
  have hwithin := hl.within
  rw [String.length_toList] at hwithin
  obtain ⟨hstop, hopens⟩ := h t ht
  exact relocated_piece (hT t ht).1 (hT t ht).2 (fun j hj hle => .behind (by omega) (by omega))
    (fun ho => .behind (hopens ho) (by omega))

end Kept

/-- What is neither a word nor an opening bracket may stand anywhere. -/
theorem relocated_plain {kind : Kind} {value : String} {i i' s s' : Int} (hk : kind ≠ .word)
    (ho : ¬ (Token.leaf kind value i s).Opens) :
    (relocated source source' strict z).Piece (.leaf kind value i s) (.leaf kind value i' s') :=
  ⟨.of_kind hk _ _ _ _ _, fun hh => absurd hh ho,
    fun hn => absurd (kind_of_isName hn) hk⟩

/-- The name that is put in. -/
theorem relocated_name {value : String} (hw : z.width = value.length)
    (hv : ∀ text, value ++ text ≠ ",") :
    (relocated source source' strict z).Piece
      (.leaf .word value (z.far + 3) (z.far + 3 + value.length))
      (.leaf .word value (z.front + 3) (z.front + 3 + value.length)) := by
  have hends : ∀ j : Int, z.far < j → j ≤ z.far + 3 + value.length →
      z.Ends j (j + (z.front - z.far)) := fun j hj hle => .added hj (hw ▸ hle)
  have hback : ∀ k : Int, z.far + 3 + k + (z.front - z.far) = z.front + 3 + k :=
    fun k => by omega
  refine ⟨.intro (fun _ => ⟨?_, fun j hj hle => ?_⟩), fun ho => ?_, fun _ => hv⟩
  · have hstop := hends (z.far + 3 + value.length) (by omega) (Int.le_refl _)
    rwa [hback] at hstop
  · have hletter := hends (z.far + 3 + j) (by omega) (by omega)
    rwa [hback] at hletter
  · cases ho.1

/-- A bracket that is put in. In the first source its place is behind the end. -/
theorem relocated_bracket {i s i' s' : Int} (hi : i = z.far + 6 + z.width)
    (hi' : i' = z.front + 6 + z.width) (hfar : source.length ≤ z.far)
    (ht' : Token.leaf .symbol "(" i' s' ∈ scan source') :
    (relocated source source' strict z).Piece (.leaf .symbol "(" i s)
      (.leaf .symbol "(" i' s') := by
  have hnonneg := z.width_nonneg
  have hempty : ∀ stop, Text.slice source i stop = "" := by
    intro stop
    have hpos : Text.position source.toList.length i = source.toList.length := by
      rw [String.length_toList, Text.position, if_neg (by omega)]
      omega
    have hdrop : source.toList.drop source.toList.length = [] := by simp
    rw [Text.slice, Text.sliceChars, hpos, hdrop, List.take_nil]
  refine ⟨.of_kind (by simp) _ _ _ _ _, fun ho => ⟨?_, fun stop stop' => ⟨?_, ?_⟩⟩, fun hn => ?_⟩
  · subst hi hi'
    exact .added
  · exact fun hh => absurd ((hempty stop).symm.trans hh) (by decide)
  · exact slice_of_opens ht' ho stop'
  · cases kind_of_isName hn

end Rendering

end Abacus
