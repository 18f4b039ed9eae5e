import Abacus.Fault
import Mathlib

/-! The window that shows where an error is. The line, the column and the marked part come from the
text in front of the error, from the text behind it and from the lines of the whole text, which agree
because splitting a text at one place splits only the line at that place. -/

namespace Abacus

namespace Text

/-- The parts of a text between its newlines. -/
structure AreLines (source : List Char) (lines : List (List Char)) : Prop where
  joined : ['\n'].intercalate lines = source
  whole : ∀ line ∈ lines, '\n' ∉ line
  nonempty : lines ≠ []

variable {u v line first last : List Char} {front rest : List (List Char)} {c : Char}

theorem linesOf_newline (cs : List Char) : linesOf ('\n' :: cs) = [] :: linesOf cs :=
  if_pos rfl

theorem linesOf_ne_nil (cs : List Char) : linesOf cs ≠ [] := by
  cases cs with
  | nil => simp [linesOf]
  | cons c cs =>
    rw [linesOf]
    split
    · simp
    · split <;> simp

theorem linesOf_cons (hc : c ≠ '\n') (h : linesOf v = first :: rest) :
    linesOf (c :: v) = (c :: first) :: rest := by
  rw [linesOf, if_neg hc, h]

theorem areLines_linesOf (cs : List Char) : AreLines cs (linesOf cs) := by
  induction cs with
  | nil => exact ⟨rfl, by simp [linesOf], by simp [linesOf]⟩
  | cons c cs ih =>
    obtain ⟨first, rest, hsplit⟩ := List.exists_cons_of_ne_nil ih.nonempty
    have hjoined := ih.joined
    have hwhole := ih.whole
    rw [hsplit] at hjoined hwhole
    by_cases hc : c = '\n'
    · subst hc
      rw [linesOf_newline, hsplit]
      refine ⟨?_, by simpa using hwhole, by simp⟩
      rw [List.intercalate_cons_cons, hjoined]
      rfl
    · rw [linesOf_cons hc hsplit]
      refine ⟨?_, ?_, by simp⟩
      · cases rest with
        | nil => simpa using hjoined
        | cons second rest =>
          rw [List.intercalate_cons_cons] at hjoined ⊢
          simp [← hjoined]
      · simp only [List.mem_cons, forall_eq_or_imp] at hwhole ⊢
        exact ⟨by simp [Ne.symm hc, hwhole.1], hwhole.2⟩

/-- Only the line at the place where two texts meet is split. -/
theorem linesOf_append (hu : linesOf u = front ++ [last]) (hv : linesOf v = first :: rest) :
    linesOf (u ++ v) = front ++ (last ++ first) :: rest := by
  induction u generalizing front last with
  | nil =>
    cases front with
    | nil =>
      rw [linesOf, List.nil_append] at hu
      rw [List.nil_append, hv, ← List.singleton_inj.mp hu]
      rfl
    | cons line front => simp [linesOf] at hu
  | cons c u ih =>
    by_cases hc : c = '\n'
    · subst hc
      rw [linesOf_newline] at hu
      rw [List.cons_append, linesOf_newline]
      cases front with
      | nil => simp [linesOf_ne_nil] at hu
      | cons line front =>
        obtain ⟨hline, hrest⟩ := List.cons_eq_cons.mp hu
        rw [ih hrest, ← hline]
        rfl
    · obtain ⟨line, others, hsplit⟩ := List.exists_cons_of_ne_nil (linesOf_ne_nil u)
      rw [linesOf_cons hc hsplit] at hu
      rw [List.cons_append]
      cases front with
      | nil =>
        obtain ⟨rfl, rfl⟩ := List.cons_eq_cons.mp hu
        have happend := @ih line [] hsplit
        exact linesOf_cons hc happend
      | cons line' front =>
        obtain ⟨rfl, rfl⟩ := List.cons_eq_cons.mp hu
        have happend := @ih last (line :: front) hsplit
        exact linesOf_cons hc happend

/-- The newlines of a text, what stands behind the last of them, and the lines before it. -/
theorem exists_last_line (u : List Char) : ∃ front last, linesOf u = front ++ [last] ∧
    front.length = u.count '\n' ∧ (u.reverse.takeWhile (· ≠ '\n')).length = last.length ∧
    (front.map (·.length + 1)).sum + last.length = u.length := by
  induction u using List.reverseRecOn with
  | nil => exact ⟨[], [], rfl, rfl, rfl, rfl⟩
  | append_singleton u c ih =>
    obtain ⟨front, last, hsplit, hcount, hlast, hsum⟩ := ih
    by_cases hc : c = '\n'
    · subst hc
      refine ⟨front ++ [last], [], ?_, ?_, by simp, ?_⟩
      · have hnewline : linesOf ['\n'] = [] :: [[]] := rfl
        rw [linesOf_append hsplit hnewline]
        simp
      · simp [hcount]
      · simp only [List.map_append, List.sum_append, List.length_append, List.map_cons, List.map_nil,
          List.sum_cons, List.sum_nil, List.length_singleton, List.length_nil]
        omega
    · refine ⟨front, last ++ [c], ?_, ?_, ?_, ?_⟩
      · rw [linesOf_append hsplit (linesOf_cons hc rfl)]
      · simp [hcount, hc]
      · rw [List.reverse_append, List.reverse_singleton, List.singleton_append,
          List.takeWhile_cons_of_pos (by simpa using hc), List.length_cons, hlast,
          List.length_append, List.length_singleton]
      · simp only [List.length_append, List.length_singleton]
        omega

end Text

open Text

/-- The offset `o` lies `start` characters behind the beginning of the line `text`, the one with the
index `l`. -/
structure IsAt (lines : List (List Char)) (o l start : Nat) (text : List Char) : Prop where
  line : lines[l]? = some text
  column : start ≤ text.length
  offset : ((lines.take l).map (·.length + 1)).sum + start = o

/-- The rows are the lines within two of the line `l`, of which only that one has a marked part. -/
structure IsWindow (lines : List (List Char)) (l start stop : Nat) (rows : List ContextRow) :
    Prop where
  size : 1 ≤ rows.length ∧ rows.length ≤ 5
  numbers : rows.map (·.number) = List.range' (l - 2 + 1) rows.length
  rows : ∀ r, r ∈ rows ↔ ∃ k, lines[k]? = some r.text ∧ l ≤ k + 2 ∧ k ≤ l + 2 ∧ r.number = k + 1 ∧
    (r.start, r.stop) = if k = l then (start, stop) else (0, 0)

/-- A row as it is printed behind a mark. -/
def printedRow (mark : String) (width : Nat) (r : ContextRow) : List Char :=
  mark.toList ++ Fault.padded width r.number ++ " | ".toList ++ r.text

/-- The rows are printed one below the other, that of the line `l` behind a mark of its own and with
one caret line directly below it. The carets stand below the marked part, and below its first column
if it is empty. -/
def IsPrinted (rows : List ContextRow) (l start stop : Nat) (message : String)
    (output : List Char) : Prop :=
  ∃ width above r below caret, rows = above ++ r :: below ∧ r.number = l + 1 ∧
    (∀ r' ∈ above ++ below, r'.number ≠ l + 1) ∧
    (∀ r' ∈ rows, (Fault.padded width r'.number).length = width) ∧
    output = ['\n'].intercalate (above.map (printedRow "  " width) ++
      printedRow "> " width r :: caret :: below.map (printedRow "  " width) ++
      ["Error: ".toList ++ message.toList]) ∧
    (∀ i, caret[i]? = some '^' ↔ width + 5 + start ≤ i ∧ i < width + 5 + max stop (start + 1)) ∧
    (printedRow "> " width r).extract (width + 5 + start) (width + 5 + stop) =
      r.text.extract start stop

namespace Fault

variable (f : Fault) (source : List Char)

theorem anchor_eq : (f.anchor source : Int) = max 0 (min f.offset source.length) := by
  unfold anchor
  omega

/-- The line of the anchor, its part in front of the anchor and its part behind it. -/
theorem exists_split : ∃ front before after rest, linesOf source = front ++ (before ++ after) :: rest ∧
    front.length = f.line source ∧ before.length = f.column source ∧
    (front.map (·.length + 1)).sum + before.length = f.anchor source ∧
    after <+: source.drop (f.anchor source) := by
  obtain ⟨front, before, hsplit, hcount, hcolumn, hsum⟩ :=
    exists_last_line (source.take (f.anchor source))
  obtain ⟨after, rest, hrest⟩ :=
    List.exists_cons_of_ne_nil (linesOf_ne_nil (source.drop (f.anchor source)))
  have happend := linesOf_append hsplit hrest
  rw [List.take_append_drop] at happend
  have hanchor : f.anchor source ≤ source.length := Nat.min_le_right _ _
  refine ⟨front, before, after, rest, happend, hcount, hcolumn.symm, ?_, ?_⟩
  · rw [hsum, List.length_take, Nat.min_eq_left hanchor]
  · have hjoined := (areLines_linesOf (source.drop (f.anchor source))).joined
    rw [hrest] at hjoined
    rw [← hjoined]
    cases rest with
    | nil => simp
    | cons line rest => simp [List.intercalate_cons_cons]

theorem row_number (k : Nat) (text : List Char) : (f.row source k text).number = k + 1 := by
  unfold row
  split <;> rfl

/-- Where the marked part of the line `text` ends. -/
def markedEnd (text : List Char) : Nat :=
  min text.length (f.column source + f.length.toNat)

theorem mem_context_iff {r : ContextRow} : r ∈ f.context source ↔
    ∃ k, f.line source ≤ k + 2 ∧ k ≤ f.line source + 2 ∧
      (linesOf source)[k]? = some r.text ∧ r = f.row source k r.text := by
  have htext : ∀ k text, (f.row source k text).text = text := by
    intro k text
    unfold row
    split <;> rfl
  simp only [context, List.mem_map, Prod.exists, List.mk_mem_zipIdx_iff_le_and_getElem?_sub,
    List.getElem?_take, List.getElem?_drop]
  constructor
  · rintro ⟨text, k, ⟨hk, hline⟩, rfl⟩
    rw [htext]
    split at hline
    · next hnear =>
      rw [Nat.add_sub_cancel' hk] at hline
      exact ⟨k, by omega, by omega, hline, rfl⟩
    · cases hline
  · rintro ⟨k, hlow, hhigh, hline, hr⟩
    refine ⟨r.text, k, ⟨by omega, ?_⟩, hr.symm⟩
    rw [if_pos (by omega), Nat.add_sub_cancel' (by omega), hline]

theorem context_numbers : (f.context source).map (·.number) =
    List.range' (f.line source - 2 + 1) (f.context source).length := by
  have hnumbers : ∀ (lines : List (List Char)) first (row : List Char × Nat → ContextRow),
      (∀ p, (row p).number = 1 + p.2) →
      ((lines.zipIdx first).map row).map (·.number) =
        ((lines.zipIdx first).map Prod.snd).map (1 + ·) := by
    intro lines first row hrow
    rw [List.map_map, List.map_map]
    exact List.map_congr_left fun p _ => hrow p
  rw [context, hnumbers _ _ _ (fun p => (f.row_number source p.2 p.1).trans (Nat.add_comm _ _)),
    List.zipIdx_map_snd, List.map_add_range', List.length_map, List.length_zipIdx, Nat.add_comm]

theorem number_le_last {first n : Nat} {rows : List ContextRow} {r : ContextRow}
    (hrows : rows.map (·.number) = List.range' first n) (hr : r ∈ rows) :
    ∃ last, rows.getLast? = some last ∧ r.number ≤ last.number := by
  have hmem : r.number ∈ List.range' first n := hrows ▸ List.mem_map_of_mem hr
  have hlast := List.getLast?_map (f := ContextRow.number) (l := rows)
  rw [hrows, List.getLast?_range'] at hlast
  rw [List.mem_range'_1] at hmem
  rw [if_neg (by omega)] at hlast
  cases hrow : rows.getLast? with
  | none => simp [hrow] at hlast
  | some last =>
    rw [hrow, Option.map_some, Option.some.injEq] at hlast
    exact ⟨last, rfl, by omega⟩

theorem padded_length {width n : Nat} (h : (Nat.toDigits 10 n).length ≤ width) :
    (padded width n).length = width := by
  simp only [padded, List.length_append, List.length_replicate]
  omega

theorem digits_le {m n : Nat} (h : m ≤ n) :
    (Nat.toDigits 10 m).length ≤ (Nat.toDigits 10 n).length := by
  have hpos : 0 < (Nat.toDigits 10 n).length := Nat.length_toDigits_pos
  have hlt := (Nat.length_toDigits_le_iff (b := 10) (by decide) hpos).mp (Nat.le_refl _)
  exact (Nat.length_toDigits_le_iff (by decide) hpos).mpr (Nat.lt_of_le_of_lt h hlt)

/-- The number of the last row is the widest one. -/
theorem exists_width : ∃ width, (f.format source).toList = ['\n'].intercalate
      ((f.context source).flatMap (f.showRow source width) ++ [("Error: " ++ f.message).toList]) ∧
    ∀ r ∈ f.context source, (padded width r.number).length = width := by
  refine ⟨_, String.toList_ofList, fun r hr => padded_length ?_⟩
  obtain ⟨last, hlast, hle⟩ := number_le_last (f.context_numbers source) hr
  rw [hlast]
  exact digits_le hle

theorem showRow_of_ne {width : Nat} {r : ContextRow} (h : r.number ≠ f.line source + 1) :
    f.showRow source width r = [printedRow "  " width r] := by
  rw [showRow, if_neg h, printedRow]

theorem flatMap_showRow {width : Nat} {rows : List ContextRow}
    (h : ∀ r ∈ rows, r.number ≠ f.line source + 1) :
    rows.flatMap (f.showRow source width) = rows.map (printedRow "  " width) := by
  induction rows with
  | nil => rfl
  | cons r rows ih =>
    obtain ⟨hr, hrows⟩ := List.forall_mem_cons.mp h
    rw [List.flatMap_cons, List.map_cons, showRow_of_ne f source hr, ih hrows]
    rfl

/-- What stands in front of the text of a row has the same width in all rows. -/
theorem printedRow_extract {mark : String} {width : Nat} (r : ContextRow)
    (hmark : mark.toList.length = 2) (hwidth : (padded width r.number).length = width)
    (start stop : Nat) :
    (printedRow mark width r).extract (width + 5 + start) (width + 5 + stop) =
      r.text.extract start stop := by
  have hmargin : (mark.toList ++ padded width r.number ++ " | ".toList).length = width + 5 := by
    simp [hmark, hwidth]
    omega
  rw [printedRow, List.extract_eq_take_drop, List.extract_eq_take_drop, ← hmargin,
    List.drop_length_add_append, Nat.add_sub_add_left]

theorem getElem?_append_replicate {c : Char} {margin : List Char} (h : c ∉ margin) (n i : Nat) :
    (margin ++ List.replicate n c)[i]? = some c ↔ margin.length ≤ i ∧ i < margin.length + n := by
  rw [List.getElem?_append]
  split
  · next hlt =>
    have hne : margin[i]? ≠ some c := fun heq => h (List.mem_of_getElem? heq)
    simp only [hne, false_iff]
    omega
  · rw [List.getElem?_replicate]
    split <;> simp <;> omega

variable {text : List Char}

/-- What makes a row that of its line. -/
theorem eq_row_iff (htext : (linesOf source)[f.line source]? = some text) {k : Nat} {r : ContextRow}
    (hline : (linesOf source)[k]? = some r.text) : r = f.row source k r.text ↔ r.number = k + 1 ∧
      (r.start, r.stop) =
        if k = f.line source then (f.column source, f.markedEnd source text) else (0, 0) := by
  obtain ⟨number, rtext, start, stop⟩ := r
  unfold row
  by_cases hk : k = f.line source
  · subst hk
    obtain rfl := Option.some.inj (htext.symm.trans hline)
    rw [if_pos rfl, if_pos rfl]
    simp [markedEnd]
  · rw [if_neg hk, if_neg hk]
    simp

theorem context_isWindow (htext : (linesOf source)[f.line source]? = some text) :
    IsWindow (linesOf source) (f.line source) (f.column source) (f.markedEnd source text)
      (f.context source) := by
  obtain ⟨hlt, -⟩ := List.getElem?_eq_some_iff.mp htext
  refine ⟨?_, f.context_numbers source, fun r => ?_⟩
  · simp only [context, List.length_map, List.length_zipIdx, List.length_take, List.length_drop]
    omega
  · rw [mem_context_iff]
    constructor
    · rintro ⟨k, hlow, hhigh, hline, hr⟩
      exact ⟨k, hline, hlow, hhigh, (f.eq_row_iff source htext hline).mp hr⟩
    · rintro ⟨k, hline, hlow, hhigh, hr⟩
      exact ⟨k, hlow, hhigh, hline, (f.eq_row_iff source htext hline).mpr hr⟩

theorem format_isPrinted (htext : (linesOf source)[f.line source]? = some text) :
    IsPrinted (f.context source) (f.line source) (f.column source) (f.markedEnd source text)
      f.message (f.format source).toList := by
  obtain ⟨width, hformat, hwidth⟩ := f.exists_width source
  have hrow : f.row source (f.line source) text =
      ⟨f.line source + 1, text, f.column source, f.markedEnd source text⟩ := if_pos rfl
  have hmem := (f.mem_context_iff source).mpr
    ⟨f.line source, by omega, by omega, htext, hrow.symm⟩
  obtain ⟨above, below, hrows⟩ := List.append_of_mem hmem
  generalize hr :
    (⟨f.line source + 1, text, f.column source, f.markedEnd source text⟩ : ContextRow) = r at *
  have hothers : ∀ r' ∈ above ++ below, r'.number ≠ f.line source + 1 := by
    -- the numbers of the rows are all different
    have hnodup : ((f.context source).map (·.number)).Nodup := by
      rw [f.context_numbers source]
      exact List.nodup_range'
    rw [hrows, List.map_append, List.map_cons, List.nodup_middle, List.nodup_cons,
      ← List.map_append, ← hr] at hnodup
    exact fun r' hr' heq => hnodup.1 (List.mem_map.mpr ⟨r', hr', heq⟩)
  obtain ⟨habove, hbelow⟩ := List.forall_mem_append.mp hothers
  refine ⟨width, above, r, below, ("  ".toList ++ List.replicate width ' ' ++ " | ".toList ++
    List.replicate r.start ' ') ++ List.replicate (max (r.stop - r.start) 1) '^', hrows, ?_,
    hothers, hwidth, ?_, fun i => ?_, printedRow_extract r rfl (hwidth r hmem) _ _⟩
  · rw [← hr]
  · rw [hformat, hrows, List.flatMap_append, List.flatMap_cons, flatMap_showRow f source habove,
      flatMap_showRow f source hbelow, showRow, if_pos (by rw [← hr]), String.toList_append]
    simp [printedRow]
  · rw [getElem?_append_replicate]
    · simp [← hr]
      omega
    · simp

/-- The line and the column of an error are those of its offset, the window shows the lines around
it, and the carets stand below what is to blame. -/
theorem window_exact (f : Fault) (source : List Char) :
    ∃ (lines : List (List Char)) (o l start stop : Nat) (text : List Char), AreLines source lines ∧
      (o : Int) = max 0 (min f.offset source.length) ∧ IsAt lines o l start text ∧
      start ≤ stop ∧ stop ≤ text.length ∧
      text.extract start stop = source.extract o (min (o + f.length.toNat)
        (((lines.take l).map (·.length + 1)).sum + text.length)) ∧
      IsWindow lines l start stop (f.context source) ∧
      IsPrinted (f.context source) l start stop f.message (f.format source).toList := by
  obtain ⟨front, before, after, rest, hlines, hline, hcolumn, hsum, hafter⟩ := f.exists_split source
  have htext : (linesOf source)[f.line source]? = some (before ++ after) := by
    rw [hlines, ← hline]
    simp
  refine ⟨linesOf source, f.anchor source, f.line source, f.column source,
    f.markedEnd source (before ++ after), before ++ after, areLines_linesOf source,
    f.anchor_eq source, ⟨htext, ?_, ?_⟩, ?_, ?_, ?_, f.context_isWindow source htext,
    f.format_isPrinted source htext⟩
  · rw [← hcolumn, List.length_append]
    omega
  · rw [hlines, ← hline, List.take_left, ← hcolumn, hsum]
  · rw [markedEnd, List.length_append, hcolumn]
    omega
  · exact Nat.min_le_left _ _
  · -- both are the beginning of what follows the anchor on its line
    obtain ⟨tail, htail⟩ := hafter
    rw [List.extract_eq_take_drop, List.extract_eq_take_drop, markedEnd, ← hcolumn, hlines, ← hline,
      List.take_left, List.length_append, ← htail, Nat.add_min_add_left, Nat.add_sub_cancel_left,
      List.drop_left, ← Nat.add_assoc, hsum, Nat.add_min_add_left, Nat.add_sub_cancel_left,
      List.take_append_of_le_length (Nat.min_le_right _ _), Nat.min_comm]

end Fault

end Abacus
