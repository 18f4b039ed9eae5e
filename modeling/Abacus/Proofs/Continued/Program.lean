import Abacus.Proofs.Continued.Bare
import Abacus.Proofs.Continued.Forest
import Abacus.Proofs.Alike.Grouping
import Abacus.Proofs.Joined.Reading

/-! Line continuation. A backslash and a newline may stand between two tokens of the expression of a
statement; the source is read to the same statements. Only the amount of a counted loop may not be
continued: it is looked for with ends of lines as they are. -/

namespace Abacus

open Token Statement

section Places

variable {u v : String} {k : Int} {A A' B B' : List Token}

theorem takeWhile_of_sides (hA : ∀ x ∈ A, x.stop ≤ k) (hB : ∀ x ∈ B, k < x.stop) :
    (A ++ B).takeWhile (fun x => x.stop ≤ k) = A := by
  rw [List.takeWhile_append_of_pos (by simpa using hA)]
  cases B with
  | nil => simp
  | cons b B =>
    have hb := hB b List.mem_cons_self
    rw [List.takeWhile_cons_of_neg (by simpa using hb), List.append_nil]

/-- A place cuts a list in one way. -/
theorem cut_unique (h : A ++ B = A' ++ B') (hA : ∀ x ∈ A, x.stop ≤ k) (hB : ∀ x ∈ B, k < x.stop)
    (hA' : ∀ x ∈ A', x.stop ≤ k) (hB' : ∀ x ∈ B', k < x.stop) : A = A' ∧ B = B' := by
  obtain rfl : A = A' := by
    rw [← takeWhile_of_sides hA hB, h, takeWhile_of_sides hA' hB']
  exact ⟨rfl, List.append_cancel_left h⟩

/-- The two parts of a source that is cut between its tokens. -/
theorem scan_halves (hu : Text.Uncommented u.toList) (h : scan (u ++ v) = A ++ B)
    (hA : ∀ x ∈ A, x.stop ≤ u.length) (hB : ∀ x ∈ B, u.length ≤ x.index) :
    A = scan u ∧ B = (scan v).map (Token.shift u.length) := by
  have hcross : ∀ t ∈ scan (u ++ v), ¬ t.Crosses u.length := by
    rintro t ht ⟨hstart, hstop⟩
    rw [h] at ht
    rcases List.mem_append.mp ht with ht | ht
    · have := hA t ht
      omega
    · have := hB t ht
      omega
  refine cut_unique (h.symm.trans (scan_cut hu hcross)) hA (fun x hx => ?_)
    (fun x hx => (scan_anchored hx).stop_within.2) (fun x hx => ?_)
  · have hlt := ((scan_ordered (u ++ v)).placed x
      (by rw [h]; exact List.mem_append_right _ hx)).index_lt_stop
    have hle := hB x hx
    omega
  · obtain ⟨y, hy, rfl⟩ := List.mem_map.mp hx
    have hstart := (scan_anchored hy).index_within.1
    have hlt := ((scan_ordered v).placed y hy).index_lt_stop
    rw [stop_shift]
    omega

theorem scan_parts {a b : Token} (hu : Text.Uncommented u.toList)
    (h : scan (u ++ v) = A ++ a :: b :: B) (ha : a.stop ≤ u.length) (hb : u.length ≤ b.index) :
    A ++ [a] = scan u ∧ b :: B = (scan v).map (Token.shift u.length) := by
  obtain ⟨hfront, hback⟩ := side_of_pair (h ▸ scan_ordered (u ++ v)) ha hb
  exact scan_halves hu (by simp [h]) hfront hback

end Places

namespace Likeness

/-- Offsets of a source and of the same source with two characters put in at the place `k`. -/
def Moved (k i i' : Int) : Prop :=
  (i < k → i' = i) ∧ (k < i → i' = i + 2)

/-- Both sources are read in one mode. -/
theorem mode_of_loose {strict : Bool} (h : False) : strict = false ∧ strict = true ∧ False :=
  h.elim

/-- A source beside the same source with a continuation put in. -/
def parted (u v : String) (strict : Bool) : Likeness where
  source := u ++ v
  source' := u ++ "\\\n" ++ v
  strict := strict
  strict' := strict
  starts := Moved u.length
  stops := Moved u.length
  spot := Moved u.length
  words _ _ := True
  faults _ _ := True
  verbatim := False
  loose := False
  lax := False
  spot_of_starts := id
  spot_of_stops := id
  slices := False.elim
  plain _ _ := trivial
  thrown _ _ _ _ _ _ := trivial
  refused _ _ _ _ _ _ := trivial
  same_mode _ := rfl
  loose_mode := mode_of_loose

variable {u v : String} {strict : Bool}

/-- Text on one side of the place is the same in both sources. -/
theorem parted_slice {i i' j j' : Int} (hi : Moved u.length i i') (hj : Moved u.length j j')
    (h : (0 ≤ i ∧ i < u.length) ∧ (0 ≤ j ∧ j < u.length) ∨
      (u.length < i ∧ i ≤ (u ++ v).length) ∧ (u.length < j ∧ j ≤ (u ++ v).length)) :
    Text.slice (u ++ v) i j = Text.slice (u ++ "\\\n" ++ v) i' j' := by
  rcases h with ⟨⟨hi₀, hik⟩, hj₀, hjk⟩ | ⟨⟨hki, hin⟩, hkj, hjn⟩
  · obtain rfl := hi.1 hik
    obtain rfl := hj.1 hjk
    have hwi : Within u.length i' := ⟨hi₀, Int.le_of_lt hik⟩
    have hwj : Within u.length j' := ⟨hj₀, Int.le_of_lt hjk⟩
    have h := Contains.ofAppend u v i' j' hwi hwj
    have h' := Contains.ofAppend u ("\\\n" ++ v) i' j' hwi hwj
    rw [Int.add_zero, Int.add_zero] at h h'
    rw [String.append_assoc, ← h, ← h']
  · obtain rfl := hi.2 hki
    obtain rfl := hj.2 hkj
    rw [String.length_append] at hin hjn
    have hwi : Within v.length (i - u.length) := ⟨by omega, by omega⟩
    have hwj : Within v.length (j - u.length) := ⟨by omega, by omega⟩
    have h := Contains.ofPrepend u v _ _ hwi hwj
    have h' := Contains.ofPrepend (u ++ "\\\n") v _ _ hwi hwj
    have hlength : ((u ++ "\\\n").length : Int) = u.length + 2 := by
      rw [String.length_append]
      rfl
    have hback : ∀ n : Int, n - u.length + u.length = n := fun n => by omega
    have hback' : ∀ n : Int, n - u.length + (u.length + 2) = n + 2 := fun n => by omega
    rw [hback, hback] at h
    rw [hlength, hback', hback'] at h'
    rw [← h, ← h']

theorem parted_sourceOf {T T' : List Token} (hT : (parted u v strict).Tokens T T')
    (h : Aside (u ++ v).length u.length T) :
    sourceOf (u ++ v) T = sourceOf (u ++ "\\\n" ++ v) T' := by
  cases T with
  | nil =>
    cases hT
    rfl
  | cons t T =>
    obtain ⟨t', U, rfl, hfirst⟩ := hT.first
    obtain ⟨htwin, hU, _⟩ := hfirst.twin (.inl id)
    rw [sourceOf_cons, sourceOf_cons]
    refine parted_slice htwin.spot_index (hU.spot_stopOf htwin.stops_stop) ?_
    obtain ⟨x, hx, hstop⟩ := stopOf_mem t T
    rw [stopOf_cons] at hstop
    rw [hstop]
    refine h.imp (fun h => ?_) (fun h => ?_)
    · have := h t List.mem_cons_self
      have := h x hx
      omega
    · have := h t List.mem_cons_self
      have := h x hx
      omega

/-- A flat token beside the same token further on. -/
theorem moved_leaf {t t' : Token} (hl : t.IsLeaf) (hk : t'.kind = t.kind) (hv : t'.value = t.value)
    (hl' : t'.IsLeaf) (hi : Moved u.length t.index t'.index) (hs : Moved u.length t.stop t'.stop) :
    (parted u v strict).Leaf t t' := by
  cases t with
  | leaf =>
    cases t' with
    | leaf =>
      obtain rfl : _ = _ := hk
      obtain rfl : _ = _ := hv
      exact .intro hi hs (fun _ => trivial)
    | group => exact hl'.elim
    | call => exact hl'.elim
  | group => exact hl.elim
  | call => exact hl.elim

/-- A token of both sources, wherever it stands in them. -/
theorem moved_piece {t t' : Token} (ht : t ∈ scan (u ++ v)) (ht' : t' ∈ scan (u ++ "\\\n" ++ v))
    (hk : t'.kind = t.kind) (hv : t'.value = t.value) (hi : Moved u.length t.index t'.index)
    (hs : Moved u.length t.stop t'.stop) : (parted u v strict).Piece t t' := by
  refine ⟨moved_leaf (scan_isLeaf _ t ht) hk hv (scan_isLeaf _ t' ht') hi hs,
    fun ho stop stop' => ⟨slice_of_opens ht ho stop, slice_of_opens ht' ?_ stop'⟩,
    fun hn text => append_of_isName ht hn text⟩
  simpa only [Token.Opens, hk, hv] using ho

theorem parted_pieces (hu : Text.Uncommented u.toList)
    (h : scan (u ++ v) = scan u ++ (scan v).map (Token.shift u.length)) :
    List.Forall₂ (parted u v strict).Piece
      (scan u ++ (continuation u.length ++ (scan v).map (Token.shift u.length)))
      (scan (u ++ "\\\n" ++ v)) := by
  have hscan := scan_continued hu v
  have hfront : ∀ t ∈ scan u, (parted u v strict).Piece t t := by
    intro t ht
    have hanchored := scan_anchored ht
    have hi := hanchored.index_within.2
    have hs := hanchored.stop_within.2
    exact moved_piece (by simp [h, ht]) (by simp [hscan, ht]) rfl rfl
      ⟨fun _ => rfl, fun hh => by omega⟩ ⟨fun _ => rfl, fun hh => by omega⟩
  have hback : ∀ t ∈ scan v, (parted u v strict).Piece (t.shift u.length)
      (t.shift (u.length + 2)) := by
    intro t ht
    have hanchored := scan_anchored ht
    have hi := hanchored.index_within.1
    have hs := hanchored.stop_within.1
    have hm : t.shift u.length ∈ scan (u ++ v) := by
      rw [h]
      exact List.mem_append_right _ (List.mem_map_of_mem ht)
    have hm' : t.shift (u.length + 2) ∈ scan (u ++ "\\\n" ++ v) := by
      rw [hscan]
      exact List.mem_append_right _ (List.mem_cons_of_mem _ (List.mem_cons_of_mem _
        (List.mem_map_of_mem ht)))
    refine moved_piece hm hm' (by simp) (by simp) ⟨fun hh => ?_, fun _ => ?_⟩
      ⟨fun hh => ?_, fun _ => ?_⟩ <;> simp only [index_shift, stop_shift] at * <;> omega
  have hplace : ∀ i : Int, Moved u.length u.length i :=
    fun i => ⟨fun hh => absurd hh (by omega), fun hh => absurd hh (by omega)⟩
  have hsymbol : ∀ {value : String} {i s : Int}, (closing? value).isSome = false →
      (parted u v strict).Piece (.leaf .symbol value u.length u.length) (.leaf .symbol value i s) :=
    fun hc => ⟨.intro (hplace _) (hplace _) (by rintro ⟨⟩),
      fun ho => absurd (hc.symm.trans ho.2) (by simp), fun hn => absurd hn Bool.false_ne_true⟩
  rw [hscan]
  exact List.rel_append (List.forall₂_same.mpr hfront) (.cons (hsymbol rfl) (.cons (hsymbol rfl)
    (List.forall₂_map_left_iff.mpr (List.forall₂_map_right_iff.mpr (List.forall₂_same.mpr hback)))))

end Likeness

/-- Ends of lines and backslashes have one character. -/
theorem ForestOf.solid {source : String} {strict : Bool} {F : List Token} {t : Token}
    (hF : ForestOf source strict F) (ht : InForest F t) (k : Int) : t.Solid source.length k := by
  obtain ⟨hstart, _, hstop⟩ := hF.in_source ht
  refine ⟨hstart, hstop, fun hs ⟨hi, hj⟩ => ?_⟩
  obtain ⟨hk, _⟩ := kind_of_not_significant hs
  have hm : t ∈ scan source := by
    have hflat := hF.flatten_scan ht
    cases hF.grouped ht with
    | leaf _ => exact hflat.subset List.mem_cons_self
    | group _ _ _ _ _ => cases hk
    | call _ _ _ _ => cases hk
  have hl := scan_lexed source hm
  obtain ⟨c, _, hc⟩ := hk ▸ hl.spells
  have hlength := congrArg List.length hc
  rw [length_sliceChars hl.start (Int.le_of_lt hl.proper) hl.within, List.length_singleton]
    at hlength
  omega

section Continuation

variable {u v : String} {strict : Bool} {F F' : List Token} {p : Program}

/-- The forest with the two tokens in it corresponds to that of the source with the two in it. -/
theorem groupAll_continued (hF : ForestOf (u ++ v) strict F) (hs : Spliced u.length F F')
    (hu : Text.Uncommented u.toList) :
    ∃ G, groupAll (u ++ "\\\n" ++ v) strict (scan (u ++ "\\\n" ++ v)) = .ok G ∧
      (Likeness.parted u v strict).Tokens F' G := by
  obtain ⟨A, a, b, B, hflat, hflat', ha, hb⟩ := hs.flat hF.wellFormed.grouped
  obtain ⟨hA, hB⟩ := scan_parts hu (hF.flat ▸ hflat) ha hb
  have hscan : scan (u ++ v) = scan u ++ (scan v).map (Token.shift u.length) := by
    rw [← hA, ← hB, ← hF.flat, hflat]
    simp
  have hspliced : groupAll (u ++ v) strict
      (scan u ++ (continuation u.length ++ (scan v).map (Token.shift u.length))) = .ok F' := by
    have h := (hs.wellFormed hF.wellFormed).groupAll_flattenAll
    rw [hflat'] at h
    rw [← hA, ← hB]
    simpa using h
  have hlike := Likeness.groupAll_like (L := .parted u v strict) id
    (Likeness.parted_pieces hu hscan)
  change Likeness.Agree _ _ (groupAll (u ++ v) strict _)
    (groupAll (u ++ "\\\n" ++ v) strict (scan (u ++ "\\\n" ++ v))) at hlike
  rw [hspliced] at hlike
  generalize groupAll (u ++ "\\\n" ++ v) strict (scan (u ++ "\\\n" ++ v)) = x at hlike ⊢
  cases hlike with
  | ok hG => exact ⟨_, rfl, hG⟩

/-- A continued list that is read around the place stands for a source that is read to the same
statements. -/
theorem Program.parse_continues (hF : ForestOf (u ++ v) strict F) {body : List Statement}
    (hb : Continues (u ++ v) strict u.length false F body) (hu : Text.Uncommented u.toList) :
    ∃ q, Program.parse (u ++ "\\\n" ++ v) strict = .ok q ∧
      Statement.bareAll q.body = Statement.bareAll body := by
  obtain ⟨r, R, R', rfl, hsplice, haround⟩ := hb
  obtain ⟨G, hgroup, hG⟩ := groupAll_continued hF hsplice hu
  obtain ⟨body', hread, _, hbare⟩ :=
    haround.like (L := .parted u v strict) id Likeness.parted_sourceOf hG
  exact ⟨⟨_, body'⟩, Program.parse_of_readsTo hgroup hread, hbare.symm⟩

/-- A continued list that is refused stands for a source that is refused at the same loop. -/
theorem Program.parse_refuses (hF : ForestOf (u ++ v) strict F) {i : Int}
    (hr : Refuses (u ++ v) strict u.length i false F) (hu : Text.Uncommented u.toList) :
    ∃ f, Program.parse (u ++ "\\\n" ++ v) strict = .error f ∧ f.offset = i ∧
      f.message = "Expected 'times' after the repeat amount." := by
  obtain ⟨r, R, R', f, rfl, hsplice, hread, hoffset, hlt, hmessage⟩ := hr
  obtain ⟨G, hgroup, hG⟩ := groupAll_continued hF hsplice hu
  obtain ⟨y, hread', hagree⟩ :=
    Likeness.readsTo_like (L := .parted u v strict) hread hG
  cases hagree with
  | lost hl _ => exact hl.elim
  | @error _ g hblames =>
    have hplace : Likeness.Moved u.length f.offset g.offset := hblames.offset
    have hfault : ofTokens (u ++ "\\\n" ++ v) strict G = .error g := hread'.ofTokens_eq
    refine ⟨g, ?_, ?_, hblames.message.symm.trans hmessage⟩
    · rw [Program.parse_of_groupAll hgroup, hfault]
      rfl
    · rw [hplace.1 (hoffset ▸ hlt), hoffset]

/-- A backslash and a newline may stand between two tokens of an expression, and the source is read
to the same statements, except that their places and what they quote of the source may differ. They
may not stand in the amount of a loop: then the source is refused at the loop. -/
theorem Program.parse_continued (hp : Program.parse (u ++ v) strict = .ok p)
    {block : List Statement} {s : Statement} (hn : Nested p.body block) (hs : s ∈ block)
    {X Y : List Token} {t₁ t₂ : Token} (he : s.expression = X ++ t₁ :: t₂ :: Y)
    (h₁ : t₁.stop ≤ u.length) (h₂ : u.length ≤ t₂.index)
    (hc : ¬ InComment u.toList (u.length - 1)) :
    (s.kind.isCounted = false → ∃ q, Program.parse (u ++ "\\\n" ++ v) strict = .ok q ∧
      Statement.bareAll q.body = Statement.bareAll p.body) ∧
    (s.kind.isCounted = true → ∃ f, Program.parse (u ++ "\\\n" ++ v) strict = .error f ∧
      f.offset = s.origin.index ∧ f.message = "Expected 'times' after the repeat amount.") := by
  obtain ⟨F, hgroup, hread⟩ := Program.parse_ok hp
  have hF := groupAll_forestOf hgroup
  have hu : Text.Uncommented u.toList := .of_not_inComment (by rwa [String.length_toList])
  constructor
  · intro hk
    exact Program.parse_continues hF (hread.continues hF.ordered
      (fun x hx => hF.solid hx u.length) hn hs hk he h₁ h₂) hu
  · intro hk
    exact Program.parse_refuses hF (hread.refuses hF.ordered hn hs hk he h₁ h₂) hu

end Continuation

/-- Where the tokens of an expression start and stop. -/
def Statement.spans (s : Statement) : List (Int × Int) :=
  s.expression.map (fun t => (t.index, t.stop))

theorem neighbours_of_spans {s : Statement} {P Q : List (Int × Int)} {i i' j j' : Int}
    (h : s.spans = P ++ (i, i') :: (j, j') :: Q) :
    ∃ X t₁ t₂ Y, s.expression = X ++ t₁ :: t₂ :: Y ∧ t₁.stop = i' ∧ t₂.index = j := by
  obtain ⟨X, Z, he, _, hZ⟩ := List.map_eq_append_iff.mp h
  obtain ⟨t₁, Z, rfl, h₁, hZ⟩ := List.map_eq_cons_iff.mp hZ
  obtain ⟨t₂, Y, rfl, h₂, _⟩ := List.map_eq_cons_iff.mp hZ
  exact ⟨X, t₁, t₂, Y, he, congrArg Prod.snd h₁, congrArg Prod.fst h₂⟩

/-- A sum in a block that goes on behind a backslash, up to the place where it is to be continued
once more. -/
def sumBefore : String :=
  "if 2 > 1 \x7b\n  y = 3 +"

def sumBehind : String :=
  " 4 \\\n * 2; print y is set\n\x7d # once"

theorem sum_continued : ∃ p block s X t₁ t₂ Y, Program.parse (sumBefore ++ sumBehind) false = .ok p ∧
    Nested p.body block ∧ s ∈ block ∧ s.kind.isCounted = false ∧
    s.expression = X ++ t₁ :: t₂ :: Y ∧ t₁.stop ≤ (sumBefore.length : Int) ∧
    (sumBefore.length : Int) ≤ t₂.index ∧ ¬ InComment sumBefore.toList (sumBefore.length - 1) ∧
    ∃ q, Program.parse (sumBefore ++ "\\\n" ++ sumBehind) false = .ok q ∧
      Statement.bareAll q.body = Statement.bareAll p.body := by
  have hread : (Program.parse (sumBefore ++ sumBehind) false).toOption.bind (fun p =>
      p.body.head?.bind (fun a => a.body?.bind (fun b => b.head?.map (fun s =>
        (s.kind.isCounted, s.spans))))) =
      some (false, [(17, 18)] ++ (19, 20) :: (21, 22) :: [(26, 27), (28, 29)]) := by
    decide +kernel
  have hc : ¬ InComment sumBefore.toList (sumBefore.length - 1) := by
    rintro ⟨j, _, hj, _⟩
    exact absurd (List.mem_of_getElem? hj) (by decide)
  cases hp : Program.parse (sumBefore ++ sumBehind) false with
  | error f =>
    rw [hp] at hread
    cases hread
  | ok p =>
    rw [hp] at hread
    obtain ⟨_, ⟨⟩, hread⟩ := Option.bind_eq_some_iff.mp hread
    obtain ⟨a, ha, hread⟩ := Option.bind_eq_some_iff.mp hread
    obtain ⟨block, hblock, hread⟩ := Option.bind_eq_some_iff.mp hread
    obtain ⟨s, hs, hread⟩ := Option.map_eq_some_iff.mp hread
    obtain ⟨hk, hspans⟩ := Prod.mk.inj hread
    obtain ⟨X, t₁, t₂, Y, he, h₁, h₂⟩ := neighbours_of_spans hspans
    have hm := List.mem_of_mem_head? hs
    have hn : Nested p.body block := .into (List.mem_of_mem_head? ha) hblock (.here block)
    have hstop : t₁.stop ≤ (sumBefore.length : Int) := h₁ ▸ by decide
    have hindex : (sumBefore.length : Int) ≤ t₂.index := h₂ ▸ by decide
    exact ⟨p, block, s, X, t₁, t₂, Y, rfl, hn, hm, hk, he, hstop, hindex, hc,
      (Program.parse_continued hp hn hm he hstop hindex hc).1 hk⟩

/-- The fault of what was refused. -/
def refusal? {α : Type} : Except Fault α → Option Fault
  | .ok _ => none
  | .error f => some f

theorem eq_error_of_refusal {α : Type} {x : Except Fault α} {f : Fault} (h : refusal? x = some f) :
    x = .error f := by
  cases x with
  | ok => cases h
  | error => rw [Option.some.inj h]

def amountBefore : String :=
  "repeat 1 "

def amountBehind : String :=
  "+ 1 times \x7b\n\x7d"

/-- The amount of a loop cannot be continued. -/
theorem amount_not_continued : ∃ p s X t₁ t₂ Y,
    Program.parse (amountBefore ++ amountBehind) false = .ok p ∧ s ∈ p.body ∧
    s.kind = .repeatTimes ∧ s.expression = X ++ t₁ :: t₂ :: Y ∧
    t₁.stop ≤ (amountBefore.length : Int) ∧ (amountBefore.length : Int) ≤ t₂.index ∧
    ¬ InComment amountBefore.toList (amountBefore.length - 1) ∧
    Program.parse (amountBefore ++ "\\\n" ++ amountBehind) false =
      .error ⟨0, "Expected 'times' after the repeat amount.", 6⟩ := by
  have hread : (Program.parse (amountBefore ++ amountBehind) false).toOption.bind (fun p =>
      p.body.head?.map (fun s => (s.kind, s.spans))) =
      some (.repeatTimes, [] ++ (7, 8) :: (9, 10) :: [(11, 12)]) := by
    decide +kernel
  have hc : ¬ InComment amountBefore.toList (amountBefore.length - 1) := by
    rintro ⟨j, _, hj, _⟩
    exact absurd (List.mem_of_getElem? hj) (by decide)
  cases hp : Program.parse (amountBefore ++ amountBehind) false with
  | error f =>
    rw [hp] at hread
    cases hread
  | ok p =>
    rw [hp] at hread
    obtain ⟨s, hs, hread⟩ := Option.map_eq_some_iff.mp hread
    obtain ⟨hk, hspans⟩ := Prod.mk.inj hread
    obtain ⟨X, t₁, t₂, Y, he, h₁, h₂⟩ := neighbours_of_spans hspans
    exact ⟨p, s, X, t₁, t₂, Y, rfl, List.mem_of_mem_head? hs, hk, he, h₁ ▸ by decide,
      h₂ ▸ by decide, hc, eq_error_of_refusal (by decide +kernel)⟩

end Abacus
