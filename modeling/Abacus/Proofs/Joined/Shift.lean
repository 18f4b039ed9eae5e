import Abacus.Proofs.Alike.Heads
import Abacus.Proofs.Safety.Anchored

/-! Tokens and statements that stand further on in a longer source. Reading commutes with moving:
what is read from tokens that were moved by some distance is what was read before, moved by it. -/

namespace Abacus

open Token Statement

mutual

def Token.shift (d : Int) : Token → Token
  | .leaf kind value index stop => .leaf kind value (index + d) (stop + d)
  | .group kind value index stop children opener closer =>
    .group kind value (index + d) (stop + d) (Token.shiftAll d children) (opener.shift d)
      (closer.shift d)
  | .call kind value index stop name arguments =>
    .call kind value (index + d) (stop + d) (name.shift d) (arguments.shift d)

def Token.shiftAll (d : Int) : List Token → List Token
  | [] => []
  | t :: rest => t.shift d :: Token.shiftAll d rest

end

def Origin.shift (d : Int) (o : Origin) : Origin :=
  ⟨o.source, o.index + d, o.stop + d⟩

mutual

/-- A statement with every offset in it moved, at every depth. -/
def Statement.shift (d : Int) : Statement → Statement
  | .assign o name value fresh constant text =>
    .assign (o.shift d) (name.shift d) (Token.shiftAll d value) fresh constant text
  | .define o name parameters value text =>
    .define (o.shift d) (name.shift d) parameters (Token.shiftAll d value) text
  | .inline o value => .inline (o.shift d) (Token.shiftAll d value)
  | .ifThen o keyword condition body text =>
    .ifThen (o.shift d) (keyword.shift d) (Token.shiftAll d condition)
      (Statement.shiftAll d body) text
  | .elseIf o keyword condition body text =>
    .elseIf (o.shift d) (keyword.shift d) (Token.shiftAll d condition)
      (Statement.shiftAll d body) text
  | .otherwise o keyword body =>
    .otherwise (o.shift d) (keyword.shift d) (Statement.shiftAll d body)
  | .loop o keyword body => .loop (o.shift d) (keyword.shift d) (Statement.shiftAll d body)
  | .repeatUntil o keyword condition body text =>
    .repeatUntil (o.shift d) (keyword.shift d) (Token.shiftAll d condition)
      (Statement.shiftAll d body) text
  | .repeatTimes o keyword amount body text =>
    .repeatTimes (o.shift d) (keyword.shift d) (Token.shiftAll d amount)
      (Statement.shiftAll d body) text
  | .repeatWith o keyword amount counter body text =>
    .repeatWith (o.shift d) (keyword.shift d) (Token.shiftAll d amount) (counter.shift d)
      (Statement.shiftAll d body) text
  | .giveBack o keyword value => .giveBack (o.shift d) (keyword.shift d) (Token.shiftAll d value)
  | .leave o keyword => .leave (o.shift d) (keyword.shift d)
  | .print o keyword text => .print (o.shift d) (keyword.shift d) text
  | .throw o keyword text => .throw (o.shift d) (keyword.shift d) text

def Statement.shiftAll (d : Int) : List Statement → List Statement
  | [] => []
  | s :: rest => s.shift d :: Statement.shiftAll d rest

end

def Fault.shift (d : Int) (f : Fault) : Fault :=
  ⟨f.offset + d, f.message, f.length⟩

@[simp] theorem Token.kind_shift (d : Int) (t : Token) : (t.shift d).kind = t.kind := by
  cases t <;> rfl

@[simp] theorem Token.value_shift (d : Int) (t : Token) : (t.shift d).value = t.value := by
  cases t <;> rfl

@[simp] theorem Token.index_shift (d : Int) (t : Token) : (t.shift d).index = t.index + d := by
  cases t <;> rfl

@[simp] theorem Token.stop_shift (d : Int) (t : Token) : (t.shift d).stop = t.stop + d := by
  cases t <;> rfl

theorem Token.shiftAll_eq_map (d : Int) (T : List Token) :
    shiftAll d T = T.map (Token.shift d) := by
  induction T with
  | nil => rfl
  | cons t T ih => rw [shiftAll, ih, List.map_cons]

section Zero

theorem Origin.shift_zero (o : Origin) : o.shift 0 = o := by
  simp [Origin.shift]

theorem Fault.shift_zero (f : Fault) : f.shift 0 = f := by
  simp [Fault.shift]

mutual

theorem Token.shift_zero : ∀ t : Token, t.shift 0 = t
  | .leaf _ _ _ _ => by simp [Token.shift]
  | .group _ _ _ _ children opener closer => by
    simp [Token.shift, Token.shiftAll_zero children, Token.shift_zero opener,
      Token.shift_zero closer]
  | .call _ _ _ _ name arguments => by
    simp [Token.shift, Token.shift_zero name, Token.shift_zero arguments]

theorem Token.shiftAll_zero : ∀ T : List Token, Token.shiftAll 0 T = T
  | [] => rfl
  | t :: rest => by simp [Token.shiftAll, Token.shift_zero t, Token.shiftAll_zero rest]

end

mutual

theorem Statement.shift_zero : ∀ s : Statement, s.shift 0 = s
  | .assign _ _ _ _ _ _ | .define _ _ _ _ _ | .inline _ _ | .giveBack _ _ _ | .leave _ _
  | .print _ _ _ | .throw _ _ _ => by
    simp [Statement.shift, Origin.shift_zero, Token.shift_zero, Token.shiftAll_zero]
  | .ifThen _ _ _ body _ | .elseIf _ _ _ body _ | .otherwise _ _ body | .loop _ _ body
  | .repeatUntil _ _ _ body _ | .repeatTimes _ _ _ body _ | .repeatWith _ _ _ _ body _ => by
    simp [Statement.shift, Origin.shift_zero, Token.shift_zero, Token.shiftAll_zero,
      Statement.shiftAll_zero body]

theorem Statement.shiftAll_zero : ∀ B : List Statement, Statement.shiftAll 0 B = B
  | [] => rfl
  | s :: rest => by simp [Statement.shiftAll, Statement.shift_zero s, Statement.shiftAll_zero rest]

end

end Zero

/-- A source holds the text of another one, `d` characters further on. -/
def Contains (source' source : String) (d : Int) : Prop :=
  ∀ i j, Within source.length i → Within source.length j →
    Text.slice source i j = Text.slice source' (i + d) (j + d)

theorem position_of_within {k : Int} {n : Nat} (hk : 0 ≤ k) (hk' : k ≤ n) :
    Text.position n k = k.toNat := by
  simp only [Text.position]
  split <;> omega

theorem Contains.ofAppend (source rest : String) : Contains (source ++ rest) source 0 := by
  rintro i j ⟨hi, hi'⟩ ⟨hj, hj'⟩
  have hlen : (source ++ rest).toList.length = source.toList.length + rest.toList.length := by
    simp
  simp only [Text.slice, Text.sliceChars, Int.add_zero, hlen]
  rw [← String.length_toList] at hi' hj'
  rw [position_of_within hi hi', position_of_within hj hj', position_of_within hi (by omega),
    position_of_within hj (by omega), String.toList_append,
    List.drop_append_of_le_length (by omega), List.take_append_of_le_length]
  rw [List.length_drop]
  omega

theorem Contains.ofPrepend (before source : String) :
    Contains (before ++ source) source before.length := by
  rintro i j ⟨hi, hi'⟩ ⟨hj, hj'⟩
  have hlen : (before ++ source).toList.length = before.toList.length + source.toList.length := by
    simp
  simp only [Text.slice, Text.sliceChars, hlen, ← String.length_toList]
  rw [← String.length_toList] at hi' hj'
  have hstart : (i + (before.toList.length : Int)).toNat = before.toList.length + i.toNat := by
    omega
  have hstop : (j + (before.toList.length : Int)).toNat = before.toList.length + j.toNat := by omega
  have hdrop : (before.toList ++ source.toList).drop (before.toList.length + i.toNat) =
      source.toList.drop i.toNat := by
    rw [List.drop_append, List.drop_of_length_le (by omega), Nat.add_sub_cancel_left,
      List.nil_append]
  rw [position_of_within hi hi', position_of_within hj hj',
    position_of_within (by omega) (by omega), position_of_within (by omega) (by omega), hstart,
    hstop, String.toList_append, hdrop, Nat.add_sub_add_left]

namespace Likeness

/-- A source beside one that contains it. -/
def shifted {source source' : String} {d : Int} (strict : Bool)
    (h : Contains source' source d) : Likeness where
  source := source
  source' := source'
  strict := strict
  strict' := strict
  starts i i' := Within source.length i ∧ i' = i + d
  stops i i' := Within source.length i ∧ i' = i + d
  spot i i' := Within source.length i ∧ i' = i + d
  words _ _ := True
  faults f g := g = f.shift d
  verbatim := True
  loose := False
  lax := False
  spot_of_starts := id
  spot_of_stops := id
  slices := by
    rintro _ i _ j _ ⟨hi, rfl⟩ ⟨hj, rfl⟩
    exact h i j hi hj
  plain := by
    rintro i _ message n n' ⟨_, rfl⟩ hn
    rw [hn trivial]
    rfl
  thrown := by
    rintro t t' i _ j _ _ _ _ ⟨hi, rfl⟩ ⟨ht, hindex⟩ ⟨hj, rfl⟩
    rw [hindex, h i j hi hj, h t.index j ht hj]
    rfl
  refused := by
    rintro t t' text text' _ _ hv hv' ⟨_, hindex⟩ htext
    simp [Token.fault, Fault.shift, hindex, Token.length, hv, hv', htext trivial]
  same_mode _ := rfl
  loose_mode := False.elim

variable {source source' : String} {d : Int} {strict : Bool} {h : Contains source' source d}

theorem Leaf.eq_shift {t t' : Token} (hl : (shifted strict h).Leaf t t') : t' = t.shift d := by
  cases hl with
  | intro hi hs _ =>
    obtain ⟨_, rfl⟩ := hi
    obtain ⟨_, rfl⟩ := hs
    rfl

theorem Edge.eq_shift {t t' : Token} (hl : (shifted strict h).Edge t t') : t' = t.shift d := by
  cases hl with
  | intro hi hs =>
    obtain ⟨_, rfl⟩ := hi
    obtain ⟨_, rfl⟩ := hs
    rfl

theorem Span.eq_shift {o o' : Origin} (ho : (shifted strict h).Span o o') : o' = o.shift d := by
  obtain ⟨⟨_, hi⟩, ⟨_, hs⟩, hx⟩ := ho
  obtain ⟨text, index, stop⟩ := o
  obtain ⟨text', index', stop'⟩ := o'
  have htext : text = text' := hx trivial
  simp only at hi hs
  simp [Origin.shift, htext, hi, hs]

theorem Tokens.eq_shift {T T' : List Token} (hT : (shifted strict h).Tokens T T') :
    T' = Token.shiftAll d T := by
  induction hT with
  | nil => rfl
  | leaf hl _ _ ih => rw [Token.shiftAll, hl.eq_shift, ih]
  | group hv hi _ hs ho hc _ _ ihC ih =>
    obtain ⟨_, rfl⟩ := hi
    obtain ⟨_, rfl⟩ := hs
    rw [Token.shiftAll, Token.shift, ho.eq_shift, hc.eq_shift, ihC, ih, hv.same trivial]
  | call _ hn _ _ _ _ iha ih =>
    obtain ⟨rfl, _⟩ := List.cons.inj iha
    rw [Token.shiftAll, hn.eq_shift, ih]
    simp [fuse, Token.shift]
  | loose hl _ _ _ _ _ _ _ _ _ => exact hl.elim

theorem Statements.eq_shift {B B' : List Statement} (hB : (shifted strict h).Statements B B') :
    B' = Statement.shiftAll d B := by
  induction hB with
  | nil => rfl
  | assign ho hn _ hv hx _ ih =>
    rw [Statement.shiftAll, Statement.shift, ho.eq_shift, hn.eq_shift, hv.eq_shift, hx trivial, ih]
  | define ho hn _ hv hx _ ih =>
    rw [Statement.shiftAll, Statement.shift, ho.eq_shift, hn.eq_shift, hv.eq_shift, hx trivial, ih]
  | inline ho hv _ ih =>
    rw [Statement.shiftAll, Statement.shift, ho.eq_shift, hv.eq_shift, ih]
  | ifThen ho hk hc _ hx _ ihb ih | elseIf ho hk hc _ hx _ ihb ih
  | repeatUntil ho hk hc _ hx _ ihb ih | repeatTimes ho hk hc _ hx _ ihb ih =>
    rw [Statement.shiftAll, Statement.shift, ho.eq_shift, hk.eq_shift, hc.eq_shift, ihb, hx trivial,
      ih]
  | otherwise ho hk _ _ ihb ih | loop ho hk _ _ ihb ih =>
    rw [Statement.shiftAll, Statement.shift, ho.eq_shift, hk.eq_shift, ihb, ih]
  | repeatWith ho hk hc hn _ _ hx _ ihb ih =>
    rw [Statement.shiftAll, Statement.shift, ho.eq_shift, hk.eq_shift, hc.eq_shift, hn.eq_shift,
      ihb, hx trivial, ih]
  | giveBack ho hk hv _ ih =>
    rw [Statement.shiftAll, Statement.shift, ho.eq_shift, hk.eq_shift, hv.eq_shift, ih]
  | leave ho hk _ ih => rw [Statement.shiftAll, Statement.shift, ho.eq_shift, hk.eq_shift, ih]
  | print ho hk hx _ ih | throw ho hk hx _ _ ih =>
    rw [Statement.shiftAll, Statement.shift, ho.eq_shift, hk.eq_shift, hx trivial, ih]

theorem shifted_leaf {t : Token} (ht : t ∈ scan source) :
    (shifted strict h).Leaf t (t.shift d) := by
  have hanchored := scan_anchored ht
  cases t with
  | leaf kind value index stop =>
    exact .intro ⟨hanchored.index_within, rfl⟩ ⟨hanchored.stop_within, rfl⟩ (fun _ => trivial)
  | group => exact (scan_isLeaf source _ ht).elim
  | call => exact (scan_isLeaf source _ ht).elim

/-- A token of a source stands in a longer one, with all that is inside it. -/
theorem shifted_cons {t : Token} (hg : Grouped source strict t)
    (hs : ∀ u ∈ flatten t, u ∈ scan source) {T T' : List Token}
    (hT : (shifted strict h).Tokens T T') :
    (shifted strict h).Tokens (t :: T) (t.shift d :: T') := by
  induction hg generalizing T T' with
  | leaf _ => exact .leaf (shifted_leaf (hs _ List.mem_cons_self)) (fun hl => hl.elim) hT
  | @group children opener closer _ _ hg _ _ ih =>
    have hopener : opener ∈ scan source := hs _ List.mem_cons_self
    have hcloser : closer ∈ scan source := hs _ (by simp [flatten])
    have hchildren : ∀ C : List Token, C ⊆ children →
        (shifted strict h).Tokens C (Token.shiftAll d C) := by
      intro C hC
      induction C with
      | nil => exact .nil
      | cons c C ihC =>
        obtain ⟨hc, hC⟩ := List.cons_subset.mp hC
        refine ih c hc (fun u hu => hs u ?_) (ihC hC)
        have hm := (flatten_sublist hc).subset hu
        simp [flatten, hm]
    have hi := (scan_anchored hopener).index_within
    have hj := (scan_anchored hcloser).stop_within
    exact .group ⟨fun _ => rfl, Iff.rfl⟩ ⟨hi, rfl⟩ (fun _ => ⟨hi, rfl⟩) ⟨hj, rfl⟩
      (shifted_leaf hopener).edge (shifted_leaf hcloser).edge
      (hchildren children (List.Subset.refl _)) hT
  | @call name arguments _ _ hp hg ih =>
    have hname : name ∈ scan source := hs _ List.mem_cons_self
    have harguments := ih (fun u hu => hs u (List.mem_cons_of_mem _ hu)) .nil
    have hcall : (shifted strict h).Tokens (fuse name arguments :: T)
        (fuse (name.shift d) (arguments.shift d) :: T') :=
      .call id (shifted_leaf hname) ⟨fun _ => by simp, by simp⟩ harguments hp hT
    simpa [fuse, Token.shift] using hcall

theorem shifted_tokens {F T : List Token} (hF : ForestOf source strict F)
    (hT : ∀ t ∈ T, InForest F t) : (shifted strict h).Tokens T (Token.shiftAll d T) := by
  induction T with
  | nil => exact .nil
  | cons t T ih =>
    obtain ⟨ht, hT⟩ := List.forall_mem_cons.mp hT
    exact shifted_cons (hF.grouped ht) (fun u hu => (hF.flatten_scan ht).subset hu) (ih hT)

end Likeness

/-- Reading tokens of a source where they stand in a longer one. -/
theorem ofTokens_shiftAll {source source' : String} {d : Int} {strict : Bool} {F T : List Token}
    (h : Contains source' source d) (hF : ForestOf source strict F)
    (hT : ∀ t ∈ T, InForest F t) :
    ofTokens source' strict (Token.shiftAll d T) =
      match ofTokens source strict T with
      | .ok body => .ok (Statement.shiftAll d body)
      | .error f => .error (f.shift d) := by
  have hread := Likeness.ofTokens_like (Likeness.shifted_tokens (h := h) hF hT)
  change Likeness.Agree (.shifted strict h) _ (ofTokens source strict T)
    (ofTokens source' strict (Token.shiftAll d T)) at hread
  generalize ofTokens source strict T = x at hread ⊢
  generalize ofTokens source' strict (Token.shiftAll d T) = y at hread ⊢
  cases hread with
  | ok hB => rw [hB.eq_shift]
  | error hf => exact congrArg _ hf.faults
  | lost hl _ => exact hl.elim

end Abacus
