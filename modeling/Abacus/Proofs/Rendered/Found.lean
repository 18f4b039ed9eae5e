import Abacus.Proofs.Rendered.Compound
import Abacus.Proofs.Rendered.Leads

/-! Where a compound assignment is found when a list is read: among its statements, or in an
expression of one of them that is read as a block itself. Written out there, the list is read alike. -/

namespace Abacus

open Token Statement

/-- Reading a list finds the statement that starts with the name and the tokens `old` up to the end
of its line: it is one of those of the list, or found in the expression of one of them, if that
starts with the word of a block. -/
inductive Statement.Finds (source : String) (strict : Bool) (name : Token) (old : List Token) :
    List Token → Prop where
  | here {P rest : List Token} (h : Reaches source strict (name :: (old ++ rest)) false P)
      (hr : rest.head?.all isTerminator = true) :
      Finds source strict name old (P ++ name :: (old ++ rest))
  | within {P X rest r : List Token} {t : Token} {after : Bool} {s : Statement}
      (h : Reaches source strict (t :: (X ++ name :: (old ++ rest))) false P)
      (ht : t.isTerminator = false)
      (hh : head source strict after t (X ++ name :: (old ++ rest)) = .ok (.simple s r))
      (hr : rest.head?.all isTerminator = true)
      (hb : s.expression.head?.any Eval.startsBlock = true)
      (hs : Finds source strict name old s.expression) :
      Finds source strict name old (P ++ t :: (X ++ name :: (old ++ rest)))

section Places

section Tokens

variable {t : Token} {X X' Y Y' R : List Token}

theorem Ordered.notMem (h : Ordered (X ++ t :: Y)) : t ∉ X ∧ t ∉ Y := by
  obtain ⟨_, hback, hfront⟩ := List.pairwise_append.mp h.pairwise
  have hlt := (h.placed t (by simp)).index_lt_stop
  constructor
  · intro ht
    have hle : t.stop ≤ t.index := hfront t ht t List.mem_cons_self
    omega
  · intro ht
    have hle : t.stop ≤ t.index := (List.pairwise_cons.mp hback).1 t ht
    omega

/-- A token stands at one place of a list. -/
theorem Ordered.place_unique (h : Ordered (X ++ t :: Y)) (heq : X ++ t :: Y = X' ++ t :: Y') :
    X = X' ∧ Y = Y' := by
  obtain ⟨hX, hY⟩ := h.notMem
  obtain ⟨rfl, _, rfl⟩ := (List.append_cons_inj_of_notMem hX hY).mp heq
  exact ⟨rfl, rfl⟩

/-- A line that goes on to a name starts anew there. -/
theorem lineFrom_through (hn : t.isName = true) {p : Nat} (hX : t ∉ X)
    (hm : t ∈ (lineFrom p (X ++ t :: R)).1) :
    ∃ L, ∀ R, lineFrom p (X ++ t :: R) = (L ++ t :: (line R).1, (line R).2) := by
  induction X generalizing p with
  | nil =>
    have hword := kind_of_isName hn
    have hend : t.isTerminator = false := by simp [isTerminator, isSymbol, Token.is, hword]
    have hslash : t.isSymbol "\\" = false := by simp [isSymbol, Token.is, hword]
    exact ⟨[], fun R => by simp [lineFrom, line, hend, hslash]⟩
  | cons x X ih =>
    obtain ⟨hne, hX⟩ : t ≠ x ∧ t ∉ X := by simpa using hX
    simp only [List.cons_append, lineFrom] at hm ⊢
    split
    · next hend =>
      rw [if_pos hend] at hm
      cases p with
      | zero => cases hm
      | succ p => exact ih hX hm
    · next hend =>
      rw [if_neg hend] at hm
      split
      · next hslash =>
        rw [if_pos hslash] at hm
        exact ih hX hm
      · next hslash =>
        rw [if_neg hslash] at hm
        obtain ⟨L, hL⟩ := ih hX ((List.mem_cons.mp hm).resolve_left hne)
        exact ⟨x :: L, fun R => by simp [hL R]⟩

end Tokens

variable {source : String} {strict : Bool} {name t : Token} {old new rest r C X : List Token}
  {s : Statement}

theorem Statement.Finds.exists_parts (h : Finds source strict name old C) :
    ∃ X rest, C = X ++ name :: (old ++ rest) ∧ rest.head?.all isTerminator = true := by
  cases h with
  | @here P rest _ hr => exact ⟨P, rest, rfl, hr⟩
  | @within P X rest _ t _ _ _ _ _ hr => exact ⟨P ++ t :: X, rest, by simp, hr⟩

/-- The line of a statement in which other tokens come behind a name. -/
theorem line_exchanged (ho : Ordered (t :: (X ++ name :: (old ++ rest)))) (hn : name.isName = true)
    (hold : ∀ x ∈ old, x.isSignificant = true) (hr : rest.head?.all isTerminator = true)
    (h : EvaluatesLine source strict t (X ++ name :: (old ++ rest)) s r)
    (hm : name ∈ s.expression) : ∃ (L : List Token) (make : List Token → Statement),
      s.expression = L ++ name :: old ∧
      (L ++ name :: old).Sublist (X ++ name :: (old ++ rest)) ∧
      (∀ x ∈ L ++ name :: old, x.isSignificant = true) ∧
      (∀ new rest', (∀ x ∈ new, x.isSignificant = true) → rest'.head?.all isTerminator = true →
        ∀ after, head source strict after t (X ++ name :: (new ++ rest')) =
          .ok (.simple (make (L ++ name :: new)) rest')) ∧
      ∀ {R : Rendering} {v v' : List Token}, R.Spoken v v' → R.Says (make v) (make v') := by
  obtain ⟨A, S, make, hT, hs, hexpr, _, hleads⟩ := h
  rw [hexpr] at hm
  obtain ⟨X', Y, rfl⟩ := List.append_of_mem (line_subset S hm)
  have hordered := ho.sublist (List.sublist_cons_self _ _)
  have hplace : X ++ name :: (old ++ rest) = (A ++ X') ++ name :: Y := by rw [hT, List.append_assoc]
  obtain ⟨rfl, rfl⟩ := hordered.place_unique hplace
  have hX' : name ∉ X' := fun hh => hordered.notMem.1 (List.mem_append_right A hh)
  obtain ⟨L, hL⟩ := lineFrom_through hn (p := 0) hX' hm
  have hline : ∀ new rest', (∀ x ∈ new, x.isSignificant = true) →
      rest'.head?.all isTerminator = true →
      line (X' ++ name :: (new ++ rest')) = (L ++ name :: new, rest') := by
    intro new rest' hnew hr'
    rw [line, hL, line_of_significant hnew hr']
  rw [hline old rest hold hr] at hexpr
  obtain ⟨D, hD, hfilter⟩ := lineFrom_eq 0 (X' ++ name :: (old ++ rest))
  have hkept : L ++ name :: old = D.filter isSignificant :=
    (congrArg Prod.fst (hline old rest hold hr)).symm.trans hfilter
  refine ⟨L, make, hexpr, ?_, fun x hx => ?_, fun new rest' hnew hr' after => ?_, hleads.alike⟩
  · rw [hkept, List.append_assoc, hD]
    exact (List.filter_sublist.trans (List.sublist_append_left D _)).trans
      (List.sublist_append_right A _)
  · rw [hkept] at hx
    exact (List.mem_filter.mp hx).2
  · have hread := hleads.head after (X' ++ name :: (new ++ rest'))
    rw [hline new rest' hnew hr'] at hread
    rw [List.append_assoc]
    exact hread

/-- The statement is found as well if the list ends with it, or goes on with another one. -/
theorem Statement.Finds.cut {rest' : List Token} (h : Finds source strict name old C)
    (ho : Ordered C) (hn : name.isName = true) (hold : ∀ x ∈ old, x.isSignificant = true)
    (hC : C = X ++ name :: (old ++ rest)) (hr' : rest'.head?.all isTerminator = true) :
    Finds source strict name old (X ++ name :: (old ++ rest')) := by
  cases h with
  | here hreach hr =>
    obtain ⟨rfl, -⟩ := ho.place_unique hC
    exact .here (hreach.followed ho _) hr'
  | @within P X' rest₀ r t after s hreach ht hh hr hb hs =>
    have hplace : (P ++ t :: X') ++ name :: (old ++ rest₀) = X ++ name :: (old ++ rest) := by
      rw [← hC, List.append_assoc, List.cons_append]
    obtain ⟨rfl, -⟩ := Ordered.place_unique (by rwa [hplace, ← hC]) hplace
    have hback := ho.sublist (List.sublist_append_right P _)
    obtain ⟨_, _, hparts, _⟩ := hs.exists_parts
    obtain ⟨L, make, -, -, -, hhead, -⟩ :=
      line_exchanged hback hn hold hr (head_evaluates hback hh hb) (by simp [hparts])
    -- the statement is the one that was read before
    have hsame : s = make (L ++ name :: old) :=
      congrArg (fun h : Head => h.finish [])
        (Except.ok.inj (hh.symm.trans (hhead old _ hold hr after)))
    have hh' := hhead old rest' hold hr' after
    rw [← hsame] at hh'
    rw [List.append_assoc, List.cons_append]
    exact .within (hreach.followed ho _) ht hh' hr' hb hs

end Places

section Reading

variable {source text : String} {strict : Bool} {name op : Token} {operand : Int → Token} {i : Int}
  {old new Z : List Token}

/-- Lists in which a statement that is found gives way to another one. -/
def Rendering.beside (source : String) (strict : Bool) (name : Token) (old new : List Token) :
    Rendering where
  source := source
  source' := source
  strict := strict
  ends := Eq
  begins := Eq
  recast C C' := (∀ t ∈ C, t.Whole source strict) ∧ Ordered C ∧ Finds source strict name old C ∧
    ∃ X Y, C = X ++ name :: (old ++ Y) ∧ C' = X ++ name :: (new ++ Y)
  touch := by
    rintro _ _ _ _ rfl rfl
    exact Iff.rfl

theorem Rendering.beside_steady (source : String) (strict : Bool) (name : Token)
    (old new : List Token) : (beside source strict name old new).Steady source strict :=
  ⟨rfl, rfl, rfl, fun _ => rfl, fun _ => rfl⟩

/-- A compound assignment at the beginning of a list is written out. -/
theorem Token.Scattered.reading_like {rest : List Token} {n : Nat} {R : Rendering}
    (h : Scattered source op old Z operand text) (hm : name.isName = true)
    (hw : ∀ t ∈ name :: (old ++ rest), t.Whole source strict)
    (hr : rest.head?.all isTerminator = true) (hn : weightAll (name :: (old ++ rest)) ≤ n)
    (hR : R.Steady source strict)
    (hrecast : ∀ {C C'}, weightAll C < n → R.recast C C' → R.SameReading C C') (after : Bool) :
    SameAnswer (List.Forall₂ R.Says) (reading source strict after (name :: (old ++ rest)))
      (reading source strict after
        (name :: (expansion name.value op.value operand i ++ rest))) := by
  have hname : name.isTerminator = false := by
    have hsig := significant_of_kind (t := name) (by simp [kind_of_isName hm])
    simp only [isSignificant, Bool.and_eq_true, Bool.not_eq_true'] at hsig
    exact hsig.1
  obtain ⟨o, o', v, v', x, x', hold, hnew, hv⟩ := h.assign_like (i := i) hR hm
    (fun t ht => hw t (by
      rcases List.mem_cons.mp ht with rfl | ht
      · simp
      · simp [ht])) hr
  rw [reading_step hname, reading_step hname, head_of_assign hold, head_of_assign hnew]
  have hrest := hR.reading_self false (T := rest) (fun t ht => hw t (by simp [ht]))
    (n := n) (by
      simp only [weightAll, weightAll_append] at hn
      omega) hrecast
  exact hrest.map (fun _ _ hothers => .cons (.assign rfl hv) hothers)

theorem expansion_significant (hl : ∀ i, (operand i).isSignificant = true) :
    ∀ t ∈ expansion name.value op.value operand i, t.isSignificant = true :=
  List.forall_mem_cons.mpr ⟨by rfl, operation_significant _ _ hl _⟩

theorem Token.Scattered.operand_significant (h : Scattered source op old Z operand text) (i : Int) :
    (operand i).isSignificant = true := by
  rcases h.operand_kind i with hk | hk <;> exact significant_of_kind (by simp [hk])

/-- Tokens that start with the word of a block go on to a name. -/
theorem Rendering.Bare.of_name {R : Rendering} {L W W' : List Token} (hm : name.isName = true)
    (hb : (L ++ name :: W).head?.any Eval.startsBlock = true)
    (hn : ∀ x ∈ L ++ name :: W, x.isNewline = false) (hn' : ∀ x ∈ W', x.isNewline = false)
    (h : R.recast (L ++ name :: W) (L ++ name :: W')) :
    R.Bare (L ++ name :: W) (L ++ name :: W') := by
  cases L with
  | nil => exact absurd (startsBlock_keyword hb).1 (by simp [hm])
  | cons t L =>
    obtain ⟨u, V, V', hu, hu'⟩ : ∃ u V V', L ++ name :: W = u :: V ∧ L ++ name :: W' = u :: V' := by
      cases L with
      | nil => exact ⟨_, _, _, rfl, rfl⟩
      | cons u L => exact ⟨_, _, _, rfl, rfl⟩
    have hlines : ∀ x ∈ t :: (L ++ name :: W'), x.isNewline = false := by
      intro x hx
      simp only [List.mem_cons, List.mem_append] at hx hn
      rcases hx with hx | hx | hx | hx
      · exact hn x (.inl (.inl hx))
      · exact hn x (.inl (.inr hx))
      · exact hn x (.inr (.inl hx))
      · exact hn' x hx
    simp only [List.cons_append, hu, hu'] at h hn hlines ⊢
    exact .intro hb hb hn hlines h

/-- Tokens in which a statement is found give way to others. -/
theorem Rendering.bare_beside {L W Y : List Token} (h : Finds source strict name old W)
    (hW : W = L ++ name :: (old ++ Y)) (hm : name.isName = true)
    (hb : W.head?.any Eval.startsBlock = true) (hn : ∀ x ∈ W, x.isNewline = false)
    (hnew : ∀ x ∈ new, x.isSignificant = true) (hw : ∀ t ∈ W, t.Whole source strict)
    (ho : Ordered W) : (beside source strict name old new).Bare W (L ++ name :: (new ++ Y)) := by
  subst hW
  refine .of_name hm hb hn (fun x hx => ?_) ⟨hw, ho, h, L, Y, rfl, rfl⟩
  rcases List.mem_append.mp hx with hx | hx
  · exact not_newline_of_significant (hnew x hx)
  · exact hn x (by simp [hx])

/-- In the line of the first statement other tokens come behind a name. -/
theorem Rendering.beside_line {t : Token} {X rest r : List Token} {s : Statement} {n : Nat}
    {after : Bool} (hm : name.isName = true) (hold : ∀ x ∈ old, x.isSignificant = true)
    (hnew : ∀ x ∈ new, x.isSignificant = true)
    (hw : ∀ u ∈ t :: (X ++ name :: (old ++ rest)), u.Whole source strict)
    (ho : Ordered (t :: (X ++ name :: (old ++ rest)))) (ht : t.isTerminator = false)
    (hh : head source strict after t (X ++ name :: (old ++ rest)) = .ok (.simple s r))
    (hr : rest.head?.all isTerminator = true)
    (hb : s.expression.head?.any Eval.startsBlock = true)
    (hs : Finds source strict name old s.expression)
    (hn : weightAll (t :: (X ++ name :: (old ++ rest))) ≤ n)
    (hrecast : ∀ {C C'}, weightAll C < n → (beside source strict name old new).recast C C' →
      SameReading (beside source strict name old new) C C') (after' : Bool) :
    SameAnswer (List.Forall₂ (beside source strict name old new).Says)
      (reading source strict after' (t :: (X ++ name :: (old ++ rest))))
      (reading source strict after' (t :: (X ++ name :: (new ++ rest)))) := by
  obtain ⟨_, _, hparts, _⟩ := hs.exists_parts
  obtain ⟨L, make, hexpr, hsub, hsig, hhead, halike⟩ :=
    line_exchanged ho hm hold hr (head_evaluates ho hh hb) (by simp [hparts])
  rw [hexpr] at hb hs
  have hline := hsub.cons t
  have hbare := bare_beside (L := L) (Y := []) hs (by simp) hm hb
    (fun x hx => not_newline_of_significant (hsig x hx)) hnew (fun x hx => hw x (hline.subset hx))
    (ho.sublist hline)
  rw [List.append_nil] at hbare
  have hsays := halike (.inr hbare)
  have hrest := (beside_steady source strict name old _).reading_self
    (make (L ++ name :: old)).isCondition (T := rest) (fun u hu => hw u (by simp [hu])) (n := n)
    (by
      simp only [weightAll, weightAll_append] at hn
      omega) hrecast
  have hnone : ofTokens source strict [] = .ok [] := rfl
  rw [reading_step ht, reading_step ht, hhead old rest hold hr, hhead new rest hnew hr]
  simp only [Except.bind, Head.simple, hnone, ← hsays.isCondition_eq]
  exact hrest.map (fun _ _ hothers => .cons hsays hothers)

/-- A list in which a compound assignment is written out where it is found is read alike. -/
theorem Rendering.beside_reads (h : Scattered source op old Z operand text)
    (hm : name.isName = true) :
    (beside source strict name old (expansion name.value op.value operand i)).Reads := by
  have hR := beside_steady source strict name old (expansion name.value op.value operand i)
  intro C C' hC
  induction hw : weightAll C using Nat.strong_induction_on generalizing C C' with
  | _ w ih =>
    subst hw
    have hrecast : ∀ {D D'}, weightAll D < weightAll C →
        (beside source strict name old (expansion name.value op.value operand i)).recast D D' →
        SameReading _ D D' := fun hlt hD => ih _ hlt (.inr hD) rfl
    rcases hC with hC | ⟨hwhole, hordered, hfinds, X, Y, hC, rfl⟩
    · exact hC.sameReading hrecast
    · cases hfinds with
      | @here P rest hreach hr =>
        obtain ⟨rfl, hY⟩ := hordered.place_unique hC
        obtain rfl := List.append_cancel_left hY
        exact hreach.reading_alike rfl rfl hwhole hordered (Nat.le_refl _) hR hrecast
          (h.reading_like hm (fun t ht => hwhole t (List.mem_append_right P ht)) hr
            (by simp [weightAll_append]) hR hrecast)
      | @within P X' rest r t after s hreach ht hh hr hb hs =>
        have hplace : (P ++ t :: X') ++ name :: (old ++ rest) = X ++ name :: (old ++ Y) := by
          rw [← hC, List.append_assoc, List.cons_append]
        obtain ⟨rfl, hY⟩ := Ordered.place_unique (by rwa [hplace, ← hC]) hplace
        obtain rfl := List.append_cancel_left hY
        rw [List.append_assoc, List.cons_append]
        have hback := List.sublist_append_right P (t :: (X' ++ name :: (old ++ rest)))
        exact hreach.reading_alike rfl rfl hwhole hordered (Nat.le_refl _) hR hrecast
          (beside_line hm h.significant (expansion_significant h.operand_significant)
            (fun u hu => hwhole u (hback.subset hu)) (hordered.sublist hback) ht hh hr hb hs
            (by simp [weightAll_append]) hrecast)

end Reading

end Abacus
