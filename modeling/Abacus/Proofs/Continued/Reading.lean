import Abacus.Proofs.Continued.Heads

/-! Reading a list in which a line is continued. The place is between two tokens of an expression, so
no token crosses it. The statement of the expression is read as before; so are those whose blocks the
place is in, and those in front of it. Only a loop whose amount is continued is refused, and with it
all that it is read with. -/

namespace Abacus

open Token Statement

section Cuts

variable {k : Int} {t₁ t₂ : Token} {D P Q E X Y : List Token}

/-- Tokens none of which crosses a place are in front of it or behind it. -/
theorem exists_cut (hD : Ordered D) (hc : ∀ x ∈ D, ¬ x.Crosses k) :
    ∃ D₁ D₂, D = D₁ ++ D₂ ∧ (∀ x ∈ D₁, x.stop ≤ k) ∧ ∀ x ∈ D₂, k ≤ x.index := by
  induction D with
  | nil => exact ⟨[], [], rfl, by simp, by simp⟩
  | cons x D ih =>
    by_cases hx : x.stop ≤ k
    · obtain ⟨D₁, D₂, rfl, h₁, h₂⟩ := ih (hD.sublist (List.sublist_cons_self x D))
        (fun y hy => hc y (List.mem_cons_of_mem x hy))
      exact ⟨x :: D₁, D₂, rfl, List.forall_mem_cons.mpr ⟨hx, h₁⟩, h₂⟩
    · have hk : k ≤ x.index := by
        by_contra hlt
        exact hc x List.mem_cons_self ⟨by omega, by omega⟩
      refine ⟨[], x :: D, rfl, by simp, List.forall_mem_cons.mpr ⟨hk, fun y hy => ?_⟩⟩
      have hle : x.stop ≤ y.index := (List.pairwise_cons.mp hD.pairwise).1 y hy
      omega

/-- Of tokens that follow each other none crosses a place between two neighbours. -/
theorem side_of_pair (hE : Ordered (X ++ t₁ :: t₂ :: Y)) (h₁ : t₁.stop ≤ k) (h₂ : k ≤ t₂.index) :
    (∀ x ∈ X ++ [t₁], x.stop ≤ k) ∧ ∀ x ∈ t₂ :: Y, k ≤ x.index := by
  obtain ⟨_, hrest, hfront⟩ := List.pairwise_append.mp hE.pairwise
  have hbehind := (List.pairwise_cons.mp (List.pairwise_cons.mp hrest).2).1
  have hlt₁ := (hE.placed t₁ (by simp)).index_lt_stop
  have hlt₂ := (hE.placed t₂ (by simp)).index_lt_stop
  constructor
  · intro x hx
    rcases List.mem_append.mp hx with hx | hx
    · have hle : x.stop ≤ t₁.index := hfront x hx t₁ List.mem_cons_self
      omega
    · rw [List.mem_singleton.mp hx]
      exact h₁
  · refine List.forall_mem_cons.mpr ⟨h₂, fun x hx => ?_⟩
    have hle : t₂.stop ≤ x.index := hbehind x hx
    omega

/-- A place between two tokens of an expression cuts the tokens it was read from. -/
theorem run_cut (ho : Ordered (P ++ D ++ Q))
    (hw : ∀ x ∈ D, x.isSignificant = false → ¬ x.Crosses k)
    (hE : E = D.filter isSignificant ∨ ∃ t, P = [t] ∧ E = t :: D.filter isSignificant)
    (he : E = X ++ t₁ :: t₂ :: Y) (h₁ : t₁.stop ≤ k) (h₂ : k ≤ t₂.index) :
    ∃ D₁ D₂, D = D₁ ++ D₂ ∧ (∀ x ∈ P ++ D₁, x.stop ≤ k) ∧ (∀ x ∈ D₂, k ≤ x.index) ∧ D₂ ≠ [] ∧
      ∀ x ∈ Q, k < x.index := by
  have hsub : E.Sublist (P ++ D) := by
    rcases hE with rfl | ⟨t, rfl, rfl⟩
    · exact List.filter_sublist.trans (List.sublist_append_right P D)
    · exact List.filter_sublist.cons_cons t
  obtain ⟨hfront, hback⟩ := side_of_pair
    (he ▸ ho.sublist (hsub.trans (List.sublist_append_left (P ++ D) Q))) h₁ h₂
  have hD := ho.sublist ((List.sublist_append_right P D).trans (List.sublist_append_left _ Q))
  have hcross : ∀ x ∈ D, ¬ x.Crosses k := by
    rintro x hx ⟨hstart, hstop⟩
    cases hs : x.isSignificant with
    | false => exact hw x hx hs ⟨hstart, hstop⟩
    | true =>
      have hm := List.mem_filter.mpr ⟨hx, hs⟩
      have hxE : x ∈ X ++ [t₁] ∨ x ∈ t₂ :: Y := by
        rw [← List.mem_append, List.append_assoc, List.singleton_append, ← he]
        rcases hE with rfl | ⟨t, _, rfl⟩
        · exact hm
        · exact List.mem_cons_of_mem t hm
      rcases hxE with hxE | hxE
      · have := hfront x hxE
        omega
      · have := hback x hxE
        omega
  have ht₂ : t₂ ∈ D := by
    refine List.mem_of_mem_filter (p := isSignificant) ?_
    rcases hE with rfl | ⟨t, _, rfl⟩
    · simp [he]
    · cases X with
      | nil => simp [(List.cons.inj he).2]
      | cons x X => simp [(List.cons.inj he).2]
  obtain ⟨D₁, D₂, rfl, hD₁, hD₂⟩ := exists_cut hD hcross
  have hlt₂ := (hD.placed t₂ ht₂).index_lt_stop
  have hP : ∀ x ∈ P, x.stop ≤ k := by
    intro x hx
    rcases hE with rfl | ⟨t, rfl, rfl⟩
    · have ht₁ : t₁ ∈ D₁ ++ D₂ := List.mem_of_mem_filter (p := isSignificant) (by simp [he])
      have hle : x.stop ≤ t₁.index :=
        (List.pairwise_append.mp (List.pairwise_append.mp ho.pairwise).1).2.2 x hx t₁ ht₁
      have hlt₁ := (hD.placed t₁ ht₁).index_lt_stop
      omega
    · refine hfront x ?_
      cases X with
      | nil => simpa [(List.cons.inj he).1] using hx
      | cons y X => simp_all
  refine ⟨D₁, D₂, rfl, fun x hx => ?_, hD₂, ?_, fun x hx => ?_⟩
  · exact (List.mem_append.mp hx).elim (hP x) (hD₁ x)
  · rintro rfl
    have hle := hD₁ t₂ (by simpa using ht₂)
    omega
  · have hle : t₂.stop ≤ x.index :=
      (List.pairwise_append.mp ho.pairwise).2.2 t₂ (List.mem_append_right P ht₂) x hx
    omega

end Cuts

section Heads

variable {source : String} {strict after : Bool} {k : Int} {t : Token} {rest : List Token} {h : Head}
  {body : List Statement}

section Continued

variable {t₁ t₂ : Token} {A S E X Y : List Token}

/-- A line that is continued at a place is read as before. -/
theorem line_cut (ho : Ordered (t :: (A ++ S)))
    (hw : ∀ x ∈ A ++ S, x.isSignificant = false → ¬ x.Crosses k)
    (hE : E = (line S).1 ∨ A = [] ∧ E = t :: (line S).1)
    (he : E = X ++ t₁ :: t₂ :: Y) (h₁ : t₁.stop ≤ k) (h₂ : k ≤ t₂.index) :
    ∃ D₁ D₂, S = D₁ ++ D₂ ∧ (∀ x ∈ t :: (A ++ D₁), x.stop ≤ k) ∧ (∀ x ∈ D₂, k ≤ x.index) ∧
      D₂ ≠ [] ∧ (∀ x ∈ (line S).2, k < x.index) ∧
      line (D₁ ++ continuation k ++ D₂) = line S := by
  obtain ⟨D, hD, hline⟩ := lineFrom_eq 0 S
  change (line S).1 = _ at hline
  have hE' : E = D.filter isSignificant ∨ ∃ x, t :: A = [x] ∧ E = x :: D.filter isSignificant := by
    rw [hline] at hE
    exact hE.imp id (fun ⟨hA, hE⟩ => ⟨t, by rw [hA], hE⟩)
  generalize hR : (lineFrom 0 S).2 = R at hD
  subst hD
  obtain ⟨D₁, D₂, rfl, hfront, hback, hne, hQ⟩ := run_cut (P := t :: A) (by simpa using ho)
    (fun x hx => hw x (by simp [hx])) hE' he h₁ h₂
  refine ⟨D₁, D₂ ++ R, by simp, hfront,
    List.forall_mem_append.mpr ⟨hback, fun x hx => Int.le_of_lt (hQ x hx)⟩, by simp [hne], ?_, ?_⟩
  · simpa only [line, hR] using hQ
  · rw [List.append_assoc D₁ D₂ R]
    refine lineFrom_continued ?_
    rw [← List.append_assoc, hR, List.length_append]
    omega

/-- A condition that is continued at a place is read as before, with the block behind it. -/
theorem block_cut {block : Token} {R : List Token} (ho : Ordered (t :: (A ++ S)))
    (hw : ∀ x ∈ A ++ S, x.isSignificant = false → ¬ x.Crosses k)
    (hfound : blockFrom 0 S = some (E, block, R))
    (he : E = X ++ t₁ :: t₂ :: Y) (h₁ : t₁.stop ≤ k) (h₂ : k ≤ t₂.index) :
    ∃ D₁ D₂, S = D₁ ++ D₂ ∧ (∀ x ∈ t :: (A ++ D₁), x.stop ≤ k) ∧ (∀ x ∈ D₂, k ≤ x.index) ∧
      D₂ ≠ [] ∧ (∀ x ∈ block.children ++ R, k < x.index) ∧
      blockFrom 0 (D₁ ++ continuation k ++ D₂) = some (E, block, R) := by
  obtain ⟨D, rfl, hE, hisBlock⟩ := blockFrom_eq hfound
  obtain ⟨D₁, D₂, rfl, hfront, hback, _, hQ⟩ := run_cut (P := t :: A) (by simpa using ho)
    (fun x hx => hw x (by simp [hx])) (.inl hE) he h₁ h₂
  obtain ⟨hblock, hR⟩ := List.forall_mem_cons.mp hQ
  have hinner : ∀ x ∈ block.children, k < x.index := by
    intro x hx
    rw [← contents_of_inside hisBlock] at hx
    exact Int.lt_trans hblock ((ho.placed block (by simp)).contents_inside hx).1
  refine ⟨D₁, D₂ ++ block :: R, by simp, hfront,
    List.forall_mem_append.mpr ⟨hback, fun x hx => Int.le_of_lt (hQ x hx)⟩, by simp,
    List.forall_mem_append.mpr ⟨hinner, hR⟩, ?_⟩
  refine blockFrom_continued (by simpa using hfound) ?_
  simp only [List.length_append, List.length_cons]
  omega

/-- A statement whose expression is continued at a place is read as before. -/
theorem head_continued (ho : Ordered (t :: rest))
    (hw : ∀ x ∈ rest, x.isSignificant = false → ¬ x.Crosses k)
    (hh : head source strict after t rest = .ok h)
    (hk : (h.finish body).kind.isCounted = false)
    (he : (h.finish body).expression = X ++ t₁ :: t₂ :: Y) (h₁ : t₁.stop ≤ k) (h₂ : k ≤ t₂.index) :
    ∃ U V, rest = U ++ V ∧ (∀ x ∈ t :: U, x.stop ≤ k) ∧ (∀ x ∈ V, k ≤ x.index) ∧ V ≠ [] ∧
      (∀ x ∈ h.inner ++ h.rest, k < x.index) ∧
      head source strict after t (U ++ continuation k ++ V) = .ok h := by
  have hne : ([] : List Token) ≠ X ++ t₁ :: t₂ :: Y := by simp
  have hform := head_form (fun r => ∃ U V, rest = U ++ V ∧ r = U ++ continuation k ++ V) ho
    (fun hnone r ⟨U, V, hrest, hr⟩ => by
      subst hrest hr
      rw [List.append_assoc]
      exact special_kept rfl rfl (fun hh => absurd hh Bool.false_ne_true) hnone) hh
  cases hform with
  | line A S make hexpr _ hread =>
    have hE : (make (line S).1).expression = (line S).1 ∨
        A = [] ∧ (make (line S).1).expression = t :: (line S).1 := by
      rcases hexpr with hexpr | hexpr | hexpr
      · exact .inl hexpr
      · exact .inr hexpr
      · exact absurd (hexpr.symm.trans he) hne
    obtain ⟨D₁, D₂, rfl, hfront, hback, hne₂, hQ, hline⟩ := line_cut ho hw hE he h₁ h₂
    refine ⟨A ++ D₁, D₂, by simp, hfront, hback, hne₂,
      by simpa only [Head.simple, List.nil_append] using hQ, ?_⟩
    have hfound := hread (D₁ ++ continuation k ++ D₂) ⟨A ++ D₁, D₂, by simp, by simp⟩
    rw [hline] at hfound
    simpa using hfound
  | @condition A S condition R block make hfound hexpr _ hread =>
    obtain ⟨D₁, D₂, rfl, hfront, hback, hne₂, hQ, hfound'⟩ :=
      block_cut ho hw hfound ((hexpr body).symm.trans he) h₁ h₂
    refine ⟨A ++ D₁, D₂, by simp, hfront, hback, hne₂, hQ, ?_⟩
    simpa using hread _ _ _ hfound'
  | block A R make _ hexpr _ _ =>
    rcases hexpr body with hnil | hcounted
    · exact absurd (hnil.symm.trans he) hne
    · exact absurd (hcounted.symm.trans hk) (by simp)
  | short A R s hexpr _ _ => exact absurd (hexpr.symm.trans he) hne

end Continued

/-- A statement is read as before when its block holds other tokens. -/
theorem head_refilled (ho : Ordered (t :: rest)) (hh : head source strict after t rest = .ok h)
    (hi : h.inner ≠ []) : ∃ U b, rest = U ++ b :: h.rest ∧ b.isBlock = true ∧ h.inner = b.children ∧
      (∀ body, (h.finish body).text? = none) ∧
      ∀ b', b'.isBlock = true → b'.kind = .group → b'.stop = b.stop →
        head source strict after t (U ++ b' :: h.rest) = .ok ⟨b'.children, h.finish, h.rest⟩ := by
  have hform := head_form (fun _ => False) ho (fun _ _ hr => hr.elim) hh
  cases hform with
  | line A S make _ _ _ => exact absurd rfl hi
  | @condition A _ condition R block make hfound _ htext hread =>
    obtain ⟨D, rfl, hD⟩ := blockFrom_replaced hfound
    obtain ⟨_, _, _, hblock⟩ := blockFrom_eq hfound
    refine ⟨A ++ D, block, by simp, hblock, rfl, htext, fun b' hb' _ hstop => ?_⟩
    have hread' := hread _ _ _ (hD b' R hb')
    rw [hstop] at hread'
    simpa using hread'
  | @block A R block make hblock _ htext hread =>
    refine ⟨A, block, rfl, hblock, rfl, htext, fun b' hb' hk hstop => ?_⟩
    have hread' := hread b' R hb' hk
    rwa [hstop] at hread'
  | short A R s _ _ _ => exact absurd rfl hi

/-- A statement is read as before when other tokens follow the first one behind it. -/
theorem head_followed {r : Token} {X : List Token} (ho : Ordered (t :: rest))
    (hh : head source strict after t rest = .ok h) (hr : h.rest = r :: X) :
    ∃ U, rest = U ++ r :: X ∧ ∀ Y, head source strict after t (U ++ r :: Y) =
      .ok ⟨h.inner, h.finish, r :: Y⟩ := by
  have hkept : special? source strict after t rest = none →
      ∀ r', (∃ U Y, rest = U ++ r :: X ∧ r' = U ++ r :: Y ∧ r.isTerminator = true) →
        special? source strict after t r' = none := by
    rintro hnone _ ⟨U, Y, rfl, rfl, hend⟩
    have hz : r.isSignificant = false := by simp [isSignificant, hend]
    obtain ⟨kind, value, index, stop, rfl⟩ := (ho.placed r (by simp)).eq_leaf
      (by simp [(kind_of_not_significant hz).1]) (by simp [(kind_of_not_significant hz).1])
    exact special_kept hz rfl (fun _ => by simpa using hend) hnone
  have hform := head_form _ ho hkept hh
  cases hform with
  | line A S make _ _ hread =>
    obtain ⟨hend, D, rfl, hD⟩ := lineFrom_ended (Prod.ext rfl hr)
    refine ⟨A ++ D, by simp, fun Y => ?_⟩
    have hread' := hread (D ++ r :: Y) ⟨A ++ D, Y, by simp, by simp, hend⟩
    have hline : line (D ++ r :: Y) = ((line (D ++ r :: X)).1, r :: Y) := hD Y
    rw [hline, ← List.append_assoc] at hread'
    exact hread'
  | @condition A _ condition R block make hfound _ _ hread =>
    obtain rfl : R = r :: X := hr
    obtain ⟨D, rfl, hD⟩ := blockFrom_replaced hfound
    obtain ⟨_, _, _, hblock⟩ := blockFrom_eq hfound
    refine ⟨A ++ D ++ [block], by simp, fun Y => ?_⟩
    simpa using hread _ _ _ (hD block (r :: Y) hblock)
  | @block A R block make hblock _ _ hread =>
    obtain rfl : R = r :: X := hr
    obtain ⟨inner, hinner⟩ := Option.isSome_iff_exists.mp hblock
    have hk := ((ho.placed block (by simp)).kind_of_inside hinner).1
    exact ⟨A ++ [block], by simp, fun Y => by simpa using hread block (r :: Y) hblock hk⟩
  | short A R s _ _ hread =>
    obtain rfl : R = r :: X := hr
    exact ⟨A, rfl, fun Y => hread (r :: Y) rfl⟩

/-- The amount of a loop cannot be continued. -/
theorem head_refused {t₁ t₂ : Token} {X Y : List Token} (ht : t.Placed)
    (hh : head source strict after t rest = .ok h) (hk : (h.finish body).kind.isCounted = true)
    (he : (h.finish body).expression = X ++ t₁ :: t₂ :: Y) :
    ∃ V, rest = X ++ t₁ :: t₂ :: V ∧ head source strict after t
      (X ++ t₁ :: (continuation k ++ t₂ :: V)) =
        .error (t.fault "Expected 'times' after the repeat amount.") := by
  obtain ⟨⟨R, hfound⟩, hfirst⟩ := head_counted ht hh hk
  obtain ⟨times, rfl, _⟩ := amountFrom_eq hfound
  rw [he] at hfound hfirst ⊢
  have hnone : amountFrom (X ++ t₁ :: (continuation k ++ t₂ :: (Y ++ times :: R))) = none := by
    have h := amountFrom_continued (k := k) (U := X ++ [t₁]) (V := t₂ :: (Y ++ times :: R))
      (by simpa using hfound) (by simp only [List.length_cons, List.length_append]; omega)
    simpa using h
  refine ⟨Y ++ times :: R, by simp, ?_⟩
  rw [hfirst _ (by cases X <;> rfl), timesHead, hnone]

end Heads

/-- A list with a continuation put between two neighbours of it, or inside one of its groups. -/
inductive Spliced (k : Int) : List Token → List Token → Prop where
  | here {U V : List Token} {t₁ t₂ : Token} (h₁ : t₁.stop ≤ k) (h₂ : k ≤ t₂.index) :
      Spliced k (U ++ t₁ :: t₂ :: V) (U ++ t₁ :: (continuation k ++ t₂ :: V))
  | inside {U V C C' : List Token} {value : String} {index stop : Int} {opener closer : Token}
      (h : Spliced k C C') :
      Spliced k (U ++ .group .group value index stop C opener closer :: V)
        (U ++ .group .group value index stop C' opener closer :: V)

namespace Spliced

variable {k : Int} {T T' U V : List Token}

theorem prepend (h : Spliced k T T') (P : List Token) : Spliced k (P ++ T) (P ++ T') := by
  cases h with
  | here h₁ h₂ =>
    simp only [← List.append_assoc]
    exact .here h₁ h₂
  | inside h =>
    simp only [← List.append_assoc]
    exact .inside h

theorem of_append (hU : ∀ x ∈ U, x.stop ≤ k) (hV : ∀ x ∈ V, k ≤ x.index) (hu : U ≠ [])
    (hv : V ≠ []) : Spliced k (U ++ V) (U ++ continuation k ++ V) := by
  obtain ⟨t₂, V, rfl⟩ := List.exists_cons_of_ne_nil hv
  have hlast : U = U.dropLast ++ [U.getLast hu] := (List.dropLast_append_getLast hu).symm
  have h := Spliced.here (U := U.dropLast) (V := V) (hU _ (List.getLast_mem hu))
    (hV t₂ List.mem_cons_self)
  rw [hlast]
  simpa using h

/-- The place is behind the start of some token and in front of the stop of some token. -/
theorem covers (h : Spliced k T T') (hT : Ordered T) :
    (∃ x ∈ T, x.index < k) ∧ ∃ x ∈ T, k < x.stop := by
  induction h with
  | @here U V t₁ t₂ h₁ h₂ =>
    have hlt₁ := (hT.placed t₁ (by simp)).index_lt_stop
    have hlt₂ := (hT.placed t₂ (by simp)).index_lt_stop
    exact ⟨⟨t₁, by simp, by omega⟩, t₂, by simp, by omega⟩
  | @inside U V C C' value index stop opener closer h ih =>
    have hg := hT.placed (.group .group value index stop C opener closer) (by simp)
    obtain ⟨⟨x, hx, hxk⟩, y, hy, hyk⟩ := ih hg.contents_ordered
    have hxi := (hg.contents_inside hx).1
    have hyi := (hg.contents_inside hy).2
    exact ⟨⟨_, by simp, Int.lt_trans hxi hxk⟩, _, by simp, Int.lt_of_lt_of_le hyk hyi⟩

end Spliced

/-- Tokens of a source of `n` characters that are all strictly on one side of a place. -/
def Token.Aside (n k : Int) (T : List Token) : Prop :=
  (∀ x ∈ T, 0 ≤ x.index ∧ x.index ≤ x.stop ∧ x.stop < k) ∨
    ∀ x ∈ T, k < x.index ∧ x.index ≤ x.stop ∧ x.stop ≤ n

namespace Token.Aside

variable {n k : Int} {T T' : List Token}

theorem subset (h : Aside n k T) (hs : T' ⊆ T) : Aside n k T' :=
  h.imp (fun h x hx => h x (hs hx)) (fun h x hx => h x (hs hx))

theorem contents {b : Token} (h : Aside n k T) (hb : b ∈ T) (hp : b.Placed) :
    Aside n k b.contents := by
  refine h.imp (fun h x hx => ?_) (fun h x hx => ?_)
  · have hlt := (hp.contents_ordered.placed x hx).index_lt_stop
    obtain ⟨hi, hj⟩ := hp.contents_inside hx
    have := h b hb
    omega
  · have hlt := (hp.contents_ordered.placed x hx).index_lt_stop
    obtain ⟨hi, hj⟩ := hp.contents_inside hx
    have := h b hb
    omega

end Token.Aside

/-- A token of a source of `n` characters. If it ends or joins lines, it does not cross the place. -/
structure Token.Solid (n k : Int) (t : Token) : Prop where
  start : 0 ≤ t.index
  within : t.stop ≤ n
  whole : t.isSignificant = false → ¬ t.Crosses k

/-- A list is read so that no text which a statement shows goes across the place. -/
inductive ReadsAround (source : String) (strict : Bool) (k : Int) :
    Bool → List Token → List Statement → Prop where
  | done {after : Bool} : ReadsAround source strict k after [] []
  | skip {after : Bool} {t : Token} {rest : List Token} {body : List Statement}
      (ht : t.isTerminator = true) (h : ReadsAround source strict k after rest body) :
      ReadsAround source strict k after (t :: rest) body
  | cons {after : Bool} {t : Token} {rest : List Token} {h : Head} {body others : List Statement}
      (ht : t.isTerminator = false) (hh : head source strict after t rest = .ok h)
      (hs : ∀ text, (h.finish body).text? = some text → Aside source.length k (line rest).1)
      (hi : ReadsAround source strict k false h.inner body)
      (ho : ReadsAround source strict k (h.finish body).isCondition h.rest others) :
      ReadsAround source strict k after (t :: rest) (h.finish body :: others)

section Reading

variable {source : String} {strict after : Bool} {k : Int} {T : List Token} {body : List Statement}

/-- The block of a statement is inside one of its tokens. -/
theorem Statement.Head.Takes.inner_inside {used : List Token} {h : Head}
    (hu : h.Takes source used) : h.inner = [] ∨ ∃ b ∈ used, h.inner = b.contents := by
  rcases hu.block with ⟨hinner, _⟩ | ⟨kept, b, rfl, _, hblock, hinner, _⟩
  · exact .inl hinner
  · exact .inr ⟨b, by simp, hinner.trans (contents_of_inside hblock).symm⟩

theorem Statement.Head.Takes.inner_aside {used : List Token} {h : Head} {n : Int}
    (hu : h.Takes source used) (hT : Ordered used) (hk : Aside n k used) :
    Ordered h.inner ∧ Aside n k h.inner := by
  rcases hu.inner_inside with hinner | ⟨b, hb, hinner⟩
  · rw [hinner]
    exact ⟨⟨.nil, by simp⟩, .inl (by simp)⟩
  · rw [hinner]
    exact ⟨(hT.placed b hb).contents_ordered, hk.contents hb (hT.placed b hb)⟩

/-- What is all on one side of the place is read around it. -/
theorem ReadsTo.around (h : ReadsTo source strict after T (.ok body)) (hT : Ordered T)
    (hk : Aside source.length k T) : ReadsAround source strict k after T body := by
  induction h using ReadsTo.ok_induction with
  | done => exact .done
  | @skip after t rest body ht _ ih =>
    have hsub := List.sublist_cons_self t rest
    exact .skip ht (ih (hT.sublist hsub) (hk.subset hsub.subset))
  | @cons after t rest h body others ht hh _ _ ihi iho =>
    obtain ⟨used, heq, hused⟩ := head_takes hh
    have husedT : used.Sublist (t :: rest) := heq ▸ List.sublist_append_left used h.rest
    have hrest : h.rest.Sublist (t :: rest) := heq ▸ List.sublist_append_right used h.rest
    have hline : (line rest).1 ⊆ t :: rest :=
      List.Subset.trans (line_subset rest) (List.subset_cons_self t rest)
    obtain ⟨hinner, hinnerk⟩ := hused.inner_aside (hT.sublist husedT) (hk.subset husedT.subset)
    exact .cons ht hh (fun _ _ => hk.subset hline) (ihi hinner hinnerk)
      (iho (hT.sublist hrest) (hk.subset hrest.subset))

theorem text_of_expression {s : Statement} (h : s.expression ≠ []) : s.text? = none := by
  cases s with
  | print | throw => exact absurd rfl h
  | _ => rfl

/-- The first statement of a list whose tokens all have a property, and how the list is read. -/
structure ReadsFirst (source : String) (strict : Bool) (P : Token → Prop) (after : Bool) (t : Token)
    (rest : List Token) (h : Head) (body others : List Statement) : Prop where
  ordered : Ordered (t :: rest)
  each : ∀ x ∈ t :: rest, P x
  starts : t.isTerminator = false
  head : head source strict after t rest = .ok h
  block : ReadsTo source strict false h.inner (.ok body)
  behind : ReadsTo source strict (h.finish body).isCondition h.rest (.ok others)

/-- A statement is reached from the list that its program is read from: it is the first of a list, in
the block of the first, or behind it. -/
theorem ReadsTo.reach {P : Token → Prop} {M : Bool → List Token → List Statement → Prop}
    {block : List Statement} {s : Statement} (h : ReadsTo source strict after T (.ok body))
    (hT : Ordered T) (hP : ∀ x, InForest T x → P x) (hn : Nested body block) (hs : s ∈ block)
    (skip : ∀ {after t rest body}, t.isTerminator = true → M after rest body →
      M after (t :: rest) body)
    (here : ∀ {after t rest h body others},
      ReadsFirst source strict P after t rest h body others → h.finish body = s →
        M after (t :: rest) (h.finish body :: others))
    (inside : ∀ {after t rest h body others},
      ReadsFirst source strict P after t rest h body others → M false h.inner body →
        M after (t :: rest) (h.finish body :: others))
    (behind : ∀ {after t rest h body others},
      ReadsFirst source strict P after t rest h body others →
        M (h.finish body).isCondition h.rest others →
          M after (t :: rest) (h.finish body :: others)) : M after T body := by
  induction h using ReadsTo.ok_induction generalizing block with
  | done =>
    cases hn with
    | here => cases hs
    | into hs' _ _ => cases hs'
  | @skip after t rest body ht _ ih =>
    have hsub := List.sublist_cons_self t rest
    exact skip ht (ih (hT.sublist hsub) (fun x hx => hP x (hx.mono hsub.subset)) hn hs)
  | @cons after t rest h body others ht hh hi ho ihi iho =>
    have hfirst : ReadsFirst source strict P after t rest h body others :=
      ⟨hT, fun x hx => hP x ⟨_, .here _, hx⟩, ht, hh, hi, ho⟩
    obtain ⟨used, heq, hused⟩ := head_takes hh
    have hrest : h.rest.Sublist (t :: rest) := heq ▸ List.sublist_append_right used h.rest
    have hbehind : ∀ block, Nested others block → s ∈ block →
        M after (t :: rest) (h.finish body :: others) := fun _ hn hs =>
      behind hfirst (iho (hT.sublist hrest) (fun x hx => hP x (hx.mono hrest.subset)) hn hs)
    cases hn with
    | here =>
      rcases List.mem_cons.mp hs with rfl | hs
      · exact here hfirst rfl
      · exact hbehind others (.here others) hs
    | @into _ inner _ s' hs' hb hn =>
      rcases List.mem_cons.mp hs' with rfl | hs'
      · rcases hused.block with ⟨_, hnone⟩ | ⟨kept, b, rfl, _, hblock, hinner, hbody⟩
        · cases (hnone body).symm.trans hb
        · obtain rfl : body = inner := Option.some.inj ((hbody body).1.symm.trans hb)
          have hm : b ∈ t :: rest := by simp [heq]
          have hcontents := (contents_of_inside hblock).trans hinner.symm
          exact inside hfirst (ihi (hcontents ▸ (hT.placed b hm).contents_ordered)
            (fun x hx => hP x (InForest.of_children hm hblock (hinner ▸ hx))) hn hs)
      · exact hbehind block (.into hs' hb hn) hs

section Steps

variable {P : Token → Prop} {t r : Token} {rest R R' : List Token} {h : Head}
  {others : List Statement}

/-- The place is in the block of the first statement, so the block holds what is put there. -/
theorem ReadsFirst.splice_inside (hf : ReadsFirst source strict P after t rest h body others)
    (hr : h.inner = r :: R) (hs : Spliced k (r :: R) (r :: R')) :
    ∃ rest', Spliced k (t :: rest) (t :: rest') ∧
      Statement.head source strict after t rest' = .ok ⟨r :: R', h.finish, h.rest⟩ ∧
      (∀ body, (h.finish body).text? = none) ∧ ∀ x ∈ h.rest, k < x.index := by
  have hT := hf.ordered
  obtain ⟨U, b, rfl, hblock, hinner, htext, hfound⟩ := head_refilled hT hf.head (by simp [hr])
  cases hT.placed b (by simp) with
  | leaf _ => simp [isBlock, inside?] at hblock
  | call _ _ => simp [isBlock, inside?] at hblock
  | @group value index stop C opener closer hlt hc hin hpairwise =>
  obtain rfl : C = r :: R := hinner.symm.trans hr
  refine ⟨U ++ .group .group value index stop (r :: R') opener closer :: h.rest,
    hs.inside (U := t :: U), hfound _ ?_ rfl rfl, htext, fun x hx => ?_⟩
  · simpa [isBlock, inside?] using hblock
  · obtain ⟨_, y, hy, hyk⟩ := hs.covers ⟨hpairwise, hc⟩
    have hle : stop ≤ x.index := (List.pairwise_cons.mp (List.pairwise_append.mp
      (List.pairwise_cons.mp hT.pairwise).2).2.1).1 x hx
    have hstop := (hin y hy).2
    omega

/-- The place is behind the first statement, so what is put there is, too. -/
theorem ReadsFirst.splice_behind (hf : ReadsFirst source strict P after t rest h body others)
    (hr : h.rest = r :: R) (hs : Spliced k (r :: R) (r :: R')) :
    ∃ U, rest = U ++ r :: R ∧ Spliced k (t :: rest) (t :: (U ++ r :: R')) ∧
      Statement.head source strict after t (U ++ r :: R') = .ok ⟨h.inner, h.finish, r :: R'⟩ := by
  obtain ⟨U, rfl, hfound⟩ := head_followed hf.ordered hf.head hr
  exact ⟨U, rfl, hs.prepend (t :: U), hfound R'⟩

end Steps

section Expressions

variable {t : Token} {rest : List Token} {h : Head} {others : List Statement}

/-- With a continuation put at the place, somewhere behind its first token, the list is read as
before. -/
def Continues (source : String) (strict : Bool) (k : Int) (after : Bool) (T : List Token)
    (body : List Statement) : Prop :=
  ∃ r R R', T = r :: R ∧ Spliced k (r :: R) (r :: R') ∧
    ReadsAround source strict k after (r :: R') body

theorem aside_of_behind {n : Int} {R : List Token} (hR : Ordered R) (hw : ∀ x ∈ R, x.Solid n k)
    (h : ∀ x ∈ R, k < x.index) : Aside n k R :=
  .inr fun x hx => ⟨h x hx, Int.le_of_lt (hR.placed x hx).index_lt_stop, (hw x hx).within⟩

/-- The statements behind the first are read around a place in front of them. -/
theorem ReadsFirst.behind_around
    (hf : ReadsFirst source strict (Solid source.length k) after t rest h body others)
    (hk : ∀ x ∈ h.rest, k < x.index) :
    ReadsAround source strict k (h.finish body).isCondition h.rest others := by
  obtain ⟨used, heq, _⟩ := head_takes hf.head
  have hrest : h.rest.Sublist (t :: rest) := heq ▸ List.sublist_append_right used h.rest
  have hR := hf.ordered.sublist hrest
  exact hf.behind.around hR (aside_of_behind hR (fun x hx => hf.each x (hrest.subset hx)) hk)

/-- The place is in the expression of the first statement. -/
theorem continues_here {t₁ t₂ : Token} {X Y : List Token}
    (hf : ReadsFirst source strict (Solid source.length k) after t rest h body others)
    (hk : (h.finish body).kind.isCounted = false)
    (he : (h.finish body).expression = X ++ t₁ :: t₂ :: Y) (h₁ : t₁.stop ≤ k) (h₂ : k ≤ t₂.index) :
    Continues source strict k after (t :: rest) (h.finish body :: others) := by
  obtain ⟨used, heq, hused⟩ := head_takes hf.head
  obtain ⟨U, V, rfl, hfront, hback, hV, hbehind, hfound⟩ := head_continued hf.ordered
    (fun x hx => (hf.each x (List.mem_cons_of_mem t hx)).whole) hf.head hk he h₁ h₂
  obtain ⟨hinner, hothers⟩ := List.forall_mem_append.mp hbehind
  refine ⟨t, _, U ++ continuation k ++ V, rfl,
    Spliced.of_append hfront hback (List.cons_ne_nil t U) hV, .cons hf.starts hfound ?_ ?_
      (hf.behind_around hothers)⟩
  · intro text htext
    rw [text_of_expression (by simp [he])] at htext
    cases htext
  · have hi := hf.block
    rcases hused.inner_inside with hnil | ⟨b, hb, hcontents⟩
    · rw [hnil] at hi ⊢
      exact hi.around ⟨.nil, by simp⟩ (.inl (by simp))
    · have hm : b ∈ t :: (U ++ V) := heq ▸ List.mem_append_left _ hb
      have hplaced := hf.ordered.placed b hm
      rw [hcontents] at hi hinner ⊢
      exact hi.around hplaced.contents_ordered (.inr fun x hx =>
        ⟨hinner x hx, Int.le_of_lt (hplaced.contents_ordered.placed x hx).index_lt_stop,
          Int.le_trans (hplaced.contents_inside hx).2 (hf.each b hm).within⟩)

/-- The place is in the block of the first statement. -/
theorem continues_inside
    (hf : ReadsFirst source strict (Solid source.length k) after t rest h body others)
    (hi : Continues source strict k false h.inner body) :
    Continues source strict k after (t :: rest) (h.finish body :: others) := by
  obtain ⟨r, R, R', hr, hsplice, hread⟩ := hi
  obtain ⟨rest', hsplice, hfound, htext, hside⟩ := hf.splice_inside hr hsplice
  refine ⟨t, rest, rest', rfl, hsplice, .cons (h := ⟨r :: R', h.finish, h.rest⟩) hf.starts hfound
    (fun text ht => ?_) hread (hf.behind_around hside)⟩
  cases (htext body).symm.trans ht

/-- The place is behind the first statement. -/
theorem continues_behind
    (hf : ReadsFirst source strict (Solid source.length k) after t rest h body others)
    (ho : Continues source strict k (h.finish body).isCondition h.rest others) :
    Continues source strict k after (t :: rest) (h.finish body :: others) := by
  obtain ⟨r, R, R', hr, hrest, hread⟩ := ho
  obtain ⟨U, rfl, hsplice, hfound⟩ := hf.splice_behind hr hrest
  obtain ⟨used, heq, hused⟩ := head_takes hf.head
  obtain rfl : t :: U = used := by
    rw [hr, ← List.cons_append] at heq
    exact List.append_cancel_right heq
  have hT : Ordered (t :: U ++ r :: R) := hf.ordered
  have hfront : Aside source.length k (t :: U) := by
    refine .inl (fun x hx => ?_)
    have hstart := (hf.each x (List.mem_append_left (r :: R) hx)).start
    have hlt := (hT.placed x (List.mem_append_left _ hx)).index_lt_stop
    obtain ⟨⟨y, hy, hyk⟩, _⟩ := hrest.covers (hT.sublist (List.sublist_append_right _ _))
    have hle : x.stop ≤ y.index := (List.pairwise_append.mp hT.pairwise).2.2 x hx y hy
    omega
  obtain ⟨hinner, hinnerk⟩ :=
    hused.inner_aside (hT.sublist (List.sublist_append_left _ _)) hfront
  refine ⟨t, _, U ++ r :: R', rfl, hsplice,
    .cons (h := ⟨h.inner, h.finish, r :: R'⟩) hf.starts hfound (fun text htext => ?_)
      (hf.block.around hinner hinnerk) hread⟩
  -- the line is in what stands in front of the other statements
  obtain ⟨D, hD, hline⟩ := lineFrom_eq 0 (U ++ r :: R')
  have hbehind : r :: R' = (lineFrom 0 (U ++ r :: R')).2 := (head_text hfound htext).2
  rw [← hbehind] at hD
  refine hfront.subset (fun x hx => List.mem_cons_of_mem t ?_)
  rw [List.append_cancel_right hD]
  exact List.mem_of_mem_filter (hline ▸ hx)

/-- Where an expression is continued, its statement is read as before, and so are the statements in
front of it, behind it and around it. -/
theorem ReadsTo.continues {block : List Statement} {s : Statement} {t₁ t₂ : Token}
    {X Y : List Token} (h : ReadsTo source strict after T (.ok body)) (hT : Ordered T)
    (hw : ∀ x, InForest T x → x.Solid source.length k) (hn : Nested body block) (hs : s ∈ block)
    (hk : s.kind.isCounted = false) (he : s.expression = X ++ t₁ :: t₂ :: Y) (h₁ : t₁.stop ≤ k)
    (h₂ : k ≤ t₂.index) : Continues source strict k after T body := by
  refine h.reach hT hw hn hs (M := Continues source strict k) (fun ht ih => ?_) (fun hf heq => ?_)
    continues_inside continues_behind
  · obtain ⟨r, R, R', rfl, hsplice, hread⟩ := ih
    exact ⟨_, _, _, rfl, hsplice.prepend [_], .skip ht hread⟩
  · subst heq
    exact continues_here hf hk he h₁ h₂

end Expressions

section Amounts

variable {P : Token → Prop} {t : Token} {rest : List Token} {h : Head} {others : List Statement}

/-- With a continuation put at the place, the list is refused, and it is the loop at the offset `i`,
in front of the place, that is to blame. -/
def Refuses (source : String) (strict : Bool) (k i : Int) (after : Bool) (T : List Token) : Prop :=
  ∃ r R R' f, T = r :: R ∧ Spliced k (r :: R) (r :: R') ∧
    ReadsTo source strict after (r :: R') (.error f) ∧ f.offset = i ∧ i < k ∧
    f.message = "Expected 'times' after the repeat amount."

/-- The place is in the amount of the first statement. -/
theorem refuses_here {t₁ t₂ : Token} {X Y : List Token}
    (hf : ReadsFirst source strict P after t rest h body others)
    (hk : (h.finish body).kind.isCounted = true)
    (he : (h.finish body).expression = X ++ t₁ :: t₂ :: Y) (h₁ : t₁.stop ≤ k) (h₂ : k ≤ t₂.index) :
    Refuses source strict k (h.finish body).origin.index after (t :: rest) := by
  have hT := hf.ordered
  have ht := hT.placed t List.mem_cons_self
  obtain ⟨V, rfl, hfault⟩ := head_refused (k := k) ht hf.head hk he
  obtain ⟨used, heq, hused⟩ := head_takes hf.head
  obtain ⟨first, _, _, _, hfirst, _, _, horigin⟩ := hused.span
  obtain rfl : t = first := by
    obtain ⟨_, rfl⟩ := List.head?_eq_some_iff.mp hfirst
    exact (List.cons.inj heq).1
  have hle : t.stop ≤ t₁.index := (List.pairwise_cons.mp hT.pairwise).1 t₁ (by simp)
  have hlt := ht.index_lt_stop
  have hlt₁ := (hT.placed t₁ (by simp)).index_lt_stop
  refine ⟨t, _, _, _, rfl, Spliced.here (U := t :: X) h₁ h₂, .stuck hf.starts hfault, ?_, ?_, rfl⟩
  · rw [horigin]
    rfl
  · rw [horigin]
    show t.index < k
    omega

/-- A loop whose amount is continued is refused, and with it all that it is read with. -/
theorem ReadsTo.refuses {block : List Statement} {s : Statement} {t₁ t₂ : Token}
    {X Y : List Token} (h : ReadsTo source strict after T (.ok body)) (hT : Ordered T)
    (hn : Nested body block) (hs : s ∈ block) (hk : s.kind.isCounted = true)
    (he : s.expression = X ++ t₁ :: t₂ :: Y) (h₁ : t₁.stop ≤ k) (h₂ : k ≤ t₂.index) :
    Refuses source strict k s.origin.index after T := by
  refine h.reach hT (P := fun _ => True) (fun _ _ => trivial) hn hs
    (M := fun after T _ => Refuses source strict k s.origin.index after T)
    (fun ht ih => ?_) (fun hf heq => ?_) (fun hf ih => ?_) (fun hf ih => ?_)
  · obtain ⟨r, R, R', f, rfl, hsplice, hread, hfault⟩ := ih
    exact ⟨_, _, _, f, rfl, hsplice.prepend [_], .skip ht hread, hfault⟩
  · subst heq
    exact refuses_here hf hk he h₁ h₂
  · obtain ⟨r, R, R', f, hr, hsplice, hread, hfault⟩ := ih
    obtain ⟨rest', hsplice, hfound, _⟩ := hf.splice_inside hr hsplice
    exact ⟨_, _, rest', f, rfl, hsplice, .inside hf.starts hfound hread, hfault⟩
  · obtain ⟨r, R, R', f, hr, hsplice, hread, hfault⟩ := ih
    obtain ⟨U, _, hsplice, hfound⟩ := hf.splice_behind hr hsplice
    exact ⟨_, _, U ++ r :: R', f, rfl, hsplice, .behind hf.starts hfound hf.block hread, hfault⟩

end Amounts

end Reading

end Abacus
