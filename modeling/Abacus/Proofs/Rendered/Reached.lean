import Abacus.Proofs.Continued.Reading
import Abacus.Proofs.Reading.Program
import Abacus.Proofs.Rendered.Expression

/-! Reading a list past its first statements. If other tokens from some place on are read alike, the
whole list is; the statements in front are the same ones. -/

namespace Abacus

open Token Statement

/-- Reading a list past its first tokens, up to a statement that starts with the tokens behind
them. -/
inductive Statement.Reaches (source : String) (strict : Bool) (D : List Token) :
    Bool → List Token → Prop where
  | here (after : Bool) : Reaches source strict D after []
  | skip {after : Bool} {t : Token} {P : List Token} (ht : t.isTerminator = true)
      (h : Reaches source strict D after P) : Reaches source strict D after (t :: P)
  | next {after : Bool} {t : Token} {U P : List Token} {h : Head} {body : List Statement}
      (ht : t.isTerminator = false) (hh : head source strict after t (U ++ (P ++ D)) = .ok h)
      (hr : h.rest = P ++ D) (hi : ofTokens source strict h.inner = .ok body)
      (hP : Reaches source strict D (h.finish body).isCondition P) :
      Reaches source strict D after (t :: (U ++ P))

/-- A token of a well-formed forest that is made from flat tokens. -/
structure Token.Whole (source : String) (strict : Bool) (t : Token) : Prop where
  grouped : Grouped source strict t
  flat : ∀ x ∈ flatten t, x.IsLeaf

namespace Token

variable {source : String} {strict : Bool} {t : Token}

theorem mem_flattenAll_of_mem {T : List Token} {x : Token} (ht : t ∈ T) (hx : x ∈ flatten t) :
    x ∈ flattenAll T := by
  obtain ⟨P, Q, rfl⟩ := List.append_of_mem ht
  rw [flattenAll_append, flattenAll]
  simp [hx]

theorem Whole.contents (h : t.Whole source strict) : ∀ c ∈ t.contents, c.Whole source strict := by
  intro c hc
  obtain ⟨hg, hf⟩ := h
  cases hg with
  | leaf _ => cases hc
  | group ho hcl hg hn ha =>
    refine ⟨hg c hc, fun x hx => hf x ?_⟩
    simp only [flatten, List.mem_cons, List.mem_append]
    exact .inr (.inl (mem_flattenAll_of_mem hc hx))
  | call hs hn hp hg =>
    cases hg with
    | leaf _ => cases hc
    | call _ _ _ _ => cases hc
    | group ho hcl hg hn' ha =>
      refine ⟨hg c hc, fun x hx => hf x ?_⟩
      simp only [flatten, List.mem_cons, List.mem_append]
      exact .inr (.inr (.inl (mem_flattenAll_of_mem hc hx)))

theorem Whole.eq_leaf (h : t.Whole source strict) (hg : t.kind ≠ .group) (hc : t.kind ≠ .call) :
    ∃ index stop, t = .leaf t.kind t.value index stop := by
  obtain ⟨hgrouped, _⟩ := h
  cases hgrouped with
  | leaf _ => exact ⟨_, _, rfl⟩
  | group _ _ _ _ _ => exact absurd rfl hg
  | call _ _ _ _ => exact absurd rfl hc

theorem Whole.flatten_eq (h : t.Whole source strict) (hg : t.kind ≠ .group) (hc : t.kind ≠ .call) :
    flatten t = [t] := by
  obtain ⟨index, stop, ht⟩ := h.eq_leaf hg hc
  rw [ht, flatten]

/-- A token corresponds to itself. -/
theorem Whole.pair_self {R : Rendering} (he : ∀ i, R.ends i i) (hb : ∀ i, R.begins i i)
    (h : t.Whole source strict) : R.Pair t t := by
  suffices hboth : R.Pair t t ∧ R.Pairs t.children t.children from hboth.1
  obtain ⟨hg, hl⟩ := h
  induction hg with
  | leaf _ => exact ⟨.leaf (.intro (fun _ => ⟨he _, fun _ _ _ => he _⟩)), .nil⟩
  | @group children opener closer ho hc hg hn ha ih =>
    have hchildren : R.Pairs children children := by
      refine List.forall₂_same.mpr (fun c hc => (ih c hc (fun x hx => hl x ?_)).1)
      simp only [flatten, List.mem_cons, List.mem_append]
      exact .inr (.inl (mem_flattenAll_of_mem hc hx))
    refine ⟨?_, hchildren⟩
    rcases ho.value_eq with hv | hv
    · exact .parentheses Iff.rfl hv hv (hb _) hchildren
    · exact .braces Iff.rfl hv hv hchildren
  | @call name arguments hs hn hp hg ih =>
    have hname : name.IsLeaf := hl name (by simp [flatten])
    obtain ⟨_, hchildren⟩ := ih (fun x hx => hl x (by simp [flatten, hx]))
    cases name with
    | group => exact hname.elim
    | call => exact hname.elim
    | leaf =>
      exact ⟨.call Iff.rfl (.intro (fun _ => ⟨he _, fun _ _ _ => he _⟩)) hp hp hchildren, .nil⟩

end Token

section Lists

variable {source : String} {strict : Bool} {D D' P T X Y : List Token} {r : Token} {n : Nat}
  {R : Rendering}

/-- A rendering that leaves all tokens where they are. -/
structure Rendering.Steady (R : Rendering) (source : String) (strict : Bool) : Prop where
  left : R.source = source
  right : R.source' = source
  mode : R.strict = strict
  ends : ∀ i, R.ends i i
  begins : ∀ i, R.begins i i

theorem Rendering.Steady.pairs_self (h : R.Steady source strict)
    (hT : ∀ t ∈ T, t.Whole source strict) : R.Pairs T T :=
  List.forall₂_same.mpr (fun t ht => (hT t ht).pair_self h.ends h.begins)

/-- A list is read like itself. -/
theorem Rendering.Steady.reading_self (h : R.Steady source strict) (after : Bool)
    (hT : ∀ t ∈ T, t.Whole source strict) (hn : weightAll T ≤ n)
    (hrecast : ∀ {C C'}, weightAll C < n → R.recast C C' → R.SameReading C C') :
    SameAnswer (List.Forall₂ R.Says) (reading source strict after T)
      (reading source strict after T) := by
  have hread := Rendering.reading_like after (h.pairs_self hT) hn hrecast
  rwa [h.left, h.right, h.mode] at hread

/-- A statement is read as before when other tokens follow the first one of `D`. -/
theorem Statement.head_rejoined {after : Bool} {t : Token} {U : List Token} {h : Head}
    (ho : Ordered (t :: (U ++ (P ++ D)))) (hD : D = r :: X) (hD' : D' = r :: Y)
    (hh : head source strict after t (U ++ (P ++ D)) = .ok h) (hr : h.rest = P ++ D) :
    head source strict after t (U ++ (P ++ D')) = .ok ⟨h.inner, h.finish, P ++ D'⟩ := by
  -- the token behind the statement is the same in both lists
  obtain ⟨x, V, W, hV, hW⟩ : ∃ x V W, P ++ D = x :: V ∧ P ++ D' = x :: W := by
    cases P with
    | nil => exact ⟨_, _, _, hD, hD'⟩
    | cons x P => exact ⟨_, _, _, rfl, rfl⟩
  obtain ⟨U', hU, hfollowed⟩ := head_followed ho hh (hr.trans hV)
  obtain rfl : U = U' := List.append_cancel_right (hV ▸ hU)
  rw [hW]
  exact hfollowed W

/-- What is reached does not depend on the tokens behind the first one there. -/
theorem Statement.Reaches.followed {after : Bool} (h : Reaches source strict (r :: X) after P)
    (ho : Ordered (P ++ r :: X)) (Y : List Token) : Reaches source strict (r :: Y) after P := by
  induction h with
  | here after => exact .here after
  | skip ht h ih => exact .skip ht (ih (ho.sublist (List.sublist_cons_self _ _)))
  | @next after t U P h body ht hh hr hi hP ih =>
    rw [List.cons_append, List.append_assoc] at ho
    have hsub : (P ++ r :: X).Sublist (t :: (U ++ (P ++ r :: X))) :=
      (List.sublist_append_right U _).cons t
    exact .next ht (head_rejoined ho rfl rfl hh hr) rfl hi (ih (ho.sublist hsub))

/-- Lists with the same first statements are read alike if they are from the place on that is
reached. -/
theorem Statement.Reaches.reading_alike {after : Bool} (h : Reaches source strict D after P)
    (hD : D = r :: X) (hD' : D' = r :: Y) (hw : ∀ t ∈ P ++ D, t.Whole source strict)
    (ho : Ordered (P ++ D)) (hn : weightAll (P ++ D) ≤ n) (hR : R.Steady source strict)
    (hrecast : ∀ {C C'}, weightAll C < n → R.recast C C' → R.SameReading C C')
    (hlast : ∀ after, SameAnswer (List.Forall₂ R.Says) (reading source strict after D)
      (reading source strict after D')) :
    SameAnswer (List.Forall₂ R.Says) (reading source strict after (P ++ D))
      (reading source strict after (P ++ D')) := by
  induction h with
  | here after => exact hlast after
  | skip ht h ih =>
    rw [List.cons_append, List.cons_append, reading_skip ht, reading_skip ht]
    simp only [List.cons_append, weightAll] at hn
    exact ih (fun t hm => hw t (List.mem_cons_of_mem _ hm))
      (ho.sublist (List.sublist_cons_self _ _)) (by omega)
  | @next after t U P h body ht hh hr hi hP ih =>
    rw [List.cons_append, List.append_assoc] at hw ho hn
    rw [List.cons_append, List.append_assoc, List.cons_append, List.append_assoc]
    have hh' := head_rejoined ho hD hD' hh hr
    obtain ⟨used, heq, hused⟩ := head_takes hh
    have hinner := hused.weight_inner
    have htotal : weightAll (t :: (U ++ (P ++ D))) = weightAll used + weightAll h.rest := by
      rw [← weightAll_append, ← heq]
    -- what is in front does the same as itself
    have hfront : R.Heads h h := by
      cases hR.pairs_self hw with
      | cons hfirst hlist =>
        have hlike := Rendering.head_like after hfirst hlist
        rw [hR.left, hR.right, hR.mode, hh] at hlike
        cases hlike with
        | ok hheads => exact hheads
    have hbody : List.Forall₂ R.Says body body := by
      have hread : R.SameReading h.inner h.inner := by
        rcases hfront.inner with hC | hC
        · exact hC.sameReading (fun hlt => hrecast (by omega))
        · exact hrecast (by omega) hC
      rw [Rendering.SameReading, hR.left, hR.right, hR.mode, hi] at hread
      cases hread with
      | ok hB => exact hB
    have hsub : (P ++ D).Sublist (t :: (U ++ (P ++ D))) := (List.sublist_append_right U _).cons t
    have hothers := ih (fun t hm => hw t (hsub.subset hm)) (ho.sublist hsub) (by
      rw [hr] at htotal
      omega)
    rw [reading_step ht, reading_step ht, hh, hh']
    simp only [Except.bind, hi, hr]
    exact hothers.map (fun _ _ hB => .cons (hfront.finish hbody) hB)

end Lists

end Abacus
