import Abacus.Proofs.Alike.Grouping
import Abacus.Proofs.Alike.Statement
import Abacus.Proofs.Fuel
import Abacus.Proofs.Joined.Reading

/-! Layout does not matter. Two sources with the same tokens, wherever these stand, are read to
statements that correspond and run alike. Only texts that are quoted from the source differ. -/

namespace Abacus

open Token

/-- The kinds and texts of the tokens of a source, without their places. -/
def Token.lexis (source : String) : List (Kind × String) :=
  (scan source).map (fun t => (t.kind, t.value))

/-- The fault of a `throw`: its message is a part of the source. -/
def Fault.Throws (source : String) (t : Token) (f : Fault) : Prop :=
  t.is .word "throw" = true ∧ ∃ i j : Int,
    f = .thrown t.index (Text.slice source i j) (Text.slice source t.index j)

/-- The fault of an assignment to `π`: its message quotes the value. -/
def Fault.Refuses (t : Token) (f : Fault) : Prop :=
  t.isName = true ∧ t.value = "π" ∧ ∃ text, f = t.fault ("π ≠ " ++ text)

/-- Tokens with the same number in two sources. -/
def Token.Paired (a b : String) (t t' : Token) : Prop :=
  ∃ k : Nat, (scan a)[k]? = some t ∧ (scan b)[k]? = some t'

/-- Faults with the same message, or with messages that quote the source at the same token. -/
def Fault.Same (a b : String) (f g : Fault) : Prop :=
  f.message = g.message ∨ ∃ t t', Token.Paired a b t t' ∧
    (f.Throws a t ∧ g.Throws b t' ∨ f.Refuses t ∧ g.Refuses t')

namespace Likeness

/-- Sources with the same tokens at different places. -/
def laidOut (a b : String) : Likeness where
  source := a
  source' := b
  strict := false
  strict' := false
  starts i i' := ∃ t t', Paired a b t t' ∧ i = t.index ∧ i' = t'.index
  stops i i' := ∃ t t', Paired a b t t' ∧ i = t.stop ∧ i' = t'.stop
  spot _ _ := True
  words t t' := Paired a b t t' ∧ t.kind = t'.kind
  faults := Fault.Same a b
  verbatim := False
  loose := False
  lax := False
  spot_of_starts _ := trivial
  spot_of_stops _ := trivial
  slices h := h.elim
  plain _ _ := .inl rfl
  thrown hw ht ht' _ _ _ := .inr ⟨_, _, hw.1, .inl ⟨⟨ht, _, _, rfl⟩, ht', _, _, rfl⟩⟩
  refused := by
    rintro t t' text text' ⟨hw, hk⟩ hn hv hv' _ _
    have hn' : t'.isName = true := by
      simpa only [isName, hk, hv, hv'] using hn
    exact .inr ⟨t, t', hw, .inr ⟨⟨hn, hv, text, rfl⟩, hn', hv', text', rfl⟩⟩
  same_mode _ := rfl
  loose_mode h := h.elim

variable {a b : String}

theorem leaf_of_paired {t t' : Token} (h : Paired a b t t') (hk : t.kind = t'.kind)
    (hv : t.value = t'.value) : (laidOut a b).Leaf t t' := by
  have hpair := h
  obtain ⟨k, ht, ht'⟩ := h
  match t, t' with
  | .leaf kind value i s, .leaf kind' value' i' s' =>
    cases (show kind = kind' from hk)
    cases (show value = value' from hv)
    exact .intro ⟨_, _, hpair, rfl, rfl⟩ ⟨_, _, hpair, rfl, rfl⟩ (fun _ => ⟨hpair, rfl⟩)
  | .group .., _ => exact (scan_isLeaf a _ (List.mem_of_getElem? ht)).elim
  | .call .., _ => exact (scan_isLeaf a _ (List.mem_of_getElem? ht)).elim
  | .leaf .., .group .. => exact (scan_isLeaf b _ (List.mem_of_getElem? ht')).elim
  | .leaf .., .call .. => exact (scan_isLeaf b _ (List.mem_of_getElem? ht')).elim

theorem piece_of_paired {t t' : Token} (h : Paired a b t t') (hk : t.kind = t'.kind)
    (hv : t.value = t'.value) : (laidOut a b).Piece t t' := by
  obtain ⟨k, ht, ht'⟩ := id h
  refine ⟨leaf_of_paired h hk hv, fun hopens stop stop' => ?_,
    fun hn => append_of_isName (List.mem_of_getElem? ht) hn⟩
  have hopens' : t'.Opens := by simpa only [Token.Opens, hk, hv] using hopens
  exact ⟨slice_of_opens (List.mem_of_getElem? ht) hopens stop,
    slice_of_opens (List.mem_of_getElem? ht') hopens' stop'⟩

/-- Tokens with the same number are the same but for their place. -/
theorem scan_paired (h : Token.lexis a = Token.lexis b) :
    List.Forall₂ (laidOut a b).Piece (scan a) (scan b) := by
  have hlength : (scan a).length = (scan b).length := by
    have := congrArg List.length h
    simpa [lexis] using this
  refine List.forall₂_iff_get.mpr ⟨hlength, fun k hk hk' => ?_⟩
  have hpair : Paired a b ((scan a).get ⟨k, hk⟩) ((scan b).get ⟨k, hk'⟩) :=
    ⟨k, List.getElem?_eq_getElem hk, List.getElem?_eq_getElem hk'⟩
  have hsame := congrArg (·[k]?) h
  simp only [lexis, List.getElem?_map, List.getElem?_eq_getElem hk, List.getElem?_eq_getElem hk',
    Option.map_some, Option.some.injEq, Prod.mk.injEq] at hsame
  exact piece_of_paired hpair hsame.1 hsame.2

/-- Sources with the same tokens are read alike. -/
theorem parse_laidOut (h : Token.lexis a = Token.lexis b) :
    (laidOut a b).Agree (fun p q => p.source = a ∧ q.source = b ∧
      (laidOut a b).Statements p.body q.body) (Program.parse a false) (Program.parse b false) := by
  refine (groupAll_like id (scan_paired h)).bind (fun F F' hF => ?_)
  refine (ofTokens_like hF).bind (fun B B' hB => ?_)
  exact .ok ⟨rfl, rfl, hB⟩

theorem scan_increasing (source : String) {k l : Nat} (hkl : k < l) {t u : Token}
    (ht : (scan source)[k]? = some t) (hu : (scan source)[l]? = some u) :
    t.index < u.index ∧ t.stop < u.stop := by
  obtain ⟨hk, rfl⟩ := List.getElem?_eq_some_iff.mp ht
  obtain ⟨hl, rfl⟩ := List.getElem?_eq_some_iff.mp hu
  have hpairwise := List.pairwise_reverse.mp (scan_laid source).pairwise
  have hfollow : (scan source)[k].stop ≤ (scan source)[l].index :=
    List.pairwise_iff_getElem.mp hpairwise k l hk hl hkl
  have hfirst := (scan_lexed source (List.getElem_mem hk)).proper
  have hsecond := (scan_lexed source (List.getElem_mem hl)).proper
  omega

/-- Different tokens of a source start and stop at different places. -/
theorem scan_injective (source : String) {k l : Nat} {t u : Token}
    (ht : (scan source)[k]? = some t) (hu : (scan source)[l]? = some u) :
    (t.index = u.index ↔ k = l) ∧ (t.stop = u.stop ↔ k = l) := by
  rcases Nat.lt_trichotomy k l with hkl | rfl | hlk
  · obtain ⟨hi, hs⟩ := scan_increasing source hkl ht hu
    omega
  · rw [ht] at hu
    cases hu
    simp
  · obtain ⟨hi, hs⟩ := scan_increasing source hlk hu ht
    omega

/-- Everything may be evaluated. -/
def everywhere (a b : String) : (laidOut a b).Realm where
  role _ := none
  fit _ := True
  holds _ := True
  strict_eq := rfl
  spot_zero := trivial
  starts_inj := by
    rintro i i' j j' ⟨t, t', ⟨k, ht, ht'⟩, rfl, rfl⟩ ⟨u, u', ⟨l, hu, hu'⟩, rfl, rfl⟩
    exact (scan_injective a ht hu).1.trans (scan_injective b ht' hu').1.symm
  stops_inj := by
    rintro i i' j j' ⟨t, t', ⟨k, ht, ht'⟩, rfl, rfl⟩ ⟨u, u', ⟨l, hu, hu'⟩, rfl, rfl⟩
    exact (scan_injective a ht hu).2.trans (scan_injective b ht' hu').2.symm
  short hl := hl.elim
  tail _ := trivial
  runs _ _ _ := trivial
  body _ _ := trivial
  uses hl := hl.elim
  bracket _ _ _ _ := trivial
  braces _ _ _ _ _ := trivial
  argument _ _ _ _ _ _ := trivial
  block _ _ _ _ := trivial

end Likeness

variable {α : Type}

def Output.value? : Output α → Option α
  | .label _ => none
  | .value v => some v

/-- The values of a record at their positions. -/
def Record.values (r : Record α) : List (Option α) :=
  r.output.map Output.value?

/-- Outcomes of two sources that differ in texts and places only. -/
structure Outcome.Matches (a b : String) (x y : Outcome α) : Prop where
  status : x.status.label = y.status.label
  kinds : x.records.map Record.kind = y.records.map Record.kind
  values : x.records.map Record.values = y.records.map Record.values
  fault : ∀ f g, x.status = .error f → y.status = .error g → f.Same a b g

inductive Outcome.BothMatch (a b : String) :
    Except RunError (Outcome α) → Except RunError (Outcome α) → Prop where
  | ok {x y : Outcome α} (h : x.Matches a b y) : BothMatch a b (.ok x) (.ok y)
  | defect (d : Defect) (log log' : Option (List String)) :
      BothMatch a b (.error (.defect d log)) (.error (.defect d log'))

namespace Likeness

variable {a b : String}

theorem RecordAlike.values_eq {r t : Record α} {L : Likeness} (h : L.RecordAlike r t) :
    r.values = t.values := by
  have hout := h.output
  unfold Record.values
  generalize r.output = xs at hout ⊢
  generalize t.output = ys at hout ⊢
  induction hout with
  | nil => rfl
  | cons hx _ ih =>
    cases hx with
    | label _ => simp [Output.value?, ih]
    | value v => simp [Output.value?, ih]

theorem records_eq {γ : Type} {f : Record α → γ} {L : Likeness}
    (hf : ∀ {r t : Record α}, L.RecordAlike r t → f r = f t) {xs ys : List (Record α)}
    (h : List.Forall₂ L.RecordAlike xs ys) : xs.map f = ys.map f := by
  induction h with
  | nil => rfl
  | cons hr _ ih => simp only [List.map_cons, hf hr, ih]

theorem StatusAlike.label_eq {L : Likeness} {u v : Status} (h : L.StatusAlike u v) :
    u.label = v.label := by
  cases h <;> rfl

theorem Results.bothMatch {x y : Except RunError (Outcome α)} (h : (laidOut a b).Results x y) :
    Outcome.BothMatch a b x y := by
  cases h with
  | @ok x y hs hr =>
    refine .ok ⟨hs.label_eq, records_eq RecordAlike.kind hr, records_eq RecordAlike.values_eq hr,
      ?_⟩
    · intro f g hf hg
      rw [hf, hg] at hs
      cases hs with
      | error hfault => exact hfault
  | defect d log log' => exact .defect d log log'
  | lost hl => exact hl.elim

end Likeness

theorem Outcome.BothMatch.lacksFuel {a b : String} {x y : Except RunError (Outcome α)}
    (h : Outcome.BothMatch a b x y) : LacksFuel x ↔ LacksFuel y := by
  cases h with
  | ok h =>
    constructor <;> rintro ⟨_, hh⟩ <;> cases hh
  | defect d log log' =>
    constructor <;>
    · rintro ⟨_, hh⟩
      cases hh
      exact ⟨_, rfl⟩

/-- Layout does not matter. Where two sources have the same tokens in the same order, both are
refused with the same message, or one run ends if the other one does, and then with the same status
and the same values in the same records. The messages of faults are the same too, except that a
`throw` and an assignment to `π` quote the source. -/
theorem Session.layout_does_not_matter (s : NumberSystem α) (o : Options) (ho : o.strict = false)
    (inputs : List String) {a b : String} (h : Token.lexis a = Token.lexis b) :
    (∃ f g, Program.parse a o.strict = .error f ∧ Program.parse b o.strict = .error g ∧
      f.message = g.message) ∨
    (∃ p q, Program.parse a o.strict = .ok p ∧ Program.parse b o.strict = .ok q) ∧
      ((∃ x, (Session.mk a o none inputs).Ends s x) ↔
        ∃ y, (Session.mk b o none inputs).Ends s y) ∧
      ∀ x y, (Session.mk a o none inputs).Ends s x → (Session.mk b o none inputs).Ends s y →
        Outcome.BothMatch a b x y := by
  have hparse := Likeness.parse_laidOut h
  rw [← ho] at hparse
  generalize hp : Program.parse a o.strict = x at hparse
  generalize hq : Program.parse b o.strict = y at hparse
  cases hparse with
  | error hf => exact .inl ⟨_, _, rfl, rfl, hf.message⟩
  | lost hl => exact hl.elim
  | @ok p q hpq =>
    obtain ⟨hpa, hqb, hbody⟩ := hpq
    refine .inr ⟨⟨p, q, rfl, rfl⟩, ?_⟩
    have hrun : ∀ fuel, Outcome.BothMatch a b ((Session.mk a o none inputs).runWith s fuel)
        ((Session.mk b o none inputs).runWith s fuel) := by
      intro fuel
      have hresults := Likeness.program_results (Likeness.everywhere a b) s o fuel hbody
        trivial (fun hl => hl.elim) o.seed inputs
      have hmatch := hresults.bothMatch
      simp only [Session.runWith, hp, hq]
      simp only [Program.run, Program.setup, hpa, hqb, ho]
      exact hmatch
    constructor
    · constructor
      · rintro ⟨_, fuel, rfl, hx⟩
        exact ⟨_, fuel, rfl, fun hy => hx ((hrun fuel).lacksFuel.mpr hy)⟩
      · rintro ⟨_, fuel, rfl, hy⟩
        exact ⟨_, fuel, rfl, fun hx => hy ((hrun fuel).lacksFuel.mp hx)⟩
    · rintro x y ⟨fuel, rfl, hx⟩ hy
      have hlacks : ¬ LacksFuel ((Session.mk b o none inputs).runWith s fuel) :=
        fun hh => hx ((hrun fuel).lacksFuel.mpr hh)
      rw [hy.unique ⟨fuel, rfl, hlacks⟩]
      exact hrun fuel

/-- A script with gaps and comments. -/
def spread : String :=
  "let x = 2   # two
if x > 1 { x + { x ; 3 } }
throw x  is two"

/-- The same script without them. -/
def dense : String :=
  "let x=2
if x>1{x+{x;3}}
throw x is two"

theorem spread_dense_match : spread ≠ dense ∧ Token.lexis spread = Token.lexis dense ∧
    ((∃ f g, Program.parse spread false = .error f ∧ Program.parse dense false = .error g ∧
      f.message = g.message) ∨
    (∃ p q, Program.parse spread false = .ok p ∧ Program.parse dense false = .ok q) ∧
      ((∃ x, (Session.mk spread {} none []).Ends (Fraction.system 20 none) x) ↔
        ∃ y, (Session.mk dense {} none []).Ends (Fraction.system 20 none) y) ∧
      ∀ x y, (Session.mk spread {} none []).Ends (Fraction.system 20 none) x →
        (Session.mk dense {} none []).Ends (Fraction.system 20 none) y →
        Outcome.BothMatch spread dense x y) := by
  have h : Token.lexis spread = Token.lexis dense := by decide +kernel
  exact ⟨by simp [spread, dense], h,
    Session.layout_does_not_matter (Fraction.system 20 none) {} rfl [] h⟩

end Abacus
