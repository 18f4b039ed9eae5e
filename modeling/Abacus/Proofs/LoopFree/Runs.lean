import Abacus.Proofs.Cache
import Abacus.Proofs.Conduct.Plain
import Abacus.Proofs.LoopFree.Spans

/-! Scripts without loops and definitions end. With three steps of fuel for every character of the
source a run never lacks fuel: whatever is evaluated inside a run of tokens covers less of the
source than the run, also if it is a block that was remembered. -/

namespace Abacus

open Token Statement Conduct Run

variable {α : Type} {source : String} {strict : Bool} {F R : List Token} {t : Token}
  {n m fuel : Nat}

section Parts

theorem Token.PartsFit.imp {fit fit' : List Token → Prop}
    {keyed keyed' : Int × Int → List Token → Prop} (h : t.PartsFit fit keyed)
    (hfit : ∀ R, R ⊆ t.contents → fit R → fit' R)
    (hkeyed : ∀ key, keyed key t.contents → keyed' key t.contents) : t.PartsFit fit' keyed' := by
  cases t with
  | leaf kind value index stop => trivial
  | group kind value index stop children opener closer =>
    simp only [Token.PartsFit] at h ⊢
    split
    · next hopener =>
      rw [if_pos hopener] at h
      exact hfit children (List.Subset.refl _) h
    · next hopener =>
      rw [if_neg hopener] at h
      exact hkeyed (index, stop) h
  | call kind value index stop name arguments =>
    intro runs hruns run hrun
    refine hfit run (fun u hu => ?_) (h runs hruns run hrun)
    obtain ⟨P, S, hsplit, _⟩ := splitArguments_between hruns hrun
    have hmem : u ∈ arguments.children.filter (fun t => !t.isNewline) := by
      rw [hsplit]
      exact List.mem_append_left _ (List.mem_append_right _ hu)
    exact (List.mem_filter.mp hmem).1

/-- The words of a run have the insides of its tokens, or none. -/
theorem mem_words {isFunction : String → Bool}
    (h : t ∈ if strict then splitWords isFunction R else R) :
    t.IsLeaf ∨ ∃ u ∈ R, t.contents = u.contents := by
  split at h
  · rcases mem_fuseOnto (List.mem_reverse.mp h) with hm | hm | ⟨name, g, rfl, hg, hp⟩
    · cases hm
    · rcases mem_splitLong hm with hm | ⟨_, _, _, rfl⟩
      · exact .inr ⟨t, hm, rfl⟩
      · exact .inl trivial
    · rcases mem_splitLong hg with hm | ⟨_, _, _, rfl⟩
      · exact .inr ⟨g, hm, (contents_of_inside hp).symm⟩
      · cases hp
  · exact .inr ⟨t, h, rfl⟩

theorem partsFit_of_isLeaf {fit : List Token → Prop} {keyed : Int × Int → List Token → Prop}
    (h : t.IsLeaf) : t.PartsFit fit keyed := by
  cases t with
  | leaf => trivial
  | group => exact h.elim
  | call => exact h.elim

end Parts

/-- The fuel is enough for a run of tokens. What a compound assignment puts together needs a step
more, since the value that it puts into a bracket may cover as much as the whole. -/
def RunAfforded (F : List Token) (fuel : Nat) (R : List Token) : Prop :=
  ∃ n, Spans n R ∧ (Plain F R ∧ 3 * n + 1 ≤ fuel ∨ Fits F R ∧ 3 * n + 2 ≤ fuel)

/-- The fuel is enough for a block. -/
def BlockAfforded (F : List Token) (source : String) (fuel : Nat) (body : List Statement) : Prop :=
  ∃ n, 3 * n + 3 ≤ fuel ∧ ∀ s ∈ body, Shallow F source n s

/-- The fuel is enough for what is read as the block from a place. -/
def PlaceAfforded (F : List Token) (fuel : Nat) (key : Int × Int) (R : List Token) : Prop :=
  Keyed F key R ∧ ∃ n, Spans n R ∧ 3 * n + 3 ≤ fuel

section Tokens

theorem afforded_of_contents (h : t.PartsFit (Fits F) (Keyed F)) (hs : Spans n t.contents)
    (hf : 3 * n + 3 ≤ fuel) : t.PartsFit (RunAfforded F fuel) (PlaceAfforded F fuel) :=
  h.imp (fun _ hR hfits => ⟨n, hs.subset hR, .inr ⟨hfits, by omega⟩⟩) (fun _ hk => ⟨hk, n, hs, hf⟩)

theorem plain_afforded (hF : Ordered F) {rest : List Token} {first : Token} (h : Plain F R)
    (hf : R.filter (fun t => !t.isNewline) = first :: rest) (hs : Spans n (first :: rest))
    (hfuel : 3 * n ≤ fuel) {isFunction : String → Bool}
    (ht : t ∈ if strict then splitWords isFunction (first :: rest) else first :: rest) :
    t.PartsFit (RunAfforded F fuel) (PlaceAfforded F fuel) := by
  rcases mem_words ht with hleaf | ⟨u, hu, hcontents⟩
  · exact partsFit_of_isLeaf hleaf
  · have hin : InForest F u := h.tokens u (List.mem_filter.mp (hf ▸ hu)).1
    obtain ⟨m, rfl, hm⟩ := hs.contents hu (hin.placed hF)
    have hparts := (Fits.plain h).tokens hF hf strict isFunction t ht
    exact afforded_of_contents hparts (hcontents ▸ hm) (by omega)

theorem compound_afforded (hF : Ordered F) {name op last : Token} (hname : InForest F name)
    (hn : name.isName = true) (hop : InForest F op) (ho : op.kind = .operator)
    (hl : last.kind ≠ .word) (hlast : last.PartsFit (RunAfforded F fuel) (PlaceAfforded F fuel))
    (hs : Spans n [name, op, last]) (hfuel : 3 * n ≤ fuel) {isFunction : String → Bool}
    (ht : t ∈ if strict then splitWords isFunction [name, op, last] else [name, op, last]) :
    t.PartsFit (RunAfforded F fuel) (PlaceAfforded F fuel) := by
  have hpart : ∀ u ∈ [name, op, last], InForest F u →
      u.PartsFit (RunAfforded F fuel) (PlaceAfforded F fuel) := by
    intro u hu hin
    obtain ⟨m, rfl, hm⟩ := hs.contents hu (hin.placed hF)
    exact afforded_of_contents (fit_of_inForest hF hin) hm (by omega)
  rcases mem_words_compound hF hname hn hop ho hl ht with rfl | rfl | rfl | ⟨_, _, _, rfl⟩
  · exact hpart t (by simp) hname
  · exact hpart t (by simp) hop
  · exact hlast
  · trivial

/-- With one step less there is enough fuel for the tokens of a run. -/
theorem RunAfforded.tokens (hF : Ordered F) {rest : List Token} {first : Token}
    (h : RunAfforded F (fuel + 1) R) (hf : R.filter (fun t => !t.isNewline) = first :: rest)
    {isFunction : String → Bool}
    (ht : t ∈ if strict then splitWords isFunction (first :: rest) else first :: rest) :
    t.PartsFit (RunAfforded F fuel) (PlaceAfforded F fuel) := by
  obtain ⟨n, hs, hcase⟩ := h
  have hline : Spans n (first :: rest) := by
    refine hs.subset (fun u hu => ?_)
    exact (List.mem_filter.mp (hf ▸ hu)).1
  rcases hcase with ⟨hplain, hfuel⟩ | ⟨hfits, hfuel⟩
  · exact plain_afforded hF hplain hf hline (by omega) ht
  · cases hfits with
    | plain h => exact plain_afforded hF h hf hline (by omega) ht
    | step hname hn hop ho =>
      rw [filter_compound hn ho (by simp [Token.kind])] at hf
      rw [← hf] at ht
      refine compound_afforded hF hname hn hop ho (by simp [Token.kind]) ?_ hs (by omega) ht
      trivial
    | compound hname hn hop ho hp hc =>
      rw [filter_compound hn ho (by simp [Token.kind])] at hf
      rw [← hf] at ht
      refine compound_afforded hF hname hn hop ho (by simp [Token.kind]) ?_ hs (by omega) ht
      simp only [Token.PartsFit, if_pos hp]
      obtain ⟨start, hs⟩ := hs
      refine ⟨n, ⟨start, fun c hm => ?_⟩, .inl ⟨hc, by omega⟩⟩
      obtain ⟨hindex, hstop⟩ := (hs _ (List.mem_of_mem_getLast? rfl)).contents c hm
      exact ((hc.tokens c hm).placed hF).between hindex hstop

end Tokens

/-- There is always enough fuel. -/
def Stops.fueled (setup : Setup α) : Stops setup where
  may e := e ≠ .defect .outOfFuel
  input _ := nofun
  zero f _ := by cases f <;> nofun
  factorial _ := nofun
  unshown := .inr (fun _ => nofun)

/-- No function is bound, every block that is remembered was read from its place, and there is
always enough fuel. -/
def Conduct.frugal (F : List Token) (setup : Setup α) : Conduct setup :=
  .plain (fun _ => False)
    (fun key body => ∃ R, Keyed F key R ∧ ofTokens setup.source setup.strict R = .ok body)
    .any (.fueled setup)

theorem frugal_lenient (F : List Token) (setup : Setup α) : (Conduct.frugal F setup).Lenient :=
  fun _ h => h

section Scripts

variable {setup : Setup α} (hF : ForestOf setup.source strict F) (hT : Tame F)

include hF

/-- What is remembered for a place is what can be read from it. -/
theorem readable_of_keyed {key : Int × Int} (hk : Keyed F key R)
    (hb : ∀ body, ofTokens setup.source setup.strict R = .ok body →
      BlockAfforded F setup.source fuel body) :
    Readable (Conduct.frugal F setup) (BlockAfforded F setup.source fuel) key R := by
  refine ⟨fun body hread => ⟨R, hk, hread⟩, ?_, fun _ _ => nofun⟩
  rintro body ⟨R', hk', hread⟩
  exact hb body (hk.ofTokens_eq hF.ordered hk' hread)

include hT

theorem PlaceAfforded.readable {key : Int × Int} (h : PlaceAfforded F fuel key R) :
    Readable (Conduct.frugal F setup) (BlockAfforded F setup.source fuel) key R := by
  obtain ⟨hk, n, hs, hfuel⟩ := h
  refine readable_of_keyed hF hk (fun body hread => ⟨n, hfuel, ?_⟩)
  have hreads := ofTokens_readsTo setup.source setup.strict R
  rw [hread] at hreads
  exact hreads.shallow hF hT hk.reading hs

theorem RunAfforded.evaluable (h : RunAfforded F (fuel + 1) R) :
    Evaluable (Conduct.frugal F setup) (RunAfforded F fuel)
      (BlockAfforded F setup.source fuel) R := by
  have hlenient := frugal_lenient F setup
  constructor
  case first => exact fun _ _ _ => hlenient.place _
  case block =>
    intro first rest hf hstarts
    obtain ⟨n, hs, hcase⟩ := id h
    have hfits : Fits F R := hcase.elim (fun hp => .plain hp.1) And.left
    have hk := hfits.block hf hstarts
    have hline : Spans n (first :: rest) := by
      refine hs.subset (fun u hu => ?_)
      exact (List.mem_filter.mp (hf ▸ hu)).1
    refine readable_of_keyed hF hk (fun body hread => ?_)
    obtain ⟨m, rfl, hbody⟩ := shallow_of_startsBlock hF hT hk.reading hline hstarts hread
    exact ⟨m, by omega, hbody⟩
  case tokens =>
    intro first rest isFunction hf _
    refine ⟨fun t ht => hlenient.tokenFits ?_, fun _ => nofun⟩
    exact (h.tokens hF.ordered hf ht).imp (fun _ _ => hlenient.argumentFits)
      (fun _ hplace => hplace.readable hF hT)

theorem Shallow.statementFits {s : Statement} (h : Shallow F setup.source n s)
    (hf : 3 * n + 2 ≤ fuel) :
    StatementFits (Conduct.frugal F setup) (RunAfforded F fuel) (BlockAfforded F setup.source fuel)
      s := by
  have hkind := h.kind
  refine (frugal_lenient F setup).statementFits ?_ ?_ ?_ ?_
  · intro R hR
    obtain ⟨hfits, hs⟩ := h.runs R hR
    exact ⟨n, hs, .inr ⟨hfits, hf⟩⟩
  · intro body hb
    obtain ⟨strictly, T, m, hlt, hr, hs, hread⟩ := h.body body hb
    exact ⟨m, by omega, hread.shallow hF hT hr hs⟩
  · intro hk
    rw [hk] at hkind
    exact hkind.elim
  · rintro (hk | hk)
    · rw [hk] at hkind
      exact hkind.elim
    · rw [hk] at hkind
      exact hkind.elim

/-- Every part of the script is afforded with the fuel that is left for it. -/
def Plan.frugal : Plan (Conduct.frugal F setup) where
  fit := RunAfforded F
  fitBlock := BlockAfforded F setup.source
  lacks _ := by
    rintro ⟨n, _, ⟨_, hfuel⟩ | ⟨_, hfuel⟩⟩
    · omega
    · omega
  lacksBlock _ := by
    rintro ⟨n, hfuel, _⟩
    omega
  run _ _ h := h.evaluable hF hT
  block _ _ := by
    rintro ⟨n, hfuel, hbody⟩ s hs
    exact (hbody s hs).statementFits hF hT (by omega)
  functions _ _ := False.elim

end Scripts

/-- The fuel that a script without loops and definitions can need: three steps for every character
of its source. -/
def enough (source : String) : Nat :=
  3 * source.length + 3

theorem not_lacksFuel {r : EStateM.Result Stop (Machine α) Unit} (d : Int)
    (h : ∀ e m, r = .error e m → e ≠ .defect .outOfFuel) : ¬ LacksFuel (Outcome.ofResult d r) := by
  rintro ⟨log, hlog⟩
  match r with
  | .ok _ _ => cases hlog
  | .error (.fault _) _ => cases hlog
  | .error (.input _) _ => cases hlog
  | .error (.defect _) _ =>
    cases hlog
    exact h _ _ rfl rfl

theorem LoopFree.never_lacks (h : LoopFree source) {p : Program}
    (hp : Program.parse source strict = .ok p) (s : NumberSystem α) (o : Options)
    (inputs : List String) : ¬ LacksFuel (p.run s o (enough source) inputs) := by
  obtain ⟨F, hg, hread⟩ := Program.parse_ok hp
  obtain rfl : p.source = source := Program.parse_source hp
  have hF : ForestOf (p.setup s o).source strict F := groupAll_forestOf hg
  have hT := h.tame hF
  have hspans : Spans p.source.length F := by
    refine ⟨0, fun t ht => ?_⟩
    have hin : InForest F t := ⟨F, .here F, ht⟩
    obtain ⟨hstart, _, hstop⟩ := hF.in_source hin
    exact (hin.placed hF.ordered).between hstart (Int.zero_add _ ▸ hstop)
  have hbody : BlockAfforded F p.source (enough p.source) p.body :=
    ⟨_, Nat.le_refl _, hread.shallow hF hT ⟨F, .here F, .refl F⟩ hspans⟩
  exact not_lacksFuel o.debugLevel (fun _ _ => (Plan.frugal hF hT).program_stops hbody)

/-- A script that is read from a source without loops and definitions ends, with every number system
and all options and inputs: there is one result, with all the fuel that is enough for the source or
with any more of it. -/
theorem loop_free_terminates {p : Program} (h : LoopFree source)
    (hp : Program.parse source strict = .ok p) (s : NumberSystem α) (o : Options)
    (inputs : List String) :
    ∃ r, ¬ LacksFuel r ∧ ∀ fuel, enough source ≤ fuel → p.run s o fuel inputs = r := by
  have hends := h.never_lacks hp s o inputs
  exact ⟨_, hends, fun fuel hf => p.runIn_mono (p.setup s o) hf o.seed inputs hends⟩

/-- Counted turns, and conditions and blocks inside expressions. -/
def stacking : String :=
  "x = 0\nrepeat 3 times with i \x7bx += if i - 2 \x7bx * (i + \x7bi\x7d)\x7d else \x7b1\x7d\x7d\nx"

theorem stacking_terminates :
    LoopFree stacking ∧ ∃ p, Program.parse stacking false = .ok p ∧
      ∃ r, ¬ LacksFuel r ∧ ∀ fuel, enough stacking ≤ fuel →
        p.run (Bignumber.system 20) {} fuel [] = r := by
  have hfree : LoopFree stacking := by decide +kernel
  have hread : (Program.parse stacking false).isOk = true := by decide +kernel
  cases hp : Program.parse stacking false with
  | error f =>
    rw [hp] at hread
    cases hread
  | ok p => exact ⟨hfree, p, rfl, loop_free_terminates hfree hp (Bignumber.system 20) {} []⟩

/-- A function may call itself without end. -/
example : ¬ LoopFree "f(x) \\ = f(x)" := by decide +kernel

end Abacus
