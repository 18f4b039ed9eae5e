import Abacus.Proofs.Forest.Expression
import Abacus.Proofs.Forest.Source
import Abacus.Proofs.Fuel
import Abacus.System.Bignumber

/-! Blocks inside expressions are read once and then remembered by their place. A script that was
read from a source cannot tell: from one place only one block can be read. -/

namespace Abacus

open Statement

variable {α : Type} {F : List Token}

theorem Keyed.reading {key : Int × Int} {R : List Token} (h : Keyed F key R) : Reading F R := by
  cases h with
  | braces ht _ =>
    obtain ⟨L, hL, hm⟩ := ht
    exact ⟨_, hL.contents hm, .refl _⟩
  | run h =>
    obtain ⟨L, _, _, hL, _, _, he, _⟩ := h
    exact ⟨L, hL, he⟩

theorem Keyed.ofTokens_eq (hF : Ordered F) {source : String} {strict : Bool} {key : Int × Int}
    {R R' : List Token} {body : List Statement} (h : Keyed F key R) (h' : Keyed F key R')
    (hb : ofTokens source strict R' = .ok body) : ofTokens source strict R = .ok body := by
  have hblock : ∀ first rest, R' = first :: rest → Eval.startsBlock first = true →
      ∃ b ∈ R', b.isBlock = true := by
    rintro first rest rfl hs
    have hfirst := h'.reading.inForest (List.mem_cons_self (a := first))
    exact block_of_ofTokens (hfirst.placed hF) hs hb
  rw [h.unique hF h' hblock]
  exact hb

/-- Every block that is remembered was read from its place. -/
def Recorded (F : List Token) (source : String) (strict : Bool) (known : Blocks) : Prop :=
  ∀ key body, known.lookup key = some body →
    ∃ R, Keyed F key R ∧ ofTokens source strict R = .ok body

theorem Recorded.cons {source : String} {strict : Bool} {known : Blocks}
    (h : Recorded F source strict known) {key : Int × Int} {R : List Token} {body : List Statement}
    (hk : Keyed F key R) (hb : ofTokens source strict R = .ok body) :
    Recorded F source strict ((key, body) :: known) := by
  intro key' body' hl
  rw [List.lookup_cons] at hl
  split at hl
  · next he =>
    cases hl
    obtain rfl := beq_iff_eq.mp he
    exact ⟨R, hk, hb⟩
  · exact h key' body' hl

theorem recallBlock_same (hF : Ordered F) {source : String} {strict : Bool} {key : Int × Int}
    {R : List Token} {known known' : Blocks} (hk : Keyed F key R)
    (h : Recorded F source strict known) :
    SameResult Eq (fun x y => x.1 = y.1 ∧ AllFit (Fits F) x.1 ∧ Recorded F source strict x.2)
      (recallBlock true known key (ofTokens source strict R))
      (recallBlock false known' key (ofTokens source strict R)) := by
  have hfits : ∀ body, ofTokens source strict R = .ok body → AllFit (Fits F) body :=
    fun _ hb => ofTokens_fits hF hk.reading hb
  cases hl : known.lookup key with
  | some body =>
    obtain ⟨R', hk', hb'⟩ := h key body hl
    have hb := hk.ofTokens_eq hF hk' hb'
    simp only [recallBlock, hl, hb, if_true]
    exact .ok ⟨rfl, hfits body hb, h⟩
  | none =>
    simp only [recallBlock, hl, if_true]
    cases hb : ofTokens source strict R with
    | error f => exact .error rfl
    | ok body => exact .ok ⟨rfl, hfits body hb, h.cons hk hb⟩

/-- Two runs of a script with the forest `F` that differ in the blocks that they have read. -/
def Simulation.overForest (setup : Setup α) (source : String) (remembers : Bool)
    (blocks : Blocks → Blocks → Prop) (hF : Ordered F)
    (recalled : ∀ key tokens known known', Keyed F key tokens → blocks known known' →
      SameResult Eq (fun x y => x.1 = y.1 ∧ AllFit (Fits F) x.1 ∧ blocks x.2 y.2)
        (recallBlock setup.remembers known key (ofTokens setup.source setup.strict tokens))
        (recallBlock remembers known' key (ofTokens source setup.strict tokens))) :
    Simulation setup
      { setup with source := source, remembers := remembers, watches := setup.watches } :=
  .overOneSystem setup source remembers setup.watches Eq (fun _ => False) Eq blocks (Fits F)
    (Keyed F) False False never_both (repeats_same setup) (builtins_same setup)
    (factorial_same setup) recalled
    (fun _ _ _ h hf hs => h.block hf hs)
    (fun _ _ _ isFunction h hf _ => h.tokens hF hf setup.strict isFunction)
    False.elim False.elim

/-- A run that remembers blocks beside one that reads them afresh every time. -/
def Simulation.ofMemory (setup : Setup α) (hr : setup.remembers = true) (hF : Ordered F) :
    Simulation setup { setup with remembers := false, watches := setup.watches } :=
  .overForest setup setup.source false
    (fun known _ => Recorded F setup.source setup.strict known) hF
    (by
      intro key tokens known known' hk h
      rw [hr]
      exact recallBlock_same hF hk h)

theorem Program.parse_fits {source : String} {strict : Bool} {p : Program}
    (h : Program.parse source strict = .ok p) : ∃ F, Ordered F ∧ AllFit (Fits F) p.body := by
  unfold Program.parse at h
  cases hg : Token.groupAll source strict (Token.scan source) with
  | error f =>
    rw [hg] at h
    cases h
  | ok F =>
    rw [hg] at h
    have hF := groupAll_ordered (scan_ordered source) hg
    cases hb : ofTokens source strict F with
    | error f =>
      simp only [hb, bind, Except.bind] at h
      cases h
    | ok body =>
      simp only [hb, bind, Except.bind] at h
      cases h
      exact ⟨F, hF, ofTokens_fits hF ⟨F, .here F, .refl F⟩ hb⟩

/-- The same setup without memory: blocks are read afresh every time. -/
def Setup.forgetful (setup : Setup α) : Setup α :=
  { setup with remembers := false }

/-- Statements that were read from one forest are run alike with and without memory. -/
theorem Program.runIn_forgetful {p : Program} {setup : Setup α} (hr : setup.remembers = true)
    (hF : Ordered F) (hbody : AllFit (Fits F) p.body) (fuel : Nat) (seed : Int)
    (inputs : List String) :
    p.runIn setup.forgetful fuel seed inputs = p.runIn setup fuel seed inputs := by
  let S := Simulation.ofMemory setup hr hF
  let start := Machine.start setup.system (setup.system.resources seed inputs)
  have hnone : Recorded F setup.source setup.strict [] := fun _ _ hl => nomatch hl
  have hm : S.Related start start :=
    ⟨start_frames_related _ _ _ _, .nil, hnone, rfl, rfl, rfl⟩
  have hfuel : S.Fuels fuel fuel := .inl rfl
  have he := (S.simulates_program hfuel hbody).ends start start hm
  rcases he.outcome_eq rfl rfl rfl (fun _ => id) setup.debugLevel with
    hh | ⟨_, _, _, ⟨hl, _⟩ | ⟨hl, _⟩ | ⟨hl, _⟩⟩
  · exact hh.symm
  · exact hl.elim
  · exact hl.elim
  · exact hl.elim

/-- Whether blocks are remembered makes no difference to what a script that was read does. -/
theorem memory_transparent (s : NumberSystem α) (o : Options) (source : String) (strict : Bool)
    (p : Program) (h : Program.parse source strict = .ok p) (fuel : Nat) (inputs : List String) :
    p.runIn (p.setup s o).forgetful fuel o.seed inputs = p.run s o fuel inputs := by
  obtain ⟨F, hF, hbody⟩ := Program.parse_fits h
  exact Program.runIn_forgetful rfl hF hbody fuel o.seed inputs

/-- A script that evaluates a condition and a block inside expressions again and again. -/
def doubling : String :=
  "x = 0\nrepeat 3 times \x7bx = if x \x7bx * 2\x7d else \x7b\x7b1\x7d + 1\x7d\x7d"

theorem doubling_transparent :
    ∃ p, Program.parse doubling false = .ok p ∧
      p.runIn (p.setup (Bignumber.system 20) {}).forgetful 20 0 [] =
        p.run (Bignumber.system 20) {} 20 [] := by
  have hread : (Program.parse doubling false).isOk = true := by decide +kernel
  cases hp : Program.parse doubling false with
  | error f =>
    rw [hp] at hread
    cases hread
  | ok p => exact ⟨p, rfl, memory_transparent (Bignumber.system 20) {} doubling false p hp 20 []⟩

end Abacus
