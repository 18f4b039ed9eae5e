import Abacus.Proofs.Replay

/-! The lines for those who debug tell what a run does and take no part in it. A higher level only
adds lines between those of a lower one. -/

namespace Abacus

variable {α : Type}

/-- A result without the lines for those who debug. -/
def withoutLines : Except RunError (Outcome α) → Except RunError (Outcome α)
  | .ok o => .ok { o with log := none }
  | .error (.defect d _) => .error (.defect d none)
  | .error (.options e) => .error (.options e)

def debugLines : Except RunError (Outcome α) → List String
  | .ok o => o.log.getD []
  | .error e => e.log.getD []

/-- The run stopped at a line that has no text. -/
def LacksText (r : Except RunError (Outcome α)) : Prop :=
  ∃ f log, r = .error (.defect (.unshown f) log)

/-- The second result shows what the first one shows, and its lines are those of the first one with
more lines between them. -/
structure Elaborates (r t : Except RunError (Outcome α)) : Prop where
  shown : withoutLines r = withoutLines t
  lines : (debugLines r).Sublist (debugLines t)

theorem Elaborates.lacksFuel_iff {r t : Except RunError (Outcome α)} (h : Elaborates r t) :
    LacksFuel r ↔ LacksFuel t := by
  have hlacks : ∀ r : Except RunError (Outcome α),
      LacksFuel r ↔ withoutLines r = .error (.defect .outOfFuel none) := by
    rintro ((_ | _) | _) <;> simp [LacksFuel, withoutLines]
  rw [hlacks, hlacks, h.shown]

def lacksText : Except RunError (Outcome α) → Bool
  | .error (.defect (.unshown _) _) => true
  | _ => false

theorem lacksText_iff {r : Except RunError (Outcome α)} : lacksText r = true ↔ LacksText r := by
  unfold lacksText LacksText
  split <;> simp_all

theorem LacksText.not_lacksFuel {r : Except RunError (Outcome α)} (h : LacksText r) :
    ¬ LacksFuel r := by
  rintro ⟨_, hr⟩
  obtain ⟨_, _, ht⟩ := h
  cases hr.symm.trans ht

theorem push_sublist {l k : Array String} (h : k.toList.Sublist l.toList) (line : String)
    {P Q : Prop} [Decidable P] [Decidable Q] (hqp : Q → P) :
    (if Q then k.push line else k).toList.Sublist (if P then l.push line else l).toList := by
  by_cases hq : Q
  · simpa [hq, hqp hq] using h
  · by_cases hp : P
    · simpa [hp, hq] using h.trans (List.sublist_append_left _ _)
    · simpa [hp, hq] using h

/-- A run beside the same run at a lower level. With `lacks` it may stop at a line without a text
that is not written at the lower level. -/
def Simulation.ofLevel (setup : Setup α) (d : Int) (h : d ≤ setup.debugLevel) (lacks : Prop)
    (hshows : lacks ∨ setup.Shows) : Simulation setup { setup with debugLevel := d } :=
  { Simulation.ofFuel setup setup.watches False with
    log := fun l k => k.toList.Sublist l.toList
    line := Eq
    lessShown := lacks
    level_le := h
    levels := .inr hshows
    line_refl := fun _ => rfl
    line_format := fun _ _ _ _ hv => hv ▸ .refl _
    debug := by
      rintro level line _ l k rfl hl
      exact push_sublist hl line (fun hlevel => Int.le_trans hlevel h) }

theorem lines_sublist {d d' : Int} (h : d ≤ d') {m n : Machine α}
    (hl : n.log.toList.Sublist m.log.toList) :
    ((n.lines? d).getD []).Sublist ((m.lines? d').getD []) := by
  unfold Machine.lines?
  by_cases hd : 0 < d
  · simpa [hd, Int.lt_of_lt_of_le hd h] using hl
  · simp [hd]

theorem Simulation.ofLevel_elaborates {setup : Setup α} {d : Int} {h : d ≤ setup.debugLevel}
    {lacks : Prop} {hshows : lacks ∨ setup.Shows} {r t : EStateM.Result Stop (Machine α) Unit}
    (he : (Simulation.ofLevel setup d h lacks hshows).Ends (Rel.eq _ Unit) r t) :
    lacks ∧ LacksText (Outcome.ofResult setup.debugLevel r) ∨
      Elaborates (Outcome.ofResult d t) (Outcome.ofResult setup.debugLevel r) := by
  let S := Simulation.ofLevel setup d h lacks hshows
  have hrecords : ∀ {m n}, S.Related m n → m.records = n.records :=
    fun hm => Array.toList_inj.mp (forall₂_eq (fun _ _ hr => hr.eq) hm.records)
  have houtcome : ∀ {m n} status, S.Related m n →
      Elaborates (.ok (n.outcome d status)) (.ok (m.outcome setup.debugLevel status)) :=
    fun status hm => ⟨by simp [withoutLines, Machine.outcome, hrecords hm], lines_sublist h hm.log⟩
  cases he with
  | ok _ hm => exact .inr (houtcome .ok hm)
  | @error e e' m n hstop hm =>
    have hee : e = e' := by
      cases hstop with
      | fault | input | defect => rfl
      | literal hf | unshown hf => exact congrArg _ (congrArg _ hf)
    subst hee
    right
    cases e with
    | fault f => exact houtcome (.error f) hm
    | input prompt => exact houtcome (.needsInput prompt) hm
    | defect defect => exact ⟨rfl, lines_sublist h hm.log⟩
  | ahead ha =>
    rcases ha with ⟨hl, _⟩ | ⟨hl, f, rfl⟩ | ⟨hl, _⟩
    · exact hl.elim
    · exact .inl ⟨hl, f, _, rfl⟩
    · exact hl.elim
  | refused h =>
    obtain ⟨_, hg, _⟩ := h
    exact hg.elim

theorem Program.runIn_elaborates (setup : Setup α) {d : Int} (h : d ≤ setup.debugLevel)
    {lacks : Prop} (hshows : lacks ∨ setup.Shows) (fuel : Nat) (p : Program) (seed : Int)
    (inputs : List String) :
    lacks ∧ LacksText (p.runIn setup fuel seed inputs) ∨
      Elaborates (p.runIn { setup with debugLevel := d } fuel seed inputs)
        (p.runIn setup fuel seed inputs) := by
  let S := Simulation.ofLevel setup d h lacks hshows
  let start := Machine.start setup.system (setup.system.resources seed inputs)
  have hm : S.Related start start :=
    ⟨start_frames_related _ _ _ _, .nil, rfl, rfl, .refl _, rfl⟩
  have hbody : Statement.AllFit S.fit p.body := Statement.allFit_of_all (fun _ => trivial) _
  have hfuel : S.Fuels fuel fuel := .inl rfl
  exact Simulation.ofLevel_elaborates ((S.simulates_program hfuel hbody).ends start start hm)

namespace Session

/-- The session with another level of debugging. -/
def atLevel (session : Session) (d : Int) : Session :=
  { session with options := { session.options with debugLevel := d } }

/-- No line for those who debug at level `d` lacks a text. -/
def Shows (s : NumberSystem α) (session : Session) (d : Int) : Prop :=
  d < 2 ∨ (∀ v, ∃ text, s.format v = .ok text) ∧ session.options.digitLimit = none

theorem runWith_elaborates (s : NumberSystem α) (session : Session) {d d' : Int} (h : d ≤ d')
    {lacks : Prop} (hshows : lacks ∨ session.Shows s d') (fuel : Nat) :
    lacks ∧ LacksText ((session.atLevel d').runWith s fuel) ∨
      Elaborates ((session.atLevel d).runWith s fuel) ((session.atLevel d').runWith s fuel) := by
  have hrun : ∀ p : Program,
      lacks ∧ LacksText (p.run s (session.atLevel d').options fuel session.inputs) ∨
        Elaborates (p.run s (session.atLevel d).options fuel session.inputs)
          (p.run s (session.atLevel d').options fuel session.inputs) :=
    fun p => p.runIn_elaborates (p.setup s (session.atLevel d').options) h hshows fuel _ _
  unfold runWith
  simp only [atLevel] at hrun ⊢
  cases session.program with
  | some p => exact hrun p
  | none =>
    cases Program.parse session.source session.options.strict with
    | error f => exact .inr ⟨rfl, .refl _⟩
    | ok p => exact hrun p

/-- Whatever ends at one level ends at a higher one. What it shows then is the same, and at the
higher level there are the same lines and more, unless a line of the higher level has no text. Where
every line has one, the two levels always end alike. -/
theorem debugging_silent (s : NumberSystem α) (session : Session) {d d' : Int} (h : d ≤ d') :
    ((∃ r, (session.atLevel d).Ends s r) → ∃ t, (session.atLevel d').Ends s t) ∧
      (∀ r t, (session.atLevel d).Ends s r → (session.atLevel d').Ends s t →
        LacksText t ∨ Elaborates r t) ∧
      (session.Shows s d' →
        ((∃ t, (session.atLevel d').Ends s t) → ∃ r, (session.atLevel d).Ends s r) ∧
          ∀ r t, (session.atLevel d).Ends s r → (session.atLevel d').Ends s t →
            Elaborates r t) := by
  have hfuel := session.runWith_elaborates s h (.inl trivial)
  have hends : ∀ {fuel}, ¬ LacksFuel ((session.atLevel d).runWith s fuel) →
      (session.atLevel d').Ends s ((session.atLevel d').runWith s fuel) := by
    intro fuel hr
    refine ⟨fuel, rfl, fun hl => ?_⟩
    rcases hfuel fuel with ⟨_, ht⟩ | he
    · exact ht.not_lacksFuel hl
    · exact hr (he.lacksFuel_iff.mpr hl)
  refine ⟨?_, ?_, fun hshows => ?_⟩
  · rintro ⟨_, fuel, rfl, hr⟩
    exact ⟨_, hends hr⟩
  · rintro _ t ⟨fuel, rfl, hr⟩ ht
    rw [ht.unique (hends hr)]
    exact (hfuel fuel).imp_left And.right
  · have hsame : ∀ fuel, Elaborates ((session.atLevel d).runWith s fuel)
        ((session.atLevel d').runWith s fuel) :=
      fun fuel => (session.runWith_elaborates s h (.inr hshows) fuel).resolve_left And.left
    constructor
    · rintro ⟨_, fuel, rfl, ht⟩
      exact ⟨_, fuel, rfl, fun hl => ht ((hsame fuel).lacksFuel_iff.mp hl)⟩
    · rintro _ t ⟨fuel, rfl, hr⟩ ht
      rw [ht.unique (hends hr)]
      exact hsame fuel

/-- A script that calls a function in a loop and then asks. -/
def inquiring : Session :=
  ⟨"f(x) = x + 1\nrepeat 2 times with i \x7bprint i\nf(i)\x7d\ny = input()", {}, none, []⟩

theorem inquiring_silent :
    ∃ o o', (1 : Int) ≤ 3 ∧ (inquiring.atLevel 1).Ends (Bignumber.system 20) (.ok o) ∧
      (inquiring.atLevel 3).Ends (Bignumber.system 20) (.ok o') ∧
      o.status = .needsInput "y = input()" ∧ o'.status = .needsInput "y = input()" ∧
      o.records = o'.records ∧ (o.log.getD []).Sublist (o'.log.getD []) := by
  have hlow : status? ((inquiring.atLevel 1).runWith (Bignumber.system 20) 12) =
      some (.needsInput "y = input()") := by decide +kernel
  have hhigh : status? ((inquiring.atLevel 3).runWith (Bignumber.system 20) 12) =
      some (.needsInput "y = input()") := by decide +kernel
  obtain ⟨o, ho, hs⟩ := ends_of_status (Bignumber.system 20) (inquiring.atLevel 1) 12 hlow
  obtain ⟨o', ho', hs'⟩ := ends_of_status (Bignumber.system 20) (inquiring.atLevel 3) 12 hhigh
  have hle : (1 : Int) ≤ 3 := by decide
  have hsilent := (debugging_silent (Bignumber.system 20) inquiring hle).2.1
  rcases hsilent _ _ ho ho' with ⟨_, _, hlacks⟩ | ⟨hshown, hlines⟩
  · cases hlacks
  · have hrecords : o.records = o'.records := by
      simp only [withoutLines, Except.ok.injEq, Outcome.mk.injEq] at hshown
      exact hshown.2.1
    exact ⟨o, o', hle, ho, ho', hs, hs', hrecords, hlines⟩

/-- A script with a number whose digits are too many for a line. -/
def vast : Session :=
  ⟨"x = 10 ^ 5000", {}, none, []⟩

/-- At the second level the run stops at a line that the first level does not write. -/
theorem vast_not_silent :
    ∃ o, o.status = .ok ∧ (vast.atLevel 1).Ends (Fraction.system 20 (some 4300)) (.ok o) ∧
      ∃ t, (vast.atLevel 2).Ends (Fraction.system 20 (some 4300)) t ∧ LacksText t := by
  have hlow : status? ((vast.atLevel 1).runWith (Fraction.system 20 (some 4300)) 12) =
      some .ok := by decide +kernel
  obtain ⟨o, ho, hs⟩ := ends_of_status (Fraction.system 20 (some 4300)) (vast.atLevel 1) 12 hlow
  refine ⟨o, hs, ho, ?_⟩
  have hhigh : lacksText ((vast.atLevel 2).runWith (Fraction.system 20 (some 4300)) 12) = true := by
    decide +kernel
  have hlacks := lacksText_iff.mp hhigh
  exact ⟨_, ⟨12, rfl, hlacks.not_lacksFuel⟩, hlacks⟩

end Session

end Abacus
