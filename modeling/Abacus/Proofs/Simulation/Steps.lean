import Abacus.Proofs.Simulation.Basic

/-! What the single steps of a computation keep in common: results, binds, and every access to the
state of a run. -/

namespace Abacus.Simulation

open Run (bind_eq debug_eq noted_eq of_watched block_eq)

variable {α β γ δ ε ζ : Type} {a : Setup α} {b : Setup β}

section Stopping

variable {S : Simulation a b} {f g : Failure}

theorem Stops.ofFailure (offset length : Int) (h : S.fails f g) :
    S.Stops (Stop.ofFailure offset length f) (Stop.ofFailure offset length g) := by
  by_cases hf : f = .inputRequired
  · have hg := (S.inputRequired f g h).mp hf
    subst hf hg
    exact .input h _
  · have hg : g ≠ .inputRequired := fun hg => hf ((S.inputRequired f g h).mpr hg)
    rw [Stop.ofFailure_eq hf, Stop.ofFailure_eq hg, S.message f g h]
    exact .fault _

theorem Stops.ofLiteral (h : S.fails f g) : S.Stops (Stop.ofLiteral f) (Stop.ofLiteral g) := by
  by_cases hf : f = .inputRequired
  · have hg := (S.inputRequired f g h).mp hf
    subst hf hg
    exact .input h _
  · have hg : g ≠ .inputRequired := fun hg => hf ((S.inputRequired f g h).mpr hg)
    rw [Stop.ofLiteral_eq hf, Stop.ofLiteral_eq hg]
    exact .literal h

end Stopping

namespace Simulates

variable {S : Simulation a b}

theorem pure {R : S.Rel γ δ} {v : γ} {w : δ} (h : R.rel v w) :
    S.Simulates R (Pure.pure v) (Pure.pure w) where
  ends _ _ hm := .ok h hm
  grows _ _ := List.prefix_rfl

theorem throw {R : S.Rel γ δ} {e e' : Stop} (h : S.Stops e e') :
    S.Simulates R (throw e) (throw e') where
  ends _ _ hm := .error h hm
  grows _ _ := List.prefix_rfl

theorem bind {R : S.Rel γ δ} {T : S.Rel ε ζ} {x : Run α γ} {y : Run β δ} {f : γ → Run α ε}
    {g : δ → Run β ζ} (hx : S.Simulates R x y)
    (hf : ∀ v w, R.rel v w → S.Simulates T (f v) (g w)) :
    S.Simulates T (x >>= f) (y >>= g) := by
  -- whatever the right run returned, some left result has the same continuation
  have hg : S.lessInput → ∀ w n, n.records.toList <+: (Run.stateOf (g w n)).records.toList := by
    intro hl w n
    obtain ⟨v, hv⟩ := R.total hl w
    exact (hf v w hv).grows hl n
  constructor
  · intro m n hm
    have he := hx.ends m n hm
    rw [bind_eq, bind_eq]
    generalize x m = r at he ⊢
    generalize y n = s at he ⊢
    cases he with
    | ok hv hm' => exact (hf _ _ hv).ends _ _ hm'
    | error he' hm' => exact .error he' hm'
    | ahead ha =>
      cases s with
      | ok w n' => exact .ahead (ha.mono (fun hl => hg hl w n'))
      | error e' n' => exact .ahead ha
    | refused h prompt m' n' => exact .refused h prompt m' n'
  · intro hl n
    have hy := hx.grows hl n
    rw [bind_eq]
    generalize y n = r at hy ⊢
    cases r with
    | ok w n' => exact hy.trans (hg hl w n')
    | error e' n' => exact hy

theorem ofStep {R : S.Rel γ δ} {x : Machine α → γ × Machine α} {y : Machine β → δ × Machine β}
    (h : ∀ m n, S.Related m n → R.rel (x m).1 (y n).1 ∧ S.Related (x m).2 (y n).2)
    (hr : S.lessInput → ∀ n, n.records.toList <+: (y n).2.records.toList) :
    S.Simulates R (modifyGet x) (modifyGet y) where
  ends m n hm := .ok (h m n hm).1 (h m n hm).2
  grows hl n := hr hl n

theorem ofModify {x : Machine α → Machine α} {y : Machine β → Machine β}
    (h : ∀ m n, S.Related m n → S.Related (x m) (y n))
    (hr : S.lessInput → ∀ n, n.records.toList <+: (y n).records.toList) :
    S.Simulates (Rel.eq S Unit) (modify x) (modify y) where
  ends m n hm := .ok rfl (h m n hm)
  grows hl n := hr hl n

theorem failAt {R : S.Rel γ δ} (t : Token) (message : String) :
    S.Simulates R (Run.failAt t message) (Run.failAt t message) :=
  .throw (.fault _)

theorem fail {R : S.Rel γ δ} (offset : Int) (message : String) (length : Int) :
    S.Simulates R (Run.fail offset message length) (Run.fail offset message length) :=
  .throw (.fault _)

theorem ofExcept {R : S.Rel γ δ} {x : Except Fault γ} {y : Except Fault δ}
    (h : SameResult Eq R.rel x y) : S.Simulates R (Run.ofExcept x) (Run.ofExcept y) := by
  cases h with
  | ok hv => exact .pure hv
  | error he => exact he ▸ .throw (.fault _)

theorem orStop {R : S.Rel γ δ} {x : Except Stop γ} {y : Except Stop δ}
    (h : SameResult S.Stops R.rel x y) : S.Simulates R (Run.orStop x) (Run.orStop y) := by
  cases h with
  | ok hv => exact .pure hv
  | error he => exact .throw he

theorem ofResult {R : S.Rel γ δ} (t : Token) {x : Except Failure γ} {y : Except Failure δ}
    (h : SameResult S.fails R.rel x y) :
    S.Simulates R (Run.ofResult t x) (Run.ofResult t y) :=
  .orStop (h.mapError (fun he => .ofFailure t.index t.length he))

end Simulates

section Access

variable (S : Simulation a b)

theorem lookup (scope : Scope) (name : String) :
    S.Simulates (Rel.binding S).option (Run.lookup scope name) (Run.lookup scope name) where
  ends _ _ hm := .ok (hm.frames.get scope name) hm
  grows _ _ := List.prefix_rfl

theorem find (scope : Scope) (name : String) :
    S.Simulates ((Rel.eq S Nat).prod (Rel.binding S)).option (Run.find scope name)
      (Run.find scope name) where
  ends _ _ hm := .ok (hm.frames.find scope name) hm
  grows _ _ := List.prefix_rfl

theorem child (scope : Scope) :
    S.Simulates (Rel.eq S Scope) (Run.child scope) (Run.child scope) := by
  refine .ofStep (fun m n hm => ⟨?_, ?_⟩) (fun _ _ => List.prefix_rfl)
  · simp only [Frames.child, Rel.eq, hm.frames.size]
  · exact { hm with frames := hm.frames.child scope }

theorem declare (owner : Nat) (name : String) {x : Binding α} {y : Binding β}
    (h : Binding.Related S.same S.known S.fit x y) :
    S.Simulates (Rel.eq S Unit) (Run.declare owner name x) (Run.declare owner name y) :=
  .ofModify (fun _ _ hm => { hm with frames := hm.frames.declare owner name h })
    (fun _ _ => List.prefix_rfl)

theorem declareIn (scope : Scope) (name : String) {x : Binding α} {y : Binding β}
    (h : Binding.Related S.same S.known S.fit x y) :
    S.Simulates (Rel.eq S Unit) (Run.declareIn scope name x) (Run.declareIn scope name y) :=
  .ofModify (fun _ _ hm => { hm with frames := hm.frames.declareIn scope name h })
    (fun _ _ => List.prefix_rfl)

theorem record (s : Statement) {x : List (Output α)} {y : List (Output β)}
    (h : List.Forall₂ (Output.Related S.same) x y) :
    S.Simulates (Rel.eq S Unit) (Run.record s x) (Run.record s y) := by
  refine .ofModify (fun m n hm => { hm with records := ?_ }) (fun _ n => ?_)
  · simp only [Array.toList_push]
    exact List.rel_append hm.records (.cons ⟨rfl, rfl, h⟩ .nil)
  · simp only [Array.toList_push]
    exact List.prefix_append _ _

theorem setStatement (text : String) :
    S.Simulates (Rel.eq S Unit) (modify (fun m => { m with statement := text }))
      (modify (fun m => { m with statement := text })) :=
  .ofModify (fun _ _ hm => { hm with statement := rfl }) (fun _ _ => List.prefix_rfl)

theorem debugLine (level : Int) {s t : Unit → String} (h : S.line (s ()) (t ())) :
    S.Simulates (Rel.eq S Unit) (Run.debug a level s) (Run.debug b level t) := by
  have hd := fun l k hl => S.debug level (s ()) (t ()) l k h hl
  rw [debug_eq, debug_eq]
  exact .ofModify (fun m n hm => { hm with log := hd m.log n.log hm.log })
    (fun _ _ => List.prefix_rfl)

theorem debugSame (level : Int) (s : Unit → String) :
    S.Simulates (Rel.eq S Unit) (Run.debug a level s) (Run.debug b level s) :=
  S.debugLine level (S.line_refl _)

/-- Both sides write a line, or the left one alone does. -/
theorem debugText (level : Int) {s t : Unit → Except Failure String}
    (h : level ≤ a.debugLevel →
      SameResult (fun f g => S.Stops (.defect (.unshown f)) (.defect (.unshown g))) S.line
        (s ()) (t ()))
    (hshown : a.Shows → level ≤ a.debugLevel → ∃ text, s () = .ok text) :
    S.Simulates (Rel.eq S Unit) (Run.debugText a level s) (Run.debugText b level t) := by
  unfold Run.debugText
  by_cases ha : level ≤ a.debugLevel
  · have hst := h ha
    rw [if_pos ha]
    by_cases hb : level ≤ b.debugLevel
    · rw [if_pos hb]
      generalize s () = x at hst ⊢
      generalize t () = y at hst ⊢
      cases hst with
      | ok hl => exact S.debugLine level hl
      | error he => exact .throw he
    · rw [if_neg hb]
      cases hs : s () with
      | ok text =>
        have hline := S.debugSame level (fun _ => text)
        rwa [Run.debug, Run.debug, if_neg hb] at hline
      | error f =>
        rcases S.levels with heq | hl | hshows
        · exact absurd (heq ▸ ha) hb
        · exact ⟨fun _ _ _ => .ahead (.inr (.inl ⟨hl, f, rfl⟩)), fun _ _ => List.prefix_rfl⟩
        · obtain ⟨text, htext⟩ := hshown hshows ha
          cases hs.symm.trans htext
  · have hb : ¬ level ≤ b.debugLevel := fun hb => ha (Int.le_trans hb S.level_le)
    rw [if_neg ha, if_neg hb]
    exact .pure rfl

/-- Notes are not compared, so each side may take them or not. -/
theorem noted_left {R : S.Rel γ δ} {x : Run α γ} {y : Run β δ} (scope : Scope)
    (h : S.Simulates R x y) : S.Simulates R (Run.noted scope x) y where
  ends m n hm := by
    have he := h.ends (Run.note scope m) n { hm with }
    rw [noted_eq]
    generalize x (Run.note scope m) = r at he ⊢
    generalize y n = s at he ⊢
    cases he with
    | ok hv hm' => exact .ok hv { hm' with }
    | error he' hm' => exact .error he' { hm' with }
    | ahead ha => exact .ahead ha
    | refused hf prompt m' n' => exact .refused hf prompt _ n'
  grows := h.grows

theorem noted_right {R : S.Rel γ δ} {x : Run α γ} {y : Run β δ} (scope : Scope)
    (h : S.Simulates R x y) : S.Simulates R x (Run.noted scope y) where
  ends m n hm := by
    have he := h.ends m (Run.note scope n) { hm with }
    rw [noted_eq]
    generalize x m = r at he ⊢
    generalize y (Run.note scope n) = s at he ⊢
    cases he with
    | ok hv hm' => exact .ok hv { hm' with }
    | error he' hm' => exact .error he' { hm' with }
    | ahead ha =>
      refine .ahead (ha.mono (fun _ => ?_))
      cases s <;> exact List.prefix_rfl
    | refused hf prompt m' n' => exact .refused hf prompt m' _
  grows hl n := by
    have hg := h.grows hl (Run.note scope n)
    rw [noted_eq]
    generalize y (Run.note scope n) = s at hg ⊢
    cases s <;> exact hg

theorem watched {R : S.Rel γ δ} {x : Run α γ} {y : Run β δ} (scope : Scope)
    (h : S.Simulates R x y) : S.Simulates R (Run.watched a scope x) (Run.watched b scope y) := by
  have hright : S.Simulates R x (Run.watched b scope y) :=
    of_watched b scope (S.noted_right scope h) h
  exact of_watched (motive := fun x => S.Simulates R x (Run.watched b scope y)) a scope
    (S.noted_left scope hright) hright

def Rel.body : S.Rel (List Statement) (List Statement) :=
  Rel.only S (Statement.AllFit S.fit) (fun hl => Statement.allFit_of_all (S.fit_all hl))

theorem block {key : Int × Int} {tokens : List Token} (h : S.keyed key tokens) :
    S.Simulates (Rel.body S)
      (Run.block a key (Statement.ofTokens a.source a.strict tokens))
      (Run.block b key (Statement.ofTokens b.source b.strict tokens)) where
  ends m n hm := by
    have hr := S.recalled key tokens m.blocks n.blocks h hm.blocks
    rw [block_eq, block_eq]
    generalize recallBlock a.remembers _ _ _ = x at hr ⊢
    generalize recallBlock b.remembers _ _ _ = y at hr ⊢
    cases hr with
    | ok hv => exact .ok ⟨hv.1, hv.2.1⟩ { hm with blocks := hv.2.2 }
    | error he => exact he ▸ .error (.fault _) hm
  grows _ n := by
    rw [block_eq]
    cases recallBlock b.remembers n.blocks key _ <;> exact List.prefix_rfl

end Access

end Abacus.Simulation
