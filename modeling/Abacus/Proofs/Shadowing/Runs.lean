import Abacus.Proofs.Scoping.Runs
import Abacus.Proofs.Shadowing.Worlds

/-! What the constants and functions of the root scope stand for in a run: the same in every scope
that does not lie in a call of a function with a parameter of that name. -/

namespace Abacus

variable {α : Type}

/-- Names of the root scope keep their meaning outside calls. A statement may leave a function that
was there at no moment before; the moment after it makes it known. -/
def Reserved.conduct (R : Reserved α) (setup : Setup α) (hwatches : setup.watches = true) :
    Conduct setup where
  World := World α
  Before := World.Before
  refl := .refl
  trans := World.Before.trans
  inv w c := (w.frames = c.frames ∧ w.history = c.history) ∧ w.Sound R
  begun w c := (w.frames = c.frames ∧ w.history = c.history) ∧ w.Sound R ∧
    ∃ y ∈ w.history, y.frames = w.frames
  ended w c := (w.frames = c.frames ∧ w.history = c.history) ∧ w.Fine R
  begun_inv h := ⟨h.1, h.2.1⟩
  inv_ended h := ⟨h.1, h.2.toFine⟩
  moves := .any
  stops := .all setup
  made w scope := scope ∈ w.tree
  made_mono h hs := h.tree.subset hs
  admits := World.Admits
  admits_mono := World.Before.admits
  free w scope name := name = R.name → w.Calls R.name scope
  free_mono h hf hname := h.calls (hf hname)
  body _ := True
  block _ _ := True
  bound := by
    rintro ⟨_, _, _⟩ c id e g ⟨⟨rfl, rfl⟩, hw⟩ he hg
    exact hw.admits he hg
  called hg := ⟨hg.1, trivial⟩
  recalled _ _ := trivial
  remembered hw _ := hw
  counted := by
    rintro ⟨_, _, _⟩ c scope name ⟨⟨rfl, rfl⟩, hw⟩ hs hfound rfl
    exact hw.calls_of_not_constant hs hfound
  opened := by
    rintro ⟨tree, _, _⟩ c scope f ⟨⟨rfl, rfl⟩, hw⟩ hs hopened hentries
    obtain ⟨hbefore, hsound⟩ := hw.opened hs hopened hentries
    exact ⟨_, hbefore, ⟨⟨rfl, rfl⟩, hsound⟩, List.mem_append_right _ (List.mem_singleton_self _)⟩
  placed := by
    rintro ⟨_, _, _⟩ ⟨tree, _, _⟩ m m' scope name b f ⟨⟨rfl, rfl⟩, hw, hnoted⟩ hbefore
      ⟨⟨rfl, rfl⟩, hw'⟩ _ hs hfound hplaced hb
    have hend := hw.toFine.placed hnoted hs hbefore hw'.toFine hplaced hfound
      (fun g hg => (hb g hg).1 ▸ hs)
    exact ⟨⟨tree, f, _⟩, hend.1, ⟨rfl, rfl⟩, hend.2⟩
  begins := by
    rintro ⟨tree, _, _⟩ c scope _ ⟨⟨rfl, rfl⟩, hw⟩ hs
    obtain ⟨hbefore, hsound⟩ := hw.toFine.note hs
    exact ⟨_, hbefore, ⟨rfl, rfl⟩, hsound, _, List.mem_cons_self, rfl⟩
  ends := by
    rintro ⟨tree, _, _⟩ c scope _ ⟨⟨rfl, rfl⟩, hw⟩ hs
    obtain ⟨hbefore, hsound⟩ := hw.note hs
    exact ⟨_, hbefore, ⟨rfl, rfl⟩, hsound⟩
  unwatched h := absurd hwatches (Bool.eq_false_iff.mp h)

/-- The scopes before a run. -/
def startTree : List Scope :=
  [[0], Machine.globals]

theorem rootFrame_constant {s : NumberSystem α} {name : String} {b : Binding α}
    (hb : (Machine.rootFrame s).lookup name = some b) : b.isConstant = true :=
  root_bindings (P := fun b => b.isConstant = true) (fun _ => rfl) (fun _ _ => rfl)
    (Frames.mem_of_lookup hb)

theorem start_world (s : NumberSystem α) (r : Resources α) {R : Reserved α}
    (hR : (Machine.rootFrame s).lookup R.name = some R.binding) :
    (World.of startTree (Machine.start s r)).Sound R := by
  have hnone : ∀ id, ∀ e ∈ (Machine.start s r).frames.frame id, ∀ g, e.2 ≠ .function g :=
    start_bindings (P := fun b => ∀ g, b ≠ .function g) (fun _ _ => nofun) (fun _ _ _ => nofun) s r
  refine ⟨⟨.child .root (List.mem_singleton_self _), rfl, ?_, hR, ?_, ?_, ?_⟩, ?_⟩
  · exact fun y hy => absurd hy List.not_mem_nil
  · exact fun id e he g hg => absurd hg (hnone id e he g)
  · intro id outer hs hid hbinds
    obtain ⟨c, hc⟩ := hbinds
    match id with
    | 0 => exact absurd rfl hid
    | 1 => cases hc
    | _ + 2 => cases hc
  · exact fun x earlier hx => absurd (List.suffix_nil.mp hx) (List.cons_ne_nil _ _)
  · exact fun id e he g hg => absurd hg (hnone id e he g)

/-- In every scope in which a statement or an expression of a run is evaluated a name of the root
scope stands for what the root scope binds, unless the scope lies in a call of a function that has
the name among its parameters. No declaration, assignment, definition or counter gives it another
meaning. -/
theorem only_parameters_shadow (setup : Setup α) (fuel : Nat) (p : Program) (seed : Int)
    (inputs : List String) {name : String} {b : Binding α}
    (hb : (Machine.rootFrame setup.system).lookup name = some b) {x : Moment α}
    {earlier : List (Moment α)} (hx : x :: earlier <:+ p.history setup fuel seed inputs) :
    x.frames.find x.scope name = some (0, b) ∨
      InCall name (x :: earlier) x.frames x.scope := by
  let R : Reserved α := ⟨name, b, rootFrame_constant hb⟩
  let watched : Setup α := { setup with watches := true }
  let start := Machine.start setup.system (setup.system.resources seed inputs)
  have hstart : (World.of startTree start).Sound R := start_world _ _ hb
  let plan : Conduct.Plan (R.conduct watched rfl) :=
    .free (fun _ => trivial) (fun _ _ => trivial) (fun _ => trivial)
  have hfit : plan.fitBlock fuel p.body := trivial
  let w : World α := World.of startTree start
  have hmade : (R.conduct watched rfl).made w Machine.globals :=
    List.mem_cons_of_mem _ (List.mem_singleton_self _)
  obtain ⟨_, ⟨_, _, _⟩, _, ⟨⟨_, rfl⟩, hend⟩, _⟩ :=
    plan.program_obeys hmade hfit w start (.refl w) ⟨⟨rfl, rfl⟩, hstart⟩
  exact hend.moments x earlier hx

/-- A script with a function that has the name of a constant as its parameter. -/
def shadowing : Program :=
  match Program.parse "f(e) = e\nf(2)" false with
  | .ok p => p
  | .error _ => ⟨"", []⟩

theorem shadowing_reserved :
    let setup := shadowing.setup (Bignumber.system 20) {}
    ∃ b x earlier, (Machine.rootFrame setup.system).lookup "e" = some b ∧
      x :: earlier <:+ shadowing.history setup 20 0 [] ∧
      (x.frames.find x.scope "e" = some (0, b) ∨ InCall "e" (x :: earlier) x.frames x.scope) := by
  intro setup
  have hbound : ((Machine.rootFrame setup.system).lookup "e").isSome = true := by decide +kernel
  have hhistory : (shadowing.history setup 20 0 []).isEmpty = false := by decide +kernel
  obtain ⟨b, hb⟩ := Option.isSome_iff_exists.mp hbound
  obtain ⟨x, earlier, hx⟩ := List.exists_cons_of_ne_nil (List.isEmpty_eq_false_iff.mp hhistory)
  have hsuffix : x :: earlier <:+ shadowing.history setup 20 0 [] := hx ▸ List.suffix_refl _
  exact ⟨b, x, earlier, hb, hsuffix, only_parameters_shadow setup 20 shadowing 0 [] hb hsuffix⟩

/-- In the call the name does not stand for the constant. -/
theorem parameter_shadows :
    let setup := shadowing.setup (Bignumber.system 20) {}
    ∃ x ∈ shadowing.history setup 20 0 [],
      x.frames.get x.scope "e" ≠ (Machine.rootFrame setup.system).lookup "e" := by
  intro setup
  have hrun : (shadowing.history setup 20 0 []).any (fun x =>
      (x.frames.get x.scope "e").any (fun b => !b.isConstant)) = true := by decide +kernel
  obtain ⟨x, hx, hvariable⟩ := List.any_eq_true.mp hrun
  refine ⟨x, hx, fun heq => ?_⟩
  rw [heq] at hvariable
  cases hb : (Machine.rootFrame setup.system).lookup "e" with
  | none =>
    rw [hb] at hvariable
    cases hvariable
  | some b =>
    rw [hb, Option.any_some, rootFrame_constant hb] at hvariable
    cases hvariable

end Abacus
