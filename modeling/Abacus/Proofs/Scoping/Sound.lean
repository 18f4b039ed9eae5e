import Abacus.Proofs.Conduct.Plain

/-! What computations keep of the frames, and an invariant of the running script: the scopes of its
functions exist, and the moments noted so far agree on the constants. -/

namespace Abacus

variable {α : Type}

def Moment.Fixes (later earlier : Moment α) : Prop :=
  earlier.frames.Fixes later.frames

/-- The state of a script that runs in scopes that exist. -/
structure Memory.Sound (c : Memory α) : Prop where
  closed : ∀ id, ∀ e ∈ c.frames.frame id, ∀ g, e.2 = .function g → c.frames.Has g.scope
  scopes : ∀ x ∈ c.history, x.frames.Has x.scope
  constants : c.history.Pairwise Moment.Fixes
  latest : ∀ x ∈ c.history, x.frames.Fixes c.frames

namespace Memory.Sound

variable {c : Memory α}

theorem withBlocks (h : c.Sound) (blocks : Blocks) :
    ({ c with blocks := blocks } : Memory α).Sound :=
  ⟨h.closed, h.scopes, h.constants, h.latest⟩

theorem withFrames (h : c.Sound) {f : Frames (Binding α)} (hf : c.frames.Fixes f)
    (hc : ∀ id, ∀ e ∈ f.frame id, ∀ g, e.2 = .function g → f.Has g.scope) :
    ({ c with frames := f } : Memory α).Sound where
  closed := hc
  scopes := h.scopes
  constants := h.constants
  latest x hx := (h.latest x hx).trans hf

theorem note (h : c.Sound) {scope : Scope} (hs : c.frames.Has scope) : (c.note scope).Sound where
  closed := h.closed
  scopes x hx := by
    rcases List.mem_cons.mp hx with rfl | hx
    · exact hs
    · exact h.scopes x hx
  constants := List.pairwise_cons.mpr ⟨h.latest, h.constants⟩
  latest x hx := by
    rcases List.mem_cons.mp hx with rfl | hx
    · exact .refl _
    · exact h.latest x hx

theorem opened (h : c.Sound) {scope : Scope} (hs : c.frames.Has scope) {f : Frames (Binding α)}
    (hf : c.frames.Opened f) (hnew : ∀ e ∈ f.frame c.frames.frames.size, ∀ g,
      e.2 = .function g → c.frames.Has g.scope) :
    ({ c with frames := f } : Memory α).Sound ∧ f.Has (c.frames.frames.size :: scope) := by
  have hle : c.frames.frames.size ≤ f.frames.size := hf.size ▸ Nat.le_succ _
  refine ⟨h.withFrames hf.fixes (fun id e he g hg => ?_), List.cons_ne_nil _ _, ?_⟩
  · have hlt := Frames.size_of_mem he
    rw [hf.size] at hlt
    rcases Nat.lt_succ_iff_lt_or_eq.mp hlt with hold | rfl
    · exact (h.closed id e (hf.entries id hold ▸ he) g hg).mono hle
    · exact (hnew e he g hg).mono hle
  · refine List.forall_mem_cons.mpr ⟨hf.size ▸ Nat.lt_succ_self _, ?_⟩
    exact hs.2.mono hle

/-- What was chosen before an evaluation may be bound after it. -/
theorem placed (h : c.Sound) {f f' : Frames (Binding α)} {scope : Scope} {name : String}
    {b : Binding α} (hk : f.Keeps scope 0 c.frames) (hs : f.Has scope)
    (hp : f.Placed scope name b c.frames f') (hb : ∀ g, b = .function g → g.scope = scope) :
    ({ c with frames := f' } : Memory α).Sound := by
  have hkept : c.frames.Keeps scope 1 f' := (hp.transport hk hs).keeps (.refl _ _ _)
  refine h.withFrames hkept.fixes (fun id e he g hg => ?_)
  rcases hp.mem he with he | rfl
  · exact (h.closed id e he g hg).mono hkept.size
  · exact hb g hg ▸ hs.mono (hk.size.trans hkept.size)

end Memory.Sound

/-- Names are added to the frame of the scope at work only. -/
def Moves.keeps : Moves α where
  rel a m m' := m.frames.Keeps a.own a.names m'.frames
  same hf _ := hf ▸ .refl _ _ _
  trans hsum h h' := (hsum.own ▸ h).trans (hsum.own' ▸ h') |>.mono hsum.names
  record hf _ _ _ := hf ▸ .refl _ _ _
  opened hopened _ h := .ofOpened hopened h _
  placed h hplaced _ := hplaced.keeps h

/-- Computations run in scopes that exist. A world is the frames at one time. -/
def Conduct.sound (setup : Setup α) : Conduct setup where
  World := Frames (Binding α)
  Before f g := f.frames.size ≤ g.frames.size
  refl _ := Nat.le_refl _
  trans := Nat.le_trans
  inv f c := c.frames = f ∧ c.Sound
  begun f c := c.frames = f ∧ c.Sound
  ended f c := c.frames = f ∧ c.Sound
  begun_inv := id
  inv_ended := id
  moves := .keeps
  stops := .all setup
  made f scope := f.Has scope
  made_mono h hs := hs.mono h
  admits f g := f.Has g.scope
  admits_mono h hg := hg.mono h
  free _ _ _ := True
  free_mono _ _ := trivial
  body _ := True
  block _ _ := True
  bound := by
    rintro _ c id e g ⟨rfl, hc⟩ he hg
    exact hc.closed id e he g hg
  called hg := ⟨hg, trivial⟩
  recalled _ _ := trivial
  remembered hc _ := ⟨hc.1, hc.2.withBlocks _⟩
  counted _ _ _ := trivial
  opened := by
    rintro _ c scope f ⟨rfl, hc⟩ hs hopened hentries
    obtain ⟨hsound, hhas⟩ := hc.opened hs hopened (fun e he g hg => by
      cases hentries e he with
      | counter _ v => cases hg
      | parameter _ _ _ _ ha => exact ha g hg)
    exact ⟨f, hopened.size ▸ Nat.le_succ _, ⟨rfl, hsound⟩, hhas⟩
  placed := by
    rintro _ _ m m' scope name b f ⟨rfl, _⟩ _ ⟨rfl, hc⟩ hmoves hs _ hplaced hb
    have hsound := hc.placed hmoves hs hplaced (fun g hg => (hb g hg).1)
    exact ⟨f, hplaced.size_eq.ge, rfl, hsound⟩
  begins := by
    rintro _ c scope _ ⟨rfl, hc⟩ hs
    exact ⟨c.frames, Nat.le_refl _, rfl, hc.note hs⟩
  ends := by
    rintro _ c scope _ ⟨rfl, hc⟩ hs
    exact ⟨c.frames, Nat.le_refl _, rfl, hc.note hs⟩
  unwatched _ _ _ := ⟨id, id⟩

theorem start_sound (s : NumberSystem α) (r : Resources α) : (Machine.start s r).memory.Sound where
  closed := start_bindings
    (P := fun b => ∀ g, b = .function g → (Machine.start s r).frames.Has g.scope)
    (fun _ _ => nofun) (fun _ _ _ => nofun) s r
  scopes _ hx := nomatch hx
  constants := .nil
  latest _ hx := nomatch hx

theorem start_has_globals (s : NumberSystem α) (r : Resources α) :
    (Machine.start s r).frames.Has Machine.globals := by
  refine ⟨by simp [Machine.globals], ?_⟩
  intro id hid
  show id < 2
  simp only [Machine.globals, List.mem_cons, List.not_mem_nil, or_false] at hid
  omega

/-- After a run the moments that were noted agree on the constants. -/
theorem program_sound (setup : Setup α) (fuel : Nat) (body : List Statement) (r : Resources α) :
    (Run.stateOf (Eval.program setup fuel body (Machine.start setup.system r))).memory.Sound := by
  let plan : Conduct.Plan (.sound setup) :=
    .free (fun _ => trivial) (fun _ _ => trivial) (fun _ => trivial)
  have hfit : plan.fitBlock fuel body := trivial
  have hruns := plan.program_obeys (start_has_globals setup.system r) hfit
  obtain ⟨_, _, _, ⟨_, hsound⟩, _⟩ := hruns _ _ (Nat.le_refl _) ⟨rfl, start_sound _ _⟩
  exact hsound

end Abacus
