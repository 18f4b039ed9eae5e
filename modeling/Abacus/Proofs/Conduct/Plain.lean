import Abacus.Proofs.Conduct.Statement

/-! Conducts that need no world: at any time all functions that are bound are of some sort, and so
are all blocks that are remembered. -/

namespace Abacus

variable {α : Type} {setup : Setup α}

structure Memory.Allowed (body : List Token → Prop) (block : Int × Int → List Statement → Prop)
    (c : Memory α) : Prop where
  functions : ∀ id, ∀ e ∈ c.frames.frame id, ∀ g, e.2 = .function g → body g.body
  blocks : ∀ key b, c.blocks.lookup key = some b → block key b

namespace Memory.Allowed

variable {body : List Token → Prop} {block : Int × Int → List Statement → Prop} {c : Memory α}

theorem remember (h : c.Allowed body block) {key : Int × Int} {b : List Statement}
    (hb : block key b) :
    ({ c with blocks := (key, b) :: c.blocks } : Memory α).Allowed body block := by
  refine ⟨h.functions, fun key' b' hl => ?_⟩
  rw [List.lookup_cons] at hl
  split at hl
  · next he =>
    cases hl
    exact beq_iff_eq.mp he ▸ hb
  · exact h.blocks key' b' hl

theorem withFrames (h : c.Allowed body block) {f : Frames (Binding α)}
    (hf : ∀ id, ∀ e ∈ f.frame id, e ∈ c.frames.frame id ∨ ∀ g, e.2 = .function g → body g.body) :
    ({ c with frames := f } : Memory α).Allowed body block :=
  ⟨fun id e he g hg => (hf id e he).elim (h.functions id e · g hg) (· g hg), h.blocks⟩

/-- At first no function is bound and no block is remembered. -/
theorem start (s : NumberSystem α) (r : Resources α) :
    (Machine.start s r).memory.Allowed body block where
  functions :=
    start_bindings (P := fun b => ∀ g, b = .function g → body g.body) (fun _ _ => nofun)
      (fun _ _ _ => nofun) s r
  blocks _ _ hb := nomatch hb

theorem of_all (hbody : ∀ R, body R) (hblock : ∀ key b, block key b) (c : Memory α) :
    c.Allowed body block :=
  ⟨fun _ _ _ g _ => hbody g.body, fun key b _ => hblock key b⟩

end Memory.Allowed

namespace Conduct

/-- Functions have a body of the one sort, and blocks that are remembered for a place are of the
other. -/
def plain (body : List Token → Prop) (block : Int × Int → List Statement → Prop) (moves : Moves α)
    (stops : Stops setup) : Conduct setup where
  World := Unit
  Before _ _ := True
  refl _ := trivial
  trans _ _ := trivial
  inv _ := Memory.Allowed body block
  begun _ := Memory.Allowed body block
  ended _ := Memory.Allowed body block
  begun_inv := id
  inv_ended := id
  moves := moves
  stops := stops
  made _ _ := True
  made_mono _ _ := trivial
  admits _ g := body g.body
  admits_mono _ h := h
  free _ _ _ := True
  free_mono _ _ := trivial
  body := body
  block := block
  bound hm he hg := hm.functions _ _ he _ hg
  called h := ⟨trivial, h⟩
  recalled hm := hm.blocks _ _
  remembered hm hb := hm.remember hb
  counted _ _ _ := trivial
  opened := by
    intro _ c _ f hm _ hopened hentries
    refine ⟨(), trivial, hm.withFrames (fun id e he => ?_), trivial⟩
    have hlt := Frames.size_of_mem he
    rw [hopened.size] at hlt
    rcases Nat.lt_succ_iff_lt_or_eq.mp hlt with hold | rfl
    · exact .inl (hopened.entries id hold ▸ he)
    · right
      cases hentries e he with
      | counter _ v => exact nofun
      | parameter _ _ _ _ ha => exact ha
  placed := by
    intro _ _ m m' _ _ _ f _ _ hm' _ _ _ hplaced hb
    refine ⟨(), trivial, hm'.withFrames (fun id e he => (hplaced.mem he).imp_right ?_)⟩
    rintro rfl g hg
    exact (hb g hg).2
  begins _ hm _ := ⟨(), trivial, hm.functions, hm.blocks⟩
  ends _ hm _ := ⟨(), trivial, hm.functions, hm.blocks⟩
  unwatched _ _ _ := ⟨id, id⟩

/-- A run may stop in any way, but perhaps not for want of fuel. -/
def Lenient (C : Conduct setup) : Prop :=
  ∀ e, e ≠ .defect .outOfFuel → C.stops.may e

variable {C : Conduct setup}

section Lenient

variable {fit : List Token → Prop} {fitBlock : List Statement → Prop} (h : C.Lenient)

include h

theorem Lenient.place (i : Int) : C.Place i :=
  fun _ _ => h _ nofun

theorem Lenient.literal (f : Failure) : C.stops.may (.ofLiteral f) :=
  h _ (by cases f <;> nofun)

theorem Lenient.argumentFits {tokens : List Token} (ht : fit tokens) : ArgumentFits C fit tokens :=
  ⟨ht, h.place _⟩

theorem Lenient.tokenFits {t : Token} (ht : t.PartsFit (ArgumentFits C fit) (Readable C fitBlock)) :
    TokenFits C fit fitBlock t where
  index := h.place _
  stop := h.place _
  literal _ f _ := h.literal f
  operator _ _ _ := h _ nofun
  parts := ht
  called _ _ _ _ _ _ _ := ⟨h.place _, fun _ _ => h _ nofun⟩

theorem Lenient.statementFits {s : Statement} (hruns : ∀ R ∈ s.runs, fit R)
    (hblock : ∀ body, s.body? = some body → fitBlock body)
    (hdefine : s.kind = .define → ∀ R ∈ s.runs, C.body R)
    (hloop : s.kind = .loop ∨ s.kind = .repeatUntil → C.stops.may (.defect .outOfFuel)) :
    StatementFits C fit fitBlock s :=
  ⟨h.place _, fun _ _ => ⟨h.place _, h.place _⟩, hruns, hblock, hdefine, hloop⟩

end Lenient

/-- If nothing is asked of functions, blocks and ends, everything may be evaluated with any fuel. -/
def Plan.free (hbody : ∀ R, C.body R) (hblock : ∀ key b, C.block key b)
    (hmay : ∀ e, C.stops.may e) : Plan C :=
  have hall : C.Lenient := fun e _ => hmay e
  have hread : ∀ key R, Readable C (fun _ => True) key R := fun key _ =>
    ⟨fun b _ => hblock key b, fun _ _ => trivial, fun _ _ => hmay _⟩
  { fit := fun _ _ => True
    fitBlock := fun _ _ => True
    lacks := fun _ _ => hmay _
    lacksBlock := fun _ _ => hmay _
    run := fun _ _ _ => ⟨fun _ _ _ => hall.place _, fun _ _ _ _ => hread _ _,
      fun _ _ _ _ _ => ⟨fun t _ => hall.tokenFits
        (Token.partsFit_of_all (fun _ => hall.argumentFits trivial) hread t), fun _ => hmay _⟩⟩
    block := fun _ _ _ _ _ => hall.statementFits (fun _ _ => trivial) (fun _ _ => trivial)
      (fun _ _ _ => hbody _) (fun _ => hmay _)
    functions := fun _ _ _ => trivial }

/-- A script that may be evaluated stops as it may. -/
theorem Plan.program_stops {body : List Token → Prop} {block : Int × Int → List Statement → Prop}
    {moves : Moves α} {stops : Stops setup} (W : Plan (.plain body block moves stops)) {fuel : Nat}
    {statements : List Statement} (h : W.fitBlock fuel statements) {s : NumberSystem α}
    {r : Resources α} {e : Stop} {m : Machine α}
    (he : Eval.program setup fuel statements (Machine.start s r) = .error e m) : stops.may e := by
  obtain ⟨_, _, _, _, hend⟩ :=
    W.program_obeys (w := ()) trivial h () (Machine.start s r) trivial (Memory.Allowed.start s r)
  rw [he] at hend
  exact hend

end Conduct

end Abacus
