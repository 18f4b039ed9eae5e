import Abacus.Eval.Statement
import Abacus.Proofs.Conduct.Basic

/-! What the single steps of a computation keep to: results, binds, and every access to the state of
a run. -/

namespace Abacus

variable {α γ δ : Type}

theorem Entry.imp {free free' : String → Prop} {admits admits' : Function → Prop} {scope : Scope}
    {e : String × Binding α} (h : Entry free admits scope e) (hf : ∀ name, free name → free' name)
    (ha : ∀ g, admits g → admits' g) : Entry free' admits' scope e := by
  cases h with
  | counter h v => exact .counter (hf _ h) v
  | parameter hg hs hn hb hbound =>
    exact .parameter (ha _ hg) hs hn hb (fun f heq => ha f (hbound f heq))

namespace Additions

variable {a b c : Additions}

theorem Sum.left (h : Sum a b c) : Sum a (quiet c.own) c where
  own := h.own
  own' := rfl
  names := (Nat.le_add_right a.names b.names).trans h.names
  report := h.report
  report' := nofun
  reported := (List.append_nil a.reported).symm ▸
    (List.sublist_append_left a.reported b.reported).trans h.reported

end Additions

namespace Conduct

open Run (stateOf bind_eq bind_ok debug_eq noted_eq of_watched block_cases)

variable {setup : Setup α} {C : Conduct setup} {pre mid post : C.World → Memory α → Prop}
  {w w' : C.World} {a b c : Additions} {P : C.World → γ → Prop} {Q : C.World → δ → Prop}
  {x : Run α γ} {f : γ → Run α δ}

namespace Leads

theorem later (hx : C.Leads pre post w a P x) (h : C.Before w w') : C.Leads pre post w' a P x :=
  fun w₀ m hw hm => hx w₀ m (C.trans h hw) hm

theorem leaves (hx : C.Obeys w a Anything x) : C.Leaves w a x := by
  intro w₀ m hw hm
  obtain ⟨hmoves, w₁, hbefore, hinv, hend⟩ := hx w₀ m hw (C.begun_inv hm)
  exact ⟨hmoves, w₁, hbefore, C.inv_ended hinv, hend⟩

theorem mono (hx : C.Leads pre post w a P x) (h : Additions.Sum a (.quiet c.own) c) :
    C.Leads pre post w c P x :=
  fun w₀ m hw hm =>
    ⟨C.moves.trans h (hx w₀ m hw hm).1 (C.moves.same rfl rfl), (hx w₀ m hw hm).2⟩

theorem pure {v : γ} (hv : ∀ w', C.Before w w' → P w' v) :
    C.Leads pre pre w a P (Pure.pure v : Run α γ) :=
  fun w₀ _ hw hm => ⟨C.moves.same rfl rfl, w₀, C.refl w₀, hm, hv w₀ hw⟩

theorem done (v : γ) : C.Leads pre pre w a Anything (Pure.pure v : Run α γ) :=
  .pure (fun _ _ => trivial)

theorem throw {e : Stop} (he : C.stops.may e) : C.Leads pre pre w a P (throw e : Run α γ) :=
  fun w₀ _ _ hm => ⟨C.moves.same rfl rfl, w₀, C.refl w₀, hm, he⟩

theorem fail {offset : Int} (ho : C.Place offset) (message : String) (length : Int) :
    C.Leads pre pre w a P (Run.fail offset message length : Run α γ) :=
  .throw (ho message length)

theorem failAt {t : Token} (ht : C.Place t.index) (message : String) :
    C.Leads pre pre w a P (Run.failAt t message : Run α γ) :=
  .fail ht message t.length

/-- What holds between the two computations holds at the end as well, in case the first one stops. -/
theorem bindAdd (hx : C.Leads pre mid w a P x) (hmid : ∀ w c, mid w c → post w c)
    (hf : ∀ v w', C.Before w w' → P w' v → C.Leads mid post w' b Q (f v))
    (hsum : Additions.Sum a b c) : C.Leads pre post w c Q (x >>= f) := by
  intro w₀ m hw hm
  obtain ⟨hmoves, w₁, hbefore, hinv, hend⟩ := hx w₀ m hw hm
  rw [bind_eq]
  generalize x m = r at hmoves hinv hend ⊢
  cases r with
  | ok v m₁ =>
    obtain ⟨hmoves₂, w₂, hbefore₂, hinv₂, hend₂⟩ :=
      hf v w₁ (C.trans hw hbefore) hend w₁ m₁ (C.refl w₁) hinv
    exact ⟨C.moves.trans hsum hmoves hmoves₂, w₂, C.trans hbefore hbefore₂, hinv₂, hend₂⟩
  | error e m₁ =>
    exact ⟨C.moves.trans hsum.left hmoves (C.moves.same rfl rfl), w₁, hbefore, hmid w₁ _ hinv, hend⟩

theorem bind (hx : C.Leads pre pre w (.quiet a.own) P x)
    (hf : ∀ v w', C.Before w w' → P w' v → C.Leads pre pre w' a Q (f v)) :
    C.Leads pre pre w a Q (x >>= f) :=
  hx.bindAdd (fun _ _ h => h) hf a.sum_quiet_left

/-- Neither of the two computations reports anything. -/
theorem bindNext {own : Scope} {report : Bool} (hx : C.Obeys w ⟨own, 0, report, []⟩ P x)
    (hf : ∀ v w', C.Before w w' → P w' v → C.Obeys w' ⟨own, 0, report, []⟩ Q (f v)) :
    C.Obeys w ⟨own, 0, report, []⟩ Q (x >>= f) :=
  hx.bindAdd (fun _ _ h => h) hf ⟨rfl, rfl, Nat.le_refl 0, id, id, .refl _⟩

theorem bindEnd (hx : C.Leads pre post w a P x)
    (hf : ∀ v w', C.Before w w' → P w' v → C.Leads post post w' (.quiet a.own) Q (f v)) :
    C.Leads pre post w a Q (x >>= f) :=
  hx.bindAdd (fun _ _ h => h) hf a.sum_quiet_right

theorem ofExcept {y : Except Fault γ} (hok : ∀ v, y = .ok v → ∀ w', C.Before w w' → P w' v)
    (he : ∀ f, y = .error f → C.stops.may (.fault f)) :
    C.Obeys w a P (Run.ofExcept y : Run α γ) := by
  cases y with
  | ok v => exact .pure (hok v rfl)
  | error f => exact .throw (he f rfl)

theorem orStop {y : Except Stop γ} (he : ∀ e, y = .error e → C.stops.may e) :
    C.Obeys w a Anything (Run.orStop y : Run α γ) := by
  cases y with
  | ok v => exact .done v
  | error e => exact .throw (he e rfl)

/-- A computation that leaves what is remembered and recorded as it is. -/
theorem still (hx : ∀ m, ∃ v m', x m = .ok v m' ∧ m'.memory = m.memory ∧ m'.records = m.records ∧
    ∀ w', C.Before w w' → pre w' m.memory → P w' v) : C.Leads pre pre w a P x := by
  intro w₀ m hw hm
  obtain ⟨v, m', heq, hmemory, hrecords, hv⟩ := hx m
  rw [heq]
  refine ⟨C.moves.same (congrArg Memory.frames hmemory) hrecords, w₀, C.refl w₀, ?_, hv w₀ hw hm⟩
  exact hmemory ▸ hm

end Leads

theorem may_ofFailure {offset : Int} (ho : C.Place offset) (length : Int) (f : Failure) :
    C.stops.may (.ofFailure offset length f) := by
  cases f <;> first | exact C.stops.input "" | exact ho _ _

theorem Leads.ofResult {t : Token} (ht : C.Place t.index) (y : Except Failure γ) :
    C.Obeys w a Anything (Run.ofResult t y : Run α γ) := by
  cases y with
  | ok v => exact .done v
  | error f => exact .throw (may_ofFailure ht t.length f)

/-- What holds between two notes holds at any time after them. -/
theorem Leads.watched {scope : Scope} (hx : C.Leaves w a x) (hs : C.made w scope) :
    C.Obeys w a Anything (Run.watched setup scope x) := by
  intro w₀ m hw hm
  unfold Run.watched
  split
  · next hwatches =>
    obtain ⟨w₁, hbefore₁, hbegun⟩ := C.begins hwatches hm (C.made_mono hw hs)
    have hbefore := C.trans hw hbefore₁
    obtain ⟨hmoves, w₂, hbefore₂, hended, hend⟩ := hx w₁ (Run.note scope m) hbefore hbegun
    obtain ⟨w₃, hbefore₃, hinv⟩ := C.ends hwatches hended (C.made_mono (C.trans hbefore hbefore₂) hs)
    have hnote : C.moves.rel (.quiet a.own) m (Run.note scope m) := C.moves.same rfl rfl
    have hboth := C.moves.trans a.sum_quiet_left hnote hmoves
    have hthree : C.moves.rel a m (Run.note scope (stateOf (x (Run.note scope m)))) :=
      C.moves.trans a.sum_quiet_right hboth (C.moves.same rfl rfl)
    rw [noted_eq]
    generalize x (Run.note scope m) = r at hthree hinv hend ⊢
    have hlater := C.trans hbefore₁ (C.trans hbefore₂ hbefore₃)
    cases r with
    | ok v m' => exact ⟨hthree, w₃, hlater, hinv, trivial⟩
    | error e m' => exact ⟨hthree, w₃, hlater, hinv, hend⟩
  · next hwatches =>
    have hplain := C.unwatched (Bool.eq_false_iff.mpr hwatches)
    obtain ⟨hmoves, w₁, hbefore, hended, hend⟩ := hx w₀ m hw ((hplain w₀ _).1 hm)
    exact ⟨hmoves, w₁, hbefore, (hplain w₁ _).2 hended, hend⟩

section Access

theorem leads_debug (level : Int) (line : Unit → String) :
    C.Leads pre pre w a Anything (Run.debug setup level line) := by
  rw [debug_eq]
  exact .still (fun m => ⟨(), _, rfl, rfl, rfl, fun _ _ _ => trivial⟩)

/-- A line may lack its text, unless the setup says that it has one. -/
theorem leads_debugText (level : Int) {line : Unit → Except Failure String}
    (hline : setup.Shows → level ≤ setup.debugLevel → ∃ text, line () = .ok text) :
    C.Leads pre pre w a Anything (Run.debugText setup level line) := by
  unfold Run.debugText
  split
  · next hlevel =>
    cases hl : line () with
    | ok text => exact leads_debug level _
    | error f =>
      rcases C.stops.unshown with hshows | hmay
      · obtain ⟨text, htext⟩ := hline hshows hlevel
        cases hl.symm.trans htext
      · exact .throw (hmay f)
  · exact .done ()

theorem leads_record {s : Statement} (output : List (Output α))
    (hs : s.kind ≠ .print ∧ s.kind ≠ .inline → s ∈ a.reported)
    (hr : a.report = false → s.kind ≠ .inline) :
    C.Leads pre pre w a Anything (Run.record s output) :=
  fun w₀ _ _ hm => ⟨C.moves.record rfl rfl hs hr, w₀, C.refl w₀, hm, trivial⟩

theorem leads_setStatement (text : String) : C.Leads pre pre w a Anything
    (modify (fun m => { m with statement := text }) : Run α Unit) :=
  .still (fun _ => ⟨(), _, rfl, rfl, rfl, fun _ _ _ => trivial⟩)

theorem leads_get : C.Leads pre pre w a Anything (get : Run α (Machine α)) :=
  .still (fun m => ⟨m, m, rfl, rfl, rfl, fun _ _ _ => trivial⟩)

theorem leads_builtin (b : Builtin α) (args : List α) :
    C.Leads pre pre w a Anything (Run.builtin b args) := by
  refine .still (fun m => ?_)
  obtain ⟨v, r, h⟩ := Run.exists_builtin m b args
  exact ⟨v, _, h, rfl, rfl, fun _ _ _ => trivial⟩

/-- A function that is found is there. -/
theorem obeys_lookup (scope : Scope) (name : String) :
    C.Obeys w a (fun w' found => ∀ g, found = some (.function g) → C.admits w' g)
      (Run.lookup scope name : Run α _) := by
  refine .still (fun m => ⟨_, m, rfl, rfl, rfl, fun w' _ hm g hg => ?_⟩)
  obtain ⟨id, hmem⟩ := Frames.mem_of_get hg
  exact C.bound hm hmem rfl

/-- Unless a scope finds a constant under a name, a counter in it may have the name. -/
theorem obeys_find {scope : Scope} (hs : C.made w scope) (name : String) :
    C.Obeys w a (fun w' found => (∀ id b, found = some (id, b) → b.isConstant = false) →
      C.free w' scope name) (Run.find scope name : Run α _) :=
  .still (fun m => ⟨_, m, rfl, rfl, rfl, fun _ hw hm hfound =>
    C.counted hm (C.made_mono hw hs) hfound⟩)

/-- A block is one that may be remembered, or one that is read now. -/
theorem obeys_block {key : Int × Int} {read : Except Fault (List Statement)}
    {fits : List Statement → Prop} (hknown : ∀ b, C.block key b → fits b)
    (hread : ∀ b, read = .ok b → C.block key b)
    (hfault : ∀ f, read = .error f → C.stops.may (.fault f)) :
    C.Obeys w a (fun _ b => fits b) (Run.block setup key read) := by
  intro w₀ m _ hm
  obtain ⟨b, hk, h⟩ | ⟨b, hr, h⟩ | ⟨f, hr, h⟩ := block_cases setup m key read <;> rw [h]
  · exact ⟨C.moves.same rfl rfl, w₀, C.refl w₀, hm, hknown b (C.recalled hm hk)⟩
  · have hb := hread b hr
    exact ⟨C.moves.same rfl rfl, w₀, C.refl w₀, C.remembered hm hb, hknown b hb⟩
  · exact ⟨C.moves.same rfl rfl, w₀, C.refl w₀, hm, hfault f hr⟩

end Access

end Conduct

namespace Run

/-- A computation that makes a scope inside `scope` with the bindings `new`. -/
def Makes (scope : Scope) (new : String × Binding α → Prop) (x : Run α Scope) : Prop :=
  ∀ m, ∃ f, x m = .ok (m.frames.frames.size :: scope) { m with frames := f } ∧
    m.frames.Opened f ∧ ∀ e ∈ f.frame m.frames.frames.size, new e

theorem child_makes (scope : Scope) :
    Makes scope (fun _ => False) (Run.child scope : Run α Scope) := by
  intro m
  refine ⟨(m.frames.child scope).1, rfl, ⟨?_, ?_⟩, fun e he => ?_⟩
  · simp [Frames.child]
  · exact fun id _ => Frames.frame_child m.frames scope id
  · rw [Frames.frame_child, Frames.frame_of_size_le (Nat.le_refl _)] at he
    cases he

theorem bindAll_eq (id : Nat) (outer : Scope) (names : List String) (args : List (Binding α))
    (m : Machine α) : ∃ f,
      Eval.bindAll (id :: outer) names args m = .ok () { m with frames := f } ∧
      f.frames.size = m.frames.frames.size ∧ (∀ i, i ≠ id → f.frame i = m.frames.frame i) ∧
      ∀ e ∈ f.frame id, e ∈ m.frames.frame id ∨ e.1 ∈ names ∧ e.2 ∈ args := by
  induction names generalizing args m with
  | nil => exact ⟨m.frames, rfl, rfl, fun _ _ => rfl, fun _ he => .inl he⟩
  | cons name names ih =>
    cases args with
    | nil => exact ⟨m.frames, rfl, rfl, fun _ _ => rfl, fun _ he => .inl he⟩
    | cons b args =>
      obtain ⟨f, hf, hs, ho, hn⟩ := ih args { m with frames := m.frames.declare id name b }
      refine ⟨f, hf, by simpa using hs, ?_, ?_⟩
      · intro i hi
        rw [ho i hi, Frames.frame_declare, if_neg (fun h => hi h.1.symm)]
      · intro e he
        rcases hn e he with he | he
        · rcases Frames.mem_declare he with he | rfl
          · exact .inl he
          · exact .inr ⟨List.mem_cons_self, List.mem_cons_self⟩
        · exact .inr ⟨List.mem_cons_of_mem _ he.1, List.mem_cons_of_mem _ he.2⟩

theorem child_bindAll_makes (scope : Scope) (names : List String) (args : List (Binding α)) :
    Makes scope (fun e => e.1 ∈ names ∧ e.2 ∈ args) (do
      let inner ← Run.child scope
      Eval.bindAll inner names args
      return inner) := by
  intro m
  obtain ⟨g, hg, hopened, hnone⟩ := child_makes scope m
  obtain ⟨k, hk, hs, ho, hn⟩ :=
    bindAll_eq m.frames.frames.size scope names args { m with frames := g }
  refine ⟨k, ?_, ⟨hs.trans hopened.size, fun id hid => ?_⟩, fun e he => ?_⟩
  · rw [bind_ok hg, bind_ok hk]
    rfl
  · exact (ho id hid.ne).trans (hopened.entries id hid)
  · exact (hn e he).resolve_left (hnone e)

variable {setup : Setup α} {C : Conduct setup} {w : C.World} {P : C.World → γ → Prop}

/-- What is done in the new scope adds no names to the scopes that were there. -/
theorem Makes.bind {scope own : Scope} {new : String × Binding α → Prop} {x : Run α Scope}
    {f : Scope → Run α γ} {report : Bool} {reported : List Statement}
    (hx : Makes scope new x) (hs : C.made w scope)
    (hnew : ∀ e, new e → Entry (C.free w scope) (C.admits w) scope e) (names : Nat)
    (hf : ∀ inner w', C.Before w w' → C.made w' inner →
      C.Obeys w' ⟨inner, names, report, reported⟩ P (f inner)) :
    C.Obeys w ⟨own, 0, report, reported⟩ P (x >>= f) := by
  intro w₀ m hw hm
  obtain ⟨g, hg, hopened, hentries⟩ := hx m
  obtain ⟨w₁, hbefore, hinv, hmade⟩ := C.opened hm (C.made_mono hw hs) hopened
    (fun e he => (hnew e (hentries e he)).imp (fun _ => C.free_mono hw) (fun _ => C.admits_mono hw))
  obtain ⟨hmoves, w₂, hbefore₂, hend⟩ := hf (m.frames.frames.size :: scope) w₁
    (C.trans hw hbefore) hmade w₁ { m with frames := g } (C.refl w₁) hinv
  have hnow : m.frames.Opened ({ m with frames := g } : Machine α).frames := hopened
  rw [bind_ok hg]
  exact ⟨C.moves.opened hnow rfl hmoves, w₂, C.trans hbefore hbefore₂, hend⟩

end Run

end Abacus
