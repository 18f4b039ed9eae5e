import Abacus.Proofs.Fuel
import Abacus.Proofs.Scoping.Sound
import Abacus.System.Bignumber

/-! What holds of the scopes in every run: a constant is the same at every later moment, and names
are declared only in the scope in which a statement runs. -/

namespace Abacus

open Conduct

variable {α : Type}

/-- The moments of a run in which it is noted how every statement and every expression begins and
ends, the last first. -/
def Program.history (setup : Setup α) (fuel : Nat) (p : Program) (seed : Int)
    (inputs : List String) : List (Moment α) :=
  let start := Machine.start setup.system (setup.system.resources seed inputs)
  (Run.stateOf (Eval.program { setup with watches := true } fuel p.body start)).history

/-- A constant that a frame binds at some moment of a run is bound there at every later moment,
and to be watched makes no difference to a run. -/
theorem constants_never_change (setup : Setup α) (fuel : Nat) (p : Program) (seed : Int)
    (inputs : List String) :
    (p.history setup fuel seed inputs).Pairwise (fun later earlier =>
        ∀ id name b, (earlier.frames.frame id).lookup name = some b → b.isConstant = true →
          (later.frames.frame id).lookup name = some b) ∧
      p.runIn { setup with watches := true } fuel seed inputs =
        p.runIn setup fuel seed inputs :=
  ⟨(program_sound _ fuel p.body _).constants, p.runIn_watched setup true fuel seed inputs⟩

theorem names_added {own : Scope} {n : Nat} {f g : Frames (Binding α)} (h : f.Keeps own n g)
    {id : Nat} (hi : id < f.frames.size) :
    ∃ new, new.length ≤ n ∧ g.names id = f.names id ++ new := by
  obtain ⟨new, hl, hn⟩ := (h.entries id hi).names
  refine ⟨new, hl.trans ?_, hn⟩
  simp only [Frames.room]
  split
  · exact Nat.le_refl n
  · exact Nat.zero_le n

theorem debugText_frames {setup : Setup α} {level : Int} {line : Unit → Except Failure String}
    {m m' : Machine α} (h : Run.debugText setup level line m = .ok () m') :
    m'.frames = m.frames := by
  unfold Run.debugText at h
  split at h
  · cases hl : line () with
    | ok text =>
      rw [hl] at h
      simp only [Run.debug_eq] at h
      cases h
      rfl
    | error f =>
      rw [hl] at h
      cases h
  · cases h
    rfl

theorem sayAssigned_frames {setup : Setup α} {top : Bool} {s : Statement} {name : Token} {v : α}
    {m m' : Machine α} (h : sayAssigned setup top s name v m = .ok () m') :
    m'.frames = m.frames := by
  let line : Unit → Except Failure String := fun _ =>
    (setup.system.format v).map ("declare " ++ name.value ++ " = " ++ ·)
  cases hd : Run.debugText setup 2 line m with
  | error e m₁ => cases (Run.bind_error hd).symm.trans h
  | ok _ m₁ =>
    have hrecord := (Run.bind_ok hd).symm.trans h
    have hframes := debugText_frames hd
    cases top with
    | true =>
      cases hrecord
      exact hframes
    | false =>
      cases hrecord
      exact hframes

/-- An expression declares no name in a scope that exists, however it ends, and a statement at most
one, in its own scope. So an assignment in a scope that a run reaches gives the name its value
there, though its frame was looked up before the value was known. -/
theorem scopes_do_not_leak (setup : Setup α) (fuel calls : Nat) (scope : Scope) (m : Machine α) :
    let parts : Parts α := ⟨Eval.expression setup fuel, Eval.block setup fuel⟩
    (∀ tokens offset id, id < m.frames.frames.size →
      (Run.stateOf (parts.expression calls scope tokens offset m)).frames.names id =
        m.frames.names id) ∧
    (∀ turns top report matched s id, id < m.frames.frames.size →
      let after := (Run.stateOf
        (Eval.step setup parts turns calls scope top report matched s m)).frames
      (scope.head? ≠ some id → after.names id = m.frames.names id) ∧
        ∃ new, new.length ≤ 1 ∧ after.names id = m.frames.names id ++ new) ∧
    ∀ (p : Program) limit seed inputs,
      ⟨scope, m.frames⟩ ∈ p.history setup limit seed inputs →
      ∀ top s name value fresh constant valueSource m',
        Eval.assign setup parts calls scope top s name value fresh constant valueSource m =
          .ok () m' →
        ∃ v m'' isConstant, parts.expression calls scope value name.stop m = .ok v m'' ∧
          m'.frames.get scope name.value = some (.number v isConstant) := by
  intro parts
  let plan : Plan (.plain (fun _ => True) (fun _ _ => True) .keeps (.all setup)) :=
    .free (fun _ => trivial) (fun _ _ => trivial) (fun _ => trivial)
  have hparts := plan.partsObey fuel
  have hm : m.memory.Allowed (fun _ => True) (fun _ _ => True) :=
    .of_all (fun _ => trivial) (fun _ _ => trivial) m.memory
  have hexpression : ∀ tokens offset, m.frames.Keeps scope 0
      (Run.stateOf (parts.expression calls scope tokens offset m)).frames := fun tokens offset =>
    (hparts.expression () calls scope tokens offset trivial trivial (fun _ _ => trivial) () m
      trivial hm).1
  refine ⟨?_, ?_, ?_⟩
  · intro tokens offset id hid
    exact (hexpression tokens offset).names_eq hid (Frames.room_zero scope id)
  · intro turns top report matched s id hid after
    have hfits := plan.block fuel [s] trivial s List.mem_cons_self
    have hk : m.frames.Keeps scope 1 after := (step_leaves hparts turns calls (w := ()) trivial top
      report matched hfits () m trivial hm).1
    refine ⟨fun ho => hk.names_eq hid ?_, names_added hk hid⟩
    simp [Frames.room, ho]
  · intro p limit seed inputs hreached top s name value fresh constant valueSource m' hassign
    have hhas : m.frames.Has scope := (program_sound _ limit p.body _).scopes _ hreached
    have hk := hexpression value name.stop
    rcases assign_cases (p := parts) setup calls scope top s name value fresh constant valueSource m
      with ⟨_, hx⟩ | ⟨_, ⟨_, _, _, hx⟩ | ⟨v, n, c, f, hy, hplaced, hx⟩⟩
    · cases hassign.symm.trans hx
    · cases hassign.symm.trans hx
    · have hframes : m'.frames = f := sayAssigned_frames (hx.symm.trans hassign)
      rw [hy] at hk
      exact ⟨v, n, c, hy, hframes ▸ hplaced.get_eq hk hhas⟩

/-- A script whose function assigns to the variable that its value is assigned to. -/
def meddling : Program :=
  match Program.parse "x = 0\nf(a) = \x7bx = a; a + 1\x7d\nx = f(7)" false with
  | .ok p => p
  | .error _ => ⟨"", []⟩

/-- The last statement of a script, if it is an assignment, in a state with the frames of a
moment. -/
def Program.assignAgain (setup : Setup α) (p : Program) (x : Moment α) :
    EStateM.Result Stop (Machine α) Unit :=
  let start := Machine.start setup.system (setup.system.resources 0 [])
  match p.body.getLast? with
  | some (.assign origin name value fresh constant valueSource) =>
    Eval.assign setup ⟨Eval.expression setup 20, Eval.block setup 20⟩ 9 x.scope true
      (.assign origin name value fresh constant valueSource) name value fresh constant valueSource
      { start with frames := x.frames }
  | _ => .error (.input "") start

theorem meddling_assigned :
    let setup := meddling.setup (Bignumber.system 20) {}
    ∃ x ∈ meddling.history setup 20 0 [], ∃ m v c name,
      meddling.assignAgain setup x = .ok () m ∧
        m.frames.get x.scope name = some (.number v c) := by
  intro setup
  have hrun : (meddling.history setup 20 0 []).any (fun x =>
      match meddling.assignAgain setup x with
      | .ok _ _ => true
      | .error _ _ => false) = true := by decide +kernel
  clear_value setup
  generalize meddling = p at hrun ⊢
  obtain ⟨x, hx, hok⟩ := List.any_eq_true.mp hrun
  cases hm : p.assignAgain setup x with
  | error e m =>
    rw [hm] at hok
    cases hok
  | ok _ m =>
    have hassign := hm
    unfold Program.assignAgain at hassign
    dsimp only at hassign
    split at hassign
    · obtain ⟨v, _, c, _, hget⟩ := (scopes_do_not_leak setup 20 9 x.scope _).2.2 p 20 0 [] hx
        true _ _ _ _ _ _ m hassign
      exact ⟨x, hx, m, v, c, _, hm, hget⟩
    · cases hassign

end Abacus
