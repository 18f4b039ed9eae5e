import Abacus.Eval.Expression
import Mathlib.Data.List.Forall2

/-! Frames and records of two runs side by side: they bind and show the same names and texts, and
numbers that a relation `same` ties together. -/

namespace Abacus

variable {α β : Type}

/-- Bindings that differ in their numbers only. Built-in functions are known with their arity, and
the body of a function is one that may be evaluated. -/
inductive Binding.Related (same : α → β → Prop) (known : String → Option Nat → Prop)
    (fit : List Token → Prop) : Binding α → Binding β → Prop where
  | number {v : α} {w : β} (h : same v w) (constant : Bool) :
      Related same known fit (.number v constant) (.number w constant)
  | builtin {name : String} {arity : Option Nat} (h : known name arity) :
      Related same known fit (.builtin name arity) (.builtin name arity)
  | function {f : Function} (h : fit f.body) : Related same known fit (.function f) (.function f)

namespace Binding.Related

variable {same : α → β → Prop} {known : String → Option Nat → Prop} {fit : List Token → Prop}
  {b : Binding α} {c : Binding β}

theorem isFunction_eq (h : Related same known fit b c) : b.isFunction = c.isFunction := by
  cases h <;> rfl

theorem isConstant_eq (h : Related same known fit b c) : b.isConstant = c.isConstant := by
  cases h <;> rfl

theorem total (hs : ∀ w, ∃ v, same v w) (hk : ∀ name arity, known name arity)
    (hf : ∀ tokens, fit tokens) (c : Binding β) : ∃ b, Related same known fit b c := by
  cases c with
  | number w constant =>
    obtain ⟨v, h⟩ := hs w
    exact ⟨_, .number h constant⟩
  | builtin name arity => exact ⟨_, .builtin (hk name arity)⟩
  | function f => exact ⟨_, .function (hf f.body)⟩

end Binding.Related

structure Frames.Related (R : α → β → Prop) (f : Frames α) (g : Frames β) : Prop where
  size : f.frames.size = g.frames.size
  entries : ∀ id name, Option.Rel R ((f.frame id).lookup name) ((g.frame id).lookup name)

namespace Frames

theorem lookup_bind (e : List (String × α)) (name : String) (b : α) (other : String) :
    (bind name b e).lookup other = if other = name then some b else e.lookup other := by
  induction e with
  | nil => by_cases ho : other = name <;> simp [bind, List.lookup_cons, ho, beq_false_of_ne]
  | cons entry rest ih =>
    obtain ⟨n, old⟩ := entry
    by_cases hn : n = name
    · subst hn
      by_cases ho : other = n <;> simp [bind, List.lookup_cons, ho, beq_false_of_ne]
    · by_cases ho : other = n
      · subst ho
        simp [bind, hn]
      · simpa [bind, hn, List.lookup_cons, beq_false_of_ne ho] using ih

theorem frame_child (f : Frames α) (scope : Scope) (id : Nat) :
    (f.child scope).1.frame id = f.frame id := by
  simp only [child, frame, Array.getD_eq_getD_getElem?, Array.getElem?_push]
  split
  · next h => simp [h]
  · rfl

theorem frame_declare (f : Frames α) (owner : Nat) (name : String) (b : α) (id : Nat) :
    (f.declare owner name b).frame id =
      if owner = id ∧ id < f.frames.size then bind name b (f.frame id) else f.frame id := by
  simp only [frame, declare, Array.getD_eq_getD_getElem?, Array.getElem?_modify]
  by_cases h : owner = id
  · subst h
    by_cases hs : owner < f.frames.size <;> simp [hs]
  · simp [h]

theorem lookup_declare (f : Frames α) (owner : Nat) (name : String) (b : α) (id : Nat)
    (other : String) : ((f.declare owner name b).frame id).lookup other =
      if owner = id ∧ id < f.frames.size ∧ other = name then some b
        else (f.frame id).lookup other := by
  rw [frame_declare]
  by_cases h : owner = id ∧ id < f.frames.size
  · rw [if_pos h, lookup_bind]
    simp [h.1, h.2]
  · rw [if_neg h, if_neg (fun hh => h ⟨hh.1, hh.2.1⟩)]

@[simp] theorem size_declare (f : Frames α) (owner : Nat) (name : String) (b : α) :
    (f.declare owner name b).frames.size = f.frames.size := by
  simp [declare]

namespace Related

variable {R : α → β → Prop} {f : Frames α} {g : Frames β}

theorem find (h : Frames.Related R f g) (scope : Scope) (name : String) :
    Option.Rel (fun x y => x.1 = y.1 ∧ R x.2 y.2) (f.find scope name) (g.find scope name) := by
  induction scope with
  | nil => exact .none
  | cons id outer ih =>
    have hl := h.entries id name
    simp only [Frames.find]
    generalize (f.frame id).lookup name = x at hl ⊢
    generalize (g.frame id).lookup name = y at hl ⊢
    cases hl with
    | none => exact ih
    | some hr => exact .some ⟨rfl, hr⟩

theorem get (h : Frames.Related R f g) (scope : Scope) (name : String) :
    Option.Rel R (f.get scope name) (g.get scope name) := by
  have hf := h.find scope name
  unfold Frames.get
  generalize f.find scope name = x at hf ⊢
  generalize g.find scope name = y at hf ⊢
  cases hf with
  | none => exact .none
  | some hr => exact .some hr.2

theorem child (h : Frames.Related R f g) (scope : Scope) :
    Frames.Related R (f.child scope).1 (g.child scope).1 where
  size := by simp [Frames.child, h.size]
  entries id name := by simpa only [frame_child] using h.entries id name

theorem declare (h : Frames.Related R f g) (owner : Nat) (name : String) {b : α} {c : β}
    (hb : R b c) : Frames.Related R (f.declare owner name b) (g.declare owner name c) where
  size := by simpa using h.size
  entries id other := by
    simp only [lookup_declare, h.size]
    split
    · exact .some hb
    · exact h.entries id other

theorem declareIn (h : Frames.Related R f g) (scope : Scope) (name : String) {b : α} {c : β}
    (hb : R b c) : Frames.Related R (f.declareIn scope name b) (g.declareIn scope name c) := by
  cases scope with
  | nil => exact h
  | cons id outer => exact h.declare id name hb

end Related

end Frames

theorem lookup_rootFrame (s : NumberSystem α) (name : String) :
    (Machine.rootFrame s).lookup name =
      match s.constants.lookup name with
      | some v => some (.number v true)
      | none => (s.builtin? name).map (fun x => .builtin name x.arity) := by
  have hc : ∀ (constants : List (String × α)) (rest : List (String × Binding α)),
      (constants.map (fun e => (e.1, Binding.number e.2 true)) ++ rest).lookup name =
        match constants.lookup name with
        | some v => some (.number v true)
        | none => rest.lookup name := by
    intro constants rest
    induction constants with
    | nil => rfl
    | cons entry constants ih =>
      obtain ⟨n, v⟩ := entry
      simp only [List.map_cons, List.cons_append, List.lookup_cons]
      cases name == n with
      | true => rfl
      | false => exact ih
  have hb : ∀ builtins : List (Builtin α),
      (builtins.map (fun b => (b.name, Binding.builtin b.name b.arity))).lookup name =
        (builtins.find? (fun b => b.name == name)).map
          (fun x => (.builtin name x.arity : Binding α)) := by
    intro builtins
    induction builtins with
    | nil => rfl
    | cons x builtins ih =>
      by_cases hn : x.name = name
      · simp [hn]
      · have hne : (name == x.name) = false := beq_false_of_ne (Ne.symm hn)
        simpa [List.lookup_cons, hn, hne] using ih
  rw [Machine.rootFrame, hc, hb]
  rfl

/-- Systems with the same names for constants and functions start alike. -/
theorem start_related {same : α → β → Prop} {known : String → Option Nat → Prop}
    {fit : List Token → Prop} {s : NumberSystem α} {u : NumberSystem β}
    (hc : ∀ name, Option.Rel same (s.constants.lookup name) (u.constants.lookup name))
    (hb : ∀ name, Option.Rel (fun x y => x.arity = y.arity ∧ known name x.arity)
      (s.builtin? name) (u.builtin? name)) (r : Resources α) (t : Resources β) :
    Frames.Related (Binding.Related same known fit) (Machine.start s r).frames
      (Machine.start u t).frames where
  size := rfl
  entries id name := by
    match id with
    | 0 =>
      show Option.Rel _ ((Machine.rootFrame s).lookup name) ((Machine.rootFrame u).lookup name)
      have hcn := hc name
      have hbn := hb name
      rw [lookup_rootFrame, lookup_rootFrame]
      generalize s.constants.lookup name = v at hcn ⊢
      generalize u.constants.lookup name = w at hcn ⊢
      generalize s.builtin? name = x at hbn ⊢
      generalize u.builtin? name = y at hbn ⊢
      cases hcn with
      | some hv => exact .some (.number hv true)
      | none =>
        cases hbn with
        | none => exact .none
        | some hxy =>
          obtain ⟨ha, hk⟩ := hxy
          refine .some ?_
          dsimp only
          rw [← ha]
          exact .builtin hk
    | 1 => exact .none
    | _ + 2 => exact .none

inductive Output.Related (same : α → β → Prop) : Output α → Output β → Prop where
  | label (text : String) : Related same (.label text) (.label text)
  | value {v : α} {w : β} (h : same v w) : Related same (.value v) (.value w)

structure Record.Related (same : α → β → Prop) (r : Record α) (t : Record β) : Prop where
  kind : r.kind = t.kind
  source : r.source = t.source
  output : List.Forall₂ (Output.Related same) r.output t.output

inductive Flow.Related (same : α → β → Prop) : Flow α → Flow β → Prop where
  | nothing : Related same (.finished none) (.finished none)
  | finished {v : α} {w : β} (h : same v w) : Related same (.finished (some v)) (.finished (some w))
  | returned {v : α} {w : β} (h : same v w) : Related same (.returned v) (.returned w)
  | left : Related same .left .left

theorem Flow.Related.total {same : α → β → Prop} (hs : ∀ w, ∃ v, same v w) (q : Flow β) :
    ∃ p, Flow.Related same p q := by
  cases q with
  | finished last =>
    cases last with
    | none => exact ⟨_, .nothing⟩
    | some w =>
      obtain ⟨v, h⟩ := hs w
      exact ⟨_, .finished h⟩
  | returned w =>
    obtain ⟨v, h⟩ := hs w
    exact ⟨_, .returned h⟩
  | left => exact ⟨_, .left⟩

theorem forall₂_total {R : α → β → Prop} (hr : ∀ w, ∃ v, R v w) (ws : List β) :
    ∃ vs, List.Forall₂ R vs ws := by
  induction ws with
  | nil => exact ⟨[], .nil⟩
  | cons w ws ih =>
    obtain ⟨v, hv⟩ := hr w
    obtain ⟨vs, hvs⟩ := ih
    exact ⟨v :: vs, .cons hv hvs⟩

end Abacus
