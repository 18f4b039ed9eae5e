import Abacus.Proofs.Simulation.Related
import Mathlib.Order.Nat

/-! What an evaluation may do to the frames that exist. Constants stay, names stay where they are,
and only the frame of the scope at work gets new ones. -/

namespace Abacus

variable {α β : Type}

def Binding.scope : Binding α → Scope
  | .function f => f.scope
  | _ => []

/-- An entry of a frame, and what has become of it. -/
def Kept (e d : String × Binding α) : Prop :=
  e = d ∨ e.1 = d.1 ∧ e.2.isConstant = false ∧ d.2.isConstant = false

theorem Kept.refl (e : String × Binding α) : Kept e e :=
  .inl rfl

theorem Kept.name_eq {e d : String × Binding α} (h : Kept e d) : e.1 = d.1 := by
  rcases h with rfl | ⟨hn, _⟩
  · rfl
  · exact hn

theorem Kept.trans {e d c : String × Binding α} (h : Kept e d) (h' : Kept d c) : Kept e c := by
  rcases h with rfl | ⟨hn, he, hd⟩
  · exact h'
  · rcases h' with rfl | ⟨hn', _, hc⟩
    · exact .inr ⟨hn, he, hd⟩
    · exact .inr ⟨hn.trans hn', he, hc⟩

/-- The entries of a frame are kept, and at most `n` are new behind them. -/
inductive FrameKept (n : Nat) :
    List (String × Binding α) → List (String × Binding α) → Prop where
  | added {new : List (String × Binding α)} (h : new.length ≤ n) : FrameKept n [] new
  | cons {e d : String × Binding α} {es ds : List (String × Binding α)} (h : Kept e d)
      (ht : FrameKept n es ds) : FrameKept n (e :: es) (d :: ds)

namespace FrameKept

variable {n k : Nat} {es ds cs : List (String × Binding α)}

theorem refl (n : Nat) (es : List (String × Binding α)) : FrameKept n es es := by
  induction es with
  | nil => exact .added (by simp)
  | cons e es ih => exact .cons (.refl e) ih

theorem length_le (h : FrameKept n es ds) : ds.length ≤ es.length + n := by
  induction h with
  | added h => simpa using h
  | cons _ _ ih => simp only [List.length_cons]; omega

theorem trans (h : FrameKept n es ds) (h' : FrameKept k ds cs) : FrameKept (n + k) es cs := by
  induction h generalizing cs with
  | added h =>
    have hl := h'.length_le
    exact .added (by omega)
  | cons he _ ih =>
    cases h' with
    | cons hd ht => exact .cons (he.trans hd) (ih ht)

theorem mono (h : FrameKept n es ds) (hn : n ≤ k) : FrameKept k es ds := by
  induction h with
  | added h => exact .added (h.trans hn)
  | cons he _ ih => exact .cons he ih

theorem names (h : FrameKept n es ds) :
    ∃ new, new.length ≤ n ∧ ds.map Prod.fst = es.map Prod.fst ++ new := by
  induction h with
  | @added new h => exact ⟨new.map Prod.fst, by simpa using h, by simp⟩
  | cons he _ ih =>
    obtain ⟨new, hl, hnew⟩ := ih
    exact ⟨new, hl, by simp [hnew, he.name_eq]⟩

theorem lookup_constant (h : FrameKept n es ds) {name : String} {b : Binding α}
    (hb : es.lookup name = some b) (hc : b.isConstant = true) : ds.lookup name = some b := by
  induction h with
  | added h => simp at hb
  | @cons e d es ds he _ ih =>
    obtain ⟨k, c⟩ := e
    obtain ⟨l, c'⟩ := d
    obtain rfl : k = l := he.name_eq
    simp only [List.lookup_cons] at hb ⊢
    split at hb
    · next hn =>
      -- a constant that is found cannot be an entry that may change
      rcases he with he | ⟨_, hv, _⟩
      · cases he
        exact hb
      · cases hb
        exact absurd hc (by simp [hv])
    · exact ih hb

theorem lookup_variable (h : FrameKept n es ds) {name : String} {b : Binding α}
    (hb : es.lookup name = some b) (hc : b.isConstant = false) :
    ∃ c, ds.lookup name = some c ∧ c.isConstant = false := by
  induction h with
  | added h => simp at hb
  | @cons e d es ds he _ ih =>
    obtain ⟨k, c⟩ := e
    obtain ⟨l, c'⟩ := d
    obtain rfl : k = l := he.name_eq
    simp only [List.lookup_cons] at hb ⊢
    split at hb
    · next hn =>
      rcases he with he | ⟨_, _, hd⟩
      · cases he
        exact ⟨b, hb, hc⟩
      · exact ⟨_, rfl, hd⟩
    · exact ih hb

theorem lookup_none (h : FrameKept 0 es ds) {name : String} (hb : es.lookup name = none) :
    ds.lookup name = none := by
  induction h with
  | added h => simp [List.length_eq_zero_iff.mp (Nat.le_zero.mp h)]
  | @cons e d es ds he _ ih =>
    obtain ⟨k, c⟩ := e
    obtain ⟨l, c'⟩ := d
    obtain rfl : k = l := he.name_eq
    simp only [List.lookup_cons] at hb ⊢
    split at hb
    · cases hb
    · exact ih hb

theorem lookup_changes (h : FrameKept 0 es ds) {name : String} {p : Prop}
    (hc : ∀ c, es.lookup name = some c → c.isConstant = false ∧ p) :
    ∀ c, ds.lookup name = some c → c.isConstant = false ∧ p := by
  intro d hd
  cases he : es.lookup name with
  | none => simp [h.lookup_none he] at hd
  | some c =>
    obtain ⟨d', hd', hv⟩ := h.lookup_variable he (hc c he).1
    rw [hd] at hd'
    cases hd'
    exact ⟨hv, (hc c he).2⟩

end FrameKept

namespace Frames

theorem bind_of_none {es : List (String × β)} {name : String} (h : es.lookup name = none) (b : β) :
    bind name b es = es ++ [(name, b)] := by
  induction es with
  | nil => rfl
  | cons e es ih =>
    obtain ⟨n, c⟩ := e
    simp only [List.lookup_cons] at h
    split at h
    · cases h
    · next hn =>
      have hne : n ≠ name := by rintro rfl; simp at hn
      simp [bind, hne, ih h]

theorem mem_bind {es : List (String × β)} {name : String} {b : β} {e : String × β}
    (h : e ∈ bind name b es) : e ∈ es ∨ e = (name, b) := by
  induction es with
  | nil => exact .inr (by simpa [bind] using h)
  | cons d es ih =>
    obtain ⟨n, c⟩ := d
    simp only [bind] at h
    split at h
    · rcases List.mem_cons.mp h with rfl | h
      · exact .inr rfl
      · exact .inl (List.mem_cons_of_mem _ h)
    · rcases List.mem_cons.mp h with rfl | h
      · exact .inl List.mem_cons_self
      · exact (ih h).imp_left (List.mem_cons_of_mem _)

theorem bind_kept {es : List (String × Binding α)} {name : String} {b c : Binding α}
    (h : es.lookup name = some c) (hc : c.isConstant = false) (hb : b.isConstant = false) :
    FrameKept 0 es (bind name b es) := by
  induction es with
  | nil => simp at h
  | cons e es ih =>
    obtain ⟨n, d⟩ := e
    simp only [List.lookup_cons, bind] at h ⊢
    split at h
    · next hn =>
      have hne : n = name := (beq_iff_eq.mp hn).symm
      rw [if_pos hne]
      have hd : d = c := by simpa using h
      exact .cons (.inr ⟨hne, hd ▸ hc, hb⟩) (.refl 0 es)
    · next hn =>
      have hne : n ≠ name := by rintro rfl; simp at hn
      rw [if_neg hne]
      exact .cons (.refl _) (ih h)

theorem bind_new {es : List (String × Binding α)} {name : String} (h : es.lookup name = none)
    (b : Binding α) : FrameKept 1 es (bind name b es) := by
  rw [bind_of_none h]
  induction es with
  | nil => exact .added (by simp)
  | cons e es ih =>
    obtain ⟨n, c⟩ := e
    simp only [List.lookup_cons] at h
    split at h
    · cases h
    · exact .cons (.refl _) (ih h)

theorem bind_changes {es : List (String × Binding α)} {name : String} {b : Binding α} {n : Nat}
    (hn : es.lookup name = none → 1 ≤ n)
    (hc : ∀ c, es.lookup name = some c → c.isConstant = false ∧ b.isConstant = false) :
    FrameKept n es (bind name b es) := by
  cases he : es.lookup name with
  | none => exact (bind_new he b).mono (hn he)
  | some c => exact (bind_kept he (hc c he).1 (hc c he).2).mono (Nat.zero_le n)

def Holds (f : Frames β) (ids : List Nat) : Prop :=
  ∀ id ∈ ids, id < f.frames.size

def Has (f : Frames β) (scope : Scope) : Prop :=
  scope ≠ [] ∧ f.Holds scope

/-- How many names a frame may get when `n` are declared in a scope. -/
def room (own : Scope) (n id : Nat) : Nat :=
  if own.head? = some id then n else 0

/-- What an evaluation in the scope `own` that declares at most `n` names may do. -/
structure Keeps (own : Scope) (n : Nat) (f g : Frames (Binding α)) : Prop where
  size : f.frames.size ≤ g.frames.size
  entries : ∀ id, id < f.frames.size → FrameKept (room own n id) (f.frame id) (g.frame id)

/-- Frames to which one was added. -/
structure Opened (f g : Frames β) : Prop where
  size : g.frames.size = f.frames.size + 1
  entries : ∀ id, id < f.frames.size → g.frame id = f.frame id

def Fixes (f g : Frames (Binding α)) : Prop :=
  ∀ id name b, (f.frame id).lookup name = some b → b.isConstant = true →
    (g.frame id).lookup name = some b

theorem holds_nil (f : Frames β) : f.Holds [] :=
  fun _ h => nomatch h

theorem Holds.mono {f g : Frames β} {ids : List Nat} (h : f.Holds ids)
    (hs : f.frames.size ≤ g.frames.size) : g.Holds ids :=
  fun id hi => (h id hi).trans_le hs

theorem Has.mono {f g : Frames β} {scope : Scope} (h : f.Has scope)
    (hs : f.frames.size ≤ g.frames.size) : g.Has scope :=
  ⟨h.1, h.2.mono hs⟩

theorem Holds.subset {f : Frames β} {ids ids' : List Nat} (h : f.Holds ids) (hs : ids' ⊆ ids) :
    f.Holds ids' :=
  fun id hi => h id (hs hi)

theorem Holds.append {f : Frames β} {ids ids' : List Nat} (h : f.Holds ids) (h' : f.Holds ids') :
    f.Holds (ids ++ ids') := by
  intro id hi
  rcases List.mem_append.mp hi with hi | hi
  · exact h id hi
  · exact h' id hi

theorem frame_of_size_le {f : Frames β} {id : Nat} (h : f.frames.size ≤ id) : f.frame id = [] := by
  simp [frame, Array.getD_eq_getD_getElem?, Array.getElem?_eq_none h]

theorem size_of_mem {f : Frames β} {id : Nat} {e : String × β} (h : e ∈ f.frame id) :
    id < f.frames.size := by
  by_contra hs
  rw [frame_of_size_le (Nat.le_of_not_lt hs)] at h
  cases h

theorem mem_of_lookup {es : List (String × β)} {name : String} {b : β}
    (h : es.lookup name = some b) : (name, b) ∈ es := by
  obtain ⟨l, r, rfl, _⟩ := List.lookup_eq_some_iff.mp h
  simp

theorem Opened.fixes {f g : Frames (Binding α)} (h : f.Opened g) : f.Fixes g := by
  intro id name b hb _
  rw [h.entries id (size_of_mem (mem_of_lookup hb))]
  exact hb

theorem nearest_of_find {f : Frames β} {scope : Scope} {name : String} {id : Nat} {b : β}
    (h : f.find scope name = some (id, b)) :
    (∃ near far, scope = near ++ id :: far ∧ ∀ i ∈ near, (f.frame i).lookup name = none) ∧
      (f.frame id).lookup name = some b := by
  induction scope with
  | nil => simp [find] at h
  | cons i outer ih =>
    simp only [find] at h
    split at h
    · next hb =>
      cases h
      exact ⟨⟨[], outer, rfl, by simp⟩, hb⟩
    · next hb =>
      obtain ⟨⟨near, far, rfl, hn⟩, hl⟩ := ih h
      exact ⟨⟨i :: near, far, rfl, List.forall_mem_cons.mpr ⟨hb, hn⟩⟩, hl⟩

/-- What is looked up was bound in some frame. -/
theorem mem_of_get {f : Frames β} {scope : Scope} {name : String} {b : β}
    (h : f.get scope name = some b) : ∃ id, (name, b) ∈ f.frame id := by
  obtain ⟨⟨id, c⟩, hfind, rfl⟩ := Option.map_eq_some_iff.mp h
  exact ⟨id, mem_of_lookup (nearest_of_find hfind).2⟩

theorem mem_declare {f : Frames β} {owner id : Nat} {name : String} {b : β} {e : String × β}
    (h : e ∈ (f.declare owner name b).frame id) : e ∈ f.frame id ∨ e = (name, b) := by
  rw [frame_declare] at h
  split at h
  · exact mem_bind h
  · exact .inl h

/-- A declaration is found where nothing nearer binds the name. -/
theorem find_declare {f : Frames β} {near far : Scope} {name : String} {id : Nat} (b : β)
    (hn : ∀ i ∈ near, (f.frame i).lookup name = none) (hid : id < f.frames.size) :
    (f.declare id name b).find (near ++ id :: far) name = some (id, b) := by
  have hown : (f.declare id name b).find (id :: far) name = some (id, b) := by
    rw [find, lookup_declare, if_pos ⟨rfl, hid, rfl⟩]
  induction near with
  | nil => exact hown
  | cons i near ih =>
    have hrest := ih (fun j hj => hn j (List.mem_cons_of_mem _ hj))
    rw [List.cons_append, find, lookup_declare, hn i List.mem_cons_self]
    by_cases hi : id = i
    · subst hi
      rw [if_pos ⟨rfl, hid, rfl⟩]
    · rw [if_neg (fun hh => hi hh.1)]
      exact hrest

namespace Fixes

theorem refl (f : Frames (Binding α)) : f.Fixes f :=
  fun _ _ _ hb _ => hb

theorem trans {f g k : Frames (Binding α)} (h : f.Fixes g) (h' : g.Fixes k) : f.Fixes k :=
  fun id name b hb hc => h' id name b (h id name b hb hc) hc

end Fixes

theorem room_zero (own : Scope) (id : Nat) : room own 0 id = 0 := by
  simp [room]

theorem room_add (own : Scope) (n k id : Nat) :
    room own n id + room own k id = room own (n + k) id := by
  simp only [room]
  split <;> rfl

namespace Keeps

variable {own : Scope} {n k : Nat} {f g h : Frames (Binding α)}

theorem refl (own : Scope) (n : Nat) (f : Frames (Binding α)) : f.Keeps own n f where
  size := Nat.le_refl _
  entries _ _ := .refl _ _

theorem trans (hf : f.Keeps own n g) (hg : g.Keeps own k h) : f.Keeps own (n + k) h where
  size := hf.size.trans hg.size
  entries id hi := by
    rw [← room_add]
    exact (hf.entries id hi).trans (hg.entries id (hi.trans_le hf.size))

theorem mono (hf : f.Keeps own n g) (hn : n ≤ k) : f.Keeps own k g where
  size := hf.size
  entries id hi := by
    refine (hf.entries id hi).mono ?_
    simp only [room]
    split
    · exact hn
    · exact Nat.le_refl 0

theorem fixes (hf : f.Keeps own n g) : f.Fixes g := by
  intro id name b hb hc
  by_cases hi : id < f.frames.size
  · exact (hf.entries id hi).lookup_constant hb hc
  · rw [frame_of_size_le (Nat.le_of_not_lt hi)] at hb
    cases hb

theorem names_eq (hf : f.Keeps own n g) {id : Nat} (hi : id < f.frames.size)
    (ho : room own n id = 0) : g.names id = f.names id := by
  obtain ⟨new, hl, hn⟩ := (hf.entries id hi).names
  rw [ho] at hl
  have hnil := List.length_eq_zero_iff.mp (Nat.le_zero.mp hl)
  simpa [names, hnil] using hn

/-- Frames that were made for an evaluation are no longer looked at by those around it. -/
theorem ofOpened (ho : f.Opened g) {scope : Scope}
    (hg : g.Keeps (f.frames.size :: scope) k h) (own : Scope) : f.Keeps own 0 h where
  size := by
    have hs := hg.size
    rw [ho.size] at hs
    omega
  entries id hi := by
    have hr : room (f.frames.size :: scope) k id = 0 := by
      simp [room, hi.ne']
    have hs : id < g.frames.size := by
      rw [ho.size]
      omega
    rw [room_zero, ← ho.entries id hi]
    exact hr ▸ hg.entries id hs

end Keeps

/-- A scope may bind a name in one of its frames: in its own, or in the nearest that has the
name, and no constant is bound again. -/
structure Target (f : Frames (Binding α)) (scope : Scope) (name : String) (id : Nat)
    (b : Binding α) : Prop where
  nearest : ∃ near far, scope = near ++ id :: far ∧ ∀ i ∈ near, (f.frame i).lookup name = none
  known : scope.head? = some id ∨ ∃ c, (f.frame id).lookup name = some c
  changes : ∀ c, (f.frame id).lookup name = some c → c.isConstant = false ∧ b.isConstant = false

namespace Target

variable {f g : Frames (Binding α)} {scope : Scope} {name : String} {id : Nat} {b : Binding α}

/-- A target that was chosen before an evaluation may be used after it. -/
theorem declare_after (h : Target f scope name id b) (hk : f.Keeps scope 0 g) :
    f.Keeps scope 1 (g.declare id name b) where
  size := by simpa using hk.size
  entries i hi := by
    have hkept := hk.entries i hi
    rw [room_zero] at hkept
    rw [frame_declare]
    split
    · next hh =>
      obtain ⟨rfl, _⟩ := hh
      have hnew : (g.frame id).lookup name = none → 1 ≤ room scope 1 id := by
        intro hnone
        rcases h.known with ho | ⟨c, hc⟩
        · simp [room, ho]
        · obtain ⟨c', hc', _⟩ := hkept.lookup_variable hc (h.changes c hc).1
          simp [hnone] at hc'
      have hbind := bind_changes hnew (hkept.lookup_changes h.changes)
      simpa using hkept.trans hbind
    · exact hkept.mono (Nat.zero_le _)

theorem transport (h : Target f scope name id b) (hk : f.Keeps scope 0 g)
    (hs : f.Holds scope) : Target g scope name id b := by
  obtain ⟨near, far, rfl, hnear⟩ := h.nearest
  have hkept : ∀ i ∈ near ++ id :: far, FrameKept 0 (f.frame i) (g.frame i) :=
    fun i hi => room_zero _ i ▸ hk.entries i (hs i hi)
  have hid := hkept id (by simp)
  refine ⟨⟨near, far, rfl, fun i hi => (hkept i (by simp [hi])).lookup_none (hnear i hi)⟩, ?_,
    hid.lookup_changes h.changes⟩
  rcases h.known with hh | ⟨c, hc⟩
  · exact .inl hh
  · obtain ⟨c', hc', _⟩ := hid.lookup_variable hc (h.changes c hc).1
    exact .inr ⟨c', hc'⟩

theorem get (h : Target f scope name id b) (hs : f.Holds scope) :
    (f.declare id name b).get scope name = some b := by
  obtain ⟨near, far, rfl, hnear⟩ := h.nearest
  rw [Frames.get, find_declare b hnear (hs id (by simp))]
  rfl

end Target

/-- From `g` to `g'` a name is bound where the frames `f` allow it. -/
def Placed (f : Frames (Binding α)) (scope : Scope) (name : String) (b : Binding α)
    (g g' : Frames (Binding α)) : Prop :=
  scope = [] ∧ g' = g ∨ ∃ id, f.Target scope name id b ∧ g' = g.declare id name b

namespace Placed

variable {f g g' : Frames (Binding α)} {scope : Scope} {name : String} {b : Binding α}

theorem keeps (h : Placed f scope name b g g') (hk : f.Keeps scope 0 g) : f.Keeps scope 1 g' := by
  rcases h with ⟨_, rfl⟩ | ⟨id, ht, rfl⟩
  · exact hk.mono (Nat.zero_le 1)
  · exact ht.declare_after hk

theorem size_eq (h : Placed f scope name b g g') : g'.frames.size = g.frames.size := by
  rcases h with ⟨_, rfl⟩ | ⟨id, _, rfl⟩
  · rfl
  · exact size_declare g id name b

theorem mem (h : Placed f scope name b g g') {id : Nat} {e : String × Binding α}
    (he : e ∈ g'.frame id) : e ∈ g.frame id ∨ e = (name, b) := by
  rcases h with ⟨_, rfl⟩ | ⟨owner, _, rfl⟩
  · exact .inl he
  · exact mem_declare he

theorem transport (h : Placed f scope name b g g') (hk : f.Keeps scope 0 g) (hs : f.Has scope) :
    Placed g scope name b g g' := by
  rcases h with ⟨hnil, _⟩ | ⟨id, ht, hd⟩
  · exact absurd hnil hs.1
  · exact .inr ⟨id, ht.transport hk hs.2, hd⟩

theorem get_eq (h : Placed f scope name b g g') (hk : f.Keeps scope 0 g) (hs : f.Has scope) :
    g'.get scope name = some b := by
  rcases h with ⟨hnil, _⟩ | ⟨id, ht, rfl⟩
  · exact absurd hnil hs.1
  · exact (ht.transport hk hs.2).get (hs.2.mono hk.size)

theorem ofFound {id : Nat} {c : Binding α} (hf : f.find scope name = some (id, c))
    (hc : c.isConstant = false) (hb : b.isConstant = false) (g : Frames (Binding α)) :
    Placed f scope name b g (g.declare id name b) := by
  obtain ⟨hnear, hl⟩ := nearest_of_find hf
  refine .inr ⟨id, ⟨hnear, .inr ⟨c, hl⟩, ?_⟩, rfl⟩
  intro d hd
  rw [hl] at hd
  cases hd
  exact ⟨hc, hb⟩

/-- A name may be bound in a scope's own frame unless a constant is bound again. -/
theorem ofOwn (hf : ∀ id c, f.find scope name = some (id, c) → c.isConstant = false ∧
      (scope.head? = some id → b.isConstant = false)) (g : Frames (Binding α)) :
    Placed f scope name b g (g.declareIn scope name b) := by
  cases scope with
  | nil => exact .inl ⟨rfl, rfl⟩
  | cons id outer =>
    refine .inr ⟨id, ⟨⟨[], outer, rfl, by simp⟩, .inl rfl, ?_⟩, rfl⟩
    intro c hc
    have hfind : f.find (id :: outer) name = some (id, c) := by simp [find, hc]
    obtain ⟨hvar, hb⟩ := hf id c hfind
    exact ⟨hvar, hb rfl⟩

end Placed

end Frames

section Start

variable {P : Binding α → Prop} (hn : ∀ v, P (.number v true))
  (hb : ∀ name arity, P (.builtin name arity))

include hn hb

theorem root_bindings {s : NumberSystem α} {e : String × Binding α}
    (he : e ∈ Machine.rootFrame s) : P e.2 := by
  rcases List.mem_append.mp he with he | he
  · obtain ⟨c, _, rfl⟩ := List.mem_map.mp he
    exact hn _
  · obtain ⟨b, _, rfl⟩ := List.mem_map.mp he
    exact hb _ _

/-- At first only constants are bound, numbers and built-in functions. -/
theorem start_bindings (s : NumberSystem α) (r : Resources α) :
    ∀ id, ∀ e ∈ (Machine.start s r).frames.frame id, P e.2 := by
  intro id e he
  match id with
  | 0 => exact root_bindings hn hb he
  | 1 => cases he
  | _ + 2 => cases he

end Start

end Abacus
