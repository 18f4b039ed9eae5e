import Abacus.Proofs.Conduct.Plain

/-! What binds the name of a constant of the root scope somewhere else. Only the parameters of a
function can, so that the scopes in which the name stands for something else lie in a call of such a
function. A world holds what is said about a run at one time: the scopes made so far, their frames
and the moments that were noted. -/

namespace Abacus

variable {α : Type}

/-- A name of the root scope and what it stands for. -/
structure Reserved (α : Type) where
  name : String
  binding : Binding α
  constant : binding.isConstant = true

/-- The scopes of a run, each in the place of its own frame. -/
inductive Scopes : List Scope → Prop where
  | root : Scopes [[0]]
  | child {tree : List Scope} {scope : Scope} (h : Scopes tree) (hs : scope ∈ tree) :
      Scopes (tree ++ [tree.length :: scope])

namespace Scopes

variable {tree : List Scope} {near : List Nat} {i : Nat} {outer outer' : Scope}

theorem nil_notMem (h : Scopes tree) : [] ∉ tree := by
  induction h with
  | root => simp
  | child _ _ ih => simpa using ih

theorem lt_length (h : Scopes tree) (hs : i :: outer ∈ tree) : i < tree.length := by
  induction h with
  | root => simp_all
  | child _ _ ih =>
    rw [List.length_append, List.length_singleton]
    rcases List.mem_append.mp hs with hs | hs
    · exact (ih hs).trans (Nat.lt_succ_self _)
    · obtain ⟨rfl, _⟩ := List.cons.inj (List.mem_singleton.mp hs)
      exact Nat.lt_succ_self _

theorem uncons (h : Scopes tree) (hs : i :: outer ∈ tree) :
    i = 0 ∧ outer = [] ∨ i ≠ 0 ∧ outer ∈ tree := by
  induction h with
  | root => exact .inl (List.cons.inj (List.mem_singleton.mp hs))
  | @child tree scope htree hscope ih =>
    rcases List.mem_append.mp hs with hs | hs
    · exact (ih hs).imp_right (fun h => ⟨h.1, List.mem_append_left _ h.2⟩)
    · obtain ⟨rfl, rfl⟩ := List.cons.inj (List.mem_singleton.mp hs)
      exact .inr ⟨(List.length_pos_of_mem hscope).ne', List.mem_append_left _ hscope⟩

theorem unique (h : Scopes tree) (hs : i :: outer ∈ tree) (hs' : i :: outer' ∈ tree) :
    outer = outer' := by
  induction h with
  | root => simp_all
  | @child tree scope htree hscope ih =>
    rcases List.mem_append.mp hs with hs | hs <;> rcases List.mem_append.mp hs' with hs' | hs'
    · exact ih hs hs'
    · obtain ⟨rfl, _⟩ := List.cons.inj (List.mem_singleton.mp hs')
      exact absurd (htree.lt_length hs) (Nat.lt_irrefl _)
    · obtain ⟨rfl, _⟩ := List.cons.inj (List.mem_singleton.mp hs)
      exact absurd (htree.lt_length hs') (Nat.lt_irrefl _)
    · rw [List.mem_singleton] at hs hs'
      exact (List.cons.inj (hs.trans hs'.symm)).2

theorem drop (h : Scopes tree) (hs : near ++ i :: outer ∈ tree) : i :: outer ∈ tree := by
  induction near with
  | nil => exact hs
  | cons j near ih =>
    rcases h.uncons hs with ⟨_, hnil⟩ | ⟨_, hrest⟩
    · simp at hnil
    · exact ih hrest

end Scopes

def Frames.Binds (f : Frames (Binding α)) (id : Nat) (name : String) : Prop :=
  ∃ b, (f.frame id).lookup name = some b

/-- Some frame binds the function. -/
def Frames.Defines (f : Frames (Binding α)) (g : Function) : Prop :=
  ∃ id, ∃ e ∈ f.frame id, e.2 = .function g

def Frames.Passes (f : Frames (Binding α)) (id : Nat) (name : String) : Prop :=
  ∃ b, (f.frame id).lookup name = some b ∧ b.Passable

/-- The frame has bound the name, as a parameter can be bound, for as long as it has been there. -/
def Given (moments : List (Moment α)) (frames : Frames (Binding α)) (id : Nat)
    (name : String) : Prop :=
  frames.Passes id name ∧ ∀ y ∈ moments, id < y.frames.frames.size → y.frames.Passes id name

/-- The scope lies in a call that gives the name a meaning of its own: on its way outwards a frame
was made with the name, directly inside the scope of a function that was there at some moment and
has the name among its parameters. What a statement declares was not there when its frame was made,
and a counter is a constant. -/
def InCall (name : String) (moments : List (Moment α)) (frames : Frames (Binding α))
    (scope : Scope) : Prop :=
  ∃ id g, id :: g.scope <:+ scope ∧ name ∈ g.parameters ∧ (∃ y ∈ moments, y.frames.Defines g) ∧
    Given moments frames id name

theorem InCall.within {name : String} {moments : List (Moment α)} {frames : Frames (Binding α)}
    {scope scope' : Scope} (h : InCall name moments frames scope) (hs : scope <:+ scope') :
    InCall name moments frames scope' := by
  obtain ⟨id, g, hsuffix, hrest⟩ := h
  exact ⟨id, g, hsuffix.trans hs, hrest⟩

structure World (α : Type) where
  tree : List Scope
  frames : Frames (Binding α)
  history : List (Moment α)

namespace World

def of (tree : List Scope) (m : Machine α) : World α :=
  ⟨tree, m.frames, m.history⟩

def Knows (w : World α) (g : Function) : Prop :=
  ∃ y ∈ w.history, y.frames.Defines g

/-- A function may be passed on that has its scope and was there before. -/
def Admits (w : World α) (g : Function) : Prop :=
  g.scope ∈ w.tree ∧ w.Knows g

def Calls (w : World α) (name : String) (scope : Scope) : Prop :=
  InCall name w.history w.frames scope

def Gives (w : World α) (id : Nat) (name : String) : Prop :=
  Given w.history w.frames id name

/-- The name may be bound in the frame: it is not the reserved one, or the frame's scope lies in a
call. -/
def Frees (w : World α) (R : Reserved α) (name : String) (id : Nat) : Prop :=
  name = R.name → id ≠ 0 ∧ ∃ outer, id :: outer ∈ w.tree ∧ w.Calls R.name (id :: outer)

/-- A later world has what an earlier one has. -/
structure Before (w w' : World α) : Prop where
  tree : w.tree <+: w'.tree
  history : w.history <:+ w'.history
  gives : ∀ id name, w.Gives id name → w'.Gives id name

/-- The name stands for what the root's scope binds, wherever it is looked up outside such calls. -/
structure Fine (R : Reserved α) (w : World α) : Prop where
  scopes : Scopes w.tree
  size : w.tree.length = w.frames.frames.size
  earlier : ∀ y ∈ w.history, y.frames.frames.size ≤ w.frames.frames.size
  root : (w.frames.frame 0).lookup R.name = some R.binding
  closed : ∀ id, ∀ e ∈ w.frames.frame id, ∀ g, e.2 = .function g → g.scope ∈ w.tree
  binds : ∀ id outer, id :: outer ∈ w.tree → id ≠ 0 → w.frames.Binds id R.name →
    w.Calls R.name (id :: outer)
  moments : ∀ x earlier, x :: earlier <:+ w.history →
    x.frames.find x.scope R.name = some (0, R.binding) ∨
      InCall R.name (x :: earlier) x.frames x.scope

/-- All functions that are bound were there at some moment. -/
structure Sound (R : Reserved α) (w : World α) : Prop extends Fine R w where
  known : ∀ id, ∀ e ∈ w.frames.frame id, ∀ g, e.2 = .function g → w.Knows g

variable {w w' w'' : World α} {R : Reserved α} {scope : Scope} {name : String} {b : Binding α}

theorem Before.refl (w : World α) : w.Before w where
  tree := List.prefix_refl _
  history := List.suffix_refl _
  gives _ _ h := h

theorem Before.trans (h : w.Before w') (h' : w'.Before w'') : w.Before w'' where
  tree := h.tree.trans h'.tree
  history := h.history.trans h'.history
  gives id name hg := h'.gives id name (h.gives id name hg)

theorem Before.knows {g : Function} (h : w.Before w') (hg : w.Knows g) : w'.Knows g := by
  obtain ⟨y, hy, hdefines⟩ := hg
  exact ⟨y, h.history.subset hy, hdefines⟩

theorem Before.admits {g : Function} (h : w.Before w') (hg : w.Admits g) : w'.Admits g :=
  ⟨h.tree.subset hg.1, h.knows hg.2⟩

theorem Before.calls (h : w.Before w') (hc : w.Calls name scope) : w'.Calls name scope := by
  obtain ⟨id, g, hsuffix, hparameter, hknown, hgiven⟩ := hc
  exact ⟨id, g, hsuffix, hparameter, h.knows hknown, h.gives id name hgiven⟩

theorem Before.frees {id : Nat} (h : w.Before w') (hf : w.Frees R name id) :
    w'.Frees R name id := by
  intro hname
  obtain ⟨hid, outer, hs, hcalls⟩ := hf hname
  exact ⟨hid, outer, h.tree.subset hs, h.calls hcalls⟩

theorem Sound.admits (h : w.Sound R) {id : Nat} {e : String × Binding α}
    (he : e ∈ w.frames.frame id) {g : Function} (hg : e.2 = .function g) : w.Admits g :=
  ⟨h.closed id e he g hg, h.known id e he g hg⟩

/-- Outside calls a lookup goes up to the root. -/
theorem Fine.find_or_calls (h : w.Fine R) (hs : scope ∈ w.tree) :
    w.frames.find scope R.name = some (0, R.binding) ∨ w.Calls R.name scope := by
  induction scope with
  | nil => exact absurd hs h.scopes.nil_notMem
  | cons id outer ih =>
    rcases h.scopes.uncons hs with ⟨rfl, rfl⟩ | ⟨hid, houter⟩
    · left
      simp [Frames.find, h.root]
    · cases hl : (w.frames.frame id).lookup R.name with
      | some c => exact .inr (h.binds id outer hs hid ⟨c, hl⟩)
      | none =>
        simp only [Frames.find, hl]
        exact (ih houter).imp_right (fun hc => hc.within (List.suffix_cons id outer))

theorem Fine.calls_of_not_constant (h : w.Fine R) (hs : scope ∈ w.tree)
    (hf : ∀ id c, w.frames.find scope R.name = some (id, c) → c.isConstant = false) :
    w.Calls R.name scope := by
  refine (h.find_or_calls hs).resolve_left (fun hfind => ?_)
  exact Bool.false_ne_true ((hf _ _ hfind).symm.trans R.constant)

/-- After a note all functions are known. -/
theorem Fine.note (h : w.Fine R) (hs : scope ∈ w.tree) :
    w.Before ⟨w.tree, w.frames, ⟨scope, w.frames⟩ :: w.history⟩ ∧
      (World.mk w.tree w.frames (⟨scope, w.frames⟩ :: w.history)).Sound R := by
  have hbefore : w.Before ⟨w.tree, w.frames, ⟨scope, w.frames⟩ :: w.history⟩ :=
    ⟨List.prefix_refl _, List.suffix_cons _ _, fun id name hg =>
      ⟨hg.1, List.forall_mem_cons.mpr ⟨fun _ => hg.1, hg.2⟩⟩⟩
  refine ⟨hbefore, ⟨h.scopes, h.size, ?_, h.root, h.closed, ?_, ?_⟩, ?_⟩
  · exact List.forall_mem_cons.mpr ⟨Nat.le_refl _, h.earlier⟩
  · exact fun id outer hid hne hb => hbefore.calls (h.binds id outer hid hne hb)
  · intro x earlier hx
    rcases List.suffix_cons_iff.mp hx with heq | hx
    · cases heq
      exact (h.find_or_calls hs).imp_right (fun hc => hbefore.calls hc)
    · exact h.moments x earlier hx
  · exact fun id e he g hg => ⟨_, List.mem_cons_self, id, e, he, hg⟩

theorem Fine.lt_of_target (h : w.Fine R) (hs : scope ∈ w.tree) {id : Nat}
    (ht : w.frames.Target scope name id b) : id < w.frames.frames.size := by
  obtain ⟨near, far, rfl, _⟩ := ht.nearest
  exact h.size ▸ h.scopes.lt_length (h.scopes.drop hs)

/-- Where a scope binds a name it may be bound, since a constant is not bound again. -/
theorem Fine.frees_of_target (h : w.Fine R) (hs : scope ∈ w.tree) {id : Nat}
    (ht : w.frames.Target scope name id b)
    (hf : ∀ i c, w.frames.find scope name = some (i, c) → c.isConstant = false) :
    w.Frees R name id := by
  rintro rfl
  have hid : id ≠ 0 := by
    rintro rfl
    exact Bool.false_ne_true ((ht.changes _ h.root).1.symm.trans R.constant)
  obtain ⟨near, far, rfl, _⟩ := ht.nearest
  refine ⟨hid, far, h.scopes.drop hs, ?_⟩
  rcases ht.known with hhead | hbinds
  · cases near with
    | nil => exact h.calls_of_not_constant hs hf
    | cons j near =>
      -- the frame of a scope does not lie further outwards as well
      obtain rfl : j = id := by simpa using hhead
      have houter : near ++ j :: far = far := h.scopes.unique hs (h.scopes.drop hs)
      have hlength := congrArg List.length houter
      simp only [List.length_append, List.length_cons] at hlength
      omega
  · exact h.binds id far (h.scopes.drop hs) hid hbinds

/-- A name is bound in a frame where it may be bound, and to no constant if it was given there. -/
theorem Fine.declare (h : w.Fine R) {id : Nat} (hname : w.Frees R name id)
    (hgiven : w.Gives id name → b.Passable)
    (hclosed : ∀ g, b = .function g → g.scope ∈ w.tree) :
    w.Before ⟨w.tree, w.frames.declare id name b, w.history⟩ ∧
      (World.mk w.tree (w.frames.declare id name b) w.history).Fine R := by
  have hbefore : w.Before ⟨w.tree, w.frames.declare id name b, w.history⟩ := by
    refine ⟨List.prefix_refl _, List.suffix_refl _, fun i other hg => ⟨?_, hg.2⟩⟩
    show ∃ d, ((w.frames.declare id name b).frame i).lookup other = some d ∧ d.Passable
    rw [Frames.lookup_declare]
    split
    · next hh =>
      obtain ⟨rfl, _, rfl⟩ := hh
      exact ⟨b, rfl, hgiven hg⟩
    · exact hg.1
  refine ⟨hbefore, h.scopes, ?_, ?_, ?_, ?_, ?_, h.moments⟩
  · exact h.size.trans (Frames.size_declare _ _ _ _).symm
  · exact fun y hy => (h.earlier y hy).trans (Frames.size_declare _ _ _ _).ge
  · show ((w.frames.declare id name b).frame 0).lookup R.name = some R.binding
    rw [Frames.lookup_declare, if_neg (fun hh => (hname hh.2.2.symm).1 hh.1)]
    exact h.root
  · intro i e he g hg
    rcases Frames.mem_declare he with he | rfl
    · exact h.closed i e he g hg
    · exact hclosed g hg
  · rintro i outer hi hne ⟨c, hc⟩
    rw [Frames.lookup_declare] at hc
    split at hc
    · next hh =>
      obtain ⟨rfl, _, heq⟩ := hh
      obtain ⟨_, outer', hs, hcalls⟩ := hname heq.symm
      exact hbefore.calls (h.scopes.unique hs hi ▸ hcalls)
    · exact hbefore.calls (h.binds i outer hi hne ⟨c, hc⟩)

/-- A scope is made inside another one. The reserved name may be among its bindings in a call, and
in the scope of a function that has it among its parameters. -/
theorem Sound.opened (h : w.Sound R) (hs : scope ∈ w.tree) {f : Frames (Binding α)}
    (hf : w.frames.Opened f)
    (hnew : ∀ e ∈ f.frame w.frames.frames.size,
      Entry (fun name => name = R.name → w.Calls R.name scope) w.Admits scope e) :
    w.Before ⟨w.tree ++ [w.frames.frames.size :: scope], f, w.history⟩ ∧
      (World.mk (w.tree ++ [w.frames.frames.size :: scope]) f w.history).Sound R := by
  have hbefore : w.Before ⟨w.tree ++ [w.frames.frames.size :: scope], f, w.history⟩ := by
    refine ⟨List.prefix_append _ _, List.suffix_refl _, fun id other hg => ⟨?_, hg.2⟩⟩
    obtain ⟨c, hc, hpass⟩ := hg.1
    exact ⟨c, (hf.entries id (Frames.size_of_mem (Frames.mem_of_lookup hc))).symm ▸ hc, hpass⟩
  have hadmits : ∀ id, ∀ e ∈ f.frame id, ∀ g, e.2 = .function g → w.Admits g := by
    intro id e he g hg
    have hlt := Frames.size_of_mem he
    rw [hf.size] at hlt
    rcases Nat.lt_succ_iff_lt_or_eq.mp hlt with hid | rfl
    · exact h.admits (hf.entries id hid ▸ he) hg
    · cases hnew e he with
      | counter _ v => cases hg
      | parameter _ _ _ _ ha => exact ha g hg
  have hpos : 0 < w.frames.frames.size :=
    Frames.size_of_mem (Frames.mem_of_lookup h.root)
  refine ⟨hbefore, ⟨?_, ?_, ?_, ?_, ?_, ?_, h.moments⟩, ?_⟩
  · exact h.size ▸ h.scopes.child hs
  · simp [h.size, hf.size]
  · exact fun y hy => (h.earlier y hy).trans (hf.size ▸ Nat.le_succ _)
  · show (f.frame 0).lookup R.name = some R.binding
    rw [hf.entries 0 hpos]
    exact h.root
  · exact fun id e he g hg => hbefore.tree.subset (hadmits id e he g hg).1
  · rintro id outer hid hne ⟨c, hc⟩
    rcases List.mem_append.mp hid with hid | hid
    · have hlt : id < w.frames.frames.size := h.size ▸ h.scopes.lt_length hid
      exact hbefore.calls (h.binds id outer hid hne ⟨c, hf.entries id hlt ▸ hc⟩)
    · obtain ⟨rfl, rfl⟩ := List.cons.inj (List.mem_singleton.mp hid)
      generalize hname : R.name = name at hc ⊢
      cases hnew (name, c) (Frames.mem_of_lookup hc) with
      | counter hfree v =>
        subst hname
        exact (hbefore.calls (hfree rfl)).within (List.suffix_cons _ _)
      | @parameter _ _ g hg hscope hn hb _ =>
        subst hscope
        refine ⟨_, g, List.suffix_refl _, hn, hg.2, ⟨c, hc, hb⟩, fun y hy hlt => ?_⟩
        exact absurd hlt (h.earlier y hy).not_gt
  · exact fun id e he g hg => (hadmits id e he g hg).2

/-- What is assigned where a name was given is no constant. -/
theorem passable_of_target {f : Frames (Binding α)} {id : Nat} (ht : f.Target scope name id b)
    (hp : f.Passes id name) : b.Passable := by
  obtain ⟨c, hc, _⟩ := hp
  exact Binding.passable_of_variable (ht.changes c hc).2

/-- What was chosen in a world in which a moment had just been noted is bound in a later one. -/
theorem Fine.placed (h : w.Fine R) (hnoted : ∃ y ∈ w.history, y.frames = w.frames)
    (hs : scope ∈ w.tree) (hbefore : w.Before w') (h' : w'.Fine R) {f : Frames (Binding α)}
    (hp : w.frames.Placed scope name b w'.frames f)
    (hf : ∀ i c, w.frames.find scope name = some (i, c) → c.isConstant = false)
    (hclosed : ∀ g, b = .function g → g.scope ∈ w.tree) :
    w'.Before ⟨w'.tree, f, w'.history⟩ ∧ (World.mk w'.tree f w'.history).Fine R := by
  rcases hp with ⟨rfl, _⟩ | ⟨id, ht, rfl⟩
  · exact absurd hs h.scopes.nil_notMem
  · -- a name that was not there at the beginning has not been given by the evaluation
    have hgiven : w'.Gives id name → b.Passable := by
      intro hg
      obtain ⟨y, hy, hframes⟩ := hnoted
      have hpasses := hg.2 y (hbefore.history.subset hy)
      rw [hframes] at hpasses
      exact passable_of_target ht (hpasses (h.lt_of_target hs ht))
    exact h'.declare (hbefore.frees (h.frees_of_target hs ht hf)) hgiven
      (fun g hg => hbefore.tree.subset (hclosed g hg))

end World

end Abacus
