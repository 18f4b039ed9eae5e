import Abacus.Proofs.Scoping.Frames
import Mathlib.Data.List.Chain

/-! What lookups answer, in every tree of scopes that can be made. A scope is given by its chain, which
leads from frames made later to frames made before; so the chain ends, and the number of a frame tells
the scope it belongs to. -/

namespace Abacus.Frames

variable {β : Type} {s f g : Frames β} {made : List Scope} {t near far : Scope} {m n : String}
  {b v : β} {id : Nat}

/-- The frames made from the root's by opening scopes inside others and by declaring names, and the
scopes they belong to. -/
inductive Built : Frames β → List Scope → Prop where
  | root : Built root [rootScope]
  | child {s : Frames β} {made : List Scope} {t : Scope} (h : Built s made) (ht : t ∈ made) :
      Built (s.child t).1 ((s.child t).2 :: made)
  | declare {s : Frames β} {made : List Scope} {t : Scope} (h : Built s made) (ht : t ∈ made)
      (name : String) (b : β) : Built (s.declareIn t name b) made

/-- The scope `u` is `t` or lies around it, and no scope nearer to `t` binds the name. -/
def Sees (s : Frames β) (t u : Scope) (name : String) : Prop :=
  ∃ near, t = near ++ u ∧ ∀ i ∈ near, (s.frame i).lookup name = none

section Trees

/-- Chains go down from frame to frame and end at the root's, they are closed under leaving the nearest
scope, and no frame belongs to two of them. -/
structure Tree (s : Frames β) (made : List Scope) : Prop where
  descends : ∀ t ∈ made, t.IsChain (· > ·)
  rooted : ∀ t ∈ made, rootScope <:+ t
  held : ∀ t ∈ made, s.Holds t
  around : ∀ near u, near ++ u ∈ made → u ≠ [] → u ∈ made
  unique : ∀ id far far', id :: far ∈ made → id :: far' ∈ made → far = far'

theorem Tree.root : Tree (Frames.root (β := β)) [rootScope] where
  descends t ht := by
    obtain rfl := List.mem_singleton.mp ht
    exact .singleton 0
  rooted t ht := by
    obtain rfl := List.mem_singleton.mp ht
    exact List.suffix_refl _
  held t ht id hid := by
    obtain rfl := List.mem_singleton.mp ht
    obtain rfl := List.mem_singleton.mp hid
    exact Nat.zero_lt_one
  around near u hu hne := by
    have hroot : near ++ u = [0] := List.mem_singleton.mp hu
    rcases List.append_eq_singleton_iff.mp hroot with ⟨rfl, hu'⟩ | ⟨_, hu'⟩
    · exact hu
    · exact absurd hu' hne
  unique id far far' ht ht' := by
    have h := (List.mem_singleton.mp ht).trans (List.mem_singleton.mp ht').symm
    exact (List.cons.inj h).2

theorem Tree.child (h : Tree s made) (ht : t ∈ made) :
    Tree (s.child t).1 ((s.child t).2 :: made) := by
  have hsize : (s.child t).1.frames.size = s.frames.size + 1 := by simp [Frames.child]
  have hmade : ∀ u, u ∈ (s.child t).2 :: made ↔ u = s.frames.size :: t ∨ u ∈ made :=
    fun u => List.mem_cons
  refine ⟨fun u hu => ?_, fun u hu => ?_, fun u hu id hid => ?_, fun near u hu hne => ?_,
    fun id far far' hu hu' => ?_⟩
  · rcases (hmade u).mp hu with rfl | hu
    · exact List.isChain_cons.mpr
        ⟨fun id hid => h.held t ht id (List.mem_of_mem_head? hid), h.descends t ht⟩
    · exact h.descends u hu
  · rcases (hmade u).mp hu with rfl | hu
    · exact (h.rooted t ht).trans (List.suffix_cons _ _)
    · exact h.rooted u hu
  · rw [hsize]
    rcases (hmade u).mp hu with rfl | hu
    · rcases List.mem_cons.mp hid with rfl | hid
      · exact Nat.lt_succ_self _
      · exact Nat.lt_succ_of_lt (h.held t ht id hid)
    · exact Nat.lt_succ_of_lt (h.held u hu id hid)
  · rcases (hmade _).mp hu with hnew | hu
    · cases near with
      | nil => exact (hmade u).mpr (.inl hnew)
      | cons i near =>
        obtain ⟨_, rfl⟩ := List.cons.inj hnew
        exact (hmade u).mpr (.inr (h.around near u ht hne))
    · exact (hmade u).mpr (.inr (h.around near u hu hne))
  · -- the frame of the new scope is that of no other
    have hother : ∀ far, s.frames.size :: far ∉ made :=
      fun far hf => absurd (h.held _ hf _ List.mem_cons_self) (Nat.lt_irrefl _)
    rcases (hmade _).mp hu with hnew | hu <;> rcases (hmade _).mp hu' with hnew' | hu'
    · exact (List.cons.inj (hnew.trans hnew'.symm)).2
    · obtain ⟨rfl, _⟩ := List.cons.inj hnew
      exact absurd hu' (hother far')
    · obtain ⟨rfl, _⟩ := List.cons.inj hnew'
      exact absurd hu (hother far)
    · exact h.unique id far far' hu hu'

theorem size_declareIn (s : Frames β) (t : Scope) (name : String) (b : β) :
    (s.declareIn t name b).frames.size = s.frames.size := by
  cases t with
  | nil => rfl
  | cons id far => exact size_declare s id name b

theorem Built.tree (h : Built s made) : Tree s made := by
  induction h with
  | root => exact .root
  | child _ ht ih => exact ih.child ht
  | @declare s made t _ ht name b ih =>
    refine ⟨ih.descends, ih.rooted, fun u hu id hid => ?_, ih.around, ih.unique⟩
    rw [size_declareIn]
    exact ih.held u hu id hid

end Trees

section Answers

theorem find_congr (h : ∀ i ∈ t, (f.frame i).lookup m = (g.frame i).lookup m) :
    f.find t m = g.find t m := by
  induction t with
  | nil => rfl
  | cons i t ih =>
    rw [find, find, h i List.mem_cons_self, ih (fun j hj => h j (List.mem_cons_of_mem _ hj))]

theorem find_append (s : Frames β) (near far : Scope) (m : String) :
    s.find (near ++ far) m = (s.find near m).or (s.find far m) := by
  induction near with
  | nil => rfl
  | cons i near ih =>
    simp only [List.cons_append, find]
    cases (s.frame i).lookup m with
    | none => exact ih
    | some b => rfl

theorem find_eq_none : s.find t m = none ↔ ∀ i ∈ t, (s.frame i).lookup m = none := by
  induction t with
  | nil => simp [find]
  | cons i t ih =>
    simp only [find, List.forall_mem_cons]
    cases (s.frame i).lookup m with
    | none => simpa using ih
    | some b => simp

/-- The nearest scope that binds a name is found, with the binding. -/
theorem find_eq_some :
    s.find t m = some (id, b) ↔ ∃ far, s.Sees t (id :: far) m ∧ (s.frame id).lookup m = some b := by
  constructor
  · intro h
    obtain ⟨⟨near, far, ht, hnear⟩, hb⟩ := nearest_of_find h
    exact ⟨far, ⟨near, ht, hnear⟩, hb⟩
  · rintro ⟨far, ⟨near, rfl, hnear⟩, hb⟩
    rw [find_append, find_eq_none.mpr hnear, Option.none_or, find, hb]

end Answers

section Declarations

theorem find_declare_of_notMem (h : id ∉ t) (n : String) (v : β) :
    (s.declare id n v).find t m = s.find t m := by
  refine find_congr (fun i hi => ?_)
  rw [lookup_declare, if_neg]
  rintro ⟨rfl, _⟩
  exact h hi

/-- A declaration is not found from elsewhere, nor past a nearer scope that binds the name. -/
theorem Tree.find_declare_of_not_sees (h : Tree s made) (ht : t ∈ made) (hu : id :: far ∈ made)
    (hs : ¬ (m = n ∧ s.Sees t (id :: far) n)) (v : β) :
    (s.declare id n v).find t m = s.find t m := by
  by_cases hm : m = n
  · subst hm
    by_cases hid : id ∈ t
    · obtain ⟨near, far', rfl, hnear⟩ := List.eq_append_cons_of_mem hid
      obtain rfl := h.unique id far far' hu (h.around near (id :: far') ht (by simp))
      -- the lookup ends in front of the frame
      obtain ⟨x, hx⟩ : ∃ x, s.find near m = some x := by
        refine Option.ne_none_iff_exists'.mp (fun hnone => hs ⟨rfl, near, rfl, ?_⟩)
        exact find_eq_none.mp hnone
      rw [find_append, find_append, find_declare_of_notMem hnear, hx, Option.some_or,
        Option.some_or]
    · exact find_declare_of_notMem hid m v
  · refine find_congr (fun i _ => ?_)
    rw [lookup_declare, if_neg (fun hh => hm hh.2.2)]

end Declarations

/-- What lookups of a name from a scope answer, and what they answer after each operation. -/
structure LookupLaws (s : Frames β) (made : List Scope) (t : Scope) (m : String) : Prop where
  /-- The chain goes down from frame to frame and ends at the root's. -/
  ends : t.IsChain (· > ·) ∧ rootScope <:+ t
  /-- The scopes on the chain are scopes of the tree. -/
  around : ∀ near u, t = near ++ u → u ≠ [] → u ∈ made
  /-- The number of a frame tells the scope. -/
  numbered : ∀ u ∈ made, u.head? = t.head? → u = t
  /-- The answer is the nearest scope on the chain that binds the name, with the binding. -/
  found : ∀ id b, s.find t m = some (id, b) ↔
    ∃ far, s.Sees t (id :: far) m ∧ (s.frame id).lookup m = some b
  missing : s.find t m = none ↔ ∀ id ∈ t, (s.frame id).lookup m = none
  /-- A declaration on the chain is found where nothing nearer binds the name. -/
  declared : ∀ id far v, id :: far ∈ made → s.Sees t (id :: far) m →
    (s.declareIn (id :: far) m v).find t m = some (id, v)
  /-- Every other declaration changes nothing. -/
  kept : ∀ u ∈ made, ∀ n v, ¬ (m = n ∧ s.Sees t u n) →
    (s.declareIn u n v).find t m = s.find t m
  /-- A new scope changes nothing. -/
  opened : ∀ u ∈ made, (s.child u).1.find t m = s.find t m
  /-- A new scope answers as the one around it. -/
  fresh : (s.child t).1.find (s.child t).2 m = s.find t m

theorem find_child (s : Frames β) (u t : Scope) (m : String) :
    (s.child u).1.find t m = s.find t m :=
  find_congr (fun i _ => congrArg (List.lookup m) (frame_child s u i))

theorem find_fresh (s : Frames β) (t : Scope) (m : String) :
    (s.child t).1.find (s.child t).2 m = s.find t m := by
  have hempty : ((s.child t).1.frame s.frames.size).lookup m = none := by
    rw [frame_child, frame_of_size_le (Nat.le_refl _)]
    rfl
  show (s.child t).1.find (s.frames.size :: t) m = s.find t m
  rw [find, hempty]
  exact find_child s t t m

/-- Lookups obey the laws in every tree of scopes that can be made, from every scope of it and for
every name. -/
theorem Built.lookup_lawful (h : Built s made) (ht : t ∈ made) (m : String) :
    LookupLaws s made t m where
  ends := ⟨h.tree.descends t ht, h.tree.rooted t ht⟩
  around near u heq hne := h.tree.around near u (heq ▸ ht) hne
  numbered u hu hhead := by
    cases t with
    | nil => exact List.head?_eq_none_iff.mp hhead
    | cons id far =>
      obtain ⟨far', rfl⟩ := List.head?_eq_some_iff.mp hhead
      rw [h.tree.unique id far far' ht hu]
  found _ _ := find_eq_some
  missing := find_eq_none
  declared id far v hu hs := by
    obtain ⟨near, rfl, hnear⟩ := hs
    exact find_declare v hnear (h.tree.held _ hu id List.mem_cons_self)
  kept u hu n v hs := by
    cases u with
    | nil => rfl
    | cons id far => exact h.tree.find_declare_of_not_sees ht hu hs v
  opened u _ := find_child s u t m
  fresh := find_fresh s t m

/-- A name that is bound at the root and in a scope inside it, looked up two scopes inside. -/
def nested : Frames Nat :=
  (((root.declareIn [0] "x" 1).child [0]).1.child [1, 0]).1.declareIn [1, 0] "x" 2

theorem nested_lawful : Built nested [[2, 1, 0], [1, 0], [0]] ∧ [2, 1, 0] ∈ [[2, 1, 0], [1, 0], [0]] ∧
    LookupLaws nested [[2, 1, 0], [1, 0], [0]] [2, 1, 0] "x" ∧
    nested.find [2, 1, 0] "x" = some (1, 2) ∧
    (nested.declareIn [2, 1, 0] "x" 3).find [2, 1, 0] "x" = some (2, 3) ∧
    (nested.declareIn [0] "x" 4).find [2, 1, 0] "x" = some (1, 2) := by
  have hroot : Built (root.declareIn [0] "x" 1) [[0]] := .declare .root (by decide) "x" 1
  have hinner : Built ((root.declareIn [0] "x" 1).child [0]).1 [[1, 0], [0]] :=
    .child hroot (by decide)
  have hbuilt : Built nested [[2, 1, 0], [1, 0], [0]] :=
    .declare (.child hinner (by decide)) (by decide) "x" 2
  have hlaws := hbuilt.lookup_lawful (t := [2, 1, 0]) (by decide) "x"
  have hfound : nested.find [2, 1, 0] "x" = some (1, 2) :=
    (hlaws.found 1 2).mpr ⟨[0], ⟨[2], rfl, by decide⟩, by decide⟩
  refine ⟨hbuilt, by decide, hlaws, hfound,
    hlaws.declared 2 [1, 0] 3 (by decide) ⟨[], rfl, by decide⟩, ?_⟩
  rw [hlaws.kept [0] (by decide) "x" 4, hfound]
  rintro ⟨_, near, hnear, hnone⟩
  obtain rfl : [2, 1] = near := List.append_cancel_right (show [2, 1] ++ [0] = near ++ [0] from hnear)
  exact absurd (hnone 1 (by decide)) (by decide)

end Abacus.Frames
