/-! Scopes: a tree of frames that bind names. A scope is the chain of frame numbers from its own
frame to the root's, so a lookup goes from the nearest frame outwards. -/

namespace Abacus

/-- The chain of a scope, nearest frame first. -/
abbrev Scope := List Nat

/-- The frames made so far; a frame binds each name once. -/
structure Frames (β : Type) where
  frames : Array (List (String × β))

namespace Frames

def root {β : Type} : Frames β :=
  ⟨#[[]]⟩

def rootScope : Scope :=
  [0]

/-- Sets the binding of a name; a name that is already bound keeps its place. -/
def bind {β : Type} (name : String) (b : β) : List (String × β) → List (String × β)
  | [] => [(name, b)]
  | (n, old) :: rest => if n = name then (name, b) :: rest else (n, old) :: bind name b rest

def frame {β : Type} (s : Frames β) (id : Nat) : List (String × β) :=
  s.frames.getD id []

def child {β : Type} (s : Frames β) (scope : Scope) : Frames β × Scope :=
  let id := s.frames.size
  (⟨s.frames.push []⟩, id :: scope)

def declare {β : Type} (s : Frames β) (id : Nat) (name : String) (b : β) : Frames β :=
  ⟨s.frames.modify id (bind name b)⟩

def declareIn {β : Type} (s : Frames β) (scope : Scope) (name : String) (b : β) : Frames β :=
  match scope with
  | [] => s
  | id :: _ => s.declare id name b

/-- The nearest frame of a scope that binds a name, and the binding. -/
def find {β : Type} (s : Frames β) : Scope → String → Option (Nat × β)
  | [], _ => none
  | id :: outer, name =>
    match (s.frame id).lookup name with
    | some b => some (id, b)
    | none => s.find outer name

def get {β : Type} (s : Frames β) (scope : Scope) (name : String) : Option β :=
  (s.find scope name).map (·.2)

def names {β : Type} (s : Frames β) (id : Nat) : List String :=
  (s.frame id).map (·.1)

end Frames

end Abacus
