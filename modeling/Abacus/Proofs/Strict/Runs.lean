import Abacus.Proofs.Alike.Statement
import Abacus.Proofs.Replay
import Abacus.Proofs.Strict.Forest

/-! Calls in strict mode. There a name and a bracket are put together only when they are evaluated,
by what the name is bound to at that time. In a tidy script whose names keep to one use this makes
no difference: what ends well without strict mode does the same in it. -/

namespace Abacus

open Token Statement

variable {α : Type}

/-- Something that is evaluated: a list of statements, or a run of tokens. -/
inductive Part where
  | block (body : List Statement)
  | run (tokens : List Token)

namespace Part

/-- The statements in a list of tokens, if it can be read. -/
def ofBlock (source : String) (tokens : List Token) : List Part :=
  match ofTokens source false tokens with
  | .ok body => [.block body]
  | .error _ => []

/-- What is evaluated when a token is. -/
def ofToken (source : String) : Token → List Part
  | .leaf .. => []
  | .group _ _ _ _ children opener _ =>
    if opener.value = "(" then [.run children] else ofBlock source children
  | .call _ _ _ _ _ arguments =>
    match splitArguments arguments.closerIndex arguments.children with
    | .ok runs => runs.map .run
    | .error _ => []

def parts (source : String) : Part → List Part
  | .block [] => []
  | .block (s :: rest) => .block rest :: (s.body?.toList.map .block ++ s.runs.map .run)
  | .run tokens =>
    let words := tokens.filter (fun t => !t.isNewline)
    if words.head?.any Eval.startsBlock then ofBlock source words
    else tokens.flatMap (ofToken source)

/-- The names that the first statement binds, each with its use. -/
def uses : Part → List (String × Role)
  | .block (s :: _) => s.uses
  | _ => []

abbrev Reaches (source : String) :=
  Relation.ReflTransGen (fun x y : Part => y ∈ x.parts source)

/-- Whether the uses of all names in all parts pass a test; the fuel bounds how deep these stand. -/
def check (source : String) (ok : String × Role → Bool) : Nat → Part → Bool
  | 0, _ => false
  | fuel + 1, x => x.uses.all ok && (x.parts source).all (check source ok fuel)

theorem check_reaches {source : String} {ok : String × Role → Bool} {fuel : Nat} {x y : Part}
    (h : check source ok fuel x = true) (hxy : Reaches source x y) : ∀ u ∈ y.uses, ok u = true := by
  induction hxy using Relation.ReflTransGen.head_induction_on generalizing fuel with
  | refl =>
    cases fuel with
    | zero => cases h
    | succ fuel =>
      simp only [check, Bool.and_eq_true, List.all_eq_true] at h
      exact h.1
  | head hstep _ ih =>
    cases fuel with
    | zero => cases h
    | succ fuel =>
      simp only [check, Bool.and_eq_true, List.all_eq_true] at h
      exact ih (h.2 _ hstep)

theorem mem_ofBlock {source : String} {T : List Token} {B : List Statement}
    (h : ofTokens source false T = .ok B) : block B ∈ ofBlock source T := by
  simp [ofBlock, h]

theorem mem_parts_of_direct {source : String} {T : List Token} {t : Token} {x : Part}
    (h : Direct T) (ht : t ∈ T) (hx : x ∈ ofToken source t) : x ∈ (run T).parts source := by
  have hstarts : (T.filter (fun t => !t.isNewline)).head?.any Eval.startsBlock = false := by
    cases hT : T.filter (fun t => !t.isNewline) with
    | nil => rfl
    | cons first rest => exact h first rest hT
  simp only [parts, hstarts, Bool.false_eq_true, if_false]
  exact List.mem_flatMap.mpr ⟨t, ht, hx⟩

end Part

namespace Program

/-- A name is bound in the script with the given use. -/
def Plays (p : Program) (name : String) (role : Role) : Prop :=
  ∃ x, Part.Reaches p.source (.block p.body) x ∧ (name, role) ∈ x.uses

/-- No name has two uses, and the names of the number system have none. -/
structure KeepsRoles (s : NumberSystem α) (p : Program) : Prop where
  single : ∀ name role role', p.Plays name role → p.Plays name role' → role = role'
  reserved : ∀ name role, p.Plays name role → (Machine.rootFrame s).lookup name = none

/-- Whether every name is used as the list says and is none of the number system. -/
def checkRoles (s : NumberSystem α) (roles : List (String × Role)) (fuel : Nat) (p : Program) :
    Bool :=
  Part.check p.source (fun u => roles.lookup u.1 == some u.2 &&
    ((Machine.rootFrame s).lookup u.1).isNone) fuel (.block p.body)

theorem keepsRoles_of_check {s : NumberSystem α} {p : Program} {roles : List (String × Role)}
    {fuel : Nat} (h : p.checkRoles s roles fuel = true) : p.KeepsRoles s := by
  have huse : ∀ name role, p.Plays name role → roles.lookup name = some role ∧
      (Machine.rootFrame s).lookup name = none := by
    rintro name role ⟨x, hx, hu⟩
    simpa using Part.check_reaches h hx _ hu
  constructor
  · intro name role role' hr hr'
    have hsame := (huse name role hr).1.symm.trans (huse name role' hr').1
    exact Option.some.inj hsame
  · exact fun name role hr => (huse name role hr).2

theorem keepsRoles_of_parse {s : NumberSystem α} {source : String} {roles : List (String × Role)}
    {fuel : Nat}
    (h : (Program.parse source false).toOption.any (checkRoles s roles fuel) = true) :
    ∀ p, Program.parse source false = .ok p → p.KeepsRoles s := by
  intro p hp
  rw [hp] at h
  exact keepsRoles_of_check h

open Classical in
/-- The use of a name. -/
noncomputable def role (p : Program) (name : String) : Option Role :=
  if h : ∃ role, p.Plays name role then some h.choose else none

theorem role_eq_none {p : Program} {name : String} (h : ∀ role, ¬ p.Plays name role) :
    p.role name = none :=
  dif_neg (fun ⟨role, hr⟩ => h role hr)

theorem KeepsRoles.role_eq {s : NumberSystem α} {p : Program} (h : p.KeepsRoles s) {name : String}
    {role : Role} (hr : p.Plays name role) : p.role name = some role := by
  have hplays : ∃ role, p.Plays name role := ⟨role, hr⟩
  rw [Program.role, dif_pos hplays, h.single name _ _ hplays.choose_spec hr]

/-- The names of the number system are free for what they are bound to. -/
theorem KeepsRoles.role_root {s : NumberSystem α} {p : Program} (h : p.KeepsRoles s)
    {name : String} (hr : (Machine.rootFrame s).lookup name ≠ none) : p.role name = none :=
  role_eq_none (fun role hp => hr (h.reserved name role hp))

end Program

theorem lookup_of_builtin {s : NumberSystem α} {name : String}
    (h : (s.builtin? name).isSome = true) : (Machine.rootFrame s).lookup name ≠ none := by
  obtain ⟨b, hb⟩ := Option.isSome_iff_exists.mp h
  rw [lookup_rootFrame, hb]
  split <;> simp

namespace Likeness

/-- The parts of a script, with the uses of its names. -/
noncomputable def ofRoles {s : NumberSystem α} {p : Program} {ahead : List Token → Bool}
    (hroles : p.KeepsRoles s)
    (htidy : Tidy (fun name => (s.builtin? name).isSome) ahead (scan p.source)) :
    (loosened p.source).Realm where
  role := p.role
  fit T := Part.Reaches p.source (.block p.body) (.run T)
  holds B := Part.Reaches p.source (.block p.body) (.block B)
  strict_eq := rfl
  spot_zero := rfl
  starts_inj := by
    rintro i _ j _ rfl rfl
    rfl
  stops_inj := by
    rintro i _ j _ rfl rfl
    rfl
  short := by
    rintro t _ _ ⟨_, ht⟩ hn hrole
    obtain ⟨before, rest, hscan⟩ := List.append_of_mem ht
    have hshort := htidy.short
    rw [hscan] at hshort
    have hok := eachName_append hshort hn
    simp only [Bool.or_eq_true, beq_iff_eq, Bool.and_eq_true] at hok
    rcases hok with hone | ⟨hbuiltin, _⟩
    · exact hone
    · exact absurd (hroles.role_root (lookup_of_builtin hbuiltin)) hrole
  tail h := h.tail (by simp [Part.parts])
  runs h T hT := h.tail (by simp [Part.parts, hT])
  body h hb := h.tail (by simp [Part.parts, hb])
  uses _ h u hu := hroles.role_eq ⟨_, h, hu⟩
  bracket h hd hT ho := h.tail (Part.mem_parts_of_direct hd hT (by simp [Part.ofToken, ho]))
  braces h hd hT ho hB := by
    have hblock := @Part.mem_ofBlock p.source _ _ hB
    exact h.tail (Part.mem_parts_of_direct hd hT (by simpa [Part.ofToken, ho] using hblock))
  argument h hd hT hR run hr :=
    h.tail (Part.mem_parts_of_direct hd hT (by simp [Part.ofToken, hR, hr]))
  block h hT hs hB := by
    have hblock := @Part.mem_ofBlock p.source _ _ hB
    exact h.tail (by simpa [Part.parts, hT, hs] using hblock)

theorem RecordAlike.eq {L : Likeness} (hl : L.verbatim) {r t : Record α} (h : L.RecordAlike r t) :
    r = t := by
  obtain ⟨kind, source, output⟩ := r
  obtain ⟨_, _, output'⟩ := t
  obtain ⟨rfl, hs, ho⟩ := h
  cases hs hl
  have hout : output = output' := by
    refine List.forall₂_eq_eq_eq ▸ ho.imp (fun x y hxy => ?_)
    cases hxy with
    | label hx => rw [hx hl]
    | value v => rfl
  rw [hout]

theorem records_same {L : Likeness} (hl : L.verbatim) {xs ys : List (Record α)}
    (h : List.Forall₂ L.RecordAlike xs ys) : xs = ys :=
  List.forall₂_eq_eq_eq ▸ h.imp (fun _ _ hr => hr.eq hl)

/-- Where texts are the same, a run that ended well has the same records on the right side. -/
theorem Results.of_ok {L : Likeness} (hl : L.verbatim) {x : Outcome α}
    {r : Except RunError (Outcome α)} (h : L.Results (.ok x) r) (hok : x.status = .ok) :
    ∃ y, r = .ok y ∧ y.status = .ok ∧ y.records = x.records := by
  cases h with
  | @ok _ y hstatus hrecords =>
    refine ⟨y, rfl, ?_, (records_same hl hrecords).symm⟩
    rw [hok] at hstatus
    generalize y.status = status at hstatus ⊢
    cases hstatus
    rfl
  | lost _ hlost => exact absurd hok (hlost x rfl)

/-- A tidy source that can be read can be read in strict mode too. -/
theorem parse_loosened {isBuiltin : String → Bool} {p : Program}
    (htidy : Tidy isBuiltin (reaches 0) (scan p.source))
    (hp : Program.parse p.source false = .ok p) :
    ∃ q, Program.parse p.source true = .ok q ∧ q.source = p.source ∧
      (loosened p.source).Statements p.body q.body := by
  obtain ⟨F, hF, _⟩ := Program.parse_ok hp
  have hread := ofTokens_like (forest_loosened htidy hF)
  rw [Program.parse_of_groupAll hF] at hp
  rw [Program.parse_of_groupAll (groupAll_loosenAll hF)]
  change (loosened p.source).Agree _ (ofTokens p.source false F)
    (ofTokens p.source true (loosenAll F)) at hread
  cases hleft : ofTokens p.source false F with
  | error f =>
    rw [hleft] at hp
    cases hp
  | ok body =>
    rw [hleft] at hp hread
    have hbody : body = p.body := congrArg Program.body (Except.ok.inj hp)
    subst hbody
    generalize ofTokens p.source true (loosenAll F) = r at hread ⊢
    cases hread with
    | ok h => exact ⟨_, rfl, rfl, h⟩

end Likeness

/-- Strict mode agrees. In a source with tidy names, each of which is a variable, a function or a
parameter only, a run that ends well ends well in strict mode too, with the same records. -/
theorem Session.strict_agrees (s : NumberSystem α) (o : Options) (inputs : List String)
    {source : String}
    (htidy : Tidy (fun name => (s.builtin? name).isSome) (reaches 0) (scan source))
    (hroles : ∀ p, Program.parse source false = .ok p → p.KeepsRoles s) {x : Outcome α}
    (hx : (Session.mk source { o with strict := false } none inputs).Ends s (.ok x))
    (hok : x.status = .ok) :
    ∃ y, (Session.mk source { o with strict := true } none inputs).Ends s (.ok y) ∧
      y.status = .ok ∧ y.records = x.records := by
  obtain ⟨fuel, hrun, _⟩ := hx
  cases hp : Program.parse source false with
  | error f =>
    simp only [runWith, hp] at hrun
    cases hrun
    cases hok
  | ok p =>
    obtain rfl := Program.parse_source hp
    obtain ⟨q, hq, hqs, hbody⟩ := Likeness.parse_loosened htidy hp
    have hkeeps := hroles p hp
    have hresults := Likeness.program_results (Likeness.ofRoles hkeeps htidy) s o fuel
      hbody .refl (fun _ name b hb => by
        show Role.Suits (p.role name) b
        rw [hkeeps.role_root (by simp [hb])]
        trivial) o.seed inputs
    have hleft : (Session.mk p.source { o with strict := false } none inputs).runWith s fuel =
        (⟨p.source, p.body⟩ : Program).runIn ((Likeness.loosened p.source).left s o) fuel
          o.seed inputs := by
      simp only [runWith, hp]
      rfl
    have hright : (Session.mk p.source { o with strict := true } none inputs).runWith s fuel =
        (⟨p.source, q.body⟩ : Program).runIn ((Likeness.loosened p.source).right s o)
          fuel o.seed inputs := by
      simp only [runWith, hq]
      simp only [Program.run, Program.setup, hqs]
      rfl
    change (Likeness.loosened p.source).Results
      ((⟨p.source, p.body⟩ : Program).runIn _ fuel o.seed inputs)
      ((⟨p.source, q.body⟩ : Program).runIn _ fuel o.seed inputs) at hresults
    rw [← hleft, ← hright, hrun] at hresults
    obtain ⟨y, hy, hyok, hrecords⟩ := hresults.of_ok trivial hok
    exact ⟨y, ⟨fuel, hy, fun ⟨_, hh⟩ => nomatch hh⟩, hyok, hrecords⟩

/-- A function that is given to another one, a call of a built-in function with a bracket behind it,
and a counter. -/
def squares : String :=
  "f(x) = x * x
g(h) = max(h(3), 1) (2)
repeat 2 times with n \x7by = g(f) + n\x7d"

theorem squares_agree :
    Tidy (fun name => ((Bignumber.system 20).builtin? name).isSome) (reaches 0) (scan squares) ∧
    (∀ p, Program.parse squares false = .ok p → p.KeepsRoles (Bignumber.system 20)) ∧
    ∃ x y, (Session.mk squares {} none []).Ends (Bignumber.system 20) (.ok x) ∧ x.status = .ok ∧
      (Session.mk squares { strict := true } none []).Ends (Bignumber.system 20) (.ok y) ∧
      y.status = .ok ∧ y.records = x.records := by
  have htidy : Tidy (fun name => ((Bignumber.system 20).builtin? name).isSome) (reaches 0)
      (scan squares) := ⟨by decide +kernel, by decide +kernel⟩
  have hroles : ∀ p, Program.parse squares false = .ok p → p.KeepsRoles (Bignumber.system 20) :=
    @Program.keepsRoles_of_parse _ _ _ [("f", .function), ("g", .function), ("h", .parameter),
      ("x", .parameter), ("y", .variable), ("n", .variable)] 20 (by decide +kernel)
  have hstatus : status? ((Session.mk squares {} none []).runWith (Bignumber.system 20) 20) =
      some .ok := by decide +kernel
  obtain ⟨x, hx, hok⟩ := Session.ends_of_status (Bignumber.system 20) _ 20 hstatus
  obtain ⟨y, hy, hyok, hrecords⟩ :=
    Session.strict_agrees (Bignumber.system 20) {} [] htidy hroles hx hok
  exact ⟨htidy, hroles, x, y, hx, hok, hy, hyok, hrecords⟩

/-- Whether only ends of lines stand before an opening parenthesis. -/
def Token.reachesPlainly (tokens : List Token) : Bool :=
  (tokens.dropWhile isNewline).head?.any (fun t => t.isSymbol "(")

/-- The backslash is gone when the statements of the value are read. -/
def parted : String :=
  "x = if 1 \x7breturn 2\x7d a \\ (5) = 3"

/-- A backslash does not keep a name and a parenthesis apart: strict mode finds a definition here
and refuses its parameter. -/
theorem parted_disagrees :
    Tidy (fun name => ((Bignumber.system 20).builtin? name).isSome) reachesPlainly (scan parted) ∧
    (∀ p, Program.parse parted false = .ok p → p.KeepsRoles (Bignumber.system 20)) ∧
    ∃ x, (Session.mk parted {} none []).Ends (Bignumber.system 20) (.ok x) ∧ x.status = .ok ∧
      ¬ ∃ y, (Session.mk parted { strict := true } none []).Ends (Bignumber.system 20) (.ok y) ∧
        y.status = .ok ∧ y.records = x.records := by
  have htidy : Tidy (fun name => ((Bignumber.system 20).builtin? name).isSome) reachesPlainly
      (scan parted) := ⟨by decide +kernel, by decide +kernel⟩
  have hroles : ∀ p, Program.parse parted false = .ok p → p.KeepsRoles (Bignumber.system 20) :=
    @Program.keepsRoles_of_parse _ _ _ [("x", .variable)] 20 (by decide +kernel)
  have hloose : status? ((Session.mk parted {} none []).runWith (Bignumber.system 20) 20) =
      some .ok := by decide +kernel
  have hstrict : status? ((Session.mk parted { strict := true } none []).runWith
      (Bignumber.system 20) 20) =
      some (.error ⟨25, "Expected a variable name for the function parameter.", 1⟩) := by
    decide +kernel
  obtain ⟨x, hx, hok⟩ := Session.ends_of_status (Bignumber.system 20) _ 20 hloose
  obtain ⟨z, hz, hfault⟩ := Session.ends_of_status (Bignumber.system 20) _ 20 hstrict
  refine ⟨htidy, hroles, x, hx, hok, ?_⟩
  rintro ⟨y, hy, hyok, _⟩
  cases hy.unique hz
  rw [hyok] at hfault
  cases hfault

end Abacus
