import Abacus.Statement.Json
import Abacus.Statement.Parse
import Mathlib.Tactic.CasesM

/-! Programs as JSON objects. Reading what was written gives back the same tree, so an object that
can be read is brought into its final form by reading and writing it once. A tree is written exactly
if its objects and lists are not nested deeper than the host has room for. -/

namespace Abacus

theorem Kind.ofName_name (kind : Kind) : Kind.ofName kind.name = kind := by
  cases kind with
  | other name unknown => simp [ofName, Kind.name, unknown]
  | _ => rfl

theorem Statement.Kind.ofTypeName?_typeName (kind : Statement.Kind) :
    ofTypeName? kind.typeName = some kind := by
  cases kind <;> rfl

theorem Statement.Kind.typeName_ne_program (kind : Statement.Kind) :
    kind.typeName ≠ "Program" := by
  cases kind <;> decide

section Results

variable {α β ε : Type} {f : α → Except ε β}

theorem mapM_cons_ok {x : α} {y : β} {xs : List α} {ys : List β} (hx : f x = .ok y)
    (hxs : xs.mapM f = .ok ys) : (x :: xs).mapM f = .ok (y :: ys) := by
  simp [List.mapM_cons, hx, hxs, bind, Except.bind, pure, Except.pure]

end Results

namespace Json

@[simp] theorem lookup_nil (name : String) : lookup [] name = none := rfl

@[simp] theorem lookup_cons (n : String) (v : Json) (rest : Fields) (name : String) :
    lookup ((n, v) :: rest) name = if n = name then some v else lookup rest name := by
  by_cases h : n = name <;> simp [lookup, h]

theorem depthFields_append (o p : Fields) :
    depth.depthFields (o ++ p) = max (depth.depthFields o) (depth.depthFields p) := by
  induction o with
  | nil => simp [depth.depthFields]
  | cons f o ih =>
    obtain ⟨n, j⟩ := f
    simp only [List.cons_append, depth.depthFields, ih, Nat.max_assoc]

theorem mapM_nameOf (names : List String) : names.mapM (nameOf ∘ Json.string) = .ok names := by
  induction names with
  | nil => rfl
  | cons name names ih => exact mapM_cons_ok rfl ih

end Json

namespace Token

theorem decode_succ (frames : Nat) (o : Json.Fields) :
    decode (frames + 1) (.object o) = ofFields (decode frames) (decodeAll frames) o := by
  cases frames <;> rfl

/-- The four fields that every token has are read back, whatever stands behind them. -/
theorem ofFields_basics (read : Json → Except LoadError Token)
    (readAll : List Json → Except LoadError (List Token)) (kind : Kind) (value : String)
    (index stop : Int) (more : Json.Fields) :
    ofFields read readAll (basics kind value index stop ++ more) =
      if (Json.lookup more "arguments").isSome then do
        let name ← read (← Json.field more "name")
        let arguments ← read (← Json.field more "arguments")
        return .call kind value index stop name arguments
      else if (Json.lookup more "children").isSome then do
        let children ← readAll (← Json.arrayField more "children")
        let opener ← read (← Json.field more "opener")
        let closer ← read (← Json.field more "closer")
        return .group kind value index stop children opener closer
      else return .leaf kind value index stop := by
  simp [ofFields, basics, Json.stringField, Json.intField, Json.arrayField, Json.field, bind,
    Except.bind, pure, Except.pure, Kind.ofName_name]

theorem one_le_depth (t : Token) : 1 ≤ t.toJson.depth := by
  cases t <;> exact Nat.le_add_left ..

mutual

/-- A token is read back if it is not nested too deep. -/
theorem decode_toJson (t : Token) (frames : Nat) (h : t.toJson.depth ≤ frames) :
    decode frames t.toJson = .ok t := by
  obtain ⟨frames, rfl⟩ : ∃ k, frames = k + 1 := ⟨frames - 1, by have := t.one_le_depth; omega⟩
  cases t with
  | leaf kind value index stop =>
    rw [toJson, decode_succ]
    exact ofFields_basics _ _ kind value index stop []
  | group kind value index stop children opener closer =>
    simp only [toJson, Json.depth, Json.depthFields_append, Json.depth.depthFields] at h
    have hchildren := decodeAll_toJsonAll children frames (by omega)
    have hopener := decode_toJson opener frames (by omega)
    have hcloser := decode_toJson closer frames (by omega)
    rw [toJson, decode_succ, ofFields_basics]
    simp [Json.arrayField, Json.field, bind, Except.bind, pure, Except.pure, hchildren, hopener,
      hcloser]
  | call kind value index stop name arguments =>
    simp only [toJson, Json.depth, Json.depthFields_append, Json.depth.depthFields] at h
    have hname := decode_toJson name frames (by omega)
    have harguments := decode_toJson arguments frames (by omega)
    rw [toJson, decode_succ, ofFields_basics]
    simp [Json.field, bind, Except.bind, pure, Except.pure, hname, harguments]

theorem decodeAll_toJsonAll (tokens : List Token) (frames : Nat)
    (h : Json.depth.depthItems (toJsonAll tokens) + 1 ≤ frames) :
    decodeAll frames (toJsonAll tokens) = .ok tokens := by
  obtain ⟨frames, rfl⟩ : ∃ k, frames = k + 1 := ⟨frames - 1, by omega⟩
  cases tokens with
  | nil => rfl
  | cons t rest =>
    simp only [toJsonAll, Json.depth.depthItems] at h
    exact mapM_cons_ok (decode_toJson t frames (by omega))
      (decodeAll_toJsonAll rest (frames + 1) (by omega))

end

end Token

namespace Node

theorem decode_succ (frames : Nat) (o : Json.Fields) :
    decode (frames + 1) (.object o) =
      ofFields (Token.decode frames) (Token.decodeAll frames) (decodeAll frames) o := by
  cases frames <;> rfl

theorem one_le_depth (n : Node) : 1 ≤ n.toJson.depth := by
  cases n <;> exact Nat.le_add_left ..

/-- A node is read back from its fields, given that the tokens and the nodes in it are. -/
theorem ofFields_toJson {token : Json → Except LoadError Token}
    {tokens : List Json → Except LoadError (List Token)}
    {nodes : List Json → Except LoadError (List Node)} {frames : Nat}
    (htoken : ∀ t : Token, t.toJson.depth ≤ frames → token t.toJson = .ok t)
    (htokens : ∀ ts, Json.depth.depthItems (Token.toJsonAll ts) + 1 ≤ frames →
      tokens (Token.toJsonAll ts) = .ok ts)
    (hnodes : ∀ ns, Json.depth.depthItems (toJsonAll ns) + 1 ≤ frames →
      nodes (toJsonAll ns) = .ok ns)
    {n : Node} {o : Json.Fields} (ho : n.toJson = .object o) (h : n.toJson.depth ≤ frames + 1) :
    ofFields token tokens nodes o = .ok n := by
  -- the fields of every kind are read by the names under which they were written
  cases n <;> cases ho <;>
    simp only [toJson, conditional, counted, Json.depth, Json.depthFields_append,
      Json.depth.depthFields] at h <;>
    simp (disch := omega) [ofFields, isProgram, ofStatementFields, header, conditional, counted,
      kindOf, Statement.Kind.ofTypeName?_typeName, Statement.Kind.typeName_ne_program,
      Json.stringField, Json.intField, Json.arrayField, Json.field, Json.textOr, Json.flag,
      Json.truth, Json.mapM_nameOf, bind, Except.bind, pure, Except.pure, htoken, htokens, hnodes]

theorem mapM_toJsonAll {read : Json → Except LoadError Node} {frames : Nat} {ns : List Node}
    (hread : ∀ n : Node, n.toJson.depth ≤ frames → read n.toJson = .ok n)
    (h : Json.depth.depthItems (toJsonAll ns) ≤ frames) :
    (toJsonAll ns).mapM read = .ok ns := by
  induction ns with
  | nil => rfl
  | cons n rest ih =>
    simp only [toJsonAll, Json.depth.depthItems] at h
    exact mapM_cons_ok (hread n (by omega)) (ih (by omega))

theorem exists_toJson_eq (n : Node) : ∃ o, n.toJson = .object o := by
  cases n <;> exact ⟨_, rfl⟩

/-- A node is read back if it is not nested too deep, and so is a block. -/
theorem decode_toJson (frames : Nat) :
    (∀ n : Node, n.toJson.depth ≤ frames → decode frames n.toJson = .ok n) ∧
      ∀ ns, Json.depth.depthItems (toJsonAll ns) + 1 ≤ frames →
        decodeAll frames (toJsonAll ns) = .ok ns := by
  induction frames with
  | zero =>
    refine ⟨fun n h => ?_, fun ns h => by omega⟩
    have := n.one_le_depth
    omega
  | succ frames ih =>
    refine ⟨fun n h => ?_, fun ns h => mapM_toJsonAll ih.1 (by omega)⟩
    obtain ⟨o, ho⟩ := n.exists_toJson_eq
    rw [ho, decode_succ]
    exact ofFields_toJson (fun t => t.decode_toJson frames)
      (fun ts => Token.decodeAll_toJsonAll ts frames) ih.2 ho h

mutual

theorem statement?_ofStatement (s : Statement) : (ofStatement s).statement? = some s := by
  cases s with
  | ifThen | elseIf | otherwise | loop | repeatUntil | repeatTimes | repeatWith =>
    simp [ofStatement, statement?, statements?_ofStatements]
  | _ => rfl

theorem statements?_ofStatements (body : List Statement) :
    statements? (ofStatements body) = some body := by
  cases body with
  | nil => rfl
  | cons s rest =>
    simp [ofStatements, statements?, statement?_ofStatement s, statements?_ofStatements rest]

end

/-- An assignment without its flags, with a field that means nothing and one of another type. -/
def loose : Json :=
  .object [("type", .string "SetVariable"), ("source", .string "x = 1"), ("index", .int 0),
    ("end", .int 5), ("name", (Token.leaf .word "x" 0 1).toJson), ("constant", .int 0),
    ("value", .array [(Token.leaf .integer "1" 4 5).toJson]), ("remark", .null)]

end Node

/-- A number in so many brackets, the outermost of which opens at `i`. -/
def Token.nested : Nat → Int → Token
  | 0, i => .leaf .integer "1" i (i + 1)
  | n + 1, i =>
    let inner := nested n (i + 1)
    .group .group ("(" ++ inner.value ++ ")") i (inner.stop + 1) [inner]
      (.leaf .symbol "(" i (i + 1)) (.leaf .symbol ")" inner.stop (inner.stop + 1))

namespace Node

/-- The program that evaluates a number in so many brackets. -/
def bracketed (n : Nat) : Node :=
  let t := Token.nested n 0
  ofProgram ⟨t.value, [.inline ⟨t.value, t.index, t.stop⟩ [t]]⟩

example :
    (Program.read hostFrames "((1))" false).toOption.map ofProgram = some (bracketed 2) := by
  rfl

end Node

end Abacus
