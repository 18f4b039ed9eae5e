import Abacus.Proofs.Alike.Words
import Abacus.Proofs.Simulation.Expression
import Abacus.Session

/-! Expressions of two runs that correspond, given that the expressions and blocks inside them end
alike. -/

namespace Abacus.Likeness

open Token Eval

variable {α : Type} {L : Likeness} {D : L.Realm} {p q : Parts α} {s : NumberSystem α} {o : Options}
  {own : Option Nat} {ids : List Nat} {scope : Scope} {t t' : Token} {T T' : List Token}

def left (L : Likeness) (s : NumberSystem α) (o : Options) : Setup α :=
  ⟨s, L.source, L.strict, o.debugLevel, o.callLimit, o.digitLimit, true, false⟩

def right (L : Likeness) (s : NumberSystem α) (o : Options) : Setup α :=
  ⟨s, L.source', L.strict', o.debugLevel, o.callLimit, o.digitLimit, true, false⟩

structure PartsAlike (D : L.Realm) (p q : Parts α) : Prop where
  expression : ∀ calls scope {T T' : List Token} {i i' : Int}, L.Tokens T T' → D.fit T →
    L.spot i i' → L.Simulates D none scope (.same α) (p.expression calls scope T i)
      (q.expression calls scope T' i')
  block : ∀ calls scope {B B' : List Statement} top report, L.Statements B B' → D.holds B →
    L.Simulates D scope.head? scope (.same (Flow α)) (p.block calls scope B top report)
      (q.block calls scope B' top report)

theorem innerBlock_like (hp : PartsAlike D p q) (calls : Nat) {key key' : Int × Int}
    (hi : L.starts key.1 key'.1) (hj : L.stops key.2 key'.2) (hT : L.Tokens T T')
    (hB : ∀ B, Statement.ofTokens L.source L.strict T = .ok B → D.holds B) :
    L.Simulates D none scope (.same α) (innerBlock (L.left s o) p calls scope key T)
      (innerBlock (L.right s o) q calls scope key' T') := by
  refine (block_like (a := L.left s o) (b := L.right s o) rfl rfl hi hj hT hB).bind ?_
  rintro B B' ⟨hbody, hheld⟩
  refine (child_opens scope).bind (fun id => ?_)
  refine ((hp.block calls (id :: scope) false false hbody hheld).weaken ?_).bind ?_
  · simp [Realm.statements]
  · rintro x _ rfl
    exact .done _

theorem variableValue_like {kind : Kind} {value : String} {i i' j j' : Int} (h : L.spot i i') :
    L.Simulates D own ids (.same α) (variableValue scope (.leaf kind value i j))
      (variableValue scope (.leaf kind value i' j')) := by
  have hblame : ∀ message, L.Blames ((Token.leaf kind value i j).fault message)
      ((Token.leaf kind value i' j').fault message) := (Met.leaf h).fault_like
  refine (lookup_like value).bind ?_
  intro x y hx
  cases hx with
  | none => exact .failAt (hblame _)
  | some hb =>
    cases hb with
    | number v constant => exact .done v
    | builtin name arity => exact .failAt (hblame _)
    | function hb hf hp => exact .failAt (hblame _)

theorem numberArgument_like (hp : PartsAlike D p q) (calls : Nat) (hT : L.Tokens T T')
    (hf : D.fit T) {i i' : Int} (hi : L.spot i i') :
    L.Simulates D none scope D.binding
      (do return .number (← p.expression calls scope T i) false)
      (do return .number (← q.expression calls scope T' i') false) := by
  refine (hp.expression calls scope hT hf hi).bind ?_
  rintro v _ rfl
  exact .pure (.number v false) (List.nil_subset _)

theorem argument_eq (p : Parts α) (calls : Nat) (scope : Scope) {T : List Token}
    (h : ∀ t, T = [t] → t.kind ≠ .word) :
    argument p calls scope T = (do
      return .number (← p.expression calls scope T ((T.head?.map Token.index).getD 0)) false) := by
  match T with
  | [] => rfl
  | [t] =>
    simp only [argument, if_neg (h t rfl), pure_bind]
  | _ :: _ :: _ => rfl

theorem argument_like (hp : PartsAlike D p q) (calls : Nat) (hT : L.Tokens T T') (hf : D.fit T) :
    L.Simulates D none scope D.binding (argument p calls scope T) (argument q calls scope T') := by
  have hnumber : L.Simulates D none scope D.binding
      (do return .number (← p.expression calls scope T ((T.head?.map Token.index).getD 0)) false)
      (do
        return .number (← q.expression calls scope T' ((T'.head?.map Token.index).getD 0)) false) :=
    numberArgument_like hp calls hT hf (hT.spot_first D.spot_zero)
  by_cases hword : ∃ t, T = [t] ∧ t.kind = .word
  · obtain ⟨t, rfl, hk⟩ := hword
    rcases hT.uncons with ⟨u, U, rfl, htwin, hU, _⟩ | ⟨n, a, _, _, _, _, rfl, _⟩
    · cases hU
      have hleaf := htwin.leaf_of_kind (by simp [hk]) (by simp [hk])
      have hk' : u.kind = .word := hleaf.kind_eq ▸ hk
      unfold argument
      dsimp only
      rw [if_pos hk, if_pos hk', hleaf.value_eq]
      refine (lookup_like u.value).bind ?_
      intro x y hx
      have hnumber' := hnumber.weaken (List.subset_append_right (D.looked.out x) scope)
      cases hx with
      | none => exact hnumber'
      | some hb =>
        cases hb with
        | number v constant => exact hnumber'
        | builtin name arity => exact .pure (.builtin name arity) (List.nil_subset _)
        | function hb hf hp => exact .pure (.function hb hf hp) (List.subset_append_left _ _)
    · cases hk
  · have hword' : ∀ u, T' = [u] → u.kind ≠ .word := by
      rintro u rfl hk
      cases hT with
      | leaf h _ hT =>
        cases hT
        exact hword ⟨_, rfl, h.kind_eq ▸ hk⟩
      | group _ _ _ _ _ _ _ _ => cases hk
      | call _ _ _ _ _ _ => cases hk
    rw [argument_eq p calls scope (fun t ht hk => hword ⟨t, ht, hk⟩),
      argument_eq q calls scope hword']
    exact hnumber

def Realm.bindings (D : L.Realm) : Shape (List (Binding α)) (List (Binding α)) :=
  ⟨List.Forall₂ D.Alike, fun bs => bs.flatMap Binding.scope⟩

theorem arguments_like (hp : PartsAlike D p q) (calls : Nat) {R R' : List (List Token)}
    (hR : List.Forall₂ L.Tokens R R') (hf : ∀ run ∈ R, D.fit run) :
    L.Simulates D none scope D.bindings (arguments p calls scope R)
      (arguments q calls scope R') := by
  induction hR with
  | nil => exact .pure .nil (List.nil_subset _)
  | @cons run run' R R' hrun _ ih =>
    refine (argument_like hp calls hrun (hf run (by simp))).bind ?_
    intro x y hx
    have hrest := ih (fun run hr => hf run (by simp [hr]))
    refine (hrest.weaken (List.subset_append_right _ _)).bind ?_
    intro xs ys hxs
    refine .pure (.cons hx hxs) ?_
    intro id hid
    simp only [Realm.bindings, Realm.binding, List.flatMap_cons, List.mem_append] at hid ⊢
    tauto

theorem numbers_eq {xs ys : List (Binding α)} (h : List.Forall₂ D.Alike xs ys) :
    numbers? xs = numbers? ys := by
  induction h with
  | nil => rfl
  | cons hx _ ih =>
    cases hx with
    | number v constant => simp only [numbers?, ih]
    | builtin name arity => rfl
    | function _ _ _ => rfl

theorem applyBuiltin_like (h : ∀ message, L.Blames (t.fault message) (t'.fault message))
    (b : Builtin α) (vs : List α) :
    L.Simulates D own ids (.same α) (applyBuiltin t b vs) (applyBuiltin t' b vs) := by
  intro m n hm _
  rw [Simulation.applyBuiltin_eq, Simulation.applyBuiltin_eq, hm.resources]
  cases b.run vs n.resources with
  | ok v r => exact .ok rfl (Frames.holds_nil _) { hm with resources := rfl } (.refl _ _)
  | error f r =>
    by_cases hf : f = .inputRequired
    · subst hf
      exact .error (.input hm.statement) hm.records
    · have hfault : L.Stops (.fault (t.fault (Text.capitalized f.message)))
          (.fault (t'.fault (Text.capitalized f.message))) := .fault (h _).faults
      cases f with
      | inputRequired => exact absurd rfl hf
      | _ => exact .error hfault hm.records

theorem callBuiltin_like (h : ∀ message, L.Blames (t.fault message) (t'.fault message))
    (name : String) (arity : Option Nat) {xs ys : List (Binding α)}
    (hxs : List.Forall₂ D.Alike xs ys) :
    L.Simulates D own ids (.same α) (callBuiltin (L.left s o) t name arity xs)
      (callBuiltin (L.right s o) t' name arity ys) := by
  unfold callBuiltin
  simp only [hxs.length_eq, numbers_eq hxs, left, right]
  split
  · exact .failAt (h _)
  · cases numbers? ys with
    | none => exact .failAt (h _)
    | some vs =>
      cases s.builtin? name with
      | none => exact .failAt (h _)
      | some b => exact applyBuiltin_like h b vs

/-- The arguments of a call are bound in the frame made for it. -/
theorem bindAll_like (id : Nat) (outer : Scope) {names : List String} {xs ys : List (Binding α)}
    (hr : L.loose → ∀ name ∈ names, D.role name = some .parameter)
    (hxs : List.Forall₂ D.Alike xs ys) {m n : Machine α} (hm : L.Mirrors D m n)
    (hi : m.frames.Holds (xs.flatMap Binding.scope)) :
    ∃ m' n', bindAll (id :: outer) names xs m = .ok () m' ∧
      bindAll (id :: outer) names ys n = .ok () n' ∧ L.Mirrors D m' n' ∧
      m'.frames.frames.size = m.frames.frames.size ∧
      ∀ other ≠ id, m'.frames.frame other = m.frames.frame other := by
  induction names generalizing xs ys m n with
  | nil => exact ⟨m, n, rfl, rfl, hm, rfl, fun _ _ => rfl⟩
  | cons name names ih =>
    cases hxs with
    | nil => exact ⟨m, n, rfl, rfl, hm, rfl, fun _ _ => rfl⟩
    | @cons x y xs ys hx hxs =>
      have hsuits : L.loose → Role.Suits (D.role name) x := by
        intro hl
        rw [hr hl name (by simp)]
        trivial
      have hnext := hm.declare id hx hsuits (hi.subset (by simp))
      have hsize : m.frames.frames.size ≤ (m.frames.declare id name x).frames.size := by simp
      obtain ⟨m', n', hmx, hny, hm', hsize', hframes⟩ :=
        ih (fun hl other ho => hr hl other (List.mem_cons_of_mem _ ho)) hxs hnext
          ((hi.subset (by simp)).mono hsize)
      refine ⟨m', n', hmx, hny, hm', hsize'.trans (by simp), fun other ho => ?_⟩
      rw [hframes other ho, Frames.frame_declare, if_neg (fun hh => ho hh.1.symm)]

theorem callScope_of {f : Function} {xs : List (Binding α)} {m m' : Machine α}
    (h : bindAll (m.frames.frames.size :: f.scope) f.parameters xs
      { m with frames := (m.frames.child f.scope).1 } = .ok () m') :
    callScope f xs m = .ok (m.frames.frames.size :: f.scope) m' := by
  show (bindAll (m.frames.frames.size :: f.scope) f.parameters xs >>= _)
    { m with frames := (m.frames.child f.scope).1 } = _
  rw [Run.bind_ok h]
  rfl

theorem callScope_opens {f g : Function} (hn : f.parameters = g.parameters)
    (hs : f.scope = g.scope) (hr : L.loose → ∀ p ∈ f.parameters, D.role p = some .parameter)
    {xs ys : List (Binding α)} (hxs : List.Forall₂ D.Alike xs ys)
    (hi : xs.flatMap Binding.scope ⊆ ids) :
    L.Opens D f.scope ids (callScope f xs) (callScope g ys) := by
  intro m n hm hids
  have hsize : m.frames.frames.size ≤ (m.frames.child f.scope).1.frames.size := by
    simp [Frames.child]
  obtain ⟨m', n', hmx, hny, hm', hsize', hframes⟩ := bindAll_like m.frames.frames.size f.scope hr
    hxs (hm.child f.scope) ((hids.subset hi).mono hsize)
  refine ⟨m', n', ?_, ?_, hm', ?_, ?_⟩
  · exact callScope_of hmx
  · rw [hm.frames.size, hn, hs] at hny
    rw [hm.frames.size, hs]
    exact callScope_of hny
  · refine .ofFrames ?_ (fun id hid => ?_)
    · rw [hsize']
      exact hsize
    · rw [hframes id (Nat.ne_of_lt hid)]
      exact Frames.frame_child m.frames f.scope id
  · rw [hsize']
    simp [Frames.child]

theorem callFunction_like (hp : PartsAlike D p q) (calls : Nat)
    (h : ∀ message, L.Blames (t.fault message) (t'.fault message)) (hstop : L.spot t.stop t'.stop)
    {name : String} {parameters : List String} {body body' : List Token} {inner : Scope}
    (hb : L.Tokens body body') (hf : D.fit body)
    (hr : L.loose → ∀ p ∈ parameters, D.role p = some .parameter) {xs ys : List (Binding α)}
    (hxs : List.Forall₂ D.Alike xs ys) (hi : xs.flatMap Binding.scope ⊆ ids)
    (hs : inner ⊆ ids) :
    L.Simulates D none ids (.same α)
      (callFunction (L.left s o) p calls t ⟨name, parameters, body, inner⟩ xs)
      (callFunction (L.right s o) q calls t' ⟨name, parameters, body', inner⟩ ys) := by
  unfold callFunction
  simp only [hxs.length_eq]
  split
  · exact .failAt (h _)
  · refine (callScope_opens rfl rfl hr hxs hi).bind (fun id => ?_)
    refine (debug_like (L.left s o) (L.right s o) 2 _ _).bind (fun _ _ _ => ?_)
    cases calls with
    | zero => exact .failAt (h _)
    | succ calls =>
      have hbody := hp.expression calls (id :: inner) hb hf hstop
      refine (hbody.owned (some id)).weaken ?_
      exact List.cons_subset_cons id hs

theorem Twin.spot_closer (h : L.Twin t t') : L.spot t.closerIndex t'.closerIndex := by
  cases h with
  | leaf h =>
    cases h with
    | intro _ hs _ => exact L.spot_of_stops hs
  | group _ _ _ _ _ hc _ => exact hc.spot_index
  | call hl hn hv ha hp => exact (Twin.call hl hn hv ha hp).spot_stop

theorem call_like (hp : PartsAlike D p q) (calls : Nat) {n n' a a' : Token} (hn : L.Leaf n n')
    (ha : L.Twin a a') (hm : L.Met (fuse n a) (fuse n' a')) (hstop : L.spot a.stop a'.stop)
    (hf : ∀ R, splitArguments a.closerIndex a.children = .ok R → ∀ run ∈ R, D.fit run) :
    L.Simulates D none scope (.same α) (Eval.call (L.left s o) p calls scope (fuse n a) n a)
      (Eval.call (L.right s o) q calls scope (fuse n' a') n' a') := by
  have hcloser := ha.spot_closer
  -- the arguments come before the function is applied, whatever it is
  have hargs : ∀ (ids : List Nat) (x y : List (Binding α) → Run α α), scope ⊆ ids →
      (∀ xs ys, List.Forall₂ D.Alike xs ys →
        L.Simulates D none (xs.flatMap Binding.scope ++ ids) (.same α) (x xs) (y ys)) →
      L.Simulates D none ids (.same α)
        (do
          let runs ← Run.ofExcept (splitArguments a.closerIndex a.children)
          x (← arguments p calls scope runs))
        (do
          let runs ← Run.ofExcept (splitArguments a'.closerIndex a'.children)
          y (← arguments q calls scope runs)) := by
    intro ids x y hids hxy
    have hsplit := ha.children_tokens.splitArguments_like hcloser
    generalize splitArguments a.closerIndex a.children = r at hsplit hf ⊢
    generalize splitArguments a'.closerIndex a'.children = r' at hsplit ⊢
    cases hsplit with
    | ok hR => exact ((arguments_like hp calls hR (hf _ rfl)).weaken hids).bind hxy
    | error he => exact .throw (.fault he.faults)
    | lost hl => exact .lost hl (fun m => ⟨_, m, rfl⟩) _
  unfold Eval.call
  dsimp only
  rw [hn.value_eq]
  split
  · exact .failAt (hm.fault_like _)
  · refine (lookup_like n'.value).bind ?_
    intro x y hx
    cases hx with
    | none => exact .failAt (hn.fault_like _)
    | some hb =>
      cases hb with
      | number v constant => exact .failAt (hn.fault_like _)
      | builtin name arity =>
        refine hargs _ _ _ (List.subset_append_right _ _) (fun xs ys hxs => ?_)
        exact callBuiltin_like hm.fault_like name arity hxs
      | function hbody hfit hr =>
        refine hargs _ _ _ (List.subset_append_right _ _) (fun xs ys hxs => ?_)
        refine callFunction_like hp calls hm.fault_like hstop hbody hfit hr hxs
          (List.subset_append_left _ _) ?_
        intro id hid
        simp [Realm.looked, Binding.scope, hid]

/-- Tokens of expressions that are evaluated. -/
def Realm.Admits (D : L.Realm) : Token → Prop
  | .leaf .. => True
  | t => ∃ T, D.fit T ∧ Direct T ∧ t ∈ T

theorem Realm.admits_of_mem (D : L.Realm) (hf : D.fit T) (hd : Direct T) (ht : t ∈ T) :
    D.Admits t := by
  cases t with
  | leaf => trivial
  | _ => exact ⟨T, hf, hd, ht⟩

section Token

variable {setup : Setup α} {calls : Nat}

theorem token_number (h : t.kind = .integer ∨ t.kind = .float) :
    token setup p calls scope t =
      Run.orStop ((setup.system.parse t.value).mapError Stop.ofLiteral) :=
  (token.eq_def ..).trans (if_pos h)

theorem token_word (h : t.kind = .word) :
    token setup p calls scope t = variableValue scope t := by
  rw [token.eq_def, if_neg (by simp [h]), if_pos h]

theorem token_symbol {kind : Kind} {value : String} {i j : Int}
    (hn : ¬ (kind = .integer ∨ kind = .float)) (hw : kind ≠ .word) :
    token setup p calls scope (.leaf kind value i j) =
      if kind = .operator then Run.failAt (.leaf kind value i j) "Unexpected operator."
      else Run.failAt (.leaf kind value i j) "Unexpected symbol." :=
  (if_neg hn).trans (if_neg hw)

end Token

theorem token_like (hp : PartsAlike D p q) (calls : Nat) (h : L.Met t t') (ha : D.Admits t) :
    L.Simulates D none scope (.same α) (token (L.left s o) p calls scope t)
      (token (L.right s o) q calls scope t') := by
  cases h with
  | @leaf kind value i i' j j' hi =>
    have hblame : ∀ message, L.Blames ((Token.leaf kind value i j).fault message)
        ((Token.leaf kind value i' j').fault message) := (Met.leaf hi).fault_like
    by_cases hnumber : kind = .integer ∨ kind = .float
    · rw [token_number (t := .leaf kind value i j) hnumber,
        token_number (t := .leaf kind value i' j') hnumber]
      simp only [left, right, Token.value]
      cases s.parse value with
      | ok v => exact .done v
      | error f => exact .throw (.ofLiteral f)
    · by_cases hword : kind = .word
      · rw [token_word (t := .leaf kind value i j) hword,
          token_word (t := .leaf kind value i' j') hword]
        exact variableValue_like hi
      · rw [token_symbol hnumber hword, token_symbol hnumber hword]
        split <;> exact .failAt (hblame _)
  | @group v v' i i' j j' C C' o o' c c' hv hi hb hs ho hC =>
    obtain ⟨T, hf, hd, hmem⟩ := ha
    unfold token
    dsimp only [Token.kind]
    simp only [reduceCtorEq, or_self, if_false]
    rw [← ho.value_eq]
    split
    · next hopen => exact hp.expression calls scope hC (D.bracket hf hd hmem hopen) hi
    · next hopen =>
      exact innerBlock_like hp calls (hb hopen) hs hC (fun B hB => D.braces hf hd hmem hopen hB)
  | @call n n' a a' hn ha' hpar =>
    obtain ⟨T, hf, hd, hmem⟩ := ha
    exact call_like hp calls hn ha' (.call hn ha' hpar) ha'.spot_stop
      (fun R hR => D.argument hf hd hmem hR)

theorem factorial_like (h : ∀ message, L.Blames (t.fault message) (t'.fault message)) (v : α) :
    L.Simulates D own ids (.same α) (factorial (L.left s o) t v)
      (factorial (L.right s o) t' v) := by
  cases hx : s.builtin? "fac" with
  | none =>
    simp only [factorial, left, right, hx]
    exact .throw (.defect _)
  | some b =>
    intro m n hm _
    rw [Simulation.factorial_eq (L.left s o) hx, Simulation.factorial_eq (L.right s o) hx,
      hm.resources]
    cases b.run [v] n.resources with
    | ok v r => exact .ok rfl (Frames.holds_nil _) { hm with resources := rfl } (.refl _ _)
    | error f r =>
      have hfault : L.Stops (.fault (t.fault (Text.capitalized f.message)))
          (.fault (t'.fault (Text.capitalized f.message))) := .fault (h _).faults
      cases f with
      | inputRequired => exact .error (.input (fun _ => rfl)) hm.records
      | _ => exact .error hfault hm.records

/-- Operators between values. -/
structure Sign (L : Likeness) (op op' : Token) : Prop where
  value : op.value = op'.value
  index : L.spot op.index op'.index

theorem Sign.fault_like (h : L.Sign t t') (message : String) :
    L.Blames (t.fault message) (t'.fault message) :=
  ⟨h.index, rfl, fun _ => by simp only [Token.fault, Token.length, h.value]⟩

theorem applyOperator_like {op op' : Token} (h : L.Sign op op') (v w : α) :
    SameResult L.Stops Eq (applyOperator (L.left s o) v op w)
      (applyOperator (L.right s o) v op' w) := by
  have hlength : op.length = op'.length := by simp only [Token.length, h.value]
  simp only [applyOperator, left, right, h.value]
  cases s.basic v op'.value w with
  | ok c => exact .ok rfl
  | error f =>
    refine .error (.ofFailure (fun message => ⟨h.index, rfl, fun _ => ?_⟩) f)
    simp only [hlength]

theorem rank_like {ops ops' : List Token} (h : List.Forall₂ L.Sign ops ops') :
    SameResult Eq (List.Forall₂ (Simulation.RankedRelated L.Sign)) (Postfix.rank ops)
      (Postfix.rank ops') := by
  induction h with
  | nil => exact .ok .nil
  | @cons op op' ops ops' hop _ ih =>
    simp only [Postfix.rank, hop.value]
    cases Precedence.of? op'.value with
    | none => exact .error rfl
    | some r =>
      dsimp only
      generalize Postfix.rank ops = x at ih ⊢
      generalize Postfix.rank ops' = y at ih ⊢
      cases ih with
      | ok hr => exact .ok (.cons ⟨hop, rfl⟩ hr)
      | error he => exact .error he

/-- A token without a value makes the left side fail. -/
theorem token_fails {isFunction : String → Bool} (h : Doomed isFunction t) (setup : Setup α)
    (p : Parts α) (calls : Nat) {m : Machine α}
    (hF : ∀ name, (m.frames.get scope name).any Binding.isFunction = isFunction name) :
    ∃ e m', token setup p calls scope t m = .error e m' := by
  have hlookup : ∀ (name : String) (k : Option (Binding α) → Run α α),
      (Run.lookup scope name >>= k) m = k (m.frames.get scope name) m := fun _ _ => rfl
  rcases h with ⟨n, a, rfl, hn⟩ | ⟨hk, hf⟩
  · have hcall : token setup p calls scope (fuse n a) =
        Eval.call setup p calls scope (fuse n a) n a := rfl
    rw [hcall]
    unfold Eval.call
    dsimp only
    split
    · exact ⟨_, m, rfl⟩
    · rw [hlookup]
      rw [← hF n.value] at hn
      cases hx : m.frames.get scope n.value with
      | none => exact ⟨_, m, rfl⟩
      | some b =>
        rw [hx] at hn
        cases b with
        | number v constant => exact ⟨_, m, rfl⟩
        | builtin name arity => cases hn
        | function f => cases hn
  · rw [token_word hk, variableValue, hlookup]
    rw [← hF t.value] at hf
    cases hx : m.frames.get scope t.value with
    | none => exact ⟨_, m, rfl⟩
    | some b =>
      rw [hx] at hf
      cases b with
      | number v constant => cases hf
      | builtin name arity => exact ⟨_, m, rfl⟩
      | function f => exact ⟨_, m, rfl⟩

theorem operands_fails {isFunction : String → Bool} (h : Doomed isFunction t) (setup : Setup α)
    (p : Parts α) (calls : Nat) {m : Machine α}
    (hF : ∀ name, (m.frames.get scope name).any Binding.isFunction = isFunction name)
    (T : List Token) (vs : List α) (ops : List Token) (expects : Bool) :
    ∃ e m', operands setup p calls scope (t :: T) vs ops expects m = .error e m' := by
  obtain ⟨e, m', he⟩ := token_fails h setup p calls hF
  refine ⟨e, m', ?_⟩
  unfold operands
  rw [if_pos h.isValue]
  exact Run.bind_error he

theorem operation_fails {isFunction : String → Bool} (h : Doomed isFunction t) (setup : Setup α)
    (p : Parts α) (calls : Nat) {m : Machine α}
    (hF : ∀ name, (m.frames.get scope name).any Binding.isFunction = isFunction name)
    (T : List Token) : ∃ e m', operation setup p calls scope (t :: T) m = .error e m' := by
  obtain ⟨e, m', he⟩ := operands_fails h setup p calls hF T [] [] true
  exact ⟨e, m', Run.bind_error he⟩

/-- The names of functions in sight. -/
def known (f : Frames (Binding α)) (scope : Scope) (name : String) : Bool :=
  (f.get scope name).any Binding.isFunction

def operandShape (L : Likeness) (α : Type) : Shape (List α × List Token) (List α × List Token) :=
  ⟨fun x y => x.1 = y.1 ∧ List.Forall₂ L.Sign x.2 y.2, fun _ => []⟩

theorem operands_like (hp : PartsAlike D p q) (calls : Nat) {f : Frames (Binding α)}
    (hf : f.Holds scope) (h : L.Ready (known f scope) T T') (ha : ∀ t ∈ T, D.Admits t)
    (vs : List α) {ops ops' : List Token} (ho : List.Forall₂ L.Sign ops ops') (expects : Bool)
    {m n : Machine α} (hm : L.Mirrors D m n) (hs : L.Steady none f m.frames) :
    L.Ends D none f (L.operandShape α)
      (operands (L.left s o) p calls scope T vs ops expects m)
      (operands (L.right s o) q calls scope T' vs ops' expects n) := by
  induction h generalizing vs ops ops' expects m n with
  | nil =>
    cases expects with
    | false => exact .ok ⟨rfl, List.rel_reverse ho⟩ (Frames.holds_nil _) hm hs
    | true =>
      cases ho with
      | nil => exact .error (.defect _) hm.records
      | cons hop _ => exact .error (.fault (hop.fault_like _).faults) hm.records
  | @cons t t' T T' h hT ih =>
    have hrest := fun u hu => ha u (List.mem_cons_of_mem _ hu)
    unfold operands
    dsimp only
    rw [← h.isValue_eq, ← h.kind_eq]
    by_cases hv : t.isValue = true
    · rw [if_pos hv, if_pos hv]
      have htoken : L.Ends D none m.frames (.same α) (token (L.left s o) p calls scope t m)
          (token (L.right s o) q calls scope t' n) :=
        token_like hp calls h (ha t (by simp)) m n hm (hs.holds hf)
      refine (htoken.mono hs).bind ?_
      rintro v _ m' n' rfl _ hm' hs'
      refine ih hrest _ ?_ false hm' hs'
      split
      · exact ho
      · exact .cons ⟨rfl, h.spot_index⟩ ho
    · rw [if_neg hv, if_neg hv]
      by_cases hk : t.kind = .operator
      · rw [if_pos hk, if_pos hk, ← h.value_of_operator hk]
        cases expects with
        | true => exact .error (.fault (h.fault_like _).faults) hm.records
        | false =>
          simp only [Bool.false_eq_true, if_false]
          by_cases hbang : t.value = "!"
          · rw [if_pos hbang, if_pos hbang]
            cases vs with
            | nil => exact .error (.defect _) hm.records
            | cons v vs =>
              have hfact : L.Ends D none m.frames (.same α) (factorial (L.left s o) t v m)
                  (factorial (L.right s o) t' v n) :=
                factorial_like h.fault_like v m n hm (hs.holds hf)
              refine (hfact.mono hs).bind ?_
              rintro w _ m' n' rfl _ hm' hs'
              exact ih hrest _ ho false hm' hs'
          · rw [if_neg hbang, if_neg hbang]
            exact ih hrest _ (.cons ⟨h.value_of_operator hk, h.spot_index⟩ ho) true hm hs
      · rw [if_neg hk, if_neg hk]
        exact .error (.fault (h.fault_like _).faults) hm.records
  | @doomed t T' hl h T hne =>
    have hknown : ∀ name, (m.frames.get scope name).any Binding.isFunction = known f scope name :=
      hs.isFunction_eq hl hf
    obtain ⟨e, m', he⟩ := operands_fails h (L.left s o) p calls hknown T vs ops expects
    rw [he]
    exact .lost (L.loose_mode hl).2.2 _

theorem operation_like (hp : PartsAlike D p q) (calls : Nat) {f : Frames (Binding α)}
    (hf : f.Holds scope) (h : L.Ready (known f scope) T T') (ha : ∀ t ∈ T, D.Admits t)
    {m n : Machine α} (hm : L.Mirrors D m n) (hs : L.Steady none f m.frames) :
    L.Ends D none f (.same α) (operation (L.left s o) p calls scope T m)
      (operation (L.right s o) q calls scope T' n) := by
  refine (operands_like hp calls hf h ha [] .nil true hm hs).bind ?_
  rintro ⟨vs, ops⟩ ⟨_, ops'⟩ m' n' ⟨rfl, ho⟩ _ hm' hs'
  cases vs with
  | nil => exact .error (.defect _) hm'.records
  | cons v vs =>
    have hrank := rank_like ho
    dsimp only
    generalize Postfix.rank ops = x at hrank ⊢
    generalize Postfix.rank ops' = y at hrank ⊢
    cases hrank with
    | error he =>
      cases he
      exact .error (.defect _) hm'.records
    | @ok ops ops' ho =>
      have hvs : List.Forall₂ (Eq : α → α → Prop) vs vs := List.forall₂_same.mpr (fun _ _ => rfl)
      have heval : SameResult L.Stops Eq
          (Postfix.evaluate (applyOperator (L.left s o)) (Postfix.ofInfix v vs ops) v)
          (Postfix.evaluate (applyOperator (L.right s o)) (Postfix.ofInfix v vs ops') v) := by
        refine Simulation.evaluate_related ?_ ho rfl hvs
        rintro v _ w _ op op' hop rfl rfl
        exact applyOperator_like hop v w
      dsimp only
      generalize Postfix.evaluate (applyOperator (L.left s o)) _ _ = x at heval ⊢
      generalize Postfix.evaluate (applyOperator (L.right s o)) _ _ = y at heval ⊢
      cases heval with
      | ok hv =>
        cases hv
        exact .ok rfl (Frames.holds_nil _) hm' hs'
      | error he => exact .error he hm'.records

/-- In strict mode the right side rearranges its tokens, with the functions in sight. -/
theorem strictTokens_like (s : NumberSystem α) (o : Options) (scope : Scope) (hT : L.Tokens T T')
    {m n : Machine α} (hm : L.Mirrors D m n) :
    ∃ U n', strictTokens (L.left s o) scope T m = .ok T m ∧
      strictTokens (L.right s o) scope T' n = .ok U n' ∧ L.Mirrors D m n' ∧
      L.Ready (known m.frames scope) T U := by
  have hleft : strictTokens (L.left s o) scope T m = .ok T m := by
    simp only [strictTokens, left, D.strict_eq]
    rfl
  by_cases hl : L.loose
  · have hstrict := (L.loose_mode hl).2.1
    have hknown : (fun name => (n.frames.get scope name).any Binding.isFunction) =
        known m.frames scope := hm.isFunction_eq scope
    obtain ⟨log, hlog⟩ := Run.debug_ok (L.right s o) n 3 (fun _ => "strict rewrite: " ++
      " ".intercalate ((splitWords (known m.frames scope) T').map Token.value))
    refine ⟨splitWords (known m.frames scope) T', { n with log := log }, hleft, ?_, { hm with },
      hT.ready_of_loose hl⟩
    have hright : strictTokens (L.right s o) scope T' n =
        (Run.debug (L.right s o) 3 (fun _ => "strict rewrite: " ++ " ".intercalate
          ((splitWords (fun name => (n.frames.get scope name).any Binding.isFunction) T').map
            Token.value)) >>= fun _ => pure
            (splitWords (fun name => (n.frames.get scope name).any Binding.isFunction) T')) n :=
      congrFun (if_pos hstrict) n
    rw [hright, hknown, Run.bind_ok hlog]
    rfl
  · refine ⟨T', n, hleft, ?_, hm, hT.ready hl⟩
    simp only [strictTokens, right, ← L.same_mode hl, D.strict_eq]
    rfl

theorem Tokens.startsBlock_eq (h : L.Tokens (t :: T) (t' :: T')) :
    startsBlock t = startsBlock t' ∧ (startsBlock t = true → L.Leaf t t') := by
  rcases h.uncons with ⟨u, U, hu, htwin, _⟩ | ⟨n, a, n', a', U, _, rfl, hu, hn, hm, _⟩
  · cases hu
    have heq : ∀ value, t.is .word value = t'.is .word value :=
      fun value => htwin.is_eq (by simp) (by simp) value
    refine ⟨by simp only [startsBlock, heq], fun hs => ?_⟩
    simp only [startsBlock, Bool.or_eq_true] at hs
    rcases hs with (hs | hs) | hs <;> exact htwin.leaf_of_is hs (by simp) (by simp)
  · cases hu
    have hcall : startsBlock (fuse n a) = false := rfl
    have hname : startsBlock t' = false := by
      have hm' : t'.isName = true := hn.isName_eq ▸ hm
      have hnot : ∀ value ∈ keywords, t'.is .word value = false := fun _ hv => not_is_keyword hm' hv
      simp [startsBlock, hnot "if" (by simp [keywords]), hnot "repeat" (by simp [keywords]),
        hnot "loop" (by simp [keywords])]
    rw [hcall, hname]
    exact ⟨rfl, fun hh => absurd hh Bool.false_ne_true⟩

theorem withZero_ready {isFunction : String → Bool} (h : L.Tokens (t :: T) (t' :: T'))
    {U U' : List Token} (hU : L.Ready isFunction U U') :
    L.Ready isFunction (withZero t U) (withZero t' U') := by
  rcases h.uncons with ⟨u, V, hu, htwin, _⟩ | ⟨n, a, n', a', V, _, rfl, hu, hn, hm, _⟩
  · cases hu
    unfold withZero
    rw [← htwin.kind_eq]
    by_cases hk : t.kind = .operator
    · rw [← htwin.met.value_of_operator hk]
      split
      · exact .cons (.leaf htwin.spot_index) hU
      · exact hU
    · rw [if_neg (fun hh => hk hh.1), if_neg (fun hh => hk hh.1)]
      exact hU
  · cases hu
    have hk : t'.kind = .word := hn.kind_eq ▸ kind_of_isName hm
    have hcall : (fuse n a).kind = .call := rfl
    simpa [withZero, hcall, hk] using hU

theorem withZero_admits (first : Token) (ha : ∀ t ∈ T, D.Admits t) :
    ∀ t ∈ withZero first T, D.Admits t := by
  intro t ht
  unfold withZero at ht
  split at ht
  · rcases List.mem_cons.mp ht with rfl | ht
    · trivial
    · exact ha t ht
  · exact ha t ht

theorem expressionWith_like (hp : PartsAlike D p q) (calls : Nat) (hT : L.Tokens T T')
    (hf : D.fit T) {i i' : Int} (hi : L.spot i i') :
    L.Simulates D none scope (.same α) (expressionWith (L.left s o) p calls scope T i)
      (expressionWith (L.right s o) q calls scope T' i') := by
  have hfilter := hT.withoutNewlines
  have hmem : Direct T → ∀ t ∈ T.filter (fun t => !t.isNewline), D.Admits t :=
    fun hd t ht => D.admits_of_mem hf hd (List.mem_filter.mp ht).1
  unfold expressionWith
  dsimp only
  generalize hR : T.filter (fun t => !t.isNewline) = R at hfilter hmem ⊢
  generalize T'.filter (fun t => !t.isNewline) = R' at hfilter ⊢
  match R, R', hfilter with
  | [], [], _ => exact .fail hi _ (fun _ => rfl)
  | [], _ :: _, hfilter => cases hfilter
  | _ :: _, [], hfilter => cases hfilter
  | first :: rest, first' :: rest', hfilter =>
    obtain ⟨hstarts, hleaf⟩ := hfilter.startsBlock_eq
    dsimp only
    rw [← hstarts]
    by_cases hblock : startsBlock first = true
    · rw [if_pos hblock, if_pos hblock]
      have hfirst := hleaf hblock
      exact innerBlock_like hp calls hfirst.starts_index (hfilter.stopOf_like hfirst.stops_stop)
        hfilter (fun B hB => D.block hf hR hblock hB)
    · rw [if_neg hblock, if_neg hblock]
      intro m n hm hids
      obtain ⟨U, n', hleft, hright, hm', hready⟩ := strictTokens_like s o scope hfilter hm
      have hzero := withZero_ready hfilter hready
      have hdirect : Direct T := by
        intro u U hu
        rw [hR] at hu
        cases hu
        exact Bool.eq_false_iff.mpr hblock
      have hadmits := withZero_admits first (hmem hdirect)
      have hsteady : L.Steady none m.frames m.frames := .refl _ _
      rw [Run.bind_ok hleft, Run.bind_ok hright]
      generalize withZero first (first :: rest) = X at hzero hadmits ⊢
      generalize withZero first' U = Y at hzero ⊢
      have hoperation : L.Ends D none m.frames (.same α)
          (operation (L.left s o) p calls scope X m) (operation (L.right s o) q calls scope Y n') :=
        operation_like hp calls hids hzero hadmits hm' hsteady
      cases hzero with
      | nil => exact hoperation
      | @cons t t' X Y h hX =>
        cases hX with
        | nil => exact token_like hp calls h (hadmits t (by simp)) m n' hm' hids
        | cons _ _ => exact hoperation
        | doomed _ _ _ hne =>
          match Y, hne with
          | _ :: _, _ => exact hoperation
      | @doomed t Y hl h X hne =>
        have hlax := (L.loose_mode hl).2.2
        cases X with
        | nil =>
          obtain ⟨e, m', he⟩ := token_fails h (L.left s o) p calls (fun _ => rfl)
          dsimp only
          rw [he]
          exact .lost hlax _
        | cons u X =>
          obtain ⟨e, m', he⟩ := operation_fails h (L.left s o) p calls (fun _ => rfl) (u :: X)
          dsimp only
          rw [he]
          exact .lost hlax _

end Abacus.Likeness
