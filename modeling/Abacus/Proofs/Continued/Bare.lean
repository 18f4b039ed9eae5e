import Abacus.Proofs.Continued.Reading

/-! Statements without their places. The bare form of a statement has no offsets and no text that is
quoted from the source, but for the text that a `print` or a `throw` shows. Lists that correspond are
read to statements with the same bare form. -/

namespace Abacus

open Token Statement

mutual

/-- A token without its place. What a group or a call shows is quoted from the source. -/
def Token.bare : Token → Token
  | .leaf kind value _ _ => .leaf kind value 0 0
  | .group kind _ _ _ children opener closer =>
    .group kind "" 0 0 (Token.bareAll children) opener.bare closer.bare
  | .call kind _ _ _ name arguments => .call kind "" 0 0 name.bare arguments.bare

def Token.bareAll : List Token → List Token
  | [] => []
  | t :: rest => t.bare :: Token.bareAll rest

end

def Origin.nowhere : Origin :=
  ⟨"", 0, 0⟩

mutual

/-- A statement without offsets and without what it quotes from the source. -/
def Statement.bare : Statement → Statement
  | .assign _ name value fresh constant _ =>
    .assign .nowhere name.bare (Token.bareAll value) fresh constant ""
  | .define _ name parameters value _ =>
    .define .nowhere name.bare parameters (Token.bareAll value) ""
  | .inline _ value => .inline .nowhere (Token.bareAll value)
  | .ifThen _ keyword condition body _ =>
    .ifThen .nowhere keyword.bare (Token.bareAll condition) (Statement.bareAll body) ""
  | .elseIf _ keyword condition body _ =>
    .elseIf .nowhere keyword.bare (Token.bareAll condition) (Statement.bareAll body) ""
  | .otherwise _ keyword body => .otherwise .nowhere keyword.bare (Statement.bareAll body)
  | .loop _ keyword body => .loop .nowhere keyword.bare (Statement.bareAll body)
  | .repeatUntil _ keyword condition body _ =>
    .repeatUntil .nowhere keyword.bare (Token.bareAll condition) (Statement.bareAll body) ""
  | .repeatTimes _ keyword amount body _ =>
    .repeatTimes .nowhere keyword.bare (Token.bareAll amount) (Statement.bareAll body) ""
  | .repeatWith _ keyword amount counter body _ =>
    .repeatWith .nowhere keyword.bare (Token.bareAll amount) counter.bare (Statement.bareAll body) ""
  | .giveBack _ keyword value => .giveBack .nowhere keyword.bare (Token.bareAll value)
  | .leave _ keyword => .leave .nowhere keyword.bare
  | .print _ keyword text => .print .nowhere keyword.bare text
  | .throw _ keyword text => .throw .nowhere keyword.bare text

def Statement.bareAll : List Statement → List Statement
  | [] => []
  | s :: rest => s.bare :: Statement.bareAll rest

end

namespace Likeness

variable {L : Likeness} {t t' : Token} {T T' : List Token}

theorem Leaf.bare_eq (h : L.Leaf t t') : t.bare = t'.bare := by
  cases h
  rfl

theorem Edge.bare_eq (h : L.Edge t t') : t.bare = t'.bare := by
  cases h
  rfl

theorem Tokens.bare_eq (hl : ¬ L.loose) (h : L.Tokens T T') :
    Token.bareAll T = Token.bareAll T' := by
  induction h with
  | nil => rfl
  | leaf h _ _ ih => rw [Token.bareAll, Token.bareAll, h.bare_eq, ih]
  | group _ _ _ _ ho hc _ _ ihC ih =>
    rw [Token.bareAll, Token.bareAll, Token.bare, Token.bare, ho.bare_eq, hc.bare_eq, ihC, ih]
  | call _ hn _ _ _ _ iha ih =>
    obtain ⟨ha, _⟩ := List.cons.inj iha
    rw [Token.bareAll, Token.bareAll, fuse, fuse, Token.bare, Token.bare, hn.bare_eq, ha, ih]
  | loose hh => exact absurd hh hl

/-- Statements that correspond are the same but for places and quotations, if their blocks and the
texts they show are. -/
theorem Statements.bare_eq {s s' : Statement} (hl : ¬ L.loose) (h : L.Statements [s] [s'])
    (hx : ∀ x x', s.text? = some x → s'.text? = some x' → x = x')
    (hb : ∀ b b', s.body? = some b → s'.body? = some b' →
      Statement.bareAll b = Statement.bareAll b') : s.bare = s'.bare := by
  cases h with
  | assign _ hn _ hv _ _ => rw [Statement.bare, Statement.bare, hn.bare_eq, hv.bare_eq hl]
  | define _ hn _ hv _ _ => rw [Statement.bare, Statement.bare, hn.bare_eq, hv.bare_eq hl]
  | inline _ hv _ => rw [Statement.bare, Statement.bare, hv.bare_eq hl]
  | ifThen _ hk hc _ _ _ | elseIf _ hk hc _ _ _ | repeatUntil _ hk hc _ _ _
  | repeatTimes _ hk hc _ _ _ =>
    rw [Statement.bare, Statement.bare, hk.bare_eq, hc.bare_eq hl, hb _ _ rfl rfl]
  | otherwise _ hk _ _ | loop _ hk _ _ =>
    rw [Statement.bare, Statement.bare, hk.bare_eq, hb _ _ rfl rfl]
  | repeatWith _ hk hc hn _ _ _ _ =>
    rw [Statement.bare, Statement.bare, hk.bare_eq, hc.bare_eq hl, hn.bare_eq, hb _ _ rfl rfl]
  | giveBack _ hk hv _ => rw [Statement.bare, Statement.bare, hk.bare_eq, hv.bare_eq hl]
  | leave _ hk _ => rw [Statement.bare, Statement.bare, hk.bare_eq]
  | print _ hk _ _ | throw _ hk _ _ _ =>
    rw [Statement.bare, Statement.bare, hk.bare_eq, hx _ _ rfl rfl]

end Likeness

/-- The block of the statement that is read at the head of a list. -/
theorem head_body {source : String} {strict after : Bool} {t : Token} {rest : List Token} {h : Head}
    (hh : head source strict after t rest = .ok h) {body b : List Statement}
    (hb : (h.finish body).body? = some b) : b = body := by
  obtain ⟨used, _, hused⟩ := head_takes hh
  rcases hused.block with ⟨_, hnone⟩ | ⟨_, _, _, _, _, _, hsome⟩
  · cases (hnone body).symm.trans hb
  · exact Option.some.inj (hb.symm.trans (hsome body).1)

/-- What is read around a place is read from corresponding tokens, and the same but for places and
quotations. -/
theorem ReadsAround.like {L : Likeness} {k : Int} (hl : ¬ L.loose)
    (hx : ∀ {T T' : List Token}, L.Tokens T T' → Aside L.source.length k T →
      sourceOf L.source T = sourceOf L.source' T')
    {after : Bool} {T T' : List Token} {body : List Statement}
    (h : ReadsAround L.source L.strict k after T body) (hT : L.Tokens T T') :
    ∃ body', ReadsTo L.source' L.strict' after T' (.ok body') ∧ L.Statements body body' ∧
      Statement.bareAll body = Statement.bareAll body' := by
  induction h generalizing T' with
  | done =>
    cases hT
    exact ⟨[], .done, .nil, rfl⟩
  | @skip after t rest body ht _ ih =>
    obtain ⟨u, U, rfl, hfirst⟩ := hT.first
    obtain ⟨body', hread, hlike, hbare⟩ := ih (hfirst.twin (.inl hl)).2.1
    exact ⟨body', .skip (hfirst.isTerminator_eq ▸ ht) hread, hlike, hbare⟩
  | @cons after t rest h body others ht hh hs _ _ ihi iho =>
    obtain ⟨u, U, rfl, hfirst⟩ := hT.first
    obtain ⟨h', hh', hheads⟩ := Likeness.head_ok_like hT hh
    obtain ⟨body', hread, hlike, hbare⟩ := ihi hheads.inner
    obtain ⟨others', hread', hlike', hbare'⟩ := iho hheads.rest
    have hstatement := hheads.finish body body' hlike
    rw [hstatement.isCondition_eq] at hread'
    refine ⟨h'.finish body' :: others', .cons (hfirst.isTerminator_eq ▸ ht) hh' hread hread',
      hstatement.append hlike', ?_⟩
    rw [Statement.bareAll, Statement.bareAll, hbare', hstatement.bare_eq hl ?_ ?_]
    · intro x x' htext htext'
      obtain ⟨hline, _⟩ := (hfirst.twin (.inl hl)).2.1.line_like
      rw [(head_text hh htext).1, (head_text hh' htext').1]
      exact hx hline (hs x htext)
    · intro b b' hb hb'
      rw [head_body hh hb, head_body hh' hb', hbare]

end Abacus
