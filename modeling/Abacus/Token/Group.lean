import Abacus.Token.Basic
import Abacus.Fault

/-! Grouping: every `(…)` and `{…}` region of a flat token list becomes one token. Square brackets
have no meaning. -/

namespace Abacus.Token

def closing? (value : String) : Option String :=
  if value = "(" then some ")" else if value = "\x7b" then some "\x7d" else none

/-- An open bracket and what was found behind it so far, the last first. -/
structure OpenGroup where
  opener : Token
  children : List Token

/-- Puts a finished group behind the tokens before it, which stand in reverse. Outside strict mode
a name and the parenthesized group after it become a call. -/
def settle (strict : Bool) (before : List Token) (group : Token) : List Token :=
  match before with
  | name :: rest =>
    if !strict && name.isName && group.isParenthesized then fuse name group :: rest
    else group :: before
  | [] => [group]

def close (source : String) (g : OpenGroup) (closer : Token) : Token :=
  .group .group (Text.slice source g.opener.index closer.stop) g.opener.index closer.stop
    g.children.reverse g.opener closer

/-- Groups the tokens behind the open brackets `stack`, the innermost first; `top` holds the
tokens outside all of them, in reverse. -/
def groupFrom (source : String) (strict : Bool) :
    List OpenGroup → List Token → List Token → Except Fault (List Token)
  | [], top, [] => .ok top.reverse
  | g :: _, _, [] => .error ⟨g.opener.index, "Unfinished bracket.", 1⟩
  | stack, top, t :: rest =>
    if t.kind = .symbol ∧ (closing? t.value).isSome then
      groupFrom source strict (⟨t, []⟩ :: stack) top rest
    else match stack with
      | [] => groupFrom source strict [] (t :: top) rest
      | g :: outer =>
        if t.kind = .symbol ∧ closing? g.opener.value = some t.value then
          let group := close source g t
          match outer with
          | [] => groupFrom source strict [] (settle strict top group) rest
          | h :: outer =>
            groupFrom source strict (⟨h.opener, settle strict h.children group⟩ :: outer) top rest
        else groupFrom source strict (⟨g.opener, t :: g.children⟩ :: outer) top rest

def groupAll (source : String) (strict : Bool) (tokens : List Token) : Except Fault (List Token) :=
  groupFrom source strict [] [] tokens

end Abacus.Token
