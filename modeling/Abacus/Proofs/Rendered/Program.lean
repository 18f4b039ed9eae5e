import Abacus.Proofs.Rendered.Pieces
import Abacus.Proofs.Rendered.Statement
import Abacus.Proofs.Replay

/-! Compound assignments mean what they stand for. Writing one out in the text of a script changes no
status, no kind of a record and no value in one. -/

namespace Abacus

open Token Statement

section Reading

variable {source text : String} {strict : Bool} {name op : Token} {F old : List Token}

/-- A source and the one in which a compound assignment is written out are read to programs that do
the same. The forest of the second is reached through that of the first with the tokens exchanged. -/
theorem Token.Hosts.sameReading (h : Hosts source strict (ReadOnce strict) F name old)
    (hF : groupAll source strict (scan source) = .ok F)
    (hc : Compound source op old text) (hm : name.isName = true) : ∃ new F' z G,
      (Rendering.beside source strict name old new).Reads ∧
      (Rendering.beside source strict name old new).SameReading F F' ∧
      (Rendering.relocated source (written source name op old text) strict z).SameReading F' G ∧
      groupAll (written source name op old text) strict
        (scan (written source name op old text)) = .ok G := by
  have hforest := groupAll_forestOf hF
  obtain ⟨Z, operand, F', hraw, hwhole, hblocks, hexchanged⟩ :=
    h.exchanged hforest hc hm (source.length + 1)
  obtain ⟨U, V, hold, hnew, hV⟩ := hexchanged.flat
  obtain ⟨z, hpieces⟩ := hraw.pieces hm hwhole (hforest.flat ▸ hold) hV
  rw [← hnew] at hpieces
  obtain ⟨G, hG, hpairs⟩ := Rendering.groupAll_regroups hexchanged.wellFormed hpieces
  exact ⟨_, F', z, G, Rendering.beside_reads hraw hm, Rendering.beside_reads hraw hm hblocks,
    Rendering.relocated_reads (.inl hpairs), hG⟩

end Reading

/-- A script in which one compound assignment is written out: `n op= e` as `n = n op (e)`, and `n++`
or `n--` at the end of a line as `n = n + 1` or `n = n - 1`. It may stand wherever statements are
read, at any depth, in round brackets only in those that `Admits` allows. -/
inductive Program.Expands (strict : Bool) (Admits : Token → Token → List Token → Prop) :
    String → String → Prop where
  | intro {source text : String} {name op : Token} {F old : List Token}
      (hF : groupAll source strict (scan source) = .ok F)
      (h : Hosts source strict Admits F name old) (hm : name.isName = true)
      (hc : Compound source op old text) :
      Expands strict Admits source (written source name op old text)

variable {α : Type} {a b : String}

theorem Session.effect_of_forest {o : Options} {F : List Token}
    (hF : groupAll a o.strict (scan a) = .ok F) (s : NumberSystem α) (fuel : Nat)
    (inputs : List String) : effect ((Session.mk a o none inputs).runWith s fuel) =
      effect (Statement.runRead s o fuel inputs a (ofTokens a o.strict F)) := by
  have hbody : ∀ x : Except Fault (List Statement),
      (x.map (Program.mk a)).map Program.body = x := by
    intro x
    cases x <;> rfl
  rw [Session.runWith_eq_runRead, Program.parse_of_groupAll hF, hbody]

/-- Writing out one compound assignment changes nothing in the effect of a run, with any number
system, options, inputs and fuel. -/
theorem Program.Expands.effect_eq {o : Options}
    (h : Program.Expands o.strict (ReadOnce o.strict) a b)
    (s : NumberSystem α) (fuel : Nat) (inputs : List String) :
    effect ((Session.mk a o none inputs).runWith s fuel) =
      effect ((Session.mk b o none inputs).runWith s fuel) := by
  obtain ⟨hF, hhosts, hm, hc⟩ := h
  obtain ⟨new, F', z, G, hreads, hexchanged, hmoved, hG⟩ := hhosts.sameReading hF hc hm
  have hfirst := Rendering.effect_runRead hreads s o rfl fuel inputs hexchanged
  have hsecond := Rendering.effect_runRead Rendering.relocated_reads s o rfl fuel inputs hmoved
  rw [Session.effect_of_forest hF, Session.effect_of_forest hG]
  exact hfirst.trans hsecond

/-- Compound assignment means its expansion: as many of them as one likes may be written out, in strict
mode except from round brackets with a comma in front of their end, and for every number system, mode,
seed and inputs the run has the same status, the same kinds of records and the same values in them.
One of both runs ends exactly if the other does. -/
theorem Session.expansions_keep_effect {o : Options}
    (h : Relation.ReflTransGen (Program.Expands o.strict (ReadOnce o.strict)) a b)
    (s : NumberSystem α) (inputs : List String) :
    (∀ fuel, effect ((Session.mk a o none inputs).runWith s fuel) =
      effect ((Session.mk b o none inputs).runWith s fuel)) ∧
    ((∃ r, (Session.mk a o none inputs).Ends s r) ↔ ∃ r, (Session.mk b o none inputs).Ends s r) ∧
    ∀ r r', (Session.mk a o none inputs).Ends s r → (Session.mk b o none inputs).Ends s r' →
      effect r = effect r' := by
  have hsame : ∀ fuel, effect ((Session.mk a o none inputs).runWith s fuel) =
      effect ((Session.mk b o none inputs).runWith s fuel) := by
    intro fuel
    induction h with
    | refl => rfl
    | tail _ hlast ih => exact ih.trans (hlast.effect_eq s fuel inputs)
  have hlacks : ∀ fuel, LacksFuel ((Session.mk a o none inputs).runWith s fuel) ↔
      LacksFuel ((Session.mk b o none inputs).runWith s fuel) := by
    intro fuel
    rw [lacksFuel_iff_effect, lacksFuel_iff_effect, hsame fuel]
  refine ⟨hsame, ⟨?_, ?_⟩, ?_⟩
  · rintro ⟨_, fuel, rfl, hr⟩
    exact ⟨_, fuel, rfl, fun hl => hr ((hlacks fuel).mpr hl)⟩
  · rintro ⟨_, fuel, rfl, hr⟩
    exact ⟨_, fuel, rfl, fun hl => hr ((hlacks fuel).mp hl)⟩
  · rintro r r' ⟨fuel, rfl, hr⟩ hr'
    have hends : (Session.mk b o none inputs).Ends s
        ((Session.mk b o none inputs).runWith s fuel) :=
      ⟨fuel, rfl, fun hl => hr ((hlacks fuel).mpr hl)⟩
    rw [hr'.unique hends, hsame fuel]

/-- An amount that is raised by what a block counts up to. -/
def raised : String :=
  "x = 5\nx *= 1 + \x7bx++; 2\x7d"

/-- The step in the block is written out. -/
def raisedInside : String :=
  "x = 5\nx *= 1 + \x7bx = x + 1; 2\x7d"

/-- Both are written out. -/
def raisedOut : String :=
  "x = 5\nx = x * (1 + \x7bx = x + 1; 2\x7d)"

theorem raised_alike :
    Relation.ReflTransGen (Program.Expands ({} : Options).strict (ReadOnce ({} : Options).strict))
      raised raisedOut ∧
    (∀ fuel, effect ((Session.mk raised {} none []).runWith (Bignumber.system 20) fuel) =
      effect ((Session.mk raisedOut {} none []).runWith (Bignumber.system 20) fuel)) ∧
    ((∃ r, (Session.mk raised {} none []).Ends (Bignumber.system 20) r) ↔
      ∃ r, (Session.mk raisedOut {} none []).Ends (Bignumber.system 20) r) ∧
    ∀ r r', (Session.mk raised {} none []).Ends (Bignumber.system 20) r →
      (Session.mk raisedOut {} none []).Ends (Bignumber.system 20) r' → effect r = effect r' := by
  let line : List Token := [.leaf .word "x" 0 1, .leaf .symbol "=" 2 3, .leaf .integer "5" 4 5,
    .leaf .symbol "\n" 5 6]
  have hinside : Program.Expands false (ReadOnce false) raised raisedInside := by
    let block : Token := .group .group "\x7bx++; 2\x7d" 15 23
      ([] ++ .leaf .word "x" 16 17 :: ([.leaf .operator "+" 17 18, .leaf .operator "+" 18 19] ++
        [.leaf .symbol ";" 19 20, .leaf .integer "2" 21 22]))
      (.leaf .symbol "\x7b" 15 16) (.leaf .symbol "\x7d" 22 23)
    have hF : groupAll raised false (scan raised) = .ok (line ++ [.leaf .word "x" 6 7,
        .leaf .operator "*" 8 9, .leaf .symbol "=" 9 10, .leaf .integer "1" 11 12,
        .leaf .operator "+" 13 14, block]) := rfl
    have hb : block ∈ line ++ [.leaf .word "x" 6 7, .leaf .operator "*" 8 9,
        .leaf .symbol "=" 9 10, .leaf .integer "1" 11 12, .leaf .operator "+" 13 14, block] := by
      simp
    have htext : written raised (.leaf .word "x" 16 17) (.leaf .operator "+" 17 18)
        [.leaf .operator "+" 17 18, .leaf .operator "+" 18 19] "1" = raisedInside := by decide +kernel
    rw [← htext]
    exact .intro hF (.block (.here _) hb rfl (.here (.here false) rfl)) rfl
      (.step rfl (.inl rfl) rfl)
  have hout : Program.Expands false (ReadOnce false) raisedInside raisedOut := by
    let value : List Token := [.leaf .integer "1" 11 12, .leaf .operator "+" 13 14,
      .group .group "\x7bx = x + 1; 2\x7d" 15 29
        [.leaf .word "x" 16 17, .leaf .symbol "=" 18 19, .leaf .word "x" 20 21,
          .leaf .operator "+" 22 23, .leaf .integer "1" 24 25, .leaf .symbol ";" 25 26,
          .leaf .integer "2" 27 28]
        (.leaf .symbol "\x7b" 15 16) (.leaf .symbol "\x7d" 28 29)]
    let old : List Token := .leaf .operator "*" 8 9 :: .leaf .symbol "=" 9 10 :: value
    have hF : groupAll raisedInside false (scan raisedInside) =
        .ok (line ++ .leaf .word "x" 6 7 :: (old ++ [])) := rfl
    have hreach : Reaches raisedInside false (.leaf .word "x" 6 7 :: (old ++ [])) false
        (.leaf .word "x" 0 1 :: ([.leaf .symbol "=" 2 3, .leaf .integer "5" 4 5] ++
          [.leaf .symbol "\n" 5 6])) :=
      .next rfl rfl rfl rfl (.skip rfl (.here _))
    have htext : written raisedInside (.leaf .word "x" 6 7) (.leaf .operator "*" 8 9) old
        ("(" ++ sourceOf raisedInside value ++ ")") = raisedOut := by decide +kernel
    rw [← htext]
    exact .intro hF (.script (.here hreach rfl)) rfl
      (.assign rfl (by decide) rfl (by decide) (by decide))
  have h : Relation.ReflTransGen
      (Program.Expands ({} : Options).strict (ReadOnce ({} : Options).strict)) raised raisedOut :=
    .tail (.single hinside) hout
  exact ⟨h, Session.expansions_keep_effect h (Bignumber.system 20) []⟩

/-- A bracket that is read as one expression first, and as the arguments of a call later. -/
def rebound : String :=
  "f = 2\nrepeat 2 times \x7b\nf(if 1 \x7breturn 3\x7d a += 3, 4)\nf(x, y) = x\n\x7d"

/-- The assignment in the bracket is written out as far as its line goes in the one expression. -/
def reboundOut : String :=
  "f = 2\nrepeat 2 times \x7b\nf(if 1 \x7breturn 3\x7d a = a + (3, 4))\nf(x, y) = x\n\x7d"

theorem rebound_differs : Program.Expands true (fun _ _ _ => True) rebound reboundOut ∧
    ∃ x y, (Session.mk rebound { strict := true } none []).Ends (Bignumber.system 20) (.ok x) ∧
      (Session.mk reboundOut { strict := true } none []).Ends (Bignumber.system 20) (.ok y) ∧
      x.status = .ok ∧ y.status ≠ .ok := by
  have hout : Program.Expands true (fun _ _ _ => True) rebound reboundOut := by
    let text (i j : Int) : String := Text.slice rebound i j
    let condition : Token := .group .group (text 30 40) 30 40
      [.leaf .word "return" 31 37, .leaf .integer "3" 38 39] (.leaf .symbol "\x7b" 30 31)
      (.leaf .symbol "\x7d" 39 40)
    let value : List Token := [.leaf .integer "3" 46 47, .leaf .symbol "," 47 48,
      .leaf .integer "4" 49 50]
    let old : List Token := .leaf .operator "+" 43 44 :: .leaf .symbol "=" 44 45 :: value
    let line : List Token := .leaf .word "a" 41 42 :: (old ++ [])
    let front : List Token :=
      .leaf .word "if" 25 27 :: ([.leaf .integer "1" 28 29, condition] ++ [])
    let bracket : Token := .group .group (text 24 51) 24 51 (front ++ line)
      (.leaf .symbol "(" 24 25) (.leaf .symbol ")" 50 51)
    let parameters : Token := .group .group (text 53 59) 53 59 [.leaf .word "x" 54 55,
      .leaf .symbol "," 55 56, .leaf .word "y" 57 58] (.leaf .symbol "(" 53 54)
      (.leaf .symbol ")" 58 59)
    let block : Token := .group .group (text 21 65) 21 65 [.leaf .symbol "\n" 22 23,
      .leaf .word "f" 23 24, bracket, .leaf .symbol "\n" 51 52, .leaf .word "f" 52 53, parameters,
      .leaf .symbol "=" 60 61, .leaf .word "x" 62 63, .leaf .symbol "\n" 63 64]
      (.leaf .symbol "\x7b" 21 22) (.leaf .symbol "\x7d" 64 65)
    have hF : groupAll rebound true (scan rebound) = .ok [.leaf .word "f" 0 1,
      .leaf .symbol "=" 2 3, .leaf .integer "2" 4 5, .leaf .symbol "\n" 5 6,
      .leaf .word "repeat" 6 12, .leaf .integer "2" 13 14, .leaf .word "times" 15 20, block] := rfl
    have hreach : Reaches rebound true line false front := .next rfl rfl rfl rfl (.here _)
    have hkept : unbroken bracket.contents = front ++ line := rfl
    have hfinds : Finds rebound true (.leaf .word "a" 41 42) old (unbroken bracket.contents) := by
      rw [hkept]
      exact .here hreach rfl
    have htext : written rebound (.leaf .word "a" 41 42) (.leaf .operator "+" 43 44) old
        ("(" ++ sourceOf rebound value ++ ")") = reboundOut := by decide +kernel
    rw [← htext]
    exact .intro hF (.bracket (.into (by simp) (.here block.contents))
      (List.mem_of_getElem? (i := 2) rfl) rfl trivial rfl hfinds) rfl
      (.assign rfl (by decide) rfl (by decide) (by decide))
  have hstatus : status? ((Session.mk rebound { strict := true } none []).runWith
      (Bignumber.system 20) 20) = some .ok := by decide +kernel
  have hstatus' : status? ((Session.mk reboundOut { strict := true } none []).runWith
      (Bignumber.system 20) 20) = some (.error ⟨23, "Expected 2 arguments, got 1", 33⟩) := by
    decide +kernel
  obtain ⟨x, hx, hok⟩ := Session.ends_of_status (Bignumber.system 20) _ 20 hstatus
  obtain ⟨y, hy, hfault⟩ := Session.ends_of_status (Bignumber.system 20) _ 20 hstatus'
  exact ⟨hout, x, y, hx, hy, hok, by simp [hfault]⟩
end Abacus
