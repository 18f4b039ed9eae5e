import Abacus.Proofs.Alike.Words
import Abacus.Proofs.Reading.Program

/-! Words in strict mode. A word that calls no function falls apart into its letters, and only the
last of them can call one. Words of a source never touch, so what falls apart can be joined again. -/

namespace Abacus

namespace Token

/-- A token starts behind another one, and behind the end of it if that is a word. -/
def Precedes (s t : Token) : Prop :=
  s.index < t.index ∧ (s.kind = .word → s.stop ≤ t.index)

/-- Words that show their place, parentheses that are no words, words that do not touch, tokens one
behind the other, and no call beside its own arguments. -/
structure Spread (T : List Token) : Prop where
  word : ∀ t ∈ T, t.kind = .word → ∃ cs, cs ≠ [] ∧
    t = .leaf .word (String.ofList cs) t.index (t.index + cs.length)
  group : ∀ t ∈ T, t.isParenthesized = true → t.kind = .group
  apart : T.Pairwise (fun s t => s.kind = .word → t.kind = .word → s.stop ≠ t.index)
  rising : T.Pairwise Precedes
  calls : ∀ n g, g.isParenthesized = true → fuse n g ∈ T → g ∉ T

/-- A word that is never taken apart. -/
def IsShort (t : Token) : Prop :=
  t.value.length = 1 ∨ t.value ∈ keywords

/-- Whether a token is the name of a function and the next one holds its arguments. -/
def fuses (isFunction : String → Bool) (t g : Token) : Bool :=
  g.isParenthesized && t.kind == .word && t.stop == g.index && isFunction t.value

/-- The one-letter word at a place. -/
def letter (c : Char) (index : Int) : Token :=
  .leaf .word (String.ofList [c]) index (index + 1)

/-- What becomes of a list of tokens. The last letter of a word that falls apart is followed by what
followed the word. -/
inductive Rewrites (isFunction : String → Bool) : List Token → List Token → Prop where
  | nil : Rewrites isFunction [] []
  | other {t : Token} {T R : List Token} (h : t.kind ≠ .word) (hT : Rewrites isFunction T R) :
      Rewrites isFunction (t :: T) (t :: R)
  | word {t : Token} {T R : List Token} (h : t.kind = .word) (hs : t.IsShort)
      (hn : ∀ g ∈ T.head?, fuses isFunction t g = false) (hT : Rewrites isFunction T R) :
      Rewrites isFunction (t :: T) (t :: R)
  | call {t g : Token} {T R : List Token} (h : fuses isFunction t g = true)
      (hT : Rewrites isFunction T R) : Rewrites isFunction (t :: g :: T) (fuse t g :: R)
  | split {t : Token} {first : List Char} {c : Char} {T R : List Token} (h : t.kind = .word)
      (hl : ¬ t.IsShort) (hv : t.value.toList = first ++ [c])
      (hs : t.stop = t.index + first.length + 1)
      (hn : ∀ g ∈ T.head?, fuses isFunction t g = false)
      (hT : Rewrites isFunction (letter c (t.index + first.length) :: T) R) :
      Rewrites isFunction (t :: T) (letters t.index first ++ R)

variable {isFunction : String → Bool} {t g : Token} {T R S : List Token}

section Fields

variable (c : Char) (place : Int)

@[simp] theorem letter_kind : (letter c place).kind = .word := rfl

@[simp] theorem letter_index : (letter c place).index = place := rfl

@[simp] theorem letter_stop : (letter c place).stop = place + 1 := rfl

@[simp] theorem letter_length : (letter c place).value.length = 1 := by
  simp [letter, value]

@[simp] theorem fuse_kind (n g : Token) : (fuse n g).kind = .call := rfl

@[simp] theorem fuse_index (n g : Token) : (fuse n g).index = n.index := rfl

@[simp] theorem fuse_inj {n n' g g' : Token} : fuse n g = fuse n' g' ↔ n = n' ∧ g = g' := by
  constructor
  · intro h
    exact ⟨(call.inj h).2.2.2.2.1, (call.inj h).2.2.2.2.2⟩
  · rintro ⟨rfl, rfl⟩
    rfl

@[simp] theorem fuse_parenthesized (n g : Token) : (fuse n g).isParenthesized = false := rfl

end Fields

namespace Spread

theorem sublist (h : Spread T) (hs : S.Sublist T) : Spread S where
  word t ht := h.word t (hs.subset ht)
  group t ht := h.group t (hs.subset ht)
  apart := h.apart.sublist hs
  rising := h.rising.sublist hs
  calls n g hp hc hg := h.calls n g hp (hs.subset hc) (hs.subset hg)

theorem tail (h : Spread (t :: T)) : Spread T :=
  h.sublist (List.sublist_cons_self _ _)

theorem index_lt_stop (h : Spread T) (ht : t ∈ T) (hk : t.kind = .word) : t.index < t.stop := by
  obtain ⟨cs, hcs, heq⟩ := h.word t ht hk
  have hlength := List.length_pos_iff.mpr hcs
  have hstop : t.stop = t.index + cs.length := by
    rw [heq]
    rfl
  omega

theorem precedes (h : Spread T) {s t : Token} (hs : s ∈ T) (ht : t ∈ T) (hne : s ≠ t) :
    s.Precedes t ∨ t.Precedes s := by
  have hboth : T.Pairwise (fun a b => a.Precedes b ∨ b.Precedes a) := h.rising.imp .inl
  have : Std.Symm (fun a b : Token => a.Precedes b ∨ b.Precedes a) := ⟨fun _ _ => Or.symm⟩
  exact hboth.forall hs ht hne

theorem notMem_tail (h : Spread (t :: T)) : t ∉ T :=
  fun ht => Int.lt_irrefl _ ((List.pairwise_cons.mp h.rising).1 t ht).1

end Spread

section Splitting

theorem fuses_iff : fuses isFunction t g = true ↔ g.isParenthesized = true ∧ t.kind = .word ∧
    t.stop = g.index ∧ isFunction t.value = true := by
  simp only [fuses, Bool.and_eq_true, beq_iff_eq, and_assoc]

theorem not_fuses (h : g.isParenthesized = false) : fuses isFunction t g = false := by
  rw [fuses, h]
  rfl

theorem letters_append (index : Int) (cs : List Char) (c : Char) :
    letters index (cs ++ [c]) = letters index cs ++ [letter c (index + cs.length)] := by
  induction cs generalizing index with
  | nil => simp [letters, letter]
  | cons d cs ih =>
    rw [List.cons_append, letters, ih, letters, List.cons_append, List.length_cons]
    congr 4
    push_cast
    omega

theorem mem_letters {index : Int} {cs : List Char} (h : t ∈ letters index cs) :
    t.kind = .word ∧ t.value.length = 1 ∧ t.isParenthesized = false := by
  induction cs generalizing index with
  | nil => cases h
  | cons c cs ih =>
    rcases List.mem_cons.mp h with rfl | h
    · exact ⟨rfl, by simp [value], rfl⟩
    · exact ih h

theorem fuseAll_cons_of_not (h : ∀ g ∈ S.head?, fuses isFunction t g = false) :
    fuseAll isFunction (t :: S) = t :: fuseAll isFunction S := by
  cases S with
  | nil => rfl
  | cons g S =>
    have hg : ¬ (g.isParenthesized && t.kind == .word && t.stop == g.index && isFunction t.value) =
        true := Bool.not_eq_true _ ▸ h g rfl
    rw [fuseAll, if_neg hg]

theorem fuseAll_letters {index : Int} {cs : List Char}
    (h : ∀ g ∈ S.head?, g.isParenthesized = false) :
    fuseAll isFunction (letters index cs ++ S) = letters index cs ++ fuseAll isFunction S := by
  induction cs generalizing index with
  | nil => rfl
  | cons c cs ih =>
    rw [letters, List.cons_append, fuseAll_cons_of_not, ih, List.cons_append]
    intro g hg
    refine not_fuses ?_
    cases cs with
    | nil => exact h g hg
    | cons d cs =>
      obtain rfl := Option.some.inj hg
      rfl

/-- Putting words and brackets together a second time changes nothing. -/
theorem fuseAll_fuseAll (S : List Token) :
    fuseAll isFunction (fuseAll isFunction S) = fuseAll isFunction S := by
  induction S using fuseAll.induct isFunction with
  | case1 => rfl
  | case2 t => rfl
  | case3 t g rest hc ih =>
    rw [fuseAll, if_pos hc, fuseAll_of_kind (by simp [fuse, kind]), ih]
  | case4 t g rest hc ih =>
    rw [fuseAll, if_neg hc, fuseAll_cons_of_not, ih]
    intro g' hg'
    rcases @fuseAll_cons isFunction g rest with heq | ⟨_, _, _, _, _, _, heq⟩
    · rw [heq] at hg'
      obtain rfl := Option.some.inj hg'
      exact Bool.eq_false_iff.mpr hc
    · rw [heq] at hg'
      obtain rfl := Option.some.inj hg'
      exact not_fuses rfl

theorem splitLong_of_short (h : t.kind = .word → t.IsShort) (T : List Token) :
    splitLong isFunction (t :: T) = t :: splitLong isFunction T := by
  rw [splitLong, if_pos]
  by_cases hk : t.kind = .word
  · exact .inr (h hk)
  · exact .inl hk

theorem splitLong_of_all_short (h : ∀ t ∈ T, t.kind = .word → t.IsShort) :
    splitLong isFunction T = T := by
  induction T with
  | nil => rfl
  | cons t T ih =>
    obtain ⟨ht, hT⟩ := List.forall_mem_cons.mp h
    rw [splitLong_of_short ht, ih hT]

/-- A parenthesis that comes first came first before. -/
theorem head_splitLong (hg : g ∈ (splitLong isFunction T).head?) (hp : g.isParenthesized = true)
    (hT : Spread T) : g ∈ T.head? := by
  cases T with
  | nil => cases hg
  | cons t T =>
    rw [splitLong] at hg
    split at hg
    · exact hg
    split at hg
    · exact hg
    · next hk _ =>
      have hword : t.kind = .word := not_ne_iff.mp (fun hne => hk (.inl hne))
      obtain ⟨cs, hcs, heq⟩ := hT.word t (by simp) hword
      cases cs with
      | nil => exact absurd rfl hcs
      | cons c cs =>
        rw [heq] at hg
        simp only [value, String.toList_ofList, letters, List.cons_append, List.head?_cons] at hg
        obtain rfl := Option.some.inj hg
        cases hp

end Splitting

section Rewriting

/-- The name of a function and its arguments become a call. -/
theorem splitWords_call (h : fuses isFunction t g = true) (hg : g.kind = .group) (T : List Token) :
    splitWords isFunction (t :: g :: T) = fuse t g :: splitWords isFunction T := by
  have hlong : splitLong isFunction (t :: g :: T) = t :: g :: splitLong isFunction T := by
    have hrest : splitLong isFunction (g :: T) = g :: splitLong isFunction T :=
      splitLong_of_short (fun hk => absurd (hg.symm.trans hk) (by decide)) T
    obtain ⟨hp, -, hstop, hf⟩ := fuses_iff.mp h
    rw [splitLong, hrest]
    split
    · rfl
    · rw [if_pos]
      simp [touches, hp, hstop, hf]
  rw [splitWords_eq, splitWords_eq, hlong, fuseAll]
  exact if_pos h

theorem splitWords_keep (h : t.kind = .word → t.IsShort)
    (hn : ∀ g ∈ T.head?, fuses isFunction t g = false) (hT : Spread T) :
    splitWords isFunction (t :: T) = t :: splitWords isFunction T := by
  rw [splitWords_eq, splitWords_eq, splitLong_of_short h, fuseAll_cons_of_not]
  intro g hg
  by_cases hp : g.isParenthesized = true
  · exact hn g (head_splitLong hg hp hT)
  · exact not_fuses (Bool.eq_false_iff.mpr hp)

theorem splitWords_split {first : List Char} {c : Char} (h : t.kind = .word) (hl : ¬ t.IsShort)
    (hv : t.value.toList = first ++ [c]) (hn : ∀ g ∈ T.head?, fuses isFunction t g = false) :
    splitWords isFunction (t :: T) = letters t.index first ++
      splitWords isFunction (letter c (t.index + first.length) :: T) := by
  have hshort : splitLong isFunction (letter c (t.index + first.length) :: T) =
      letter c (t.index + first.length) :: splitLong isFunction T :=
    splitLong_of_short (fun _ => .inl (letter_length _ _)) T
  have hfree : ¬ (t.touches T.head? && isFunction t.value) = true := by
    cases T with
    | nil => simp [touches]
    | cons g T =>
      have hg := hn g rfl
      simpa [fuses, touches, h] using hg
  have hlong : ¬ (t.kind ≠ .word ∨ t.value.length = 1 ∨ t.value ∈ keywords) :=
    not_or.mpr ⟨not_not_intro h, hl⟩
  rw [splitWords_eq, splitWords_eq, splitLong, if_neg hlong, if_neg hfree, hv, letters_append,
    hshort, List.append_assoc, List.singleton_append, fuseAll_letters]
  intro g hg
  obtain rfl := Option.some.inj hg
  rfl

/-- The last letter of a word stands where the word stood. -/
theorem Spread.lastLetter {first : List Char} {c : Char} (h : Spread (t :: T)) (hk : t.kind = .word)
    (hs : t.stop = t.index + first.length + 1) :
    Spread (letter c (t.index + first.length) :: T) := by
  have hapart := List.pairwise_cons.mp h.apart
  have hrising := List.pairwise_cons.mp h.rising
  have hstop : (letter c (t.index + first.length)).stop = t.stop := hs.symm
  refine ⟨List.forall_mem_cons.mpr ⟨fun _ => ⟨[c], by simp, by simp [letter, index]⟩, h.tail.word⟩,
    List.forall_mem_cons.mpr ⟨nofun, h.tail.group⟩, List.pairwise_cons.mpr ⟨?_, hapart.2⟩,
    List.pairwise_cons.mpr ⟨?_, hrising.2⟩, ?_⟩
  · intro u hu _ huk
    rw [hstop]
    exact hapart.1 u hu hk huk
  · intro u hu
    have hle := (hrising.1 u hu).2 hk
    refine ⟨?_, fun _ => hstop ▸ hle⟩
    rw [letter_index]
    omega
  · intro n g hp hc hg
    rcases List.mem_cons.mp hc with hc | hc
    · cases hc
    · rcases List.mem_cons.mp hg with rfl | hg
      · cases hp
      · exact h.tail.calls n g hp hc hg

/-- The letters of a word, of which there are some. -/
theorem Spread.exists_letters (h : Spread (t :: T)) (hk : t.kind = .word) :
    ∃ first c, t.value.toList = first ++ [c] ∧ t.stop = t.index + first.length + 1 := by
  obtain ⟨cs, hcs, heq⟩ := h.word t (by simp) hk
  refine ⟨cs.dropLast, cs.getLast hcs, ?_, ?_⟩
  · rw [heq, List.dropLast_append_getLast]
    simp [value]
  · have hlen : cs.length = cs.dropLast.length + 1 := by
      rw [List.length_dropLast, Nat.sub_add_cancel (List.length_pos_iff.mpr hcs)]
    have hstop : t.stop = t.index + cs.length := by
      rw [heq]
      rfl
    rw [hstop, hlen]
    push_cast
    omega

theorem rewrites_call (h : ∃ g ∈ T.head?, fuses isFunction t g = true) (hT : Spread (t :: T))
    (ih : ∀ S, S.length ≤ T.length → Spread S → Rewrites isFunction S (splitWords isFunction S)) :
    Rewrites isFunction (t :: T) (splitWords isFunction (t :: T)) := by
  obtain ⟨g, hg, hfuses⟩ := h
  cases T with
  | nil => cases hg
  | cons g' T =>
    obtain rfl := Option.some.inj hg
    rw [splitWords_call hfuses (hT.group g' (by simp) (fuses_iff.mp hfuses).1)]
    exact .call hfuses (ih T (by simp) hT.tail.tail)

theorem rewrites_short (h : t.kind = .word → t.IsShort) (hT : Spread (t :: T))
    (ih : ∀ S, S.length ≤ T.length → Spread S → Rewrites isFunction S (splitWords isFunction S)) :
    Rewrites isFunction (t :: T) (splitWords isFunction (t :: T)) := by
  by_cases hfree : ∀ g ∈ T.head?, fuses isFunction t g = false
  · rw [splitWords_keep h hfree hT.tail]
    by_cases hword : t.kind = .word
    · exact .word hword (h hword) hfree (ih T (Nat.le_refl _) hT.tail)
    · exact .other hword (ih T (Nat.le_refl _) hT.tail)
  · exact rewrites_call (by simpa using hfree) hT ih

theorem splitWords_rewrites (hT : Spread T) : Rewrites isFunction T (splitWords isFunction T) := by
  induction hn : T.length using Nat.strong_induction_on generalizing T with
  | h n ih =>
    subst hn
    cases T with
    | nil => exact .nil
    | cons t T =>
      have hrest : ∀ S, S.length ≤ T.length → Spread S →
          Rewrites isFunction S (splitWords isFunction S) :=
        fun S hS hspread => ih S.length (by simp; omega) hspread rfl
      by_cases hshort : t.kind = .word → t.IsShort
      · exact rewrites_short hshort hT hrest
      · obtain ⟨hword, hlong⟩ := Classical.not_imp.mp hshort
        by_cases hfree : ∀ g ∈ T.head?, fuses isFunction t g = false
        · obtain ⟨first, c, hv, hs⟩ := hT.exists_letters hword
          rw [splitWords_split hword hlong hv hfree]
          exact .split hword hlong hv hs hfree
            (rewrites_short (fun _ => .inl (letter_length _ _)) (hT.lastLetter hword hs) hrest)
        · exact rewrites_call (by simpa using hfree) hT hrest

end Rewriting

/-- Joins a token and the word behind it if it is a word that touches it. -/
def joinOnto (t : Token) : List Token → List Token
  | [] => [t]
  | u :: rest =>
    if t.kind == .word && u.kind == .word && t.stop == u.index then
      .leaf .word (t.value ++ u.value) t.index u.stop :: rest
    else t :: u :: rest

/-- Joins the words that touch. -/
def joinWords (T : List Token) : List Token :=
  T.foldr joinOnto []

/-- Takes a call apart if it is a new one. -/
def unfuse (isNew : Token → Bool) (t : Token) : List Token :=
  match t with
  | .call _ _ _ _ name arguments => if isNew t then [name, arguments] else [t]
  | _ => [t]

/-- Whether a token is a call where the list has none. -/
def isNewCall (T : List Token) (t : Token) : Bool :=
  t.kind == .call && !T.any (fun s => s.kind == .call && s.index == t.index)

/-- A token that the rewriting has nothing to do with. -/
def isOther (t : Token) : Bool :=
  t.kind != .word && !t.isParenthesized

/-- The last letter of a word. -/
def lastLetter (t : Token) : Token :=
  .leaf .word (String.ofList (t.value.toList.drop (t.value.length - 1))) (t.stop - 1) t.stop

/-- The word `n` calls a function with the arguments `g` that come behind `before`: the word there or
the last letter of it ends where they begin. -/
def Calls (isFunction : String → Bool) (before : List Token) (g n : Token) : Prop :=
  ∃ w, before.getLast? = some w ∧ w.kind = .word ∧ w.stop = g.index ∧ isFunction n.value = true ∧
    (n = w ∨ isFunction w.value = false ∧ w.value ∉ keywords ∧ n = lastLetter w)

/-- Calls that are told from the tokens of a list. -/
structure Tells (isNew : Token → Bool) (T : List Token) : Prop where
  old : ∀ t ∈ T, isNew t = false
  word : ∀ t : Token, t.kind = .word → isNew t = false
  made : ∀ w ∈ T, w.kind = .word → ∀ n g : Token, w.index ≤ n.index → n.index < w.stop →
    isNew (fuse n g) = true

namespace Tells

variable {isNew : Token → Bool}

theorem tail (h : Tells isNew (t :: T)) : Tells isNew T :=
  ⟨fun s hs => h.old s (List.mem_cons_of_mem _ hs), h.word,
    fun w hw => h.made w (List.mem_cons_of_mem _ hw)⟩

theorem lastLetter {first : List Char} {c : Char} (h : Tells isNew (t :: T)) (hk : t.kind = .word)
    (hs : t.stop = t.index + first.length + 1) :
    Tells isNew (letter c (t.index + first.length) :: T) := by
  refine ⟨List.forall_mem_cons.mpr ⟨h.word _ rfl, h.tail.old⟩, h.word,
    List.forall_mem_cons.mpr ⟨fun _ n g hle hlt => h.made t (by simp) hk n g ?_ ?_, h.tail.made⟩⟩
  · rw [letter_index] at hle
    omega
  · rw [letter_stop] at hlt
    omega

/-- A call stands where a word stood, and no call of the list stands there. -/
theorem isNewCall (hT : Spread T) : Tells (isNewCall T) T := by
  refine ⟨fun t ht => ?_, fun t hk => by simp [Token.isNewCall, hk], fun w hw hk n g hle hlt => ?_⟩
  · by_cases hcall : t.kind = .call
    · have hany : T.any (fun s => s.kind == .call && s.index == t.index) = true :=
        List.any_eq_true.mpr ⟨t, ht, by simp [hcall]⟩
      simp [Token.isNewCall, hany]
    · simp [Token.isNewCall, hcall]
  · have hnone : T.any (fun s => s.kind == .call && s.index == n.index) = false := by
      rw [List.any_eq_false]
      intro s hs hcall
      simp only [Bool.and_eq_true, beq_iff_eq] at hcall
      have hne : s ≠ w := by
        rintro rfl
        rw [hk] at hcall
        exact absurd hcall.1 (by decide)
      rcases hT.precedes hs hw hne with ⟨hbefore, _⟩ | ⟨_, hstop⟩
      · omega
      · have hbehind := hstop hk
        omega
    rw [Token.isNewCall, fuse_kind, fuse_index, hnone]
    rfl

end Tells

section Joining

theorem joinOnto_of_not (h : ∀ u ∈ T.head?, t.kind = .word → u.kind = .word → t.stop ≠ u.index) :
    joinOnto t T = t :: T := by
  cases T with
  | nil => rfl
  | cons u T =>
    have hu := h u rfl
    rw [joinOnto, if_neg]
    simp only [Bool.and_eq_true, beq_iff_eq]
    rintro ⟨⟨hk, huk⟩, hstop⟩
    exact hu hk huk hstop

/-- Words that do not touch stay as they are. -/
theorem Spread.joinOnto (h : Spread (t :: T)) : joinOnto t T = t :: T := by
  refine joinOnto_of_not (fun u hu hk huk => ?_)
  exact (List.pairwise_cons.mp h.apart).1 u (List.mem_of_mem_head? hu) hk huk

/-- The letters of a word make it up. -/
theorem foldr_joinOnto_letters (first last : List Char) (place stop : Int) (T : List Token) :
    (letters place first).foldr joinOnto
        (.leaf .word (String.ofList last) (place + first.length) stop :: T) =
      .leaf .word (String.ofList (first ++ last)) place stop :: T := by
  induction first generalizing place with
  | nil => simp [letters]
  | cons c first ih =>
    have hplace : place + (c :: first).length = place + 1 + first.length := by
      rw [List.length_cons]
      push_cast
      omega
    rw [letters, List.foldr_cons, hplace, ih, Token.joinOnto]
    simp [kind, Token.stop, index, value, String.ofList_append]

theorem flatMap_unfuse_letters (isNew : Token → Bool) (place : Int) (cs : List Char) :
    (letters place cs).flatMap (unfuse isNew) = letters place cs := by
  induction cs generalizing place with
  | nil => rfl
  | cons c cs ih =>
    rw [letters, List.flatMap_cons, ih]
    rfl

theorem unfuse_of_old {isNew : Token → Bool} (h : isNew t = false) : unfuse isNew t = [t] := by
  unfold unfuse
  split
  · rw [h]
    rfl
  · rfl

end Joining

namespace Rewrites

theorem short (h : Rewrites isFunction T R) : ∀ t ∈ R, t.kind = .word → t.IsShort := by
  induction h with
  | nil => simp
  | other hk _ ih => exact List.forall_mem_cons.mpr ⟨fun hw => absurd hw hk, ih⟩
  | word _ hs _ _ ih => exact List.forall_mem_cons.mpr ⟨fun _ => hs, ih⟩
  | call _ _ ih => exact List.forall_mem_cons.mpr ⟨nofun, ih⟩
  | split _ _ _ _ _ _ ih =>
    exact List.forall_mem_append.mpr ⟨fun t ht _ => .inl (mem_letters ht).2.1, ih⟩

/-- What is neither a word nor a parenthesis stays. -/
theorem filter_other {isNew : Token → Bool} (h : Rewrites isFunction T R) (hT : Spread T)
    (hnew : Tells isNew T) :
    R.filter (fun t => t.isOther && !isNew t) = T.filter isOther := by
  induction h with
  | nil => rfl
  | @other t T R hk _ ih =>
    rw [List.filter_cons, List.filter_cons, ih hT.tail hnew.tail, hnew.old t (by simp), Bool.not_false,
      Bool.and_true]
  | @word t T R hk _ _ _ ih =>
    rw [List.filter_cons, List.filter_cons, ih hT.tail hnew.tail]
    simp [isOther, hk]
  | @call t g T R hf _ ih =>
    obtain ⟨hp, hk, -, -⟩ := fuses_iff.mp hf
    have hproper := hT.index_lt_stop (by simp) hk
    have hcall := hnew.made t (by simp) hk t g (Int.le_refl _) hproper
    rw [List.filter_cons, List.filter_cons, List.filter_cons, ih hT.tail.tail hnew.tail.tail, hcall]
    simp [isOther, hk, hp]
  | @split t first c T R hk _ _ hs _ _ ih =>
    have hletters : (letters t.index first).filter (fun t => t.isOther && !isNew t) = [] := by
      refine List.filter_eq_nil_iff.mpr (fun u hu => ?_)
      simp [isOther, (mem_letters hu).1]
    rw [List.filter_append, hletters, List.nil_append, ih (hT.lastLetter hk hs)
      (hnew.lastLetter hk hs), List.filter_cons, List.filter_cons]
    simp [isOther, hk]

/-- Taking the calls apart and joining the letters gives the tokens back. -/
theorem joined {isNew : Token → Bool} (h : Rewrites isFunction T R) (hT : Spread T)
    (hnew : Tells isNew T) : joinWords (R.flatMap (unfuse isNew)) = T := by
  have hkeep : ∀ {t : Token} {R : List Token}, isNew t = false →
      joinWords ((t :: R).flatMap (unfuse isNew)) =
        joinOnto t (joinWords (R.flatMap (unfuse isNew))) := by
    intro t R ht
    rw [List.flatMap_cons, unfuse_of_old ht]
    rfl
  induction h with
  | nil => rfl
  | @other t T R hk _ ih =>
    rw [hkeep (hnew.old t (by simp)), ih hT.tail hnew.tail, hT.joinOnto]
  | @word t T R hk _ _ _ ih =>
    rw [hkeep (hnew.old t (by simp)), ih hT.tail hnew.tail, hT.joinOnto]
  | @call t g T R hf _ ih =>
    obtain ⟨hp, hk, -, -⟩ := fuses_iff.mp hf
    have hproper := hT.index_lt_stop (by simp) hk
    have hparts : unfuse isNew (fuse t g) = [t, g] :=
      if_pos (hnew.made t (by simp) hk t g (Int.le_refl _) hproper)
    have hjoin : joinWords ((fuse t g :: R).flatMap (unfuse isNew)) =
        joinOnto t (joinOnto g (joinWords (R.flatMap (unfuse isNew)))) := by
      rw [List.flatMap_cons, hparts]
      rfl
    rw [hjoin, ih hT.tail.tail hnew.tail.tail, hT.tail.joinOnto, hT.joinOnto]
  | @split t first c T R hk _ hv hs _ _ ih =>
    have hwhole : t = .leaf .word (String.ofList (first ++ [c])) t.index t.stop := by
      obtain ⟨cs, -, heq⟩ := hT.word t (by simp) hk
      rw [← hv, heq]
      simp [value, index, Token.stop]
    have hjoin : joinWords ((letters t.index first ++ R).flatMap (unfuse isNew)) =
        (letters t.index first).foldr joinOnto (joinWords (R.flatMap (unfuse isNew))) := by
      rw [List.flatMap_append, flatMap_unfuse_letters, joinWords, List.foldr_append]
      rfl
    have hmake := foldr_joinOnto_letters first [c] t.index t.stop T
    rw [hjoin, ih (hT.lastLetter hk hs) (hnew.lastLetter hk hs), letter, ← hs, hmake, ← hwhole]

theorem fuse_ne_letters {n g : Token} {place : Int} {cs : List Char} :
    fuse n g ∉ letters place cs :=
  fun h => absurd (mem_letters h).1 (by simp)

/-- The arguments of a call stood in the list. -/
theorem arguments_mem (h : Rewrites isFunction T R) {n : Token} (hp : g.isParenthesized = true)
    (hm : fuse n g ∈ R) : fuse n g ∈ T ∨ g ∈ T := by
  induction h with
  | nil => cases hm
  | other _ _ ih | word _ _ _ _ ih =>
    rcases List.mem_cons.mp hm with heq | hm
    · exact .inl (heq ▸ List.mem_cons_self)
    · exact (ih hm).imp (List.mem_cons_of_mem _) (List.mem_cons_of_mem _)
  | call _ _ ih =>
    rcases List.mem_cons.mp hm with heq | hm
    · rw [(fuse_inj.mp heq).2]
      exact .inr (by simp)
    · exact (ih hm).imp (by simp +contextual) (by simp +contextual)
  | split _ _ _ _ _ _ ih =>
    rcases List.mem_append.mp hm with hm | hm
    · exact absurd hm fuse_ne_letters
    · rcases ih hm with hm | hm
      · rcases List.mem_cons.mp hm with heq | hm
        · cases heq
        · exact .inl (List.mem_cons_of_mem _ hm)
      · rcases List.mem_cons.mp hm with rfl | hm
        · cases hp
        · exact .inr (List.mem_cons_of_mem _ hm)

end Rewrites

section Calling

variable {A B : List Token} {n : Token}

theorem Calls.cons_iff (h : A ≠ [] ∨ t.kind ≠ .word) :
    Calls isFunction (t :: A) g n ↔ Calls isFunction A g n := by
  cases A with
  | nil =>
    have hk := h.resolve_left (fun hne => hne rfl)
    constructor
    · rintro ⟨w, hw, hword, -⟩
      cases hw
      exact absurd hword hk
    · rintro ⟨w, hw, -⟩
      cases hw
  | cons u A => rw [Calls, Calls, List.getLast?_cons_cons]

theorem Rewrites.not_call (h : Rewrites isFunction T R) (hT : Spread (g :: T))
    (hp : g.isParenthesized = true) : fuse n g ∉ R := by
  intro hm
  rcases h.arguments_mem hp hm with hm | hm
  · exact hT.calls n g hp (List.mem_cons_of_mem _ hm) List.mem_cons_self
  · exact hT.notMem_tail hm

theorem not_calls_nil : ¬ Calls isFunction [] g n := by
  rintro ⟨w, hw, -⟩
  cases hw

theorem calls_singleton_iff (hk : t.kind = .word) :
    Calls isFunction [t] g n ↔ t.stop = g.index ∧ isFunction n.value = true ∧
      (n = t ∨ isFunction t.value = false ∧ t.value ∉ keywords ∧ n = lastLetter t) := by
  constructor
  · rintro ⟨w, hw, -, hcalls⟩
    obtain rfl := Option.some.inj hw
    exact hcalls
  · exact fun hcalls => ⟨t, rfl, hk, hcalls⟩

theorem lastLetter_eq {first : List Char} {c : Char} (hv : t.value.toList = first ++ [c])
    (hs : t.stop = t.index + first.length + 1) :
    lastLetter t = letter c (t.index + first.length) := by
  have hlen : t.value.length - 1 = first.length := by
    rw [← String.length_toList, hv]
    simp
  rw [lastLetter, letter, hlen, hv, List.drop_left, hs]
  congr 1
  omega

/-- A word that is alone in front of a parenthesis. -/
theorem calls_of_short (hk : t.kind = .word) (hs : t.IsShort) :
    Calls isFunction [t] g n ↔ t.stop = g.index ∧ isFunction t.value = true ∧ n = t := by
  rw [calls_singleton_iff hk]
  constructor
  · rintro ⟨hstop, hf, rfl | ⟨hnone, hkey, rfl⟩⟩
    · exact ⟨hstop, hf, rfl⟩
    · -- the last letter of a one-letter word is the word
      have hone := hs.resolve_right hkey
      have hlast : (lastLetter t).value = t.value := by
        show String.ofList (t.value.toList.drop (t.value.length - 1)) = t.value
        rw [hone, Nat.sub_self, List.drop_zero, String.ofList_toList]
      rw [hlast, hnone] at hf
      cases hf
  · rintro ⟨hstop, hf, rfl⟩
    exact ⟨hstop, hf, .inl rfl⟩

theorem not_calls_of_free (hk : t.kind = .word) (hs : t.IsShort) (hp : g.isParenthesized = true)
    (hfree : fuses isFunction t g = false) : ¬ Calls isFunction [t] g n := by
  rw [calls_of_short hk hs]
  rintro ⟨hstop, hf, -⟩
  rw [fuses_iff.mpr ⟨hp, hk, hstop, hf⟩] at hfree
  cases hfree

theorem calls_of_fuses (hf : fuses isFunction t g = true) : Calls isFunction [t] g n ↔ n = t := by
  obtain ⟨-, hk, hstop, hname⟩ := fuses_iff.mp hf
  rw [calls_singleton_iff hk]
  constructor
  · rintro ⟨-, -, rfl | ⟨hnone, -⟩⟩
    · rfl
    · rw [hname] at hnone
      cases hnone
  · rintro rfl
    exact ⟨hstop, hname, .inl rfl⟩

/-- A word that falls apart calls what its last letter calls. -/
theorem calls_letter_iff {first : List Char} {c : Char} (hk : t.kind = .word) (hl : ¬ t.IsShort)
    (hv : t.value.toList = first ++ [c]) (hs : t.stop = t.index + first.length + 1)
    (hp : g.isParenthesized = true) (hfree : fuses isFunction t g = false) :
    Calls isFunction [letter c (t.index + first.length)] g n ↔ Calls isFunction [t] g n := by
  have hstop : (letter c (t.index + first.length)).stop = t.stop := hs.symm
  have hwhole : t.stop = g.index → isFunction t.value = false := by
    intro hstop
    simpa [fuses, hp, hk, hstop] using hfree
  rw [calls_of_short rfl (.inl (letter_length _ _)), calls_singleton_iff hk, lastLetter_eq hv hs,
    hstop]
  constructor
  · rintro ⟨hstop, hf, rfl⟩
    exact ⟨hstop, hf, .inr ⟨hwhole hstop, (not_or.mp hl).2, rfl⟩⟩
  · rintro ⟨hstop, hf, rfl | ⟨-, -, rfl⟩⟩
    · rw [hwhole hstop] at hf
      cases hf
    · exact ⟨hstop, hf, rfl⟩

/-- What stands before another token of a list starts with the first one. -/
theorem exists_cons_of_ne (hne : t ≠ g) (heq : t :: T = A ++ g :: B) :
    ∃ A', A = t :: A' ∧ T = A' ++ g :: B := by
  cases A with
  | nil => exact absurd (List.cons_eq_cons.mp heq).1 hne
  | cons u A =>
    obtain ⟨rfl, rfl⟩ := List.cons_eq_cons.mp heq
    exact ⟨A, rfl, rfl⟩

/-- Which word takes the arguments of a call. -/
theorem Rewrites.call_iff (h : Rewrites isFunction T R) (hT : Spread T)
    (hp : g.isParenthesized = true) (heq : T = A ++ g :: B) :
    fuse n g ∈ R ↔ Calls isFunction A g n := by
  have hgroup : g.kind = .group := hT.group g (by simp [heq]) hp
  have hword : ∀ t : Token, t.kind = .word → t ≠ g := by
    rintro t hk rfl
    rw [hk] at hgroup
    cases hgroup
  induction h generalizing A with
  | nil => simp at heq
  | @other t T R hk hrest ih =>
    have hne : fuse n g ≠ t := by
      rintro rfl
      exact hT.calls n g hp List.mem_cons_self (by simp [heq])
    rw [List.mem_cons, or_iff_right hne]
    cases A with
    | nil =>
      obtain ⟨rfl, rfl⟩ := List.cons_eq_cons.mp heq
      exact iff_of_false (hrest.not_call hT hp) not_calls_nil
    | cons u A =>
      obtain ⟨rfl, rfl⟩ := List.cons_eq_cons.mp heq
      exact (ih hT.tail rfl).trans (Calls.cons_iff (.inr hk)).symm
  | @word t T R hk hs hfree hrest ih =>
    have hne : fuse n g ≠ t := by
      rintro rfl
      cases hk
    rw [List.mem_cons, or_iff_right hne]
    obtain ⟨A, rfl, rfl⟩ := exists_cons_of_ne (hword t hk) heq
    refine (ih hT.tail rfl).trans ?_
    cases A with
    | nil => exact iff_of_false not_calls_nil (not_calls_of_free hk hs hp (hfree g rfl))
    | cons v A => exact (Calls.cons_iff (.inl (by simp))).symm
  | @call t g' T R hf hrest ih =>
    obtain ⟨hp', hk, -, -⟩ := fuses_iff.mp hf
    have hgroup' := hT.group g' (by simp) hp'
    obtain ⟨A, rfl, htail⟩ := exists_cons_of_ne (hword t hk) heq
    rw [List.mem_cons, fuse_inj]
    cases A with
    | nil =>
      obtain ⟨rfl, rfl⟩ := List.cons_eq_cons.mp htail
      rw [or_iff_left (hrest.not_call hT.tail hp), calls_of_fuses hf, and_iff_left rfl]
    | cons v A =>
      obtain ⟨rfl, rfl⟩ := List.cons_eq_cons.mp htail
      have hne : ¬ (n = t ∧ g = g') := by
        rintro ⟨-, rfl⟩
        exact hT.tail.notMem_tail (by simp)
      rw [or_iff_right hne, Calls.cons_iff (.inl (by simp)),
        Calls.cons_iff (.inr (by simp [hgroup']))]
      exact ih hT.tail.tail rfl
  | @split t first c T R hk hl hv hs hfree hrest ih =>
    rw [List.mem_append, or_iff_right fuse_ne_letters]
    obtain ⟨A, rfl, rfl⟩ := exists_cons_of_ne (hword t hk) heq
    refine (ih (A := letter c (t.index + first.length) :: A) (hT.lastLetter hk hs) rfl).trans ?_
    cases A with
    | nil => exact calls_letter_iff hk hl hv hs hp (hfree g rfl)
    | cons v A =>
      exact (Calls.cons_iff (.inl (by simp))).trans (Calls.cons_iff (.inl (by simp))).symm

end Calling

end Token

section Source

open Token

variable {source : String} {F L T : List Token} {strict : Bool} {t : Token}

/-- Lists of tokens that are evaluated: tokens that stand in one list after scanning and grouping, some
of them maybe left out, and the name, the operator and the operand of a compound assignment. -/
inductive Token.IsFrontEnd : List Token → Prop where
  | level {source : String} {strict : Bool} {F L T : List Token}
      (hF : groupAll source strict (scan source) = .ok F) (hL : Level F L) (hT : T.Sublist L) :
      IsFrontEnd T
  | compound {source text : String} {strict fresh constant : Bool} {F L rest value : List Token}
      {name target : Token} {h : Statement.Head} {origin : Origin}
      (hF : groupAll source strict (scan source) = .ok F) (hL : Level F L)
      (hT : (name :: rest).Sublist L) (hn : name.isName = true)
      (hc : Statement.compound? source name rest = some h)
      (hv : h.finish [] = .assign origin target value fresh constant text) : IsFrontEnd value

/-- A word of a forest was scanned. -/
theorem ForestOf.word_scanned (h : ForestOf source strict F) (ht : InForest F t)
    (hk : t.kind = .word) : t ∈ scan source := by
  have hflat := h.flatten_scan ht
  have hgrouped := h.grouped ht
  cases hgrouped with
  | leaf _ => exact hflat.subset (by simp [flatten])
  | group | call => cases hk

/-- A word shows all the characters of its place. -/
theorem Token.word_of_scan (h : t ∈ scan source) (hk : t.kind = .word) : ∃ cs, cs ≠ [] ∧
    t = .leaf .word (String.ofList cs) t.index (t.index + cs.length) := by
  have hlexed := scan_lexed source h
  have hspells := hlexed.spells
  rw [hk] at hspells
  have hproper := hlexed.proper
  have hstart := hlexed.start
  have hlength := length_sliceChars hstart (Int.le_of_lt hproper) hlexed.within
  have hvalue := value_of_scan h (by simp [hk])
  refine ⟨_, hspells.1, ?_⟩
  have hstop : t.index + (Text.sliceChars source.toList t.index t.stop).length = t.stop := by
    rw [hlength]
    omega
  have hleaf : t = .leaf t.kind t.value t.index t.stop := by
    cases t with
    | leaf => rfl
    | group | call => exact (scan_isLeaf source _ h).elim
  rw [hstop]
  rw [hk, hvalue] at hleaf
  exact hleaf

/-- Two words of a source do not touch, since the first would have gone on. -/
theorem Token.words_apart {s t : Token} (hs : s ∈ scan source) (ht : t ∈ scan source)
    (hsk : s.kind = .word) (htk : t.kind = .word) : s.stop ≠ t.index := by
  intro htouch
  have hfirst := scan_lexed source hs
  have hsecond := scan_lexed source ht
  have hend := hfirst.munched.word hsk
  have hspells := hsecond.spells
  rw [htk] at hspells
  obtain ⟨hne, -, hall⟩ := hspells
  have hhead := head_sliceChars hsecond.start hsecond.proper hsecond.within
  obtain ⟨c, cs, heq⟩ := List.exists_cons_of_ne_nil hne
  rw [heq, List.head?_cons, ← htouch] at hhead
  have hword := hall c (by simp [heq])
  simp [← hhead, hword] at hend

/-- A list holds no call whose arguments it holds as well. -/
theorem Ordered.fuse_notMem {n g : Token} (hT : Ordered T) (hg : g ∈ T) : fuse n g ∉ T := by
  intro hm
  have hproper := (hT.placed g hg).index_lt_stop
  have hlt : n.index < g.index := by
    have hplaced := hT.placed _ hm
    generalize hu : fuse n g = u at hplaced
    cases hplaced with
    | leaf | group => cases hu
    | call h _ =>
      obtain ⟨-, -, hindex, -, -, rfl⟩ := call.inj hu
      rwa [hindex]
  have heq : fuse n g = g := by
    refine hT.eq_of_covers hm hg (i := g.index) ⟨?_, hproper⟩ ⟨Int.le_refl _, hproper⟩
    rw [fuse_index]
    omega
  have hsize := congrArg sizeOf heq
  simp only [fuse, call.sizeOf_spec] at hsize
  omega

theorem Level.spread (hF : ForestOf source strict F) (hL : Level F L) : Spread L := by
  have hforest : ∀ t ∈ L, InForest F t := fun t ht => ⟨L, hL, ht⟩
  have hordered := hL.ordered hF.ordered
  refine ⟨fun t ht hk => ?_, fun t ht hp => (hF.grouped (hforest t ht)).kind_of_parenthesized hp,
    ?_, ?_, fun n g _ hc hg => hordered.fuse_notMem hg hc⟩
  · exact word_of_scan (hF.word_scanned (hforest t ht) hk) hk
  · refine hordered.pairwise.imp_of_mem (fun hs ht _ hsk htk => ?_)
    exact words_apart (hF.word_scanned (hforest _ hs) hsk) (hF.word_scanned (hforest _ ht) htk)
      hsk htk
  · refine hordered.pairwise.imp_of_mem (fun {s t} hs _ hbefore => ?_)
    have hle : s.stop ≤ t.index := hbefore
    have hproper := (hordered.placed s hs).index_lt_stop
    exact ⟨by omega, fun _ => hle⟩

/-- What a compound assignment is made with: the one of a step, or a value in brackets. -/
inductive Token.IsOperand : Token → Prop where
  | step {value : String} {index stop : Int} : IsOperand (.leaf .integer value index stop)
  | bracket {value : String} {index stop : Int} {children : List Token} {opener closer : Token} :
    IsOperand (.group .group value index stop children opener closer)

/-- A name and an operator, and an operand behind them. -/
theorem Token.Spread.withOperand {name op x : Token} (h : Spread [name, op])
    (hname : name.kind = .word) (hop : op.kind = .operator) (ho : x.IsOperand)
    (hx : op.index < x.index) : Spread [name, op, x] := by
  have hfirst : name.Precedes op := by simpa using h.rising
  have hbehind : name.Precedes x :=
    ⟨Int.lt_trans hfirst.1 hx, fun hk => Int.le_trans (hfirst.2 hk) (Int.le_of_lt hx)⟩
  have hlast : op.Precedes x := ⟨hx, fun hk => by simp [hop] at hk⟩
  have hword : x.kind ≠ .word := by cases ho <;> simp [kind]
  have hcall : x.kind ≠ .call := by cases ho <;> simp [kind]
  have hgroup : x.isParenthesized = true → x.kind = .group := by
    cases ho <;> simp [kind, isParenthesized, inside?]
  constructor
  · grind [h.word]
  · grind [h.group]
  · grind [h.apart]
  · simp [hfirst, hbehind, hlast]
  · intro n g _ hc
    have hkind : ∀ t ∈ [name, op, x], t.kind ≠ .call := by simp [hname, hop, hcall]
    exact absurd rfl (hkind _ hc)

/-- The value of a compound assignment is its name, its operator and an operand that stands behind
them. -/
theorem Statement.compound_value {name target : Token} {h : Statement.Head} {origin : Origin}
    {rest value : List Token} {fresh constant : Bool} {text : String} (hT : Ordered (name :: rest))
    (hc : compound? source name rest = some h)
    (hv : h.finish [] = .assign origin target value fresh constant text) :
    ∃ op x, value = [name, op, x] ∧ op ∈ rest ∧ op.kind = .operator ∧ x.IsOperand ∧
      op.index < x.index := by
  match rest with
  | [] | [_] => simp [compound?] at hc
  | op :: second :: rest =>
    have hlater := (List.pairwise_cons.mp hT.pairwise).2
    have hbehind : op.stop ≤ second.index := (List.pairwise_cons.mp hlater).1 second (by simp)
    have hop := (hT.placed op (by simp)).index_lt_stop
    have hsecond := (hT.placed second (by simp)).index_lt_stop
    simp only [compound?] at hc
    split at hc
    · next hk =>
      split at hc
      · split at hc
        · cases hc
          obtain ⟨-, -, rfl, -⟩ := Statement.assign.inj hv
          exact ⟨op, _, rfl, by simp, hk.1, .step, Int.lt_of_lt_of_le hop hbehind⟩
        · cases hc
      · split at hc
        · cases hc
          obtain ⟨-, -, rfl, -⟩ := Statement.assign.inj hv
          refine ⟨op, _, rfl, by simp, hk.1, .bracket, ?_⟩
          show op.index < ((line rest).1.head?.map index).getD second.stop
          cases hhead : (line rest).1.head? with
          | none =>
            show op.index < second.stop
            omega
          | some y =>
            have hy : y ∈ rest := line_subset rest (List.mem_of_mem_head? hhead)
            have hafter : second.stop ≤ y.index :=
              (List.pairwise_cons.mp (List.pairwise_cons.mp hlater).2).1 y hy
            show op.index < y.index
            omega
        · cases hc
    · cases hc

theorem Token.IsFrontEnd.spread (h : IsFrontEnd T) : Spread T := by
  cases h with
  | level hF hL hT => exact (hL.spread (groupAll_forestOf hF)).sublist hT
  | @compound _ _ _ _ _ F L rest _ name _ _ _ hF hL hT hn hc hv =>
    have hforest := groupAll_forestOf hF
    have hspread := (hL.spread hforest).sublist hT
    obtain ⟨op, x, rfl, hop, hk, ho, hx⟩ :=
      Statement.compound_value ((hL.ordered hforest.ordered).sublist hT) hc hv
    have hpair : [name, op].Sublist (name :: rest) :=
      (List.singleton_sublist.mpr hop).cons_cons name
    exact (hspread.sublist hpair).withOperand (kind_of_isName hn) hk ho hx

/-- Only words and parentheses are rewritten, the calls taken apart and the letters joined are the
tokens again, the words that are left are short, the word in front of a parenthesis calls exactly if
it touches it and names a function, and rewriting again changes nothing. -/
theorem Token.splitWords_faithful (isFunction : String → Bool) (hT : IsFrontEnd T) :
    (splitWords isFunction T).filter (fun t => t.isOther && !isNewCall T t) = T.filter isOther ∧
    joinWords ((splitWords isFunction T).flatMap (unfuse (isNewCall T))) = T ∧
    (∀ t ∈ splitWords isFunction T, t.kind = .word → t.value.length = 1 ∨ t.value ∈ keywords) ∧
    (∀ before g behind n, T = before ++ g :: behind → g.isParenthesized = true →
      (fuse n g ∈ splitWords isFunction T ↔ Calls isFunction before g n)) ∧
    splitWords isFunction (splitWords isFunction T) = splitWords isFunction T := by
  have hspread := hT.spread
  have hrewrites : Rewrites isFunction T (splitWords isFunction T) := splitWords_rewrites hspread
  have hnew := Tells.isNewCall hspread
  refine ⟨hrewrites.filter_other hspread hnew, hrewrites.joined hspread hnew, hrewrites.short,
    fun before g behind n heq hp => hrewrites.call_iff hspread hp heq, ?_⟩
  have hlong : splitLong isFunction (splitWords isFunction T) = splitWords isFunction T :=
    splitLong_of_all_short hrewrites.short
  rw [splitWords_eq (splitWords isFunction T), hlong, splitWords_eq, fuseAll_fuseAll]

/-- A call by the last letter of a word, one by a whole word, and words that call nothing. -/
def spelled : String :=
  "abf(x) + sin(2) * pi (3)"

theorem spelled_rewritten :
    let isFunction := fun name => name == "f" || name == "sin" || name == "i"
    ∃ T, IsFrontEnd T ∧ T.map value = ["abf", "(x)", "+", "sin", "(2)", "*", "pi", "(3)"] ∧
      (splitWords isFunction T).map value = ["a", "b", "f(x)", "+", "sin(2)", "*", "p", "i", "(3)"] ∧
      joinWords ((splitWords isFunction T).flatMap (unfuse (isNewCall T))) = T ∧
      splitWords isFunction (splitWords isFunction T) = splitWords isFunction T := by
  intro isFunction
  have hvalues : (groupAll spelled true (scan spelled)).toOption.map
      (fun T => (T.map value, (splitWords isFunction T).map value)) =
      some (["abf", "(x)", "+", "sin", "(2)", "*", "pi", "(3)"],
        ["a", "b", "f(x)", "+", "sin(2)", "*", "p", "i", "(3)"]) := by decide +kernel
  cases hg : groupAll spelled true (scan spelled) with
  | error f =>
    rw [hg] at hvalues
    cases hvalues
  | ok T =>
    rw [hg] at hvalues
    obtain ⟨hbefore, hafter⟩ := Prod.mk.inj (Option.some.inj hvalues)
    have hfront : IsFrontEnd T := .level hg (.here T) (List.Sublist.refl T)
    obtain ⟨-, hjoined, -, -, htwice⟩ := splitWords_faithful isFunction hfront
    exact ⟨T, hfront, hbefore, hafter, hjoined, htwice⟩

end Source

end Abacus
