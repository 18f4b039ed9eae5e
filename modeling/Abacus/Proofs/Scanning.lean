import Abacus.Proofs.Literals

/-! What a scan makes of a source, offset by offset. The spans of its tokens follow each other, their
texts are what the source has there, and what lies outside all of them is blank or a comment. -/

namespace Abacus

open Token Text

/-- A blank that ends no line. -/
def Text.isGap (c : Char) : Bool :=
  c ≠ '\n' && isBlank c

section Slices

variable {cs : List Char} {a b c : Int}

theorem sliceChars_eq (ha : 0 ≤ a) (hab : a ≤ b) (hb : b ≤ cs.length) :
    sliceChars cs a b = (cs.drop a.toNat).take (b.toNat - a.toNat) := by
  have hstart : position cs.length a = a.toNat := by
    simp only [position]
    split <;> omega
  have hstop : position cs.length b = b.toNat := by
    simp only [position]
    split <;> omega
  simp only [sliceChars, hstart, hstop]

theorem getElem?_sliceChars (ha : 0 ≤ a) (hab : a ≤ b) (hb : b ≤ cs.length) (k : Nat) :
    (sliceChars cs a b)[k]? = if a + k < b then cs[a.toNat + k]? else none := by
  rw [sliceChars_eq ha hab hb, List.getElem?_take]
  by_cases hk : a + k < b
  · have hlt : k < b.toNat - a.toNat := by omega
    rw [if_pos hk, if_pos hlt, List.getElem?_drop]
  · have hge : ¬ k < b.toNat - a.toNat := by omega
    rw [if_neg hk, if_neg hge]

theorem length_sliceChars (ha : 0 ≤ a) (hab : a ≤ b) (hb : b ≤ cs.length) :
    (sliceChars cs a b).length = b.toNat - a.toNat := by
  rw [sliceChars_eq ha hab hb]
  simp
  omega

theorem sliceChars_append (ha : 0 ≤ a) (hab : a ≤ b) (hbc : b ≤ c) (hc : c ≤ cs.length) :
    sliceChars cs a c = sliceChars cs a b ++ sliceChars cs b c := by
  refine List.ext_getElem? (fun k => ?_)
  have hlen := length_sliceChars ha hab (Int.le_trans hbc hc)
  rw [List.getElem?_append, getElem?_sliceChars ha (by omega) hc,
    getElem?_sliceChars ha hab (by omega), getElem?_sliceChars (by omega) hbc hc, hlen]
  by_cases hk : k < b.toNat - a.toNat
  · rw [if_pos hk, if_pos (by omega), if_pos (by omega)]
  · rw [if_neg hk]
    have hsum : b.toNat + (k - (b.toNat - a.toNat)) = a.toNat + k := by omega
    rw [hsum]
    by_cases hkc : a + k < c
    · rw [if_pos hkc, if_pos (by omega)]
    · rw [if_neg hkc, if_neg (by omega)]

theorem mem_sliceChars {x : Char} (ha : 0 ≤ a) (hab : a ≤ b) (hb : b ≤ cs.length) :
    x ∈ sliceChars cs a b ↔ ∃ i : Nat, a ≤ i ∧ (i : Int) < b ∧ cs[i]? = some x := by
  rw [List.mem_iff_getElem?]
  constructor
  · rintro ⟨k, hk⟩
    rw [getElem?_sliceChars ha hab hb] at hk
    split at hk
    · next hlt => exact ⟨a.toNat + k, by omega, by omega, hk⟩
    · cases hk
  · rintro ⟨i, hai, hib, hi⟩
    refine ⟨i - a.toNat, ?_⟩
    have hsum : a.toNat + (i - a.toNat) = i := by omega
    rw [getElem?_sliceChars ha hab hb, hsum, if_pos (by omega), hi]

theorem head_sliceChars (ha : 0 ≤ a) (hab : a < b) (hb : b ≤ cs.length) :
    (sliceChars cs a b).head? = cs[a.toNat]? := by
  rw [List.head?_eq_getElem?, getElem?_sliceChars ha (by omega) hb, if_pos (by omega), Nat.add_zero]

theorem sliceChars_of_drop {n : Nat} {text rest : List Char} (h : cs.drop n = text ++ rest)
    (hn : n ≤ cs.length) : sliceChars cs n (n + text.length : Nat) = text := by
  have hlen := congrArg List.length h
  simp only [List.length_drop, List.length_append] at hlen
  rw [sliceChars_eq (by omega) (by omega) (by omega), Int.toNat_natCast, Int.toNat_natCast, h,
    Nat.add_sub_cancel_left, List.take_left]

theorem getElem?_of_drop {n : Nat} {text rest : List Char} (h : cs.drop n = text ++ rest) :
    cs[n + text.length]? = rest.head? := by
  rw [← List.getElem?_drop, h, List.getElem?_append_right (Nat.le_refl _), Nat.sub_self,
    List.head?_eq_getElem?]

end Slices

/-- The characters of the tokens of a kind, as they stand in the source. -/
def Kind.Spells : Kind → List Char → Prop
  | .operator, text =>
    ∃ c, isOperatorChar c ∧ text = [c] ∨ isComparisonChar c ∧ text = [c, '=']
  | .symbol, text => ∃ c, isSymbolChar c ∧ text = [c]
  | .integer, text => Digits text
  | .float, text =>
    ∃ whole fraction, (whole = [] ∨ Digits whole) ∧ Digits fraction ∧
      text.filter (!isGap ·) = whole ++ '.' :: fraction
  | .word, text => text ≠ [] ∧ text.head?.all (!·.isDigit) ∧ ∀ c ∈ text, isWordChar c
  | _, _ => False

/-- The value of a token with these characters: a number may be written with gaps and without the
digits before its dot. -/
def Kind.valueOf (kind : Kind) (text : List Char) : List Char :=
  if kind = .float then
    (if text.head? = some '.' then ['0'] else []) ++ text.filter (!isGap ·)
  else text

/-- No longer token could have been read when `next` stands behind the text. -/
structure Munched (kind : Kind) (text : List Char) (next : Option Char) : Prop where
  word : kind = .word → next.all (!isWordChar ·)
  digits : kind = .integer ∨ kind = .float → next.all (!·.isDigit)
  single : ∀ c, text = [c] → isComparisonChar c → next ≠ some '='

/-- A lexeme and the character behind it. -/
inductive Token.Lexeme.Reads : Lexeme → Option Char → Prop where
  | gap {text : List Char} {next : Option Char} (h : ∀ c ∈ text, isGap c) : Reads ⟨none, text⟩ next
  | comment {text : List Char} {next : Option Char} (h : ∀ c ∈ text, c ≠ '\n')
      (hn : next.all (· = '\n')) : Reads ⟨none, '#' :: text⟩ next
  | token {kind : Kind} {text : List Char} {next : Option Char} (h : kind.Spells text)
      (hk : kind ≠ .float) (hm : Munched kind text next) : Reads ⟨some kind, text⟩ next

theorem head_dropWhile (p : Char → Bool) (cs : List Char) : (cs.dropWhile p).head?.all (!p ·) := by
  have h := List.head?_dropWhile_not p cs
  cases hd : (cs.dropWhile p).head? with
  | none => rfl
  | some c =>
    rw [hd] at h
    simpa using h

theorem Munched.of_sign {kind : Kind} (hk : kind = .symbol ∨ kind = .operator) {text : List Char}
    {next : Option Char} (h : ∀ c, text = [c] → isComparisonChar c → next ≠ some '=') :
    Munched kind text next := by
  rcases hk with rfl | rfl <;> exact ⟨nofun, by simp, h⟩

theorem not_comparison {p : Char → Bool} (h : ['<', '>', '=', '!'].all (!p ·) = true) {c : Char}
    (hc : p c = true) : ¬ isComparisonChar c := by
  intro hcomparison
  have hm : c ∈ ['<', '>', '=', '!'] := by
    simpa [isComparisonChar, or_comm, or_left_comm] using hcomparison
  have hnot := List.all_eq_true.mp h c hm
  simp [hc] at hnot

/-- The longest lexeme at a place stops where no longer one could be read. -/
theorem first_reads (c : Char) (cs : List Char) :
    ∃ rest, c :: cs = (Lexeme.first c cs).text ++ rest ∧
      (Lexeme.first c cs).Reads rest.head? := by
  have hsplit : ∀ p : Char → Bool, c :: cs = (c :: cs.takeWhile p) ++ cs.dropWhile p :=
    fun p => by simp
  unfold Lexeme.first
  split
  · next hc =>
    subst hc
    refine ⟨_, hsplit _, .comment (fun d hd => ?_) ?_⟩
    · simpa using List.mem_takeWhile_imp hd
    · simpa using head_dropWhile (fun d => decide (d ≠ '\n')) cs
  split
  · next hc =>
    refine ⟨_, hsplit _, .gap (List.forall_mem_cons.mpr ⟨by simpa [isGap] using hc, fun d hd => ?_⟩)⟩
    simpa [isGap] using List.mem_takeWhile_imp hd
  split
  · next hc =>
    obtain ⟨hcomparison, hnext⟩ := hc
    obtain ⟨tail, rfl⟩ := List.head?_eq_some_iff.mp hnext
    exact ⟨tail, rfl, .token ⟨c, .inr ⟨hcomparison, rfl⟩⟩ (by simp) (.of_sign (.inr rfl) (by simp))⟩
  next hcomparison =>
  have hsingle : ∀ d, [c] = [d] → isComparisonChar d → cs.head? ≠ some '=' := by
    intro d hd hcmp hnext
    cases hd
    exact hcomparison ⟨hcmp, hnext⟩
  split
  · next hc => exact ⟨cs, rfl, .token ⟨c, .inl ⟨hc, rfl⟩⟩ (by simp) (.of_sign (.inr rfl) hsingle)⟩
  split
  · next hc => exact ⟨cs, rfl, .token ⟨c, hc, rfl⟩ (by simp) (.of_sign (.inl rfl) hsingle)⟩
  split
  · next hc =>
    have hdigits : Digits (c :: cs.takeWhile Char.isDigit) :=
      ⟨by simp, List.forall_mem_cons.mpr ⟨hc, fun d hd => List.mem_takeWhile_imp hd⟩⟩
    refine ⟨_, hsplit _, .token hdigits (by simp) ⟨nofun, fun _ => head_dropWhile _ cs, ?_⟩⟩
    intro d hd hcmp
    exact absurd hcmp (not_comparison (by decide) ((List.cons.inj hd).1 ▸ hc))
  · next hhash hblank hop hsym hdigit =>
    have hword : isWordChar c := by
      have hnl : c ≠ '\n' := by
        rintro rfl
        exact hsym (by decide)
      have hb : isBlank c = false := by simpa [hnl] using hblank
      simp [isWordChar, hb, hop, hsym, hhash]
    have hall : ∀ d ∈ c :: cs.takeWhile isWordChar, isWordChar d :=
      List.forall_mem_cons.mpr ⟨hword, fun d hd => List.mem_takeWhile_imp hd⟩
    refine ⟨_, hsplit _, .token ⟨by simp, by simpa using hdigit, hall⟩ (by simp)
      ⟨fun _ => head_dropWhile _ cs, by simp, ?_⟩⟩
    intro d hd hcmp
    exact absurd hcmp (not_comparison (by decide) ((List.cons.inj hd).1 ▸ hword))

/-- A character on the line of a `#` before it. -/
def InComment (cs : List Char) (i : Nat) : Prop :=
  ∃ j ≤ i, cs[j]? = some '#' ∧ ∀ k, j ≤ k → k ≤ i → cs[k]? ≠ some '\n'

def Token.Covers (t : Token) (i : Nat) : Prop :=
  t.index ≤ i ∧ (i : Int) < t.stop

/-- A token that was read from the characters it covers. -/
structure Lexed (cs : List Char) (t : Token) : Prop where
  start : 0 ≤ t.index
  proper : t.index < t.stop
  within : t.stop ≤ cs.length
  spells : t.kind.Spells (sliceChars cs t.index t.stop)
  value : t.value = String.ofList (t.kind.valueOf (sliceChars cs t.index t.stop))
  munched : Munched t.kind (sliceChars cs t.index t.stop) cs[t.stop.toNat]?

/-- Tokens in reverse that account for the first `n` characters. -/
structure Laid (cs : List Char) (n : Nat) (before : List Token) : Prop where
  lexed : ∀ t ∈ before, Lexed cs t
  pairwise : before.Pairwise (fun s t => t.Before s)
  bound : ∀ t ∈ before, t.stop ≤ n
  covered : ∀ i c, i < n → cs[i]? = some c →
    (∃ t ∈ before, t.Covers i) ∨ isGap c ∨ InComment cs i
  apart : ∀ t ∈ before, ∀ i, t.Covers i → ¬ InComment cs i
  finished : ∀ j < n, cs[j]? = some '#' → ∃ k, j < k ∧ k ≤ n ∧ (cs[k]?.all (· = '\n'))

theorem Kind.Spells.of_number {kind : Kind} {text : List Char} (h : kind.Spells text)
    (hk : kind = .integer ∨ kind = .float) : ∀ c ∈ text, isGap c ∨ c.isDigit ∨ c = '.' := by
  intro c hc
  rcases hk with rfl | rfl
  · exact .inr (.inl (h.2 c hc))
  · obtain ⟨whole, fraction, hw, hf, he⟩ := h
    by_cases hg : isGap c = true
    · exact .inl hg
    · have hm : c ∈ text.filter (!isGap ·) := List.mem_filter.mpr ⟨hc, by simpa using hg⟩
      rw [he] at hm
      rcases List.mem_append.mp hm with hm | hm
      · rcases hw with rfl | hw
        · cases hm
        · exact .inr (.inl (hw.2 c hm))
      · rcases List.mem_cons.mp hm with hm | hm
        · exact .inr (.inr hm)
        · exact .inr (.inl (hf.2 c hm))

theorem Kind.Spells.newline_notMem {kind : Kind} {text : List Char} (h : kind.Spells text)
    (hk : kind = .integer ∨ kind = .float) : '\n' ∉ text := by
  intro hm
  have hc := h.of_number hk _ hm
  revert hc
  decide

theorem Lexed.not_newline {cs : List Char} {t : Token} (h : Lexed cs t)
    (hk : t.kind = .integer ∨ t.kind = .float) : cs[t.index.toNat]? ≠ some '\n' := by
  intro hnl
  have hstart := h.start
  have hproper := h.proper
  have hm := (mem_sliceChars hstart (by omega) h.within).mpr ⟨_, by omega, by omega, hnl⟩
  exact h.spells.newline_notMem hk hm

theorem Kind.Spells.hash_notMem {kind : Kind} {text : List Char} (h : kind.Spells text) :
    '#' ∉ text := by
  intro hm
  cases kind with
  | symbol =>
    obtain ⟨c, hc, rfl⟩ := h
    obtain rfl := List.mem_singleton.mp hm
    exact absurd hc (by decide)
  | operator =>
    obtain ⟨c, ⟨hc, rfl⟩ | ⟨hc, rfl⟩⟩ := h
    · obtain rfl := List.mem_singleton.mp hm
      exact absurd hc (by decide)
    · simp only [List.mem_cons, List.not_mem_nil, or_false] at hm
      rcases hm with rfl | hm
      · exact absurd hc (by decide)
      · cases hm
  | integer =>
    have hc := h.of_number (.inl rfl) _ hm
    revert hc
    decide
  | float =>
    have hc := h.of_number (.inr rfl) _ hm
    revert hc
    decide
  | word => exact absurd (h.2.2 _ hm) (by decide)
  | group => exact h
  | call => exact h
  | other name unknown => exact h

theorem Munched.of_float {text : List Char} {next : Option Char} (h : Kind.Spells .float text)
    (hn : next.all (!·.isDigit)) : Munched .float text next := by
  refine ⟨nofun, fun _ => hn, ?_⟩
  rintro c rfl
  -- a number with a dot has at least the dot and a digit
  obtain ⟨whole, fraction, _, hf, he⟩ := h
  have hpos := List.length_pos_iff.mpr hf.1
  have hle := List.length_filter_le (!isGap ·) [c]
  simp only [he, List.length_append, List.length_cons, List.length_nil] at hle
  omega

theorem Digits.filter_gap {text : List Char} (h : Digits text) :
    text.filter (!isGap ·) = text := by
  refine List.filter_eq_self.mpr (fun c hc => ?_)
  have hd := toNat_of_isDigit (h.2 c hc)
  simp [isGap, isBlank]
  omega

namespace Laid

variable {cs : List Char} {n : Nat} {before rest : List Token} {s t : Token}

theorem nil (cs : List Char) : Laid cs 0 [] :=
  ⟨by simp, .nil, by simp, by omega, by simp, by omega⟩

/-- No comment is open behind the characters that are accounted for. -/
theorem not_inComment (h : Laid cs n before) {i : Nat} (hi : n ≤ i) (hlen : i < cs.length)
    (hfree : ∀ j, n ≤ j → j ≤ i → cs[j]? ≠ some '#') : ¬ InComment cs i := by
  rintro ⟨j, hji, hhash, hline⟩
  by_cases hjn : j < n
  · obtain ⟨k, hjk, hkn, hk⟩ := h.finished j hjn hhash
    have hkline := hline k (by omega) (by omega)
    have hklt : k < cs.length := by omega
    rw [List.getElem?_eq_getElem hklt] at hk hkline
    simp only [Option.all_some, decide_eq_true_eq] at hk
    exact hkline (congrArg some hk)
  · exact hfree j (by omega) hji hhash

theorem skip (h : Laid cs n before) {m : Nat} (hnm : n ≤ m)
    (hblank : ∀ i c, n ≤ i → i < m → cs[i]? = some c → isGap c ∨ InComment cs i)
    (hend : ∀ j, n ≤ j → j < m → cs[j]? = some '#' →
      ∃ k, j < k ∧ k ≤ m ∧ cs[k]?.all (· = '\n')) : Laid cs m before := by
  refine ⟨h.lexed, h.pairwise, fun t ht => ?_, fun i c him hc => ?_, h.apart, fun j hjm hhash => ?_⟩
  · have hb := h.bound t ht
    omega
  · by_cases hin : i < n
    · exact h.covered i c hin hc
    · exact .inr (hblank i c (by omega) him hc)
  · by_cases hjn : j < n
    · obtain ⟨k, hjk, hkn, hk⟩ := h.finished j hjn hhash
      exact ⟨k, hjk, by omega, hk⟩
    · exact hend j (by omega) hjm hhash

theorem push (h : Laid cs n before) (ht : Lexed cs t) (hi : t.index = n) {m : Nat}
    (hs : t.stop = m) : Laid cs m (t :: before) := by
  have hproper := ht.proper
  have hwithin := ht.within
  have hfree : ∀ j : Nat, n ≤ j → j < m → cs[j]? ≠ some '#' := by
    intro j hnj hjm hhash
    have hm := (mem_sliceChars ht.start (by omega) hwithin).mpr ⟨j, by omega, by omega, hhash⟩
    exact ht.spells.hash_notMem hm
  refine ⟨List.forall_mem_cons.mpr ⟨ht, h.lexed⟩, ?_, ?_, ?_, ?_, ?_⟩
  · refine List.pairwise_cons.mpr ⟨fun s hs => ?_, h.pairwise⟩
    have hb := h.bound s hs
    simp only [Before]
    omega
  · refine List.forall_mem_cons.mpr ⟨by omega, fun s hs => ?_⟩
    have hb := h.bound s hs
    omega
  · intro i c him hc
    by_cases hin : i < n
    · rcases h.covered i c hin hc with ⟨s, hs, hcov⟩ | hblank
      · exact .inl ⟨s, List.mem_cons_of_mem _ hs, hcov⟩
      · exact .inr hblank
    · exact .inl ⟨t, List.mem_cons_self, by simp only [Covers]; omega⟩
  · refine List.forall_mem_cons.mpr ⟨fun i hcov => ?_, h.apart⟩
    simp only [Covers] at hcov
    exact h.not_inComment (by omega) (by omega) (fun j hnj hji => hfree j hnj (by omega))
  · intro j hjm hhash
    by_cases hjn : j < n
    · obtain ⟨k, hjk, hkn, hk⟩ := h.finished j hjn hhash
      exact ⟨k, hjk, by omega, hk⟩
    · exact absurd hhash (hfree j (by omega) hjm)

theorem between (h : Laid cs n (t :: s :: rest)) {i : Nat} {c : Char} (hsi : s.stop ≤ i)
    (hit : (i : Int) < t.index) (hc : cs[i]? = some c) : isGap c ∨ InComment cs i := by
  have hproper := (h.lexed t List.mem_cons_self).proper
  have hbound := h.bound t List.mem_cons_self
  refine (h.covered i c (by omega) hc).resolve_left ?_
  rintro ⟨u, hu, hcov⟩
  simp only [Covers] at hcov
  rcases List.mem_cons.mp hu with rfl | hu
  · omega
  · rcases List.mem_cons.mp hu with rfl | hu
    · omega
    · have hbefore : u.stop ≤ s.index :=
        (List.pairwise_cons.mp (List.pairwise_cons.mp h.pairwise).2).1 u hu
      have hsproper := (h.lexed s (by simp)).proper
      omega

/-- There is no comment between two tokens that no newline parts: it would reach the second. -/
theorem not_inComment_between (h : Laid cs n (t :: s :: rest))
    (ht : cs[t.index.toNat]? ≠ some '\n') {i : Nat} (hsi : s.stop ≤ i)
    (hit : (i : Int) < t.index) : ¬ InComment cs i := by
  rintro ⟨j, hji, hhash, hline⟩
  have hproper := (h.lexed t List.mem_cons_self).proper
  refine absurd ⟨j, by omega, hhash, fun k hjk hkt hnl => ?_⟩
    (h.apart t List.mem_cons_self t.index.toNat (by simp only [Covers]; omega))
  by_cases hki : k ≤ i
  · exact hline k hjk hki hnl
  · by_cases hkt' : (k : Int) < t.index
    · rcases h.between (by omega) hkt' hnl with hg | ⟨_, _, _, hline'⟩
      · exact absurd hg (by decide)
      · exact hline' k (by omega) (Nat.le_refl k) hnl
    · have hk : k = t.index.toNat := by omega
      exact ht (hk ▸ hnl)

theorem gap_between (h : Laid cs n (t :: s :: rest)) (ht : cs[t.index.toNat]? ≠ some '\n')
    {i : Nat} {c : Char} (hsi : s.stop ≤ i) (hit : (i : Int) < t.index) (hc : cs[i]? = some c) :
    isGap c :=
  (h.between hsi hit hc).resolve_right (h.not_inComment_between ht hsi hit)

/-- What a token has without its gaps, when it takes the place of two. -/
theorem filter_join (h : Laid cs n (t :: s :: rest)) (ht : cs[t.index.toNat]? ≠ some '\n') :
    (sliceChars cs s.index t.stop).filter (!isGap ·) =
      (sliceChars cs s.index s.stop).filter (!isGap ·) ++
        (sliceChars cs t.index t.stop).filter (!isGap ·) := by
  have hs := h.lexed s (by simp)
  have htop := h.lexed t List.mem_cons_self
  have hsproper := hs.proper
  have hproper := htop.proper
  have hstart := hs.start
  have hwithin := htop.within
  have hbefore : s.stop ≤ t.index := (List.pairwise_cons.mp h.pairwise).1 s List.mem_cons_self
  have hbetween : (sliceChars cs s.stop t.index).filter (!isGap ·) = [] := by
    refine List.filter_eq_nil_iff.mpr (fun c hc => ?_)
    obtain ⟨i, hsi, hit, hi⟩ := (mem_sliceChars (by omega) hbefore (by omega)).mp hc
    simpa using h.gap_between ht hsi hit hi
  rw [sliceChars_append hstart (b := s.stop) (by omega) (by omega) htop.within,
    sliceChars_append (b := t.index) (by omega) hbefore (by omega) htop.within]
  simp only [List.filter_append, hbetween, List.nil_append]

theorem join (h : Laid cs n (t :: s :: rest)) (ht : cs[t.index.toNat]? ≠ some '\n') {u : Token}
    (hu : Lexed cs u) (hi : u.index = s.index) (hs : u.stop = t.stop) : Laid cs n (u :: rest) := by
  obtain ⟨hlt, hls, hlrest⟩ := by simpa only [List.forall_mem_cons] using h.lexed
  obtain ⟨hbt, hbs, hbrest⟩ := by simpa only [List.forall_mem_cons] using h.bound
  obtain ⟨hat, has, harest⟩ := by simpa only [List.forall_mem_cons] using h.apart
  obtain ⟨hpt, hps⟩ := List.pairwise_cons.mp h.pairwise
  obtain ⟨hps, hprest⟩ := List.pairwise_cons.mp hps
  have hbefore : s.stop ≤ t.index := hpt s List.mem_cons_self
  have htproper := hlt.proper
  have hsproper := hls.proper
  refine ⟨List.forall_mem_cons.mpr ⟨hu, hlrest⟩, ?_, List.forall_mem_cons.mpr ⟨by omega, hbrest⟩,
    ?_, List.forall_mem_cons.mpr ⟨?_, harest⟩, h.finished⟩
  · refine List.pairwise_cons.mpr ⟨fun v hv => ?_, hprest⟩
    have hv := hps v hv
    simp only [Before] at hv ⊢
    omega
  · intro i c hin hc
    rcases h.covered i c hin hc with ⟨v, hv, hcov⟩ | hblank
    · refine .inl ?_
      simp only [Covers] at hcov
      rcases List.mem_cons.mp hv with rfl | hv
      · exact ⟨u, List.mem_cons_self, by simp only [Covers]; omega⟩
      · rcases List.mem_cons.mp hv with rfl | hv
        · exact ⟨u, List.mem_cons_self, by simp only [Covers]; omega⟩
        · exact ⟨v, List.mem_cons_of_mem _ hv, hcov⟩
    · exact .inr hblank
  · intro i hcov hcomment
    simp only [Covers] at hcov
    by_cases his : (i : Int) < s.stop
    · exact has i (by simp only [Covers]; omega) hcomment
    · by_cases hit : t.index ≤ i
      · exact hat i (by simp only [Covers]; omega) hcomment
      · exact h.not_inComment_between ht (by omega) (by omega) hcomment

/-- Two tokens that make a number make one token. -/
theorem number (h : Laid cs n (t :: s :: rest)) (hk : t.kind = .integer ∨ t.kind = .float)
    {whole fraction : List Char} (hw : whole = [] ∨ Digits whole) (hf : Digits fraction)
    (he : (sliceChars cs s.index s.stop).filter (!isGap ·) ++
      (sliceChars cs t.index t.stop).filter (!isGap ·) = whole ++ '.' :: fraction) {value : String}
    (hv : value = String.ofList ((if cs[s.index.toNat]? = some '.' then ['0'] else []) ++
      (whole ++ '.' :: fraction))) : Laid cs n (.leaf .float value s.index t.stop :: rest) := by
  have hs := h.lexed s (by simp)
  have ht := h.lexed t List.mem_cons_self
  have hsproper := hs.proper
  have htproper := ht.proper
  have hstart := hs.start
  have hbefore : s.stop ≤ t.index := (List.pairwise_cons.mp h.pairwise).1 s List.mem_cons_self
  have hnewline := ht.not_newline hk
  have hdense := (h.filter_join hnewline).trans he
  have hhead := head_sliceChars (b := t.stop) hstart (by omega) ht.within
  have hspells : Kind.Spells .float (sliceChars cs s.index t.stop) := ⟨_, _, hw, hf, hdense⟩
  refine h.join hnewline ⟨hstart, ?_, ht.within, hspells, ?_, ?_⟩ rfl rfl
  · show s.index < t.stop
    omega
  · show value = String.ofList (Kind.valueOf .float (sliceChars cs s.index t.stop))
    rw [Kind.valueOf, if_pos rfl, hhead, hdense, hv]
  · exact .of_float hspells (ht.munched.digits hk)

end Laid

theorem Lexed.of_single {cs : List Char} {t : Token} (h : Lexed cs t) {c : Char}
    (hv : t.value = String.ofList [c]) : sliceChars cs t.index t.stop = [c] := by
  have htext := String.ofList_inj.mp (h.value.symm.trans hv)
  by_cases hk : t.kind = .float
  · -- a number with a dot has digits as well
    obtain ⟨whole, fraction, _, hf, he⟩ := hk ▸ h.spells
    have hpos := List.length_pos_iff.mpr hf.1
    have hlen := congrArg List.length htext
    simp only [Kind.valueOf, if_pos hk, he, List.length_append, List.length_cons,
      List.length_nil] at hlen
    omega
  · simpa only [Kind.valueOf, if_neg hk] using htext

theorem Lexed.of_integer {cs : List Char} {t : Token} (h : Lexed cs t) (hk : t.kind = .integer) :
    Digits (sliceChars cs t.index t.stop) ∧
      t.value = String.ofList (sliceChars cs t.index t.stop) := by
  have hs := h.spells
  have hv := h.value
  rw [hk] at hs hv
  exact ⟨hs, hv⟩

/-- Digits behind a dot make a number with it. -/
theorem Laid.dotted {cs : List Char} {n : Nat} {rest : List Token} {dot t : Token}
    (h : Laid cs n (t :: dot :: rest)) (hk : t.kind = .integer) (hd : dot.value = ".") :
    Laid cs n (.leaf .float ("0." ++ t.value) dot.index t.stop :: rest) := by
  have hdot := h.lexed dot (by simp)
  have ht := h.lexed t List.mem_cons_self
  obtain ⟨hdigits, hv⟩ := ht.of_integer hk
  have htext := hdot.of_single hd
  have hfirst := head_sliceChars hdot.start hdot.proper hdot.within
  rw [htext] at hfirst
  refine h.number (.inl hk) (.inl rfl) hdigits ?_ ?_
  · rw [htext, hdigits.filter_gap]
    rfl
  · rw [← hfirst, hv]
    simp [← String.toList_inj]

/-- Digits in front of a number that starts with its dot are its whole part. -/
theorem Laid.whole {cs : List Char} {n : Nat} {rest : List Token} {whole dot t : Token}
    (h : Laid cs n (t :: dot :: whole :: rest)) (hk : t.kind = .integer) (hd : dot.value = ".")
    (hw : whole.kind = .integer) :
    Laid cs n (.leaf .float (whole.value ++ "." ++ t.value) whole.index t.stop :: rest) := by
  have hdot := h.lexed dot (by simp)
  have hwhole := h.lexed whole (by simp)
  have ht := h.lexed t List.mem_cons_self
  obtain ⟨hdigits, hv⟩ := ht.of_integer hk
  obtain ⟨hwdigits, hwv⟩ := hwhole.of_integer hw
  have hdense := h.filter_join (ht.not_newline (.inl hk))
  have hfirst := head_sliceChars hwhole.start hwhole.proper hwhole.within
  have hplain : cs[whole.index.toNat]? ≠ some '.' := by
    intro hpoint
    have hm := List.mem_of_mem_head? (hfirst.trans hpoint)
    exact absurd (hwdigits.2 _ hm) (by decide)
  refine (h.dotted hk hd).number (.inr rfl) (.inr hwdigits) hdigits ?_ ?_
  · show _ ++ (sliceChars cs dot.index t.stop).filter _ = _
    rw [hwdigits.filter_gap, hdense, hdot.of_single hd, hdigits.filter_gap]
    rfl
  · rw [if_neg hplain, hwv, hv]
    simp [← String.toList_inj]

theorem attach_laid {cs : List Char} {n m : Nat} {before : List Token} {t : Token}
    (h : Laid cs n before) (ht : Lexed cs t) (hi : t.index = n) (hs : t.stop = m) :
    Laid cs m (attach before t) := by
  have hpushed := h.push ht hi hs
  unfold attach
  split
  · next hk =>
    split
    · next dot whole rest =>
      split
      · next hdot =>
        split
        · next hw => exact hpushed.whole hk hdot hw
        · exact hpushed.dotted hk hdot
      · exact hpushed
    · next dot =>
      split
      · next hdot => exact hpushed.dotted hk hdot
      · exact hpushed
    · exact hpushed
  · exact hpushed

theorem lexemesFrom_drop (skip : Nat) (cs : List Char) :
    lexemesFrom skip cs = lexemes (cs.drop skip) := by
  induction cs generalizing skip with
  | nil => cases skip <;> rfl
  | cons c cs ih =>
    cases skip with
    | zero => rfl
    | succ skip => exact ih skip

theorem Lexed.of_drop {cs : List Char} {n : Nat} {kind : Kind} {text rest : List Char}
    (hdrop : cs.drop n = text ++ rest) (hn : n ≤ cs.length) (hne : text ≠ [])
    (hspells : kind.Spells text) (hk : kind ≠ .float) (hm : Munched kind text rest.head?) :
    Lexed cs (.leaf kind (String.ofList text) n (n + text.length : Nat)) := by
  have hslice := sliceChars_of_drop hdrop hn
  have hpos := List.length_pos_iff.mpr hne
  have hlen := congrArg List.length hdrop
  simp only [List.length_drop, List.length_append] at hlen
  refine ⟨Int.natCast_nonneg n, ?_, ?_, ?_, ?_, ?_⟩
  · show (n : Int) < (n + text.length : Nat)
    omega
  · show ((n + text.length : Nat) : Int) ≤ cs.length
    omega
  · show kind.Spells (sliceChars cs n (n + text.length : Nat))
    rwa [hslice]
  · show String.ofList text = String.ofList (kind.valueOf (sliceChars cs n (n + text.length : Nat)))
    rw [Kind.valueOf, if_neg hk, hslice]
  · show Munched kind (sliceChars cs n (n + text.length : Nat)) cs[n + text.length]?
    rwa [hslice, getElem?_of_drop hdrop]

/-- What is read next is skipped or becomes a token. -/
theorem lexeme_laid {cs : List Char} {n : Nat} {before : List Token} {l : Lexeme}
    {rest : List Char} (h : Laid cs n before) (hn : n ≤ cs.length)
    (hdrop : cs.drop n = l.text ++ rest) (hne : l.text ≠ []) (hl : l.Reads rest.head?) :
    Laid cs (n + l.text.length) ((place n [l]).foldl attach before) := by
  have hlen := congrArg List.length hdrop
  simp only [List.length_drop, List.length_append] at hlen
  have hslice := sliceChars_of_drop hdrop hn
  have hmem : ∀ i c, n ≤ i → i < n + l.text.length → cs[i]? = some c → c ∈ l.text := by
    intro i c hni hi hc
    rw [← hslice]
    exact (mem_sliceChars (by omega) (by omega) (by omega)).mpr ⟨i, by omega, by omega, hc⟩
  cases hl with
  | gap hgap =>
    refine h.skip (by omega) (fun i c hni hi hc => .inl (hgap c (hmem i c hni hi hc))) ?_
    intro j hnj hj hhash
    exact absurd (hgap _ (hmem j _ hnj hj hhash)) (by decide)
  | @comment text _ hline hend =>
    have hhash : cs[n]? = some '#' := by
      have hfirst : (cs.drop n)[0]? = some '#' := by rw [hdrop]; rfl
      simpa using hfirst
    refine h.skip (by omega) (fun i c hni hi hc => .inr ⟨n, hni, hhash, ?_⟩) ?_
    · intro k hnk hki hnl
      rcases List.mem_cons.mp (hmem k _ hnk (by omega) hnl) with hm | hm
      · cases hm
      · exact hline _ hm rfl
    · intro j _ hj _
      exact ⟨_, hj, Nat.le_refl _, (getElem?_of_drop hdrop) ▸ hend⟩
  | token hspells hk hm =>
    exact attach_laid h (.of_drop hdrop hn hne hspells hk hm) rfl rfl

theorem place_cons (n : Nat) (l : Lexeme) (L : List Lexeme) :
    place n (l :: L) = place n [l] ++ place (n + l.text.length) L := by
  obtain ⟨kind, text⟩ := l
  cases kind <;> rfl

/-- The scan of what is left accounts for the whole source. -/
theorem place_laid {cs : List Char} {n : Nat} {before : List Token} (hn : n ≤ cs.length)
    (h : Laid cs n before) :
    Laid cs cs.length ((place n (lexemes (cs.drop n))).foldl attach before) := by
  induction hm : cs.length - n using Nat.strong_induction_on generalizing n before
  next m ih =>
  cases hd : cs.drop n with
  | nil =>
    have hlen := congrArg List.length hd
    simp only [List.length_drop, List.length_nil] at hlen
    have heq : n = cs.length := by omega
    exact heq ▸ h
  | cons c tail =>
    obtain ⟨rest, hsplit, hreads⟩ := first_reads c tail
    have hne := first_text_ne_nil c tail
    generalize hl : Lexeme.first c tail = l at hsplit hreads hne
    have hpos := List.length_pos_iff.mpr hne
    have hdrop := hd.trans hsplit
    have hlen := congrArg List.length hdrop
    simp only [List.length_drop, List.length_append] at hlen
    have htail : lexemes (c :: tail) = l :: lexemes (cs.drop (n + l.text.length)) := by
      have hcons : lexemes (c :: tail) = l :: lexemesFrom (l.text.length - 1) tail := by
        simp only [lexemes, lexemesFrom, hl]
      have hskip : tail.drop (l.text.length - 1) = cs.drop (n + l.text.length) := by
        rw [← List.drop_drop, hd, ← List.drop_succ_cons (a := c), Nat.sub_add_cancel hpos]
      rw [hcons, lexemesFrom_drop, hskip]
    rw [htail, place_cons, List.foldl_append]
    exact ih _ (by omega) (by omega) (lexeme_laid h hn hdrop hne hreads) rfl

theorem scan_laid (source : String) :
    Laid source.toList source.toList.length (scan source).reverse := by
  have h := place_laid (Nat.zero_le _) (Laid.nil source.toList)
  simpa only [scan, List.reverse_reverse, List.drop_zero] using h

theorem scan_outside {source : String} {i : Nat} {c : Char} (hc : source.toList[i]? = some c)
    (h : ∀ t ∈ scan source, ¬ t.Covers i) : isGap c ∨ InComment source.toList i := by
  obtain ⟨hlt, _⟩ := List.getElem?_eq_some_iff.mp hc
  refine ((scan_laid source).covered i c hlt hc).resolve_left ?_
  rintro ⟨t, ht, hcov⟩
  exact h t (List.mem_reverse.mp ht) hcov

/-- Tokens that cover a source exactly. -/
structure CoversExactly (source : String) (tokens : List Token) : Prop where
  spans : ∀ t ∈ tokens, 0 ≤ t.index ∧ t.index < t.stop ∧ t.stop ≤ source.length
  follow : tokens.Pairwise (fun s t => s.index < t.index ∧ s.stop ≤ t.index)
  text : ∀ t ∈ tokens, t.kind ≠ .float → t.value = slice source t.index t.stop
  number : ∀ t ∈ tokens, t.kind = .float → t.value =
    (if source.toList[t.index.toNat]? = some '.' then "0" else "") ++
      String.ofList ((sliceChars source.toList t.index t.stop).filter (!isGap ·))
  spelled : ∀ t ∈ tokens, t.kind.Spells (sliceChars source.toList t.index t.stop)
  outside : ∀ i c, source.toList[i]? = some c → (∀ t ∈ tokens, ¬ t.Covers i) →
    isGap c ∨ InComment source.toList i
  comments : ∀ i, InComment source.toList i → ∀ t ∈ tokens, ¬ t.Covers i
  words : ∀ t ∈ tokens, t.kind = .word → ∀ c, source.toList[t.stop.toNat]? = some c → ¬ isWordChar c
  digits : ∀ t ∈ tokens, t.kind = .integer ∨ t.kind = .float →
    ∀ c, source.toList[t.stop.toNat]? = some c → ¬ c.isDigit
  comparisons : ∀ t ∈ tokens, t.value ∈ ["<", ">", "=", "!"] →
    source.toList[t.stop.toNat]? ≠ some '='

theorem scan_covers_exactly (source : String) : CoversExactly source (scan source) := by
  have h := scan_laid source
  have hlexed : ∀ t ∈ scan source, Lexed source.toList t :=
    fun t ht => h.lexed t (List.mem_reverse.mpr ht)
  constructor
  case spans =>
    intro t ht
    have hl := hlexed t ht
    exact ⟨hl.start, hl.proper, hl.within⟩
  case follow =>
    refine (List.pairwise_reverse.mp h.pairwise).imp_of_mem (fun hs _ hst => ?_)
    have hproper := (hlexed _ hs).proper
    simp only [Before] at hst
    exact ⟨by omega, hst⟩
  case text =>
    intro t ht hk
    have hv := (hlexed t ht).value
    rwa [Kind.valueOf, if_neg hk] at hv
  case number =>
    intro t ht hk
    have hl := hlexed t ht
    rw [hl.value, Kind.valueOf, if_pos hk, head_sliceChars hl.start hl.proper hl.within]
    split <;> simp
  case spelled => exact fun t ht => (hlexed t ht).spells
  case outside => exact fun i c hc hout => scan_outside hc hout
  case comments =>
    intro i hcomment t ht hcov
    exact h.apart t (List.mem_reverse.mpr ht) i hcov hcomment
  case words =>
    intro t ht hk c hc
    have hnext := (hlexed t ht).munched.word hk
    rw [hc] at hnext
    simpa using hnext
  case digits =>
    intro t ht hk c hc
    have hnext := (hlexed t ht).munched.digits hk
    rw [hc] at hnext
    simpa using hnext
  case comparisons =>
    intro t ht hv
    have hl := hlexed t ht
    have hsingle : ∀ c, t.value = String.ofList [c] → isComparisonChar c →
        source.toList[t.stop.toNat]? ≠ some '=' :=
      fun c hc => hl.munched.single c (hl.of_single hc)
    simp only [List.mem_cons, List.not_mem_nil, or_false] at hv
    rcases hv with hv | hv | hv | hv
    · exact hsingle '<' hv (by decide)
    · exact hsingle '>' hv (by decide)
    · exact hsingle '=' hv (by decide)
    · exact hsingle '!' hv (by decide)

end Abacus
