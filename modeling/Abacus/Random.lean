import Abacus.Number.Root

/-! A generator of pseudo-random numbers with 624 words of state, and the numbers drawn from it. -/

namespace Abacus

/-- The words, and how many of them were given out since they were last renewed. -/
structure Generator where
  words : Array UInt32
  used : Nat

namespace Generator

def size : Nat := 624

def word (words : Array UInt32) (i : Nat) : UInt32 :=
  words.getD i 0

def spread (first : UInt32) : Array UInt32 :=
  (List.range (size - 1)).foldl (fun ws i =>
    let w := word ws i
    ws.push ((1812433253 : UInt32) * (w ^^^ (w >>> 30)) + UInt32.ofNat (i + 1))) #[first]

/-- The next place to mix; after the last one the first word is renewed. -/
def advance (ws : Array UInt32) (i : Nat) : Array UInt32 × Nat :=
  if size ≤ i + 1 then (ws.setIfInBounds 0 (word ws (size - 1)), 1) else (ws, i + 1)

def mixKey (key : Array UInt32) : Nat → Array UInt32 → Nat → Nat → Array UInt32 × Nat
  | 0, ws, i, _ => (ws, i)
  | steps + 1, ws, i, j =>
    let before := word ws (i - 1)
    let w := (word ws i ^^^ ((before ^^^ (before >>> 30)) * 1664525)) + word key j + UInt32.ofNat j
    let (ws, i) := advance (ws.setIfInBounds i w) i
    mixKey key steps ws i (if key.size ≤ j + 1 then 0 else j + 1)

def mixOn : Nat → Array UInt32 → Nat → Array UInt32
  | 0, ws, _ => ws
  | steps + 1, ws, i =>
    let before := word ws (i - 1)
    let w := (word ws i ^^^ ((before ^^^ (before >>> 30)) * 1566083941)) - UInt32.ofNat i
    let (ws, i) := advance (ws.setIfInBounds i w) i
    mixOn steps ws i

def ofKey (key : Array UInt32) : Generator :=
  let (ws, i) := mixKey key (max size key.size) (spread 19650218) 1 0
  ⟨(mixOn (size - 1) ws i).setIfInBounds 0 0x80000000, size⟩

/-- The 32-bit words of a number, the lowest first; zero has one. -/
def wordsOf (n : Nat) : List UInt32 :=
  (List.range (max 1 ((Number.bitLength n + 31) / 32))).map
    (fun i => UInt32.ofNat (n / Number.twoPow (32 * i)))

/-- A generator for a seed; the sign of the seed does not matter. -/
def ofSeed (seed : Int) : Generator :=
  ofKey (wordsOf seed.natAbs).toArray

def renewedWord (ws : Array UInt32) (i : Nat) : UInt32 :=
  let y := (word ws i &&& 0x80000000) ||| (word ws ((i + 1) % size) &&& 0x7fffffff)
  word ws ((i + 397) % size) ^^^ (y >>> 1) ^^^ (if y &&& 1 = 1 then 0x9908b0df else 0)

def renew (ws : Array UInt32) : Array UInt32 :=
  (List.range size).foldl (fun ws i => ws.setIfInBounds i (renewedWord ws i)) ws

def temper (w : UInt32) : UInt32 :=
  let y := w ^^^ (w >>> 11)
  let y := y ^^^ ((y <<< 7) &&& 0x9d2c5680)
  let y := y ^^^ ((y <<< 15) &&& 0xefc60000)
  y ^^^ (y >>> 18)

def next (g : Generator) : UInt32 × Generator :=
  if size ≤ g.used then
    let ws := renew g.words
    (temper (word ws 0), ⟨ws, 1⟩)
  else (temper (word g.words g.used), ⟨g.words, g.used + 1⟩)

/-- A number of `k` bits; words are taken from the lowest to the highest, and the last one gives
its upper bits. -/
def bitsFrom (shift : Nat) : Nat → Nat → Generator → Nat × Generator
  | 0, _, g => (0, g)
  | fuel + 1, k, g =>
    let (w, g) := g.next
    if k ≤ 32 then ((w.toNat / Number.twoPow (32 - k)) * Number.twoPow shift, g)
    else
      let (high, g) := bitsFrom (shift + 32) fuel (k - 32) g
      (w.toNat * Number.twoPow shift + high, g)

def bits (k : Nat) (g : Generator) : Nat × Generator :=
  bitsFrom 0 (k + 1) k g

/-- Draws until a number is below `m`. -/
def belowFrom (m k : Nat) : Nat → Generator → Nat × Generator
  | 0, g => (0, g)
  | fuel + 1, g =>
    let (n, g) := g.bits k
    if n < m then (n, g) else belowFrom m k fuel g

/-- A number below `m`. Each draw is below `m` with a chance of at least one half, so the bound on
the number of draws is never met. -/
def below (m : Nat) (g : Generator) : Nat × Generator :=
  belowFrom m (Number.bitLength m) 100000 g

/-- The numerator of a number from 0 up to 1 with the denominator `2 ^ 53`. -/
def unit (g : Generator) : Nat × Generator :=
  let (a, g) := g.next
  let (b, g) := g.next
  ((a >>> 5).toNat * 67108864 + (b >>> 6).toNat, g)

end Generator

end Abacus
