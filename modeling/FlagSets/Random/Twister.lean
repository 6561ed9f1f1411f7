/-!
# The Mersenne twister

The generator of 32-bit words with a state of 624 words, in its standard parameters. A state is
seeded from an integer through the words of its magnitude, and hands out one tempered word after
another, twisting the whole state each time all its words are used.
-/

namespace FlagSets

/-- A twister: its words and how many of them are used up. -/
structure Twister where
  words : Vector UInt32 624
  used : Nat

namespace Twister

/-- The word that a step of the seeding recurrences starts from. -/
def mixed (x : UInt32) : UInt32 := x ^^^ (x >>> 30)

/-- The state grown from a single word. -/
def ofWord (s : UInt32) : Vector UInt32 624 :=
  Fin.foldl 623 (fun words (i : Fin 623) =>
      words.set (i + 1) (1812433253 * mixed words[i] + UInt32.ofNat (i + 1)))
    (Vector.replicate 624 s)

/-- The words of a natural number, least significant first; zero has one. -/
def wordsOf (n : Nat) : List UInt32 :=
  (List.range (max 1 ((n.log2 + 32) / 32))).map fun i => UInt32.ofNat (n >>> (32 * i))

/-- The position that follows in the cycle of positions `1 … 623`, the last word being carried to
the front when the cycle starts over. -/
def advance (words : Vector UInt32 624) (i : Fin 624) : Vector UInt32 624 × Fin 624 :=
  if i = 623 then (words.set 0 words[623], 1) else (words, i + 1)

/-- One step that mixes a word of the key into the state. -/
def mixKey (key : Array UInt32) (s : Vector UInt32 624 × Fin 624) (step : Nat) :
    Vector UInt32 624 × Fin 624 :=
  let (words, i) := s
  let j := step % key.size
  let word := (words[i] ^^^ (mixed words[i - 1] * 1664525)) + key.getD j 0 + UInt32.ofNat j
  advance (words.set i word) i

/-- One step that mixes the state with itself. -/
def mixSelf (s : Vector UInt32 624 × Fin 624) : Vector UInt32 624 × Fin 624 :=
  let (words, i) := s
  let word := (words[i] ^^^ (mixed words[i - 1] * 1566083941)) - UInt32.ofNat i
  advance (words.set i word) i

/-- The twister seeded with an integer. The sign of the seed does not matter. -/
def ofSeed (seed : Int) : Twister :=
  let key := (wordsOf seed.natAbs).toArray
  let start := (ofWord 19650218, (1 : Fin 624))
  let keyed := (List.range (max 624 key.size)).foldl (mixKey key) start
  let done := (List.range 623).foldl (fun s _ => mixSelf s) keyed
  ⟨done.1.set 0 0x80000000, 624⟩

/-- The state with every word twisted. -/
def twist (words : Vector UInt32 624) : Vector UInt32 624 :=
  Fin.foldl 624 (fun words (i : Fin 624) =>
      let y := (words[i] &&& 0x80000000) ||| (words[i + 1] &&& 0x7fffffff)
      let flip : UInt32 := if y &&& 1 = 0 then 0 else 0x9908b0df
      words.set i (words[i + 397] ^^^ (y >>> 1) ^^^ flip))
    words

/-- A word of the state as it is handed out. -/
def temper (y : UInt32) : UInt32 :=
  let y := y ^^^ (y >>> 11)
  let y := y ^^^ ((y <<< 7) &&& 0x9d2c5680)
  let y := y ^^^ ((y <<< 15) &&& 0xefc60000)
  y ^^^ (y >>> 18)

/-- The next word, and the twister after it. -/
def next (t : Twister) : UInt32 × Twister :=
  if h : t.used < 624 then (temper t.words[t.used], { t with used := t.used + 1 })
  else
    let words := twist t.words
    (temper words[0], ⟨words, 1⟩)

/-- The next `k` bits as a number. Up to 32 of them are the top bits of one word; more are whole
words, least significant first, the last one shifted to the bits that are left. -/
def bits (k : Nat) (t : Twister) : Nat × Twister :=
  if k = 0 then (0, t)
  else if k ≤ 32 then
    let (word, t) := t.next
    (word.toNat >>> (32 - k), t)
  else
    let (word, t) := t.next
    let (rest, t) := bits (k - 32) t
    (word.toNat + rest <<< 32, t)

end Twister

end FlagSets
