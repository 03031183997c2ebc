/-!
# Text as characters

Byte offsets, byte slices and lines of a text, as functions on its list of characters. Offsets count
bytes of the UTF-8 form; a slice exists only between character boundaries.
-/

namespace TreeWalk.Text

/-- Bytes of the UTF-8 form of `cs`. -/
def byteLength (cs : List Char) : Nat :=
  cs.foldl (fun n c => n + c.utf8Size) 0

/-- The UTF-8 form of `cs`. -/
def utf8 (cs : List Char) : List UInt8 :=
  cs.flatMap String.utf8EncodeChar

/-- The first `n` bytes of `cs`: its characters as far as they are whole, and the bytes of the next
one. -/
def takeBytes : Nat → List Char → List Char × List UInt8
  | _, [] => ([], [])
  | n, c :: cs =>
    if c.utf8Size ≤ n then
      let (whole, torn) := takeBytes (n - c.utf8Size) cs
      (c :: whole, torn)
    else
      ([], (String.utf8EncodeChar c).take n)

/-- Cuts `cs` after `n` bytes. There is no cut inside a character or past the end. -/
def splitAtByte? : Nat → List Char → Option (List Char × List Char)
  | 0, cs => some ([], cs)
  | _ + 1, [] => none
  | n + 1, c :: cs =>
    if c.utf8Size ≤ n + 1 then
      (splitAtByte? (n + 1 - c.utf8Size) cs).map fun (before, after) => (c :: before, after)
    else
      none

/-- The characters from byte `start` up to byte `stop`. -/
def slice? (cs : List Char) (start stop : Nat) : Option (List Char) :=
  if start ≤ stop then do
    let (_, tail) ← splitAtByte? start cs
    let (middle, _) ← splitAtByte? (stop - start) tail
    return middle
  else
    none

/-- The lines of a text of units, each ended by `lf`. A single `cr` in front of the `lf` belongs to
the line's end. The last line needs no end, and nothing follows a final `lf`. -/
def lines {α : Type} [BEq α] (lf cr : α) : List α → List (List α)
  | [] => []
  | c :: cs =>
    if c == lf then
      [] :: lines lf cr cs
    else if c == cr && cs.head? == some lf then
      lines lf cr cs
    else
      match lines lf cr cs with
      | [] => [[c]]
      | line :: rest => (c :: line) :: rest

/-- The lines of a source text. -/
def sourceLines (source : String) : List (List Char) :=
  lines '\n' '\r' source.toList

/-- The characters with the Unicode property White_Space. -/
def isWhiteSpace (c : Char) : Bool :=
  let n := c.toNat
  0x09 ≤ n && n ≤ 0x0d || n == 0x20 || n == 0x85 || n == 0xa0 || n == 0x1680 ||
    0x2000 ≤ n && n ≤ 0x200a
    || n == 0x2028 || n == 0x2029 || n == 0x202f || n == 0x205f || n == 0x3000

/-- The text without white space at either end. -/
def trim (cs : List Char) : List Char :=
  ((cs.dropWhile isWhiteSpace).reverse.dropWhile isWhiteSpace).reverse

/-- Small letters for the capital letters of ASCII. -/
def lowerAscii (cs : List Char) : List Char :=
  cs.map Char.toLower

/-- Repeats `text` `n` times. -/
def times (n : Nat) (text : String) : String :=
  String.join (List.replicate n text)

/-- Puts blanks in front of `text`, to make it at least `width` characters wide. -/
def padLeft (width : Nat) (text : String) : String :=
  times (width - text.length) " " ++ text

end TreeWalk.Text
