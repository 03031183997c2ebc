import TreeWalk.Text

/-!
# Output

Where a program prints. An output may be closed after a number of lines, of texts or of bytes: once
it has taken that many it refuses every further write, with a message of its own. A limit of bytes
may be reached inside of a text; the part up to there stays written.
-/

namespace TreeWalk

structure Output where
  /-- What was written, up to the first character of which only a part was. -/
  text : String := ""
  /-- The bytes from that character on. -/
  torn : List UInt8 := []
  /-- How many newlines it will still take, if that is limited. -/
  quota : Option Nat := none
  /-- How many texts it will still take, if that is limited. -/
  writes : Option Nat := none
  /-- How many bytes it will still take, if that is limited. -/
  room : Option Nat := none
  /-- What a refused write is answered with. -/
  refusal : String := "output closed"
deriving DecidableEq, Repr, Inhabited

namespace Output

/-- All that was written. -/
def bytes (o : Output) : List UInt8 :=
  Text.utf8 o.text.toList ++ o.torn

def newlines (text : String) : Nat :=
  text.toList.count '\n'

/-- Whether a limit is reached. -/
def isClosed (o : Output) : Bool :=
  o.quota == some 0 || o.writes == some 0 || o.room == some 0

/-- Whether there is room for the whole text. -/
def fits (o : Output) (text : String) : Bool :=
  o.room.all (Text.byteLength text.toList ≤ ·)

/-- The output with a text behind what was written, whatever the limits. -/
def append (o : Output) (text : String) : Output :=
  if o.torn.isEmpty then { o with text := o.text ++ text }
  else { o with torn := o.torn ++ Text.utf8 text.toList }

/-- The output with a text written to it. -/
def push (o : Output) (text : String) : Output :=
  { o.append text with
    quota := o.quota.map (· - newlines text)
    writes := o.writes.map (· - 1)
    room := o.room.map (· - Text.byteLength text.toList) }

/-- The output with as much of a text written to it as there is room for. -/
def tear (o : Output) (text : String) : Output :=
  let (whole, torn) := Text.takeBytes (o.room.getD 0) text.toList
  let o := o.append (String.ofList whole)
  { o with torn := o.torn ++ torn, room := some 0 }

/-- Writes a text; whether all of it was taken. Nothing is never refused. -/
def write (o : Output) (text : String) : Bool × Output :=
  if text.isEmpty then (true, o)
  else if o.isClosed then (false, o)
  else if o.fits text then (true, o.push text)
  else (false, o.tear text)

/-- Writes texts in order up to the first that is refused; whether all were taken. -/
def writeAll (o : Output) : List String → Bool × Output
  | [] => (true, o)
  | text :: texts =>
    if (o.write text).1 then (o.write text).2.writeAll texts else (false, (o.write text).2)

/-- The output with everything taken out of it. -/
def emptied (o : Output) : Output :=
  { o with text := "", torn := [] }

end Output

end TreeWalk
