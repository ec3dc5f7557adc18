import Beanstalkd.Proto.Types

/-!
# Command lines

`crates/proto/src/parse.rs`: one command line, without its `\r\n`, becomes a
command, a put header, or the error reply. The functions keep the quirks the
code keeps from prot.c: numbers may be preceded by several spaces but by
nothing else, `reserve-with-timeout` and `quit` ignore what follows, `kick`
reads its count the way `strtoul` does, and `pause-tube` alone takes the
longest run of name characters instead of the whole rest of the line.

The code accumulates digits in a saturating `u128`; so does `pushDigit`.
-/

namespace Beanstalkd

def u32Max : Nat := 2 ^ 32 - 1

def i32Max : Nat := 2 ^ 31 - 1

def u128Max : Nat := 2 ^ 128 - 1

namespace Parse

/-- Skip leading `' '` bytes only, not other whitespace. -/
def skipLeadingSpaces (buf : Bytes) : Bytes := buf.dropWhile (· == 32)

def isAsciiDigit (b : UInt8) : Bool := 48 ≤ b && b ≤ 57

/-- `val.saturating_mul(10).saturating_add(u128::from(d - b'0'))`. -/
def pushDigit (val : Nat) (d : UInt8) : Nat :=
  min (min (val * 10) u128Max + (d.toNat - 48)) u128Max

/-- A run of leading digits; `none` if there is none. -/
def parseDigits (buf : Bytes) : Option (Nat × Bytes) :=
  if buf.head?.all fun b => !isAsciiDigit b then none
  else some ((buf.takeWhile isAsciiDigit).foldl pushDigit 0, buf.dropWhile isAsciiDigit)

/-- `read_u64`: the value and what follows it. -/
def readU64Partial (buf : Bytes) : Option (Nat × Bytes) := do
  let (val, rest) ← parseDigits (skipLeadingSpaces buf)
  if val > u64Max then none else some (val, rest)

def readU32Partial (buf : Bytes) : Option (Nat × Bytes) := do
  let (val, rest) ← readU64Partial buf
  if val > u32Max then none else some (val, rest)

/-- `read_u64` with `end == NULL`: nothing may follow. -/
def readU64Full (buf : Bytes) : Option Nat := do
  let (val, rest) ← readU64Partial buf
  if rest.isEmpty then some val else none

def readU32Full (buf : Bytes) : Option Nat := do
  let (val, rest) ← readU32Partial buf
  if rest.isEmpty then some val else none

/-- Spaces, then the longest run of name characters. -/
def readTubeNameSpan (buf : Bytes) : Option (Bytes × Bytes) :=
  let buf := skipLeadingSpaces buf
  let name := buf.takeWhile isNameChar
  if name.isEmpty then none else some (name, buf.dropWhile isNameChar)

structure PutHeader where
  pri : Nat
  delay : Nat
  ttr : Nat
  bodySize : Nat
  /-- Something follows the size. The codec looks at it only when the size is
  within limits. -/
  trailingGarbage : Bool
  deriving DecidableEq

inductive ParsedLine where
  | command (cmd : Command)
  | put (header : PutHeader)
  deriving DecidableEq

inductive Op where
  | put | peekJob | peekReady | peekDelayed | peekBuried | reserveTimeout | reserveJob | reserve
  | delete | release | bury | kick | kickJob | touch | statsJob | statsTube | stats | use | watch
  | ignore | listTubesWatched | listTubeUsed | listTubes | quit | pauseTube
  deriving DecidableEq

/-- The command words, in the order they are tried: some begin others. -/
def cmdTests : List (Bytes × Op) :=
  [(ascii "put ", .put), (ascii "peek ", .peekJob), (ascii "peek-ready", .peekReady),
    (ascii "peek-delayed", .peekDelayed), (ascii "peek-buried", .peekBuried),
    (ascii "reserve-with-timeout ", .reserveTimeout), (ascii "reserve-job ", .reserveJob),
    (ascii "reserve", .reserve), (ascii "delete ", .delete), (ascii "release ", .release),
    (ascii "bury ", .bury), (ascii "kick ", .kick), (ascii "kick-job ", .kickJob),
    (ascii "touch ", .touch), (ascii "stats-job ", .statsJob), (ascii "stats-tube ", .statsTube),
    (ascii "stats", .stats), (ascii "use ", .use), (ascii "watch ", .watch),
    (ascii "ignore ", .ignore), (ascii "list-tubes-watched", .listTubesWatched),
    (ascii "list-tube-used", .listTubeUsed), (ascii "list-tubes", .listTubes),
    (ascii "quit", .quit), (ascii "pause-tube", .pauseTube)]

/-- The first command word the line begins with, and its length. -/
def whichCmd (line : Bytes) : Option (Op × Nat) :=
  (cmdTests.find? fun t => t.1.isPrefixOf line).map fun t => (t.2, t.1.length)

/-- `u8::is_ascii_whitespace`. -/
def isAsciiWhitespace (b : UInt8) : Bool := b == 32 || b == 9 || b == 10 || b == 12 || b == 13

/-- `strtoul(buf, &end, 10)` cut down to a `u32`: whitespace, a sign, digits, and
anything after them. A negative count wraps. -/
def parseKickCount (buf : Bytes) : Option Nat :=
  let buf := buf.dropWhile isAsciiWhitespace
  let negative := buf.head? == some 45
  let buf := if negative || buf.head? == some 43 then buf.drop 1 else buf
  let digits := buf.takeWhile isAsciiDigit
  if digits.isEmpty then none
  else
    let val := digits.foldl pushDigit 0
    if val > u64Max then none
    else
      let val := if negative then (2 ^ 64 - val) % 2 ^ 64 else val
      some (val % 2 ^ 32)

/-- The line of a command without arguments. -/
def bare (cmd : Command) (rest : Bytes) : Except Response ParsedLine :=
  if rest.isEmpty then .ok (.command cmd) else .error .badFormat

/-- The line of a command whose only argument is a job id. -/
def withId (cmd : JobId → Command) (rest : Bytes) : Except Response ParsedLine :=
  match readU64Full rest with
  | some id => .ok (.command (cmd id))
  | none => .error .badFormat

/-- The line of a command whose only argument is a tube name: the whole rest of
the line, with no space skipped. -/
def withTube (cmd : TubeName → Command) (rest : Bytes) : Except Response ParsedLine :=
  match TubeName.new rest with
  | some tube => .ok (.command (cmd tube))
  | none => .error .badFormat

def parsePut (rest : Bytes) : Option ParsedLine := do
  let (pri, rest) ← readU32Partial rest
  let (delay, rest) ← readU32Partial rest
  let (ttr, rest) ← readU32Partial rest
  let (bodySize, rest) ← readU32Partial rest
  return .put { pri, delay, ttr, bodySize, trailingGarbage := !rest.isEmpty }

/-- What follows the timeout is not looked at. -/
def parseReserveTimeout (rest : Bytes) : Option ParsedLine := do
  let (timeout, _) ← readU32Partial rest
  if timeout > i32Max then none else some (.command (.reserveWithTimeout timeout))

def parseRelease (rest : Bytes) : Option ParsedLine := do
  let (id, rest) ← readU64Partial rest
  let (pri, rest) ← readU32Partial rest
  let delay ← readU32Full rest
  return .command (.release id pri delay)

def parseBury (rest : Bytes) : Option ParsedLine := do
  let (id, rest) ← readU64Partial rest
  let pri ← readU32Full rest
  return .command (.bury id pri)

def parseKick (rest : Bytes) : Option ParsedLine := do
  let count ← parseKickCount rest
  return .command (.kick count)

/-- An invalid name is still a command: prot.c counts it before it looks. -/
def parsePauseTube (rest : Bytes) : Option ParsedLine := do
  let (name, rest) ← readTubeNameSpan rest
  let delay ← readU32Full rest
  match TubeName.new name with
  | some tube => return .command (.pauseTube tube delay)
  | none => return .command .pauseTubeBadName

/-- `ok_or(Response::BadFormat)`. -/
def okOrBadFormat (r : Option ParsedLine) : Except Response ParsedLine :=
  match r with
  | some l => .ok l
  | none => .error .badFormat

/-- The arguments of each command, from what follows its word. -/
def parseArgs : Op → Bytes → Except Response ParsedLine
  | .put, rest => okOrBadFormat (parsePut rest)
  | .peekJob, rest => withId .peek rest
  | .peekReady, rest => bare .peekReady rest
  | .peekDelayed, rest => bare .peekDelayed rest
  | .peekBuried, rest => bare .peekBuried rest
  | .reserveTimeout, rest => okOrBadFormat (parseReserveTimeout rest)
  | .reserveJob, rest => withId .reserveJob rest
  | .reserve, rest => bare .reserve rest
  | .delete, rest => withId .delete rest
  | .release, rest => okOrBadFormat (parseRelease rest)
  | .bury, rest => okOrBadFormat (parseBury rest)
  | .kick, rest => okOrBadFormat (parseKick rest)
  | .kickJob, rest => withId .kickJob rest
  | .touch, rest => withId .touch rest
  | .statsJob, rest => withId .statsJob rest
  | .statsTube, rest => withTube .statsTube rest
  | .stats, rest => bare .stats rest
  | .use, rest => withTube .use rest
  | .watch, rest => withTube .watch rest
  | .ignore, rest => withTube .ignore rest
  | .listTubesWatched, rest => bare .listTubesWatched rest
  | .listTubeUsed, rest => bare .listTubeUsed rest
  | .listTubes, rest => bare .listTubes rest
  -- whatever follows `quit`, the connection is closed
  | .quit, _ => .ok (.command .quit)
  | .pauseTube, rest => okOrBadFormat (parsePauseTube rest)

/-- One command line. A NUL byte is rejected before anything else is looked at. -/
def parseLineRaw (line : Bytes) : Except Response ParsedLine :=
  if line.contains 0 then .error .badFormat
  else
    match whichCmd line with
    | none => .error .unknownCommand
    | some (op, prefixLen) => parseArgs op (line.drop prefixLen)

end Parse

end Beanstalkd
