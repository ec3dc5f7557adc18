import Beanstalkd.Proto.Parse
import Beanstalkd.Lib.Reader

/-!
# The client protocol decoder

`crates/proto/src/codec.rs`: `ServerCodec` turns a connection's bytes into
frames. Between calls it keeps what it is in the middle of: a line (possibly
one that has already overflowed the 224-byte window), a put body, or the body
of a put that is too big, of which `remaining` bytes are still to be thrown
away.

`turn` is one round of `decode`'s loop, and `decode` the loop itself; the
caller's loop, which calls `decode` until it yields nothing, and the arrival of
chunks are those of `Lib.Reader`.
-/

namespace Beanstalkd

/-- The longest command line, with its `\r\n`. -/
def lineBufSize : Nat := 224

/-- What the decoder yields. -/
inductive Frame where
  | command (cmd : Command)
  | putRejected (why : PutRejection)
  /-- A put line was accepted; its body is being read, or discarded. -/
  | putStarted (tooBig : Bool)
  | auth (token : Bytes)
  | error (r : Response)
  deriving DecidableEq

def Frame.isPutStarted : Frame → Bool
  | .putStarted _ => true
  | _ => false

namespace Codec

inductive State where
  /-- `overflowed`: the line has exceeded the window at least once. -/
  | line (overflowed : Bool)
  | putBody (pri delay ttr bodySize : Nat)
  /-- Some of the body is left, or the codec would be past it. -/
  | discard (remaining : Nat) (pos : 0 < remaining)
  deriving DecidableEq

end Codec

structure ServerCodec where
  maxJobSize : UInt32
  state : Codec.State
  emitPutStarted : Bool
  recognizeAuth : Bool
  deriving DecidableEq

namespace ServerCodec

open Parse Codec

def new (maxJobSize : UInt32) : ServerCodec :=
  { maxJobSize, state := .line false, emitPutStarted := false, recognizeAuth := false }

inductive LineScan where
  | found (contentLen : Nat)
  | incomplete
  | overflow
  deriving DecidableEq

/-- Only the first `\r` counts: if no `\n` follows it, no line end is found, even
when a proper one comes later. -/
def scanLineEnd (buf : Bytes) : LineScan :=
  let window := buf.take lineBufSize
  let missing := if window.length = lineBufSize then LineScan.overflow else .incomplete
  match (window.take (window.length - 1)).findIdx? (· == 13) with
  | some pos => if window[pos + 1]? = some 10 then .found pos else missing
  | none => missing

/-- The token of an `auth` line, when the codec looks for one: everything after
the one space. -/
def authToken (c : ServerCodec) (line : Bytes) : Option Bytes :=
  if c.recognizeAuth ∧ (ascii "auth ").isPrefixOf line then some (line.drop 5) else none

/-- The codec between frames. -/
def between (c : ServerCodec) : ServerCodec := { c with state := .line false }

/-- A put line: the size limit is looked at before trailing garbage. -/
def startPut (c : ServerCodec) (h : PutHeader) (src : Bytes) : Turn ServerCodec UInt8 Frame :=
  if h.bodySize > c.maxJobSize.toNat then
    let c := { c with state := .discard (h.bodySize + 2) (Nat.succ_pos _) }
    if c.emitPutStarted then .give (.putStarted true) c src else .again c src
  else if h.trailingGarbage then
    .give (.putRejected .trailingGarbage) c.between src
  else
    let c := { c with state := .putBody h.pri h.delay h.ttr h.bodySize }
    if c.emitPutStarted then .give (.putStarted false) c src else .again c src

/-- A complete line. -/
def dispatchLine (c : ServerCodec) (line src : Bytes) : Turn ServerCodec UInt8 Frame :=
  match c.authToken line with
  | some token => .give (.auth token) c.between src
  | none =>
    match parseLineRaw line with
    | .error r => .give (.error r) c.between src
    | .ok (.command cmd) => .give (.command cmd) c.between src
    | .ok (.put h) => c.startPut h src

/-- A complete body with the two bytes after it. -/
def finishPut (pri delay ttr bodySize : Nat) (body : Bytes) : Frame :=
  if body[bodySize]? = some 13 ∧ body[bodySize + 1]? = some 10 then
    .command (.put pri delay ttr (body.take bodySize))
  else .putRejected .expectedCrlf

/-- One round of `decode`'s loop. -/
def turn (c : ServerCodec) (src : Bytes) : Turn ServerCodec UInt8 Frame :=
  match c.state with
  | .line overflowed =>
    match scanLineEnd src with
    | .incomplete => .wait c src
    | .overflow => .again { c with state := .line true } (src.drop lineBufSize)
    | .found contentLen =>
      if overflowed then .give (.error .badFormat) c.between (src.drop (contentLen + 2))
      else c.dispatchLine (src.take contentLen) (src.drop (contentLen + 2))
  | .putBody pri delay ttr bodySize =>
    let need := bodySize + 2
    if src.length < need then .wait c src
    else .give (finishPut pri delay ttr bodySize (src.take need)) c.between (src.drop need)
  | .discard remaining _ =>
    if src.isEmpty then .wait c src
    else
      let take := min remaining src.length
      if h : remaining - take > 0 then
        .wait { c with state := .discard (remaining - take) h } (src.drop take)
      else .give (.putRejected .jobTooBig) c.between (src.drop take)

/-- `Decoder::decode`. A round that goes on takes bytes from the buffer, so its
length bounds the rounds. -/
def decode (c : ServerCodec) (src : Bytes) : Option Frame × ServerCodec × Bytes :=
  Reader.call turn (src.length + 1) c src

/-- A stream that arrives in chunks: after each, `decode` is called until it
yields nothing. The frames, the codec and the bytes left over. -/
def decodeChunks (c : ServerCodec) (chunks : List Bytes) : List Frame × ServerCodec × Bytes :=
  Reader.feedAll turn c chunks

/-- A stream that arrives at once. -/
def decodeStream (c : ServerCodec) (stream : Bytes) : List Frame × ServerCodec × Bytes :=
  Reader.feed turn ([], c, []) stream

end ServerCodec

end Beanstalkd
