import CodeGraph.Foundation.Json
import CodeGraph.Foundation.Utf16

/-!
# The client hello

`readClientHello` and `parseClientHelloLine` of `mcp/daemon.ts`, and the socket transport of
`mcp/transport.ts` that reads the connection after it. The hello reader hands back what it has read
of anything else, the socket is paused in between, and the transport resumes it.
-/
namespace CodeGraph.Mcp.ClientHello

open Text StringDecoder

abbrev Bytes := List UInt8

/-! ### The hello line -/

/-- `value === 1`, for the number `m * 10 ^ e` of a text: the ones that round to the double 1. -/
def isOne (m e : Int) : Bool :=
  if 0 ≤ e then m * 10 ^ e.toNat == 1
  else
    let scale : Int := 10 ^ (-e).toNat
    (2 ^ 54 - 1) * scale ≤ 2 ^ 54 * m && 2 ^ 53 * m ≤ (2 ^ 53 + 1) * scale

/-- What a connection tells of its client. A number is the pair of its digits and exponent; the
explore mode can be absent, `null` or a text. -/
structure Peers where
  pid : Option (Int × Int)
  hostPid : Option (Int × Int)
  exploreMode : Option (Option JsString)
  advertisedMode : Option JsString

def Peers.unknown : Peers := ⟨none, none, none, none⟩

/-- `typeof value === 'string' && value.trim() ? value.trim() : undefined`. -/
def trimmedText : Option Json → Option JsString
  | some (.str s) => if (trim s).isEmpty then none else some (trim s)
  | _ => none

def parseClientHelloLine (line : JsString) : Option Peers := do
  let parsed ← Json.parse line
  -- only an object has members
  match parsed.member "codegraph_client", parsed.member "pid" with
  | some (.num m e), some (.num pid pidExponent) =>
    if isOne m e then
      let exploreMode := match parsed.member "exploreMode" with
        | some .null => some none
        | mode => (trimmedText mode).map some
      let hostPid := match parsed.member "hostPid" with
        | some (.num host hostExponent) => some (host, hostExponent)
        | _ => none
      some ⟨some (pid, pidExponent), hostPid, exploreMode, trimmedText (parsed.member "advertisedMode")⟩
    else none
  | _, _ => none

def isClientHello (line : Bytes) : Bool := (parseClientHelloLine (decode line)).isSome

def maxHelloLineBytes : Nat := 4096

/-- Still reading, with the chunks and their bytes counted; or settled, with the bytes it has
consumed and those it hands back. -/
inductive Reader where
  | reading (chunks : List Bytes) (total : Nat)
  | settled (peers : Peers) (consumed putBack : Bytes)

def Reader.onData (chunk : Bytes) : Reader → Reader
  | reading chunks total =>
    let chunks := chunks ++ [chunk]
    let total := total + chunk.length
    let all := if chunks.length = 1 then chunk else chunks.flatten
    match all.idxOf? 0x0A with
    | none =>
      if total > maxHelloLineBytes then settled .unknown [] all
      else reading [all] total
    | some nl =>
      match parseClientHelloLine (decode (all.take nl)) with
      | some peers => settled peers (all.take (nl + 1)) (all.drop (nl + 1))
      | none => settled .unknown [] all
  | reader => reader

def Reader.onTimeout : Reader → Reader
  | reading chunks _ => settled .unknown [] chunks.flatten
  | reader => reader

/-- `onEnd`: a connection that ends has nothing handed back. -/
def Reader.onEnd : Reader → Reader
  | reading chunks _ => settled .unknown chunks.flatten []
  | reader => reader

/-- What `handleLine` goes on to parse. -/
def handleLine (line : JsString) : Option JsString :=
  if (trim line).isEmpty then none else some (trim line)

/-- The bytes its decoder holds, its buffer, and the lines it has passed on. -/
structure Transport where
  held : Bytes
  buffer : JsString
  passed : List JsString

def Transport.fresh : Transport := ⟨[], [], []⟩

def Transport.onData (t : Transport) (chunk : Bytes) : Transport :=
  let (text, held) := write t.held chunk
  let buffer := t.buffer ++ text
  let (lines, rest) := Lines.drain newline buffer.length buffer
  ⟨held, rest, t.passed ++ lines.filterMap handleLine⟩

/-- The hello reader, the chunks that a paused socket keeps, and the transport once it is attached. -/
structure Connection where
  reader : Reader
  waiting : List Bytes
  transport : Option Transport
  closed : Bool

def Connection.opened : Connection := ⟨.reading [] 0, [], none, false⟩

inductive Event where
  | data (chunk : Bytes)
  | timeout
  /-- The session starts the transport. -/
  | attach
  | close

def Reader.unshift : Reader → List Bytes
  | reading _ _ => []
  | settled _ _ putBack => if putBack.isEmpty then [] else [putBack]

def step (c : Connection) (event : Event) : Connection :=
  if c.closed then c
  else
    match event, c.reader, c.transport with
    | .data chunk, .reading _ _, _ =>
      let reader := c.reader.onData chunk
      { c with reader, waiting := reader.unshift }
    | .data chunk, .settled _ _ _, none => { c with waiting := c.waiting ++ [chunk] }
    | .data chunk, .settled _ _ _, some t => { c with transport := some (t.onData chunk) }
    | .timeout, .reading _ _, _ =>
      let reader := c.reader.onTimeout
      { c with reader, waiting := reader.unshift }
    | .attach, .settled _ _ _, none =>
      -- the decoder is set before the socket is resumed, and reads what is waiting first
      { c with transport := some (c.waiting.foldl Transport.onData .fresh), waiting := [] }
    | .close, _, _ => { c with reader := c.reader.onEnd, closed := true }
    | _, _, _ => c

def run (events : List Event) : Connection := events.foldl step .opened

end CodeGraph.Mcp.ClientHello
