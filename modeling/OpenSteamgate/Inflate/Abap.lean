import OpenSteamgate.Inflate.Decoder

namespace OpenSteamgate.Inflate.Abap

structure Huff where
  count : List Nat := []
  symbol : List Nat := []

def countLengths (lengths : List Nat) : List Nat :=
  lengths.foldl (fun count len => if 0 < len then count.set (len - 1) (count.getD (len - 1) 0 + 1)
    else count) (List.replicate 15 0)

def leftOver (count : List Nat) : Option Nat :=
  count.foldlM (fun left count => if left * 2 < count then none else some (left * 2 - count)) 1

def offsets : List Nat → Nat → List Nat
  | [], _ => []
  | count :: counts, off => off :: offsets counts (off + count)

def sortSymbols : List Nat → Nat → List Nat → List Nat → List Nat
  | [], _, _, symbols => symbols
  | len :: lengths, symbol, offs, symbols =>
      if 0 < len then
        sortSymbols lengths (symbol + 1) (offs.set (len - 1) (offs.getD (len - 1) 0 + 1))
          (symbols.set (offs.getD (len - 1) 0) symbol)
      else sortSymbols lengths (symbol + 1) offs symbols

def build (lengths : List Nat) : Except String (Huff × Nat) :=
  let count := countLengths lengths
  match leftOver count with
  | none => .error "over-subscribed Huffman code lengths"
  | some left =>
      .ok (⟨count,sortSymbols lengths 0 (offsets count 0) (List.replicate lengths.length 0)⟩,left)

def single (lengths : List Nat) : Bool :=
  let used := lengths.filter (0 < ·)
  used.all (· == 1) && used.length == 1

def gtPow2 : List Nat := (List.range 25).map (2 ^ ·)

def gtLenBase : List Nat :=
  [3,4,5,6,7,8,9,10,11,13,15,17,19,23,27,31,35,43,51,59,67,83,99,115,131,163,195,227,258]

def gtLenExtra : List Nat :=
  [0,0,0,0,0,0,0,0,1,1,1,1,2,2,2,2,3,3,3,3,4,4,4,4,5,5,5,5,0]

def gtDistBase : List Nat :=
  [1,2,3,4,5,7,9,13,17,25,33,49,65,97,129,193,257,385,513,769,1025,1537,2049,3073,4097,6145,8193,
    12289,16385,24577]

def gtDistExtra : List Nat :=
  [0,0,0,0,1,1,2,2,3,3,4,4,5,5,6,6,7,7,8,8,9,9,10,10,11,11,12,12,13,13]

def gtOrder : List Nat := [16,17,18,0,8,7,9,6,10,5,11,4,12,3,13,2,14,1,15]

def fixed (lengths : List Nat) : Huff :=
  match build lengths with
  | .ok (huff,_) => huff
  | .error _ => {}

def gsFixedLen : Huff :=
  fixed (List.replicate 144 8 ++ List.replicate 112 9 ++ List.replicate 24 7 ++ List.replicate 8 8)

def gsFixedDist : Huff := fixed (List.replicate 30 5)

def cWindow : Nat := 32768

structure Control where
  state : InflState := .header
  final : Bool := false
  storedLeft : Nat := 0
  len : Huff := {}
  dist : Huff := {}

structure Decoder extends Control where
  input : List UInt8 := []
  inlen : Nat := 0
  pos : Nat := 0
  bitbuf : Nat := 0
  bitcnt : Nat := 0
  hist : List UInt8 := []
  unused : List UInt8 := []
  paused : Bool := false
  room : Int := 0
  opened : Bool := false
  host : Int := 0

abbrev Decoding := Attempt Decoder String

namespace Decoder

def refill (bits : Nat) : Nat → Decoder → Decoder
  | 0, y => y
  | k + 1, y =>
      if y.bitcnt < bits then
        if y.inlen ≤ y.pos then y
        else refill bits k
          { y with
            bitbuf := y.bitbuf + (y.input.getD y.pos 0).toNat * gtPow2.getD y.bitcnt 0
            bitcnt := y.bitcnt + 8
            pos := y.pos + 1 }
      else y

def need (bits : Nat) : Decoding Unit := fun y =>
  let y := refill bits (y.inlen - y.pos) y
  if y.bitcnt < bits then .ok (none,y) else .ok (some (),y)

def shift (y : Decoder) (bits : Nat) : Decoder :=
  { y with bitbuf := y.bitbuf / gtPow2.getD bits 0, bitcnt := y.bitcnt - bits }

def bits (bits : Nat) : Decoding Nat := fun y =>
  .ok (some (y.bitbuf % gtPow2.getD bits 0),y.shift bits)

def align : Decoding Unit := fun y => .ok (some (),y.shift (y.bitcnt % 8))

instance : BitFeed Decoding where
  need := need
  bits := bits
  corrupt := Attempt.fail

end Decoder

open BitFeed

def walk {m : Type → Type} [BitFeed m] (huff : Huff) : Nat → Nat → Nat → Nat → Nat → m Nat
  | 0, _, _, _, _ => corrupt "invalid Huffman code"
  | k + 1, len, code, first, index => do
      need 1
      let bit ← bits 1
      let code := code + bit
      let count := huff.count.getD (len - 1) 0
      if code < first + count then pure (huff.symbol.getD (index + code - first) 0)
      else walk huff k (len + 1) (code * 2) ((first + count) * 2) (index + count)

def decode (huff : Huff) : Decoding Nat := walk huff 15 1 0 0 0

def stepHeader : Decoding (Control → Control) := do
  need 3
  let final ← bits 1
  let kind ← bits 2
  match kind with
  | 0 => pure fun c => { c with final := final == 1, state := .storedLen }
  | 1 => pure fun c =>
      { c with final := final == 1, len := gsFixedLen, dist := gsFixedDist, state := .symbols }
  | 2 => pure fun c => { c with final := final == 1, state := .table }
  | _ => corrupt "invalid block type 3"

def stepStoredLen : Decoding (Control → Control) := do
  Decoder.align
  need 16
  let len ← bits 16
  need 16
  let nlen ← bits 16
  if nlen ≠ 65535 - len then corrupt "stored block length does not match its complement"
  else pure fun c => { c with storedLeft := len, state := .stored }

def readCodes : List Nat → List Nat → Decoding (List Nat)
  | [], codes => pure codes
  | index :: order, codes => do
      need 3
      let len ← bits 3
      readCodes order (codes.set index len)

def built (lengths : List Nat) : Decoding (Huff × Nat) :=
  match build lengths with
  | .error reason => corrupt reason
  | .ok huff => pure huff

def readRepeat (lengths : List Nat) (symbol : Nat) : Decoding (Nat × Nat) :=
  if symbol = 16 then
    match lengths.getLast? with
    | none => corrupt "repeat code with no previous length"
    | some prev => do
        need 2
        let n ← bits 2
        pure (prev,3 + n)
  else if symbol = 17 then do
    need 3
    let n ← bits 3
    pure (0,3 + n)
  else do
    need 7
    let n ← bits 7
    pure (0,11 + n)

def readLengths (codes : Huff) (total : Nat) : Nat → List Nat → Decoding (List Nat)
  | 0, lengths => pure lengths
  | k + 1, lengths =>
      if total ≤ lengths.length then pure lengths
      else do
        let symbol ← decode codes
        if symbol < 16 then readLengths codes total k (lengths ++ [symbol])
        else do
          let run ← readRepeat lengths symbol
          if total < lengths.length + run.2 then
            corrupt "code lengths repeat past the end of the table"
          else readLengths codes total k (lengths ++ List.replicate run.2 run.1)

def buildTables (nlen : Nat) (lengths : List Nat) : Decoding (Control → Control) := do
  if lengths.getD 256 0 = 0 then corrupt "no code for the end of the block"
  else
    let dists := lengths.drop nlen
    let lengths := lengths.take nlen
    let len ← built lengths
    if len.2 ≠ 0 ∧ single lengths = false then corrupt "incomplete literal/length code"
    else
      let dist ← built dists
      if dist.2 ≠ 0 ∧ single dists = false ∧ 0 < (dists.filter (0 < ·)).length then
        corrupt "incomplete distance code"
      else pure fun c => { c with len := len.1, dist := dist.1, state := .symbols }

def stepTable : Decoding (Control → Control) := do
  need 14
  let nlen ← bits 5
  let ndist ← bits 5
  let ncode ← bits 4
  if 286 < nlen + 257 ∨ 30 < ndist + 1 then corrupt "too many length or distance codes"
  else
    let codes ← readCodes (gtOrder.take (ncode + 4)) (List.replicate 19 0)
    let codes ← built codes
    if codes.2 ≠ 0 then corrupt "incomplete code-length code"
    else
      let total := nlen + 257 + (ndist + 1)
      let lengths ← readLengths codes.1 total total []
      buildTables (nlen + 257) lengths

def stepSymbol (len dist : Huff) : Decoding Symbol := do
  let symbol ← decode len
  if symbol < 256 then pure (.literal (UInt8.ofNat symbol))
  else if symbol = 256 then pure .endOfBlock
  else
    let symbol := symbol - 257
    if 29 ≤ symbol then corrupt "invalid length symbol"
    else
      need (gtLenExtra.getD symbol 0)
      let extra ← bits (gtLenExtra.getD symbol 0)
      let length := gtLenBase.getD symbol 0 + extra
      let symbol ← decode dist
      if 30 ≤ symbol then corrupt "invalid distance symbol"
      else
        need (gtDistExtra.getD symbol 0)
        let extra ← bits (gtDistExtra.getD symbol 0)
        pure (.copy length (gtDistBase.getD symbol 0 + extra))

namespace Decoder

def heldBytes : Nat → Decoder → List UInt8 × Decoder
  | 0, y => ([],y)
  | n + 1, y =>
      if 8 ≤ y.bitcnt then
        let held := heldBytes n (y.shift 8)
        (UInt8.ofNat (y.bitbuf % gtPow2.getD 8 0) :: held.1,held.2)
      else ([],y)

def endBlock (y : Decoder) : Decoder :=
  if y.final = false then { y with state := .header }
  else
    let y := ({ y with state := .done } : Decoder).shift (y.bitcnt % 8)
    let held := y.heldBytes (y.bitcnt / 8)
    { held.2 with
      unused := y.unused ++ held.1 ++ y.input.drop y.pos
      pos := y.inlen }

def stepStored : Decoding Unit := fun y =>
  if y.storedLeft = 0 then .ok (some (),y.endBlock)
  else
    let take := y.inlen - y.pos
    let take := if y.storedLeft < take then y.storedLeft else take
    let take := if 0 < y.room ∧ y.room < take then y.room.toNat else take
    if take = 0 then .ok (none,y)
    else .ok (some (),
      { y with
        hist := y.hist ++ (y.input.drop y.pos).take take
        pos := y.pos + take
        storedLeft := y.storedLeft - take })

def repeatPiece (piece : List UInt8) : Nat → Nat → List UInt8 → List UInt8 × Nat
  | 0, left, hist => (hist,left)
  | k + 1, left, hist =>
      if piece.length ≤ left then repeatPiece piece k (left - piece.length) (hist ++ piece)
      else (hist,left)

def copy (hist : List UInt8) (length distance : Nat) : Except String (List UInt8) :=
  let have_ := hist.length
  if have_ < distance then .error "invalid distance too far back"
  else
    let start := have_ - distance
    if length ≤ distance then .ok (hist ++ (hist.drop start).take length)
    else
      let piece := (hist.drop start).take distance
      let (hist,left) := repeatPiece piece length length hist
      if 0 < left then .ok (hist ++ piece.take left) else .ok hist

def emit : Symbol → Decoding Unit
  | .literal b => fun y => .ok (some (),{ y with hist := y.hist ++ [b] })
  | .endOfBlock => fun y => .ok (some (),y.endBlock)
  | .copy length distance => fun y =>
      match copy y.hist length distance with
      | .error reason => .error reason
      | .ok hist => .ok (some (),{ y with hist := hist })

def control (f : Control → Control) : Decoding Unit := fun y =>
  .ok (some (),{ y with toControl := f y.toControl })

def step : Decoding Unit := fun y =>
  match y.state with
  | .header => (stepHeader >>= control) y
  | .storedLen => (stepStoredLen >>= control) y
  | .stored => stepStored y
  | .table => (stepTable >>= control) y
  | _ => (stepSymbol y.len y.dist >>= emit) y

def feedLoop (maxOut : Nat) : Nat → Decoder → Nat → Nat → List (List UInt8) →
    Except String (Decoder × List UInt8)
  | 0, y, start, _, pieces => .ok (y,(pieces ++ [y.hist.drop start]).flatten)
  | k + 1, y, start, emitted, pieces =>
      if y.state = .done then .ok (y,(pieces ++ [y.hist.drop start]).flatten)
      else
        let room : Int := if 0 < maxOut then maxOut - emitted - y.hist.length + start else 0
        let y := { y with room := room }
        if 0 < maxOut ∧ room ≤ 0 then
          .ok ({ y with paused := true },(pieces ++ [y.hist.drop start]).flatten)
        else
          match y.step with
          | .error reason => .error reason
          | .ok (none,y') =>
              .ok ({ y' with pos := y.pos, bitbuf := y.bitbuf, bitcnt := y.bitcnt },
                (pieces ++ [y'.hist.drop start]).flatten)
          | .ok (some _,y') =>
              if 2 * cWindow < y'.hist.length then
                let cut := y'.hist.length - cWindow
                let y'' := { y' with hist := y'.hist.drop cut }
                if start < cut then
                  feedLoop maxOut k y'' 0 (emitted + (cut - start))
                    (pieces ++ [(y'.hist.drop start).take (cut - start)])
                else feedLoop maxOut k y'' (start - cut) emitted pieces
              else feedLoop maxOut k y' start emitted pieces

def hostOpen : Int := 0

def hostFeed (_ : Int) (_ : List UInt8) (_ : Nat) : List UInt8 × Int × List UInt8 × String :=
  ([],0,[],"")

def feed (y : Decoder) (data : List UInt8) (maxOut : Nat) : Except String (Decoder × List UInt8) :=
  let y := { y with paused := false }
  if y.state = .done then .ok ({ y with unused := y.unused ++ data },[])
  else
    let y : Decoder := if y.opened = false then { y with opened := true, host := hostOpen } else y
    if y.host ≠ 0 then
      let (raw,state,unused,reason) := hostFeed y.host data maxOut
      let y := { y with unused := unused }
      if reason ≠ "" then .error reason
      else
        let y := { y with paused := state == 1 }
        .ok (if state = 2 then { y with state := .done } else y,raw)
    else
      let y := if 0 < y.pos then { y with input := y.input.drop y.pos, pos := 0 } else y
      let y := { y with input := y.input ++ data }
      let y := { y with inlen := y.input.length }
      feedLoop maxOut (2 * (y.bitcnt + 8 * (y.inlen - y.pos)) + 2) y y.hist.length 0 []

def isPaused (y : Decoder) : Bool := y.paused

def isDone (y : Decoder) : Bool := y.state == .done

def getUnused (y : Decoder) : List UInt8 := y.unused

def finish (y : Decoder) : Except String Unit :=
  if y.state ≠ .done then .error "the deflate stream ends before its final block" else .ok ()

end Decoder

end OpenSteamgate.Inflate.Abap
