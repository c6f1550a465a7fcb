import OpenSteamgate.Inflate.Abap

namespace OpenSteamgate.Inflate.Abap.Guarded

inductive Fault
  | corrupt (reason : String)
  | slip

abbrev Decoding := Attempt Decoder Fault

variable {α : Type}

def lift (c : Except Fault α) : Decoding α := fun y =>
  match c with
  | .error e => .error e
  | .ok a => .ok (some a,y)

def corrupt (reason : String) : Decoding α := Attempt.fail (.corrupt reason)

def readTable (table : List Nat) (index : Int) : Except Fault Nat :=
  if 0 < index then
    match table[(index - 1).toNat]? with
    | some a => .ok a
    | none => .error .slip
  else .error .slip

def sectionOf (v : List UInt8) (off len : Nat) : Except Fault (List UInt8) :=
  if off + len ≤ v.length then .ok ((v.drop off).take len) else .error .slip

def sectionFrom (v : List UInt8) (off : Nat) : Except Fault (List UInt8) :=
  if off ≤ v.length then .ok (v.drop off) else .error .slip

def Buffered (y : Decoder) : Prop := y.bitbuf < 2 ^ y.bitcnt ∧ y.bitcnt ≤ 23

instance (y : Decoder) : Decidable (Buffered y) := inferInstanceAs (Decidable (_ ∧ _))

def keep (y : Decoder) : Except Fault Decoder := if Buffered y then .ok y else .error .slip

def refill (bits : Nat) : Nat → Decoder → Except Fault Decoder
  | 0, y => .ok y
  | k + 1, y =>
      if y.bitcnt < bits then
        if y.inlen ≤ y.pos then .ok y
        else do
          let byte ← sectionOf y.input y.pos 1
          let p ← readTable gtPow2 (y.bitcnt + 1)
          let y ← keep
            { y with
              bitbuf := y.bitbuf + (byte.headD 0).toNat * p
              bitcnt := y.bitcnt + 8
              pos := y.pos + 1 }
          refill bits k y
      else .ok y

def need (bits : Nat) : Decoding Unit := fun y => do
  let y ← refill bits (y.inlen - y.pos) y
  if y.bitcnt < bits then .ok (none,y) else .ok (some (),y)

def bits (bits : Nat) : Decoding Nat := fun y =>
  if y.bitcnt < bits then .error .slip
  else do
    let p ← readTable gtPow2 (bits + 1)
    let y' ← keep { y with bitbuf := y.bitbuf / p, bitcnt := y.bitcnt - bits }
    .ok (some (y.bitbuf % p),y')

def bit : Decoding Nat := fun y =>
  if y.bitcnt < 1 then .error .slip
  else do
    let y' ← keep { y with bitbuf := y.bitbuf / 2, bitcnt := y.bitcnt - 1 }
    .ok (some (y.bitbuf % 2),y')

def countLengths : List Nat → List Nat → Except Fault (List Nat)
  | [], count => .ok count
  | len :: lengths, count =>
      if 0 < len then do
        let n ← readTable count len
        countLengths lengths (count.set (len - 1) (n + 1))
      else countLengths lengths count

def sortSymbols : List Nat → Nat → List Nat → List Nat → Except Fault (List Nat)
  | [], _, _, symbols => .ok symbols
  | len :: lengths, symbol, offs, symbols =>
      if 0 < len then do
        let off ← readTable offs len
        let _ ← readTable symbols (off + 1)
        sortSymbols lengths (symbol + 1) (offs.set (len - 1) (off + 1)) (symbols.set off symbol)
      else sortSymbols lengths (symbol + 1) offs symbols

def build (lengths : List Nat) : Except Fault (Huff × Nat) := do
  let count ← countLengths lengths (List.replicate 15 0)
  match leftOver count with
  | none => .error (.corrupt "over-subscribed Huffman code lengths")
  | some left =>
      let symbol ← sortSymbols lengths 0 (offsets count 0) (List.replicate lengths.length 0)
      .ok (⟨count,symbol⟩,left)

def walk (huff : Huff) : Nat → Nat → Nat → Nat → Nat → Decoding Nat
  | 0, _, _, _, _ => corrupt "invalid Huffman code"
  | k + 1, len, code, first, index => do
      need 1
      let bit ← bit
      let code := code + bit
      let count ← lift (readTable huff.count len)
      if code < first + count then lift (readTable huff.symbol ((index + code : Int) - first + 1))
      else walk huff k (len + 1) (code * 2) ((first + count) * 2) (index + count)

def decode (huff : Huff) : Decoding Nat := walk huff 15 1 0 0 0

def stepHeader : Decoding (Control → Control) := do
  need 3
  let final ← bits 1
  let kind ← bits 2
  match kind with
  | 0 => pure fun c => { c with final := final == 1, state := .storedLen }
  | 1 => pure fun c =>
      { c with final := final == 1, len := gsFixedLen, dist := gsFixedDist, state := .symbols }
  | 2 => pure fun c => { c with final := final == 1, state := .table }
  | _ => corrupt "invalid block type 3"

def align : Decoding Nat := fun y => bits (y.bitcnt % 8) y

def stepStoredLen : Decoding (Control → Control) := do
  let _ ← align
  need 16
  let len ← bits 16
  need 16
  let nlen ← bits 16
  if nlen ≠ 65535 - len then corrupt "stored block length does not match its complement"
  else pure fun c => { c with storedLeft := len, state := .stored }

def readCodes : Nat → Nat → List Nat → Decoding (List Nat)
  | 0, _, codes => pure codes
  | k + 1, nth, codes => do
      need 3
      let index ← lift (readTable gtOrder nth)
      let _ ← lift (readTable codes (index + 1))
      let len ← bits 3
      readCodes k (nth + 1) (codes.set index len)

def readRepeat (lengths : List Nat) (symbol : Nat) : Decoding (Nat × Nat) :=
  if symbol = 16 then
    if lengths = [] then corrupt "repeat code with no previous length"
    else do
      let prev ← lift (readTable lengths lengths.length)
      need 2
      let n ← bits 2
      pure (prev,3 + n)
  else if symbol = 17 then do
    need 3
    let n ← bits 3
    pure (0,3 + n)
  else do
    need 7
    let n ← bits 7
    pure (0,11 + n)

def readLengths (codes : Huff) (total : Nat) : Nat → List Nat → Decoding (List Nat)
  | 0, lengths => pure lengths
  | k + 1, lengths =>
      if total ≤ lengths.length then pure lengths
      else do
        let symbol ← decode codes
        if symbol < 16 then readLengths codes total k (lengths ++ [symbol])
        else do
          let run ← readRepeat lengths symbol
          if total < lengths.length + run.2 then
            corrupt "code lengths repeat past the end of the table"
          else readLengths codes total k (lengths ++ List.replicate run.2 run.1)

def buildTables (nlen : Nat) (lengths : List Nat) : Decoding (Control → Control) := do
  let last ← lift (readTable lengths 257)
  if last = 0 then corrupt "no code for the end of the block"
  else
    let dists := lengths.drop nlen
    let lengths := lengths.take nlen
    let len ← lift (build lengths)
    if len.2 ≠ 0 ∧ single lengths = false then corrupt "incomplete literal/length code"
    else
      let dist ← lift (build dists)
      if dist.2 ≠ 0 ∧ single dists = false ∧ 0 < (dists.filter (0 < ·)).length then
        corrupt "incomplete distance code"
      else pure fun c => { c with len := len.1, dist := dist.1, state := .symbols }

def stepTable : Decoding (Control → Control) := do
  need 14
  let nlen ← bits 5
  let ndist ← bits 5
  let ncode ← bits 4
  if 286 < nlen + 257 ∨ 30 < ndist + 1 then corrupt "too many length or distance codes"
  else
    let codes ← readCodes (ncode + 4) 1 (List.replicate 19 0)
    let codes ← lift (build codes)
    if codes.2 ≠ 0 then corrupt "incomplete code-length code"
    else
      let total := nlen + 257 + (ndist + 1)
      let lengths ← readLengths codes.1 total total []
      buildTables (nlen + 257) lengths

def stepSymbol (len dist : Huff) : Decoding Symbol := do
  let symbol ← decode len
  if symbol < 256 then pure (.literal (UInt8.ofNat symbol))
  else if symbol = 256 then pure .endOfBlock
  else if 29 ≤ symbol - 257 then corrupt "invalid length symbol"
  else do
    let more ← lift (readTable gtLenExtra ((symbol : Int) - 257 + 1))
    need more
    let length ← lift (readTable gtLenBase ((symbol : Int) - 257 + 1))
    let extra ← bits more
    let symbol ← decode dist
    if 30 ≤ symbol then corrupt "invalid distance symbol"
    else do
      let more ← lift (readTable gtDistExtra (symbol + 1))
      need more
      let distance ← lift (readTable gtDistBase (symbol + 1))
      let farther ← bits more
      pure (.copy (length + extra) (distance + farther))

def heldBytes : Nat → Decoding (List UInt8)
  | 0 => pure []
  | n + 1 => fun y =>
      if 8 ≤ y.bitcnt then
        (do
          let x ← bits 8
          let held ← heldBytes n
          pure (UInt8.ofNat x :: held) : Decoding (List UInt8)) y
      else .ok (some [],y)

def endBlock : Decoding Unit := fun y =>
  if y.final = false then .ok (some (),{ y with state := .header })
  else
    (do
      let _ ← align
      let held ← heldBytes (y.bitcnt / 8)
      fun y => do
        let rest ← sectionFrom y.input y.pos
        .ok (some (),{ y with unused := y.unused ++ held ++ rest, pos := y.inlen }) : Decoding Unit)
      { y with state := .done }

def stepStored : Decoding Unit := fun y =>
  if y.storedLeft = 0 then endBlock y
  else
    let take := y.inlen - y.pos
    let take := if y.storedLeft < take then y.storedLeft else take
    let take := if 0 < y.room ∧ y.room < take then y.room.toNat else take
    if take = 0 then .ok (none,y)
    else do
      let bytes ← sectionOf y.input y.pos take
      .ok (some (),
        { y with
          hist := y.hist ++ bytes
          pos := y.pos + take
          storedLeft := y.storedLeft - take })

def copy (hist : List UInt8) (length distance : Nat) : Except Fault (List UInt8) :=
  if hist.length < distance then .error (.corrupt "invalid distance too far back")
  else if length ≤ distance then do
    let piece ← sectionOf hist (hist.length - distance) length
    .ok (hist ++ piece)
  else do
    let piece ← sectionOf hist (hist.length - distance) distance
    let repeated := Decoder.repeatPiece piece length length hist
    if 0 < repeated.2 then do
      let piece ← sectionOf piece 0 repeated.2
      .ok (repeated.1 ++ piece)
    else .ok repeated.1

def emit : Symbol → Decoding Unit
  | .literal b => fun y => .ok (some (),{ y with hist := y.hist ++ [b] })
  | .endOfBlock => endBlock
  | .copy length distance => fun y => do
      let hist ← copy y.hist length distance
      .ok (some (),{ y with hist := hist })

def control (f : Control → Control) : Decoding Unit := fun y =>
  .ok (some (),{ y with toControl := f y.toControl })

def step : Decoding Unit := fun y =>
  match y.state with
  | .header => (stepHeader >>= control) y
  | .storedLen => (stepStoredLen >>= control) y
  | .stored => stepStored y
  | .table => (stepTable >>= control) y
  | _ => (stepSymbol y.len y.dist >>= emit) y

def output (y : Decoder) (start : Nat) (pieces : List (List UInt8)) :
    Except Fault (Decoder × List UInt8) := do
  let piece ← sectionFrom y.hist start
  .ok (y,(pieces ++ [piece]).flatten)

def longest : Nat := 2 * cWindow + 65535

def feedLoop (maxOut : Nat) : Nat → Decoder → Nat → Nat → List (List UInt8) →
    Except Fault (Decoder × List UInt8)
  | 0, y, start, _, pieces => output y start pieces
  | k + 1, y, start, emitted, pieces =>
      if y.state = .done then output y start pieces
      else
        let room : Int := if 0 < maxOut then maxOut - emitted - y.hist.length + start else 0
        let y := { y with room := room }
        if 0 < maxOut ∧ room ≤ 0 then output { y with paused := true } start pieces
        else
          match step y with
          | .error e => .error e
          | .ok (none,y') =>
              output { y' with pos := y.pos, bitbuf := y.bitbuf, bitcnt := y.bitcnt } start pieces
          | .ok (some _,y') =>
              if longest < y'.hist.length then .error .slip
              else if 2 * cWindow < y'.hist.length then
                let cut := y'.hist.length - cWindow
                if start < cut then do
                  let piece ← sectionOf y'.hist start (cut - start)
                  let hist ← sectionFrom y'.hist cut
                  feedLoop maxOut k { y' with hist := hist } 0 (emitted + (cut - start)) (pieces ++ [piece])
                else do
                  let hist ← sectionFrom y'.hist cut
                  feedLoop maxOut k { y' with hist := hist } (start - cut) emitted pieces
              else feedLoop maxOut k y' start emitted pieces

def feed (steps : Nat) (y : Decoder) (data : List UInt8) (maxOut : Nat) :
    Except Fault (Decoder × List UInt8) :=
  let y := { y with paused := false }
  if y.state = .done then .ok ({ y with unused := y.unused ++ data },[])
  else
    let y : Decoder := if y.opened = false then { y with opened := true, host := Decoder.hostOpen } else y
    if y.host ≠ 0 then
      let (raw,state,unused,reason) := Decoder.hostFeed y.host data maxOut
      let y := { y with unused := unused }
      if reason ≠ "" then .error (.corrupt reason)
      else
        let y := { y with paused := state == 1 }
        .ok (if state = 2 then { y with state := .done } else y,raw)
    else do
      let input ← if 0 < y.pos then sectionFrom y.input y.pos else .ok y.input
      let y := { y with input := input ++ data, inlen := (input ++ data).length, pos := 0 }
      feedLoop maxOut steps y y.hist.length 0 []

end OpenSteamgate.Inflate.Abap.Guarded
