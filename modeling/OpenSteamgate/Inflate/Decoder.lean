import OpenSteamgate.Inflate.Huffman

namespace OpenSteamgate.Inflate

open Bits CanonicalCode

def inflLenBase : List Nat :=
  [3,4,5,6,7,8,9,10,11,13,15,17,19,23,27,31,35,43,51,59,67,83,99,115,131,163,195,227,258]

def inflLenExtra : List Nat :=
  [0,0,0,0,0,0,0,0,1,1,1,1,2,2,2,2,3,3,3,3,4,4,4,4,5,5,5,5,0]

def inflDistBase : List Nat :=
  [1,2,3,4,5,7,9,13,17,25,33,49,65,97,129,193,257,385,513,769,1025,1537,2049,3073,4097,6145,8193,
    12289,16385,24577]

def inflDistExtra : List Nat :=
  [0,0,0,0,1,1,2,2,3,3,4,4,5,5,6,6,7,7,8,8,9,9,10,10,11,11,12,12,13,13]

def inflOrder : List Nat := [16,17,18,0,8,7,9,6,10,5,11,4,12,3,13,2,14,1,15]

def fixedLengths : List Nat := (List.range 288).map fun i =>
  if i < 144 then 8 else if i < 256 then 9 else if i < 280 then 7 else 8

def fixedDistances : List Nat := List.replicate 30 5

def Huff.none : Huff where
  count := List.replicate 16 0
  symbol := []
  fast := List.replicate (2 ^ inflFastBits) 0
  sound := fun _ h => (h (getD_replicate _ _)).elim

def built (lengths : List Nat) : Huff :=
  match inflBuild lengths with
  | .ok (h,_) => h
  | .error _ => .none

def inflFixedLen : Huff := built fixedLengths

def inflFixedDist : Huff := built fixedDistances

def inflSingle (lengths : List Nat) : Bool :=
  (lengths.all fun l => l == 0 || l == 1) && lengths.countP (0 < ·) == 1

inductive InflState where
  | header
  | storedLen
  | stored
  | table
  | symbols
  | done
  deriving DecidableEq

structure Control where
  state : InflState := .header
  final : Bool := false
  storedLeft : Nat := 0
  lens : Huff := .none
  dist : Huff := .none

inductive Symbol where
  | literal (b : UInt8)
  | endOfBlock
  | copy (length distance : Nat)

class BitFeed (m : Type → Type) extends Monad m where
  need : Nat → m Unit
  bits : Nat → m Nat
  corrupt : {α : Type} → String → m α

class BitSource (m : Type → Type) extends BitFeed m where
  align : m Unit
  decode : Huff → m Nat

open BitFeed BitSource

def walk {m : Type → Type} [BitFeed m] (h : Huff) : Nat → Nat → Nat → Nat → Nat → m Nat
  | 0, _, _, _, _ => corrupt "invalid Huffman code"
  | k + 1, l, code, first, index => do
      need 1
      let b ← bits 1
      let code := code ||| b
      let count := h.count.getD l 0
      if code < first + count then pure (h.symbol.getD (index + code - first) 0)
      else walk h k (l + 1) (code <<< 1) ((first + count) <<< 1) (index + count)

section Steps

variable {m : Type → Type} [BitSource m]

def stepHeader : m (Control → Control) := do
  need 3
  let final ← bits 1
  let kind ← bits 2
  match kind with
  | 0 => pure fun c => { c with final := final == 1, state := .storedLen }
  | 1 => pure fun c =>
      { c with final := final == 1, lens := inflFixedLen, dist := inflFixedDist, state := .symbols }
  | 2 => pure fun c => { c with final := final == 1, state := .table }
  | _ => corrupt "invalid block type 3"

def stepStoredLen : m (Control → Control) := do
  align
  need 16
  let n ← bits 16
  need 16
  let complement ← bits 16
  if complement ≠ 65535 - n then corrupt "stored block length does not match its complement"
  else pure fun c => { c with storedLeft := n, state := .stored }

def readCodes : List Nat → List Nat → m (List Nat)
  | [], codes => pure codes
  | i :: order, codes => do
      need 3
      let l ← bits 3
      readCodes order (codes.set i l)

def build (lengths : List Nat) : m (Huff × Nat) :=
  match inflBuild lengths with
  | .error e => corrupt e
  | .ok h => pure h

def readRepeat (lengths : List Nat) (sym : Nat) : m (Nat × Nat) :=
  match sym with
  | 16 => match lengths.getLast? with
      | none => corrupt "repeat code with no previous length"
      | some prev => do
          need 2
          let n ← bits 2
          pure (prev,3 + n)
  | 17 => do
      need 3
      let n ← bits 3
      pure (0,3 + n)
  | _ => do
      need 7
      let n ← bits 7
      pure (0,11 + n)

def readLengths (hc : Huff) (total : Nat) : Nat → List Nat → m (List Nat)
  | 0, lengths => pure lengths
  | k + 1, lengths =>
      if total ≤ lengths.length then pure lengths
      else do
        let sym ← decode hc
        if sym < 16 then readLengths hc total k (lengths ++ [sym])
        else do
          let run ← readRepeat lengths sym
          if total < lengths.length + run.2 then
            corrupt "code lengths repeat past the end of the table"
          else readLengths hc total k (lengths ++ List.replicate run.2 run.1)

def buildTables (nlen : Nat) (lengths : List Nat) : m (Control → Control) := do
  if lengths.getD 256 0 = 0 then corrupt "no code for the end of the block"
  else
    let ll := lengths.take nlen
    let dl := lengths.drop nlen
    let hl ← build ll
    if hl.2 ≠ 0 ∧ inflSingle ll = false then corrupt "incomplete literal/length code"
    else
      let hd ← build dl
      if hd.2 ≠ 0 ∧ inflSingle dl = false ∧ dl.any (0 < ·) = true then
        corrupt "incomplete distance code"
      else pure fun c => { c with lens := hl.1, dist := hd.1, state := .symbols }

def stepTable : m (Control → Control) := do
  need 14
  let nlen ← bits 5
  let ndist ← bits 5
  let ncode ← bits 4
  if 286 < nlen + 257 ∨ 30 < ndist + 1 then corrupt "too many length or distance codes"
  else
    let codes ← readCodes (inflOrder.take (ncode + 4)) (List.replicate 19 0)
    let hc ← build codes
    if hc.2 ≠ 0 then corrupt "incomplete code-length code"
    else
      let total := nlen + 257 + (ndist + 1)
      let lengths ← readLengths hc.1 total total []
      buildTables (nlen + 257) lengths

def stepSymbol (lens dist : Huff) : m Symbol := do
  let sym ← decode lens
  if sym < 256 then pure (.literal (UInt8.ofNat sym))
  else if sym = 256 then pure .endOfBlock
  else
    let sym := sym - 257
    if 29 ≤ sym then corrupt "invalid length symbol"
    else
      need (inflLenExtra.getD sym 0)
      let extra ← bits (inflLenExtra.getD sym 0)
      let length := inflLenBase.getD sym 0 + extra
      let sym ← decode dist
      if 30 ≤ sym then corrupt "invalid distance symbol"
      else
        need (inflDistExtra.getD sym 0)
        let extra ← bits (inflDistExtra.getD sym 0)
        pure (.copy length (inflDistBase.getD sym 0 + extra))

end Steps

structure Inflater extends Control where
  input : List UInt8 := []
  pos : Nat := 0
  bitbuf : Nat := 0
  bitcnt : Nat := 0
  hist : List UInt8 := []
  unused : List UInt8 := []
  room : Nat := 0

abbrev Decoding := Attempt Inflater String

namespace Inflater

def refill (n : Nat) : Nat → Inflater → Inflater
  | 0, z => z
  | k + 1, z =>
      if z.bitcnt < n then
        match z.input[z.pos]? with
        | none => z
        | some b => refill n k
            { z with
              bitbuf := z.bitbuf ||| (b.toNat <<< z.bitcnt)
              bitcnt := z.bitcnt + 8
              pos := z.pos + 1 }
      else z

def fill (z : Inflater) (n : Nat) : Inflater := refill n (z.input.length - z.pos) z

def need (n : Nat) : Decoding Unit := fun z =>
  let z := z.fill n
  if z.bitcnt < n then .ok (none,z) else .ok (some (),z)

def shift (z : Inflater) (n : Nat) : Inflater :=
  { z with bitbuf := z.bitbuf >>> n, bitcnt := z.bitcnt - n }

def low (z : Inflater) (n : Nat) : Nat := z.bitbuf &&& (1 <<< n - 1)

def bits (n : Nat) : Decoding Nat := fun z => .ok (some (z.low n),z.shift n)

def align : Decoding Unit := fun z => .ok (some (),z.shift (z.bitcnt % 8))

instance : BitFeed Decoding where
  need := need
  bits := bits
  corrupt := Attempt.fail

def decode (h : Huff) : Decoding Nat := fun z =>
  let z := z.fill inflMaxBits
  let e := h.fast.getD (z.low inflFastBits) 0
  if e ≠ 0 ∧ e &&& 15 ≤ z.bitcnt then .ok (some (e >>> 4),z.shift (e &&& 15))
  else (walk h inflMaxBits 1 0 0 0 : Decoding Nat) z

instance : BitSource Decoding where
  align := align
  decode := decode

def heldBytes : Nat → Inflater → List UInt8 × Inflater
  | 0, z => ([],z)
  | n + 1, z =>
      if 8 ≤ z.bitcnt then
        let held := heldBytes n (z.shift 8)
        (UInt8.ofNat (z.low 8) :: held.1,held.2)
      else ([],z)

def endBlock (z : Inflater) : Inflater :=
  if z.final = false then { z with state := .header }
  else
    let z := ({ z with state := .done } : Inflater).shift (z.bitcnt % 8)
    let held := z.heldBytes (z.bitcnt / 8)
    { held.2 with
      unused := z.unused ++ held.1 ++ z.input.drop z.pos
      pos := z.input.length }

def stepStored : Decoding Unit := fun z =>
  if z.storedLeft = 0 then .ok (some (),z.endBlock)
  else
    let take := z.input.length - z.pos + z.bitcnt / 8
    let take := if z.storedLeft < take then z.storedLeft else take
    let take := if 0 < z.room ∧ z.room < take then z.room else take
    if take = 0 then .ok (none,z)
    else
      let held := z.heldBytes take
      let left := take - held.1.length
      .ok (some (),
        { held.2 with
          hist := z.hist ++ held.1 ++ (z.input.drop z.pos).take left
          pos := z.pos + left
          storedLeft := z.storedLeft - take })

def copyBack (hist : List UInt8) (start length : Nat) : List UInt8 :=
  (List.range length).foldl (fun hist i => hist ++ [hist.getD (start + i) 0]) hist

def emit : Symbol → Decoding Unit
  | .literal b => fun z => .ok (some (),{ z with hist := z.hist ++ [b] })
  | .endOfBlock => fun z => .ok (some (),z.endBlock)
  | .copy length distance => fun z =>
      if z.hist.length < distance then .error "invalid distance too far back"
      else .ok (some (),{ z with hist := copyBack z.hist (z.hist.length - distance) length })

def control (f : Control → Control) : Decoding Unit := fun z =>
  .ok (some (),{ z with toControl := f z.toControl })

def step : Decoding Unit := fun z =>
  match z.state with
  | .header => (stepHeader >>= control) z
  | .storedLen => (stepStoredLen >>= control) z
  | .stored => stepStored z
  | .table => (stepTable >>= control) z
  | _ => (stepSymbol z.lens z.dist >>= emit) z

abbrev Fed := Except (String × List UInt8) (Inflater × List UInt8 × Bool)

def feedLoop (maxOut : Nat) : Nat → Inflater → Nat → List UInt8 → Fed
  | 0, z, start, emitted => .ok (z,emitted ++ z.hist.drop start,false)
  | k + 1, z, start, emitted =>
      if z.state = .done then .ok (z,emitted ++ z.hist.drop start,false)
      else
        let room := maxOut + start - emitted.length - z.hist.length
        if 0 < maxOut ∧ room = 0 then .ok (z,emitted ++ z.hist.drop start,true)
        else
          let z := { z with room := if 0 < maxOut then room else 0 }
          match z.step with
          | .error e => .error (e,emitted ++ z.hist.drop start)
          | .ok (none,z') =>
              .ok ({ z' with pos := z.pos, bitbuf := z.bitbuf, bitcnt := z.bitcnt },
                emitted ++ z'.hist.drop start,false)
          | .ok (some _,z') =>
              let n := z'.hist.length
              if 2 * inflWindow < n then
                let cut := n - inflWindow
                let z'' := { z' with hist := z'.hist.drop cut }
                if start < cut then
                  feedLoop maxOut k z'' 0 (emitted ++ (z'.hist.take cut).drop start)
                else feedLoop maxOut k z'' (start - cut) emitted
              else feedLoop maxOut k z' start emitted

def feed (z : Inflater) (data : List UInt8) (maxOut : Nat) : Fed :=
  let z := if 0 < z.pos then { z with input := z.input.drop z.pos, pos := 0 } else z
  let z := { z with input := z.input ++ data }
  feedLoop maxOut (2 * (z.bitcnt + 8 * (z.input.length - z.pos)) + 2) z z.hist.length []

def feedStream (z : Inflater) (data : List UInt8) (maxOut : Nat) : Fed :=
  if z.state = .done then .ok ({ z with unused := z.unused ++ data },[],false)
  else z.feed data maxOut

end Inflater

end OpenSteamgate.Inflate
