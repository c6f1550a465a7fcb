import OpenSteamgate.Library.Outcome
import OpenSteamgate.Inflate.Abap
import OpenSteamgate.Zip.Crc32

namespace OpenSteamgate.Zip

open Inflate.Abap

inductive Reason where
  | own (reason : String)
  | source (reason : String)
  deriving DecidableEq

abbrev Result (α : Type) := Checked Reason α

def fail {α : Type} (reason : String) : Result α := .error (.raised (.own reason))

structure Source (σ : Type) where
  archive : List UInt8
  size : σ → Except String Nat × σ
  read : σ → Nat → Nat → Except String (List UInt8) × σ
  archive_lt : archive.length < 2147483648
  size_eq : ∀ s n s', size s = (.ok n,s') → n = archive.length
  read_eq : ∀ s pos len data s', read s pos len = (.ok data,s') → data = (archive.drop pos).take len

structure Entry where
  name : String := ""
  method : Nat := 0
  crc32 : BitVec 32 := 0
  compressedSize : Nat := 0
  size : Nat := 0
  isDirectory : Bool := false
  isEncrypted : Bool := false
  headerOffset : Nat := 0
  deriving DecidableEq

def leLoop (data : List UInt8) (off len : Nat) : Nat → Nat → Nat → Nat → Result Nat
  | 0, _, value, _ => pure value
  | k + 1, index, value, mult => do
      let next ← Checked.int (off + index)
      let byte ← Checked.slice data (next - 1) 1
      let int := (byte.headD 0).toNat
      if index = 4 ∧ 128 ≤ int then fail "a size or offset of 2 GiB or more (ZIP64 is not read)"
      else
        let product ← Checked.int (int * mult)
        let value ← Checked.int (value + product)
        let mult ← if index < len then Checked.int (mult * 256) else pure mult
        leLoop data off len k (index + 1) value mult

def le (data : List UInt8) (off len : Nat) : Result Nat := do
  let stop ← Checked.int (off + len)
  if data.length < stop then fail "a record runs past the end of the archive"
  else leLoop data off len len 1 0 1

def text (data : List UInt8) : String := (String.fromUTF8? ⟨data.toArray⟩).getD ""

def lcEocd : List UInt8 := [0x50,0x4B,0x05,0x06]

def lcCentral : List UInt8 := [0x50,0x4B,0x01,0x02]

def lcLocal : List UInt8 := [0x50,0x4B,0x03,0x04]

def endsAt (tail : List UInt8) (off : Nat) : Result Bool := do
  let sig ← Checked.slice tail off 4
  if sig = lcEocd then
    let len ← le tail (off + 20) 2
    let stop ← Checked.int (off + 22 + len)
    pure (stop == tail.length)
  else pure false

def findEnd (tail : List UInt8) : Nat → Result (Option Nat)
  | 0 => pure none
  | n + 1 => do
      let found ← endsAt tail n
      if found = true then pure (some n) else findEnd tail n

structure EndRecord where
  count : Nat
  cdSize : Nat
  cdOff : Nat
  comment : String

def readEnd (size : Nat) (tail : List UInt8) : Result EndRecord := do
  let found ← findEnd tail (tail.length - 21)
  match found with
  | none => fail "not a zip archive: no end of central directory record"
  | some off => do
      let disk ← le tail (off + 4) 2
      if disk ≠ 0 then fail "split archives are not read"
      else
        let start ← le tail (off + 6) 2
        if start ≠ 0 then fail "split archives are not read"
        else
          let count ← le tail (off + 10) 2
          if count = 65535 then fail "ZIP64 archives are not read"
          else
            let cdSize ← le tail (off + 12) 4
            let cdOff ← le tail (off + 16) 4
            let len ← le tail (off + 20) 2
            let stop ← Checked.int (off + 22 + len)
            if tail.length < stop then fail "the archive comment runs past the end"
            else
              let record ← Checked.slice tail off (tail.length - off)
              let comment ← Checked.slice record 22 len
              let limit ← Checked.int (size - tail.length + off)
              if limit < cdSize ∨ limit - cdSize < cdOff then
                fail "the central directory lies outside the archive"
              else pure ⟨count,cdSize,cdOff,text comment⟩

def crcOf (bytes : List UInt8) : BitVec 32 :=
  (bytes.getD 3 0).toBitVec ++ (bytes.getD 2 0).toBitVec ++ (bytes.getD 1 0).toBitVec ++
    (bytes.getD 0 0).toBitVec

def readEntry (cd : List UInt8) (off : Nat) : Result (Entry × Nat) := do
  let stop ← Checked.int (off + 46)
  if cd.length < stop then fail "the central directory is shorter than its entry count"
  else
    let sig ← Checked.slice cd off 4
    if sig ≠ lcCentral then fail "a central directory entry has the wrong signature"
    else
      let flags ← le cd (off + 8) 2
      let method ← le cd (off + 10) 2
      let crc ← Checked.slice cd (off + 16) 4
      let compressedSize ← le cd (off + 20) 4
      let size ← le cd (off + 24) 4
      let nlen ← le cd (off + 28) 2
      let elen ← le cd (off + 30) 2
      let klen ← le cd (off + 32) 2
      let headerOffset ← le cd (off + 42) 4
      let stop ← Checked.int (off + 46 + nlen)
      if cd.length < stop then fail "an entry name runs past the central directory"
      else
        let bytes ← Checked.slice cd (off + 46) nlen
        let name := text bytes
        let next ← Checked.int (off + 46 + nlen + elen)
        let next ← Checked.int (next + klen)
        pure ({
          name := name
          method := method
          crc32 := crcOf crc
          compressedSize := compressedSize
          size := size
          isDirectory := name.toList.getLast? == some '/'
          isEncrypted := flags % 2 == 1
          headerOffset := headerOffset },next)

def readEntries (cd : List UInt8) : Nat → Nat → List Entry → Result (List Entry)
  | 0, _, entries => pure entries
  | count + 1, off, entries => do
      let (entry,next) ← readEntry cd off
      readEntries cd count next (entries ++ [entry])

structure Reader (σ : Type) where
  source : σ
  entries : List Entry
  comment : String
  entry : Entry := {}
  opened : Bool := false
  eof : Bool := true
  pos : Nat := 0
  left : Nat := 0
  produced : Nat := 0
  inflate : Option Decoder := none
  crc : Crc32 := {}

variable {σ : Type} (src : Source σ)

def Source.readPiece (s : σ) (pos len : Nat) : Result (List UInt8) × σ :=
  match src.read s pos len with
  | (.error reason,s) => (.error (.raised (.source reason)),s)
  | (.ok data,s) => (.ok data,s)

def Source.readSize (s : σ) : Result Nat × σ :=
  match src.size s with
  | (.error reason,s) => (.error (.raised (.source reason)),s)
  | (.ok n,s) => (.ok n,s)

def readDirectory (s : σ) : Result (List Entry × String) × σ :=
  match src.readSize s with
  | (.error e,s) => (.error e,s)
  | (.ok size,s) =>
      if size < 22 then
        (fail "not a zip archive: shorter than an end of central directory record",s)
      else
        let tailLen := if 65557 < size then 65557 else size
        match src.readPiece s (size - tailLen) tailLen with
        | (.error e,s) => (.error e,s)
        | (.ok tail,s) =>
            match readEnd size tail with
            | .error e => (.error e,s)
            | .ok record =>
                match src.readPiece s record.cdOff record.cdSize with
                | (.error e,s) => (.error e,s)
                | (.ok cd,s) =>
                    match readEntries cd record.count 0 [] with
                    | .error e => (.error e,s)
                    | .ok entries => (.ok (entries,record.comment),s)

def create (s : σ) : Result (Reader σ) :=
  match readDirectory src s with
  | (.error e,_) => .error e
  | (.ok (entries,comment),s) => .ok { source := s, entries := entries, comment := comment }

namespace Reader

def getEntries (r : Reader σ) : List Entry := r.entries

def getComment (r : Reader σ) : String := r.comment

def isEof (r : Reader σ) : Bool := r.eof

def dataOffset (entry : Entry) (header : List UInt8) : Result Nat := do
  let sig ← Checked.slice header 0 4
  if sig ≠ lcLocal then fail ("the local header of " ++ entry.name ++ " has the wrong signature")
  else
    let nlen ← le header 26 2
    let elen ← le header 28 2
    let pos ← Checked.int (entry.headerOffset + 30)
    let pos ← Checked.int (pos + nlen)
    Checked.int (pos + elen)

def start (r : Reader σ) (pos : Nat) : Reader σ :=
  { r with
    pos := pos
    left := r.entry.compressedSize
    produced := 0
    opened := true
    eof := false
    crc := {}
    inflate := if r.entry.method = 8 then some {} else none }

def openEntry (r : Reader σ) (name : String) : Result Unit × Reader σ :=
  match r.entries.find? (·.name == name) with
  | none => (fail ("no entry " ++ name ++ " in the archive"),r)
  | some entry =>
      let r := { r with entry := entry }
      if entry.isEncrypted = true then (fail (name ++ " is encrypted"),r)
      else if entry.method ≠ 0 ∧ entry.method ≠ 8 then
        (fail (name ++ " uses compression method " ++ toString entry.method ++
          ", only stored (0) and deflate (8) are read"),r)
      else
        match src.readPiece r.source entry.headerOffset 30 with
        | (.error e,s) => (.error e,{ r with source := s })
        | (.ok header,s) =>
            let r := { r with source := s }
            if header.length < 30 then (fail ("the local header of " ++ name ++ " runs past the end"),r)
            else
              match dataOffset entry header with
              | .error e => (.error e,r)
              | .ok pos => (.ok (),r.start pos)

def close (r : Reader σ) : Reader σ := { r with opened := false }

def isPaused (r : Reader σ) : Bool :=
  match r.inflate with
  | none => false
  | some y => y.isPaused

def toTake (r : Reader σ) (max maxOut : Nat) : Nat :=
  let take := if max < r.left then max else r.left
  if r.inflate.isNone = true ∧ 0 < maxOut ∧ maxOut < take then maxOut else take

def fetch (r : Reader σ) (max maxOut : Nat) : Result (List UInt8) × Reader σ :=
  if r.isPaused = true then (.ok [],r)
  else
    let take := r.toTake max maxOut
    if take = 0 then (.ok [],r)
    else
      match src.readPiece r.source r.pos take with
      | (.error e,s) => (.error e,{ r with source := s })
      | (.ok data,s) =>
          let r := { r with source := s }
          if data.length < take then
            (fail (r.entry.name ++ " is cut short: the archive ends inside it"),r.close)
          else (.ok data,{ r with pos := r.pos + take, left := r.left - take })

def decodePiece (r : Reader σ) (data : List UInt8) (maxOut : Nat) :
    Result (List UInt8) × Reader σ :=
  match r.inflate with
  | none => (.ok data,r)
  | some y =>
      match y.feed data maxOut with
      | .error reason => (fail (r.entry.name ++ ": " ++ reason),r.close)
      | .ok (y,raw) => (.ok raw,{ r with inflate := some y })

def finishInflate (r : Reader σ) : Result Unit :=
  match r.inflate with
  | none => .ok ()
  | some y =>
      match y.finish with
      | .error reason => fail (r.entry.name ++ ": " ++ reason)
      | .ok _ => .ok ()

def finishEntry (r : Reader σ) : Result Unit × Reader σ :=
  let r := { r with eof := true, opened := false }
  match r.finishInflate with
  | .error e => (.error e,r)
  | .ok _ =>
      if r.produced ≠ r.entry.size then
        (fail (r.entry.name ++ ": " ++ toString r.produced ++ " bytes instead of " ++
          toString r.entry.size),r)
      else if r.crc.value ≠ r.entry.crc32 then
        (fail (r.entry.name ++ ": CRC-32 does not match"),r)
      else (.ok (),{ r with opened := true })

def account (r : Reader σ) (data : List UInt8) : Result (List UInt8) × Reader σ :=
  if r.entry.size < r.produced + data.length then
    (fail (r.entry.name ++ ": more than the " ++ toString r.entry.size ++
      " bytes the directory gives"),r.close)
  else
    let r := { r with crc := r.crc.update data, produced := r.produced + data.length }
    if r.left = 0 ∧ r.isPaused = false then
      match r.finishEntry with
      | (.error e,r) => (.error e,r)
      | (.ok _,r) => (.ok data,r)
    else (.ok data,r)

def read (r : Reader σ) (max maxOut : Nat) : Result (List UInt8) × Reader σ :=
  if r.opened = false then (fail "no entry is open",r)
  else if r.eof = true then (.ok [],r)
  else
    match r.fetch src max maxOut with
    | (.error e,r) => (.error e,r)
    | (.ok data,r) =>
        match r.decodePiece data maxOut with
        | (.error e,r) => (.error e,r)
        | (.ok raw,r) => r.account raw

end Reader

end OpenSteamgate.Zip
