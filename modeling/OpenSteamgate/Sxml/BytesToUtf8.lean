import Mathlib.Data.Nat.Notation

namespace OpenSteamgate.Sxml

inductive Kind
  | le
  | be
  | l1
  | as
  deriving DecidableEq

def kindOf (upper : String → String) (encoding : String) : Option Kind :=
  let name := upper encoding
  if name = "UTF-16LE" then some .le
  else if name = "UTF-16BE" ∨ name = "UTF-16" then some .be
  else if name = "ISO-8859-1" ∨ name = "ISO_8859-1" ∨ name = "LATIN1" ∨ name = "LATIN-1" then some .l1
  else if name = "US-ASCII" ∨ name = "ASCII" then some .as
  else none

def supports (upper : String → String) (encoding : String) : Bool := (kindOf upper encoding).isSome

structure BytesToUtf8 where
  source : List (List UInt8)
  pending : List UInt8
  kind : Kind
  eof : Bool := false

def create (upper : String → String) (source : List (List UInt8)) (head : List UInt8) (encoding : String) :
    Option BytesToUtf8 :=
  (kindOf upper encoding).map fun kind => {source,pending := head,kind}

def utf8 (code : Nat) (out : List UInt8) : List UInt8 :=
  if code < 128 then out ++ [UInt8.ofNat code]
  else if code < 2048 then out ++ [UInt8.ofNat (192 + code / 64),UInt8.ofNat (128 + code % 64)]
  else if code < 65536 then
    out ++ [UInt8.ofNat (224 + code / 4096),UInt8.ofNat (128 + code / 64 % 64),UInt8.ofNat (128 + code % 64)]
  else
    out ++ [UInt8.ofNat (240 + code / 262144),UInt8.ofNat (128 + code / 4096 % 64),
      UInt8.ofNat (128 + code / 64 % 64),UInt8.ofNat (128 + code % 64)]

def unit (kind : Kind) (first second : UInt8) : Nat :=
  if kind = .le then second.toNat * 256 + first.toNat else first.toNat * 256 + second.toNat

def singles (kind : Kind) : List UInt8 → List UInt8 → List UInt8
  | [],rv => rv
  | byte :: bytes,rv =>
    let code := if kind = .as ∧ 127 < byte.toNat then 65533 else byte.toNat
    singles kind bytes (utf8 code rv)

def units (kind : Kind) (eof : Bool) : List UInt8 → List UInt8 → List UInt8 × List UInt8
  | first :: second :: bytes,rv =>
    let code := unit kind first second
    if 55296 ≤ code ∧ code ≤ 56319 then
      match bytes with
      | third :: fourth :: rest =>
        let low := unit kind third fourth
        if 56320 ≤ low ∧ low ≤ 57343 then
          units kind eof rest (utf8 (65536 + (code - 55296) * 1024 + low - 56320) rv)
        else units kind eof (third :: fourth :: rest) (utf8 code rv)
      | bytes => if eof = false then (rv,first :: second :: bytes) else units kind eof bytes (utf8 code rv)
    else units kind eof bytes (utf8 code rv)
  | bytes,rv => (rv,bytes)

namespace BytesToUtf8

def byteWise (s : BytesToUtf8) : Bool := s.kind == .l1 || s.kind == .as

def fill (s : BytesToUtf8) : BytesToUtf8 :=
  if s.eof = false ∧ (s.pending.length < 4 ∨ s.byteWise = true) then
    match s.source with
    | [] => {s with eof := true}
    | [] :: source => {s with source,eof := true}
    | chunk :: source => {s with source,pending := s.pending ++ chunk}
  else s

def convert (s : BytesToUtf8) : List UInt8 × List UInt8 :=
  if s.byteWise = true then (singles s.kind s.pending [],[])
  else
    let (rv,rest) := units s.kind s.eof s.pending []
    if s.eof = true ∧ rest ≠ [] ∧ rest.length < 2 then (utf8 65533 rv,[]) else (rv,rest)

def nextLoop : Nat → BytesToUtf8 → Option (List UInt8 × BytesToUtf8)
  | 0,_ => none
  | n + 1,s =>
    let s := s.fill
    if s.pending = [] then some ([],s)
    else
      let (rv,rest) := s.convert
      if s.eof = true ∧ rv = [] ∧ rest = [] then some ([],{s with pending := rest})
      else if rv = [] then nextLoop n {s with pending := rest}
      else some (rv,{s with pending := rest})

def next (s : BytesToUtf8) : Option (List UInt8 × BytesToUtf8) := nextLoop (s.source.length + 2) s

end BytesToUtf8

end OpenSteamgate.Sxml
