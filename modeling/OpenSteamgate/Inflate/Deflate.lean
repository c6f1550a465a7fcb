import OpenSteamgate.Inflate.Decoder

namespace OpenSteamgate.Inflate

open Bits CanonicalCode

def lengthExtra (sym : Nat) : Nat := if sym < 8 ∨ sym = 28 then 0 else (sym - 4) / 4

def lengthBase (sym : Nat) : Nat :=
  if sym < 8 then 3 + sym
  else if sym = 28 then 258
  else 3 + (4 + sym % 4) * 2 ^ lengthExtra sym

def distanceExtra (sym : Nat) : Nat := if sym < 4 then 0 else (sym - 2) / 2

def distanceBase (sym : Nat) : Nat :=
  if sym < 4 then 1 + sym else 1 + (2 + sym % 2) * 2 ^ distanceExtra sym

def codeLengthOrder : List Nat := [16,17,18,0,8,7,9,6,10,5,11,4,12,3,13,2,14,1,15]

inductive Token where
  | literal (b : UInt8)
  | copy (length distance : Nat)

def repeatBack (distance : Nat) : Nat → List UInt8 → List UInt8
  | 0, out => out
  | n + 1, out => repeatBack distance n (out ++ [out.getD (out.length - distance) 0])

def Token.expand (out : List UInt8) : Token → List UInt8
  | .literal b => out ++ [b]
  | .copy length distance => repeatBack distance length out

def Token.Valid (out : List UInt8) : Token → Prop
  | .literal _ => True
  | .copy length distance =>
      3 ≤ length ∧ length ≤ 258 ∧ 1 ≤ distance ∧ distance ≤ 32768 ∧ distance ≤ out.length

def expandTokens (out : List UInt8) (tokens : List Token) : List UInt8 := tokens.foldl Token.expand out

def ValidTokens : List UInt8 → List Token → Prop
  | _, [] => True
  | out, t :: tokens => t.Valid out ∧ ValidTokens (t.expand out) tokens

inductive TokenBits (ll dl : List Nat) : Token → List Bool → Prop
  | literal (b : UInt8) : 0 < ll.getD b.toNat 0 → TokenBits ll dl (.literal b) (codeword ll b.toNat)
  | copy (sym extra dsym dextra : Nat) : sym < 29 → extra < 2 ^ lengthExtra sym →
      0 < ll.getD (257 + sym) 0 → dsym < 30 → dextra < 2 ^ distanceExtra dsym →
      0 < dl.getD dsym 0 →
      TokenBits ll dl (.copy (lengthBase sym + extra) (distanceBase dsym + dextra))
        (codeword ll (257 + sym) ++ (lsb (lengthExtra sym) extra ++
          (codeword dl dsym ++ lsb (distanceExtra dsym) dextra)))

inductive TokensBits (ll dl : List Nat) : List Token → List Bool → Prop
  | nil : TokensBits ll dl [] []
  | cons (t : Token) (tokens : List Token) (bits rest : List Bool) : TokenBits ll dl t bits →
      TokensBits ll dl tokens rest → TokensBits ll dl (t :: tokens) (bits ++ rest)

inductive LengthsBits (cl total : List Nat) : List Nat → List Bool → Prop
  | done : LengthsBits cl total total []
  | length (acc : List Nat) (l : Nat) (bits : List Bool) : l < 16 → 0 < cl.getD l 0 →
      LengthsBits cl total (acc ++ [l]) bits → LengthsBits cl total acc (codeword cl l ++ bits)
  | again (acc : List Nat) (prev n : Nat) (bits : List Bool) : acc.getLast? = some prev → n < 4 →
      0 < cl.getD 16 0 → LengthsBits cl total (acc ++ List.replicate (3 + n) prev) bits →
      LengthsBits cl total acc (codeword cl 16 ++ (lsb 2 n ++ bits))
  | zeros (acc : List Nat) (n : Nat) (bits : List Bool) : n < 8 → 0 < cl.getD 17 0 →
      LengthsBits cl total (acc ++ List.replicate (3 + n) 0) bits →
      LengthsBits cl total acc (codeword cl 17 ++ (lsb 3 n ++ bits))
  | manyZeros (acc : List Nat) (n : Nat) (bits : List Bool) : n < 128 → 0 < cl.getD 18 0 →
      LengthsBits cl total (acc ++ List.replicate (11 + n) 0) bits →
      LengthsBits cl total acc (codeword cl 18 ++ (lsb 7 n ++ bits))

def Complete (lengths : List Nat) : Prop := kraft inflMaxBits lengths = 2 ^ inflMaxBits

def Single (lengths : List Nat) : Prop := lengths.filter (0 < ·) = [1]

structure Tables where
  ll : List Nat
  dl : List Nat
  cl : List Nat
  ncode : Nat
  literals : 257 ≤ ll.length ∧ ll.length ≤ 286
  distances : 1 ≤ dl.length ∧ dl.length ≤ 32
  lengths : ∀ l ∈ ll ++ dl, l ≤ 15
  endOfBlock : 0 < ll.getD 256 0
  literalCode : Complete ll ∨ Single ll
  distanceCode : Complete dl ∨ Single dl ∨ ∀ l ∈ dl, l = 0
  codeLengths : cl.length = 19 ∧ ∀ l ∈ cl, l ≤ 7
  codeLengthCode : Complete cl
  sent : 4 ≤ ncode ∧ ncode ≤ 19
  unsent : ∀ i ∈ codeLengthOrder.drop ncode, cl.getD i 0 = 0

def Tables.HeaderBits (t : Tables) (bits : List Bool) : Prop :=
  ∃ lens, LengthsBits t.cl (t.ll ++ t.dl) [] lens ∧
    bits = lsb 5 (t.ll.length - 257) ++ (lsb 5 (t.dl.length - 1) ++ (lsb 4 (t.ncode - 4) ++
      ((codeLengthOrder.take t.ncode).flatMap (fun i => lsb 3 (t.cl.getD i 0)) ++ lens)))

inductive Block where
  | stored (data : List UInt8)
  | fixed (tokens : List Token)
  | dynamic (tables : Tables) (tokens : List Token)

def Block.expand (out : List UInt8) : Block → List UInt8
  | .stored data => out ++ data
  | .fixed tokens => expandTokens out tokens
  | .dynamic _ tokens => expandTokens out tokens

def Block.Valid (out : List UInt8) : Block → Prop
  | .stored data => data.length ≤ 65535
  | .fixed tokens => ValidTokens out tokens
  | .dynamic _ tokens => ValidTokens out tokens

def Block.Narrow : Block → Prop
  | .dynamic tables _ => tables.dl.length ≤ 30
  | _ => True

def rfcFixedDistances : List Nat := List.replicate 32 5

inductive BlockBits (pos : Nat) (final : Bool) : Block → List Bool → Prop
  | stored (data : List UInt8) (pad : List Bool) : pad.length < 8 →
      (pos + 3 + pad.length) % 8 = 0 →
      BlockBits pos final (.stored data) (final :: (lsb 2 0 ++ (pad ++
        (lsb 16 data.length ++ (lsb 16 (65535 - data.length) ++ ofBytes data)))))
  | fixed (tokens : List Token) (bits : List Bool) :
      TokensBits fixedLengths rfcFixedDistances tokens bits →
      BlockBits pos final (.fixed tokens)
        (final :: (lsb 2 1 ++ (bits ++ codeword fixedLengths 256)))
  | dynamic (tables : Tables) (tokens : List Token) (header bits : List Bool) :
      tables.HeaderBits header → TokensBits tables.ll tables.dl tokens bits →
      BlockBits pos final (.dynamic tables tokens)
        (final :: (lsb 2 2 ++ (header ++ (bits ++ codeword tables.ll 256))))

inductive StreamBits : Nat → List Block → List Bool → Prop
  | last (pos : Nat) (b : Block) (bits : List Bool) : BlockBits pos true b bits →
      StreamBits pos [b] bits
  | cons (pos : Nat) (b : Block) (blocks : List Block) (bits rest : List Bool) :
      BlockBits pos false b bits → StreamBits (pos + bits.length) blocks rest →
      StreamBits pos (b :: blocks) (bits ++ rest)

def expandBlocks (out : List UInt8) (blocks : List Block) : List UInt8 := blocks.foldl Block.expand out

def ValidBlocks : List UInt8 → List Block → Prop
  | _, [] => True
  | out, b :: blocks => b.Valid out ∧ ValidBlocks (b.expand out) blocks

end OpenSteamgate.Inflate
