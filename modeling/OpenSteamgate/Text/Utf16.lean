import Mathlib.Tactic.Ring
import Mathlib.Tactic.Linarith
import OpenSteamgate.Library.Wtf8

namespace OpenSteamgate.Text

open Wtf8 Marked

inductive Raise
  | rangeOutOfBounds
  | strgParVal
  | makeslice
  | slice
  | index
  deriving DecidableEq

-- a byte past the end reads as 0, which no test below takes for a continuation byte
def byte (v : List UInt8) (i : Nat) : Nat := (v.getD i 0).toNat

def runeError : Nat := 0xFFFD

def continues (b : Nat) : Bool := b / 64 == 2

def leastSecond (lead : Nat) : Nat :=
  if lead = 0xE0 then 0xA0 else if lead = 0xF0 then 0x90 else 0x80

def greatestSecond (lead : Nat) : Nat :=
  if lead = 0xED then 0x9F else if lead = 0xF4 then 0x8F else 0xBF

def decodeRune (v : List UInt8) : Nat × Nat :=
  if v = [] then (runeError,0)
  else if byte v 0 < 0x80 then (byte v 0,1)
  else if byte v 0 < 0xC2 ∨ 0xF4 < byte v 0 then (runeError,1)
  else if byte v 1 < leastSecond (byte v 0) ∨ greatestSecond (byte v 0) < byte v 1 then
    (runeError,1)
  else if byte v 0 < 0xE0 then (byte v 0 % 32 * 64 + byte v 1 % 64,2)
  else if !continues (byte v 2) then (runeError,1)
  else if byte v 0 < 0xF0 then
    (byte v 0 % 16 * 4096 + byte v 1 % 64 * 64 + byte v 2 % 64,3)
  else if !continues (byte v 3) then (runeError,1)
  else (byte v 0 % 8 * 262144 + byte v 1 % 64 * 4096 + byte v 2 % 64 * 64 + byte v 3 % 64,4)

def appendRune (r : Nat) : List UInt8 := if Half r ∨ limit ≤ r then encode runeError else encode r

def encodeRune (r : Nat) : Nat × Nat :=
  if r < 0x10000 ∨ limit ≤ r then (runeError,runeError) else (high r,low r)

def decodePair (hi lo : Nat) : Nat := if High hi ∧ Low lo then join hi lo else runeError

def half (v : List UInt8) (least greatest : Nat) : Bool :=
  byte v 0 == 0xed && (least ≤ byte v 1 && byte v 1 ≤ greatest) && continues (byte v 2)

def decode16 (v : List UInt8) : Nat × Nat :=
  if 3 ≤ v.length ∧ half v 0xa0 0xbf then
    (byte v 0 % 16 * 4096 + byte v 1 % 64 * 64 + byte v 2 % 64,3)
  else decodeRune v

theorem decodeRune_pos {v : List UInt8} (h : v ≠ []) : 0 < (decodeRune v).2 := by
  rw [decodeRune,if_neg h]
  split_ifs <;> exact Nat.succ_pos _

theorem decode16_pos {v : List UInt8} (h : v ≠ []) : 0 < (decode16 v).2 := by
  rw [decode16]
  split
  · exact Nat.succ_pos _
  · exact decodeRune_pos h

theorem drop_shorter {v : List UInt8} {w : Nat} (h : v ≠ []) (hw : 0 < w) :
    (v.drop w).length < v.length := by
  rw [List.length_drop]
  exact Nat.sub_lt (List.length_pos_iff.mpr h) hw

def runeCount (v : List UInt8) : Nat :=
  if _ : v = [] then 0 else runeCount (v.drop (decodeRune v).2) + 1
termination_by v.length
decreasing_by exact drop_shorter ‹_› (decodeRune_pos ‹_›)

def corrections (n : Int) (v : List UInt8) : Int :=
  if _ : v = [] then n
  else
    let n := if 0xf0 ≤ byte v 0 then n + 1 else n
    if 2 < v.length ∧ half v 0xa0 0xbf then corrections (n - 2) (v.drop 3)
    else corrections n (v.drop 1)
termination_by v.length
decreasing_by
  · exact drop_shorter ‹_› (by decide)
  · exact drop_shorter ‹_› (by decide)

def count16 (v : List UInt8) : Int := corrections (runeCount v) v

structure StrMemo where
  ascii : Bool
  units : Int
  idx : Option (List Int)
  cursor : Nat

def allASCII (v : List UInt8) : Bool := v.all fun b => !(0x80 ≤ b.toNat : Bool)

def strMemo (v : List UInt8) : StrMemo where
  ascii := allASCII v
  units := if allASCII v then v.length else count16 v
  idx := none
  cursor := 0

def indexFrom (v : List UInt8) (b unit : Nat) : List Int :=
  if _ : v = [] then []
  else
    let (r,w) := decode16 v
    let first := if unit % 64 = 0 then [(b : Int)] else []
    if 0xffff < r then
      let second := if (unit + 1) % 64 = 0 then [-(b : Int) - 1] else []
      first ++ second ++ indexFrom (v.drop (decode16 v).2) (b + w) (unit + 2)
    else first ++ indexFrom (v.drop (decode16 v).2) (b + w) (unit + 1)
termination_by v.length
decreasing_by
  · exact drop_shorter ‹_› (decode16_pos ‹_›)
  · exact drop_shorter ‹_› (decode16_pos ‹_›)

def seek (v : List UInt8) (k at' : Nat) (b : Int) : Int :=
  if at' < k then
    if b < 0 then
      let b := -b - 1
      seek v k (at' + 1) (b + (decode16 (v.drop b.toNat)).2)
    else
      let (r,w) := decode16 (v.drop b.toNat)
      if 0xffff < r then
        if at' + 1 = k then -b - 1 else seek v k (at' + 2) (b + w)
      else seek v k (at' + 1) (b + w)
  else b
termination_by k - at'

-- the unit above, the byte below as 32 bits with a sign
def packCursor (k : Nat) (b : Int) : Nat := k * 2 ^ 32 + (b % 2 ^ 32).toNat

def unpackCursor (c : Nat) : Nat × Int :=
  (c / 2 ^ 32,if c % 2 ^ 32 < 2 ^ 31 then c % 2 ^ 32 else (c % 2 ^ 32 : Nat) - (2 ^ 32 : Int))

namespace StrMemo

def indexed (m : StrMemo) (v : List UInt8) : StrMemo :=
  {m with idx := some (m.idx.getD (indexFrom v 0 0))}

def startAt (m : StrMemo) (v : List UInt8) (k : Nat) (b : Int) : Nat × Int :=
  if v.length < 2 ^ 31 ∧ (unpackCursor m.cursor).1 ≤ k ∧ k / 64 * 64 < (unpackCursor m.cursor).1
  then unpackCursor m.cursor
  else (k / 64 * 64,b)

def moveTo (m : StrMemo) (v : List UInt8) (k : Nat) (b : Int) : StrMemo :=
  if v.length < 2 ^ 31 then {m with cursor := packCursor k b} else m

def byteAt (m : StrMemo) (v : List UInt8) (k : Nat) : Except Raise (Int × StrMemo) :=
  if m.ascii then .ok (k,m)
  else if (k : Int) = m.units then .ok (v.length,m)
  else
    let m := m.indexed v
    match (m.idx.getD [])[k / 64]? with
    | none => .error .index
    | some b =>
      let b := seek v k (m.startAt v k b).1 (m.startAt v k b).2
      .ok (b,m.moveTo v k b)

inductive Reached (v : List UInt8) : StrMemo → Prop
  | fresh : Reached v (strMemo v)
  | byteAt {m m' : StrMemo} {k : Nat} {b : Int} :
      Reached v m → (k : Int) ≤ m.units → m.byteAt v k = .ok (b,m') → Reached v m'

end StrMemo

structure Memos where
  memo : List UInt8 → StrMemo
  reached : ∀ v, (memo v).Reached v

def memoOf (memos : Memos) (v : List UInt8) : Option StrMemo :=
  if v.length < 256 then none else some (memos.memo v)

def isASCII (memos : Memos) (v : List UInt8) : Bool :=
  match memoOf memos v with
  | some m => m.ascii
  | none => allASCII v

def strlen (memos : Memos) (v : List UInt8) : Int32 :=
  match memoOf memos v with
  | some m => Int32.ofInt m.units
  | none => Int32.ofInt (count16 v)

def boundaryFrom (v : List UInt8) (b k : Nat) : Int :=
  if _ : v = [] then b
  else if k = 0 then b
  else
    let (r,w) := decode16 v
    if 0xffff < r then
      if k = 1 then -(b : Int) - 1 else boundaryFrom (v.drop (decode16 v).2) (b + w) (k - 2)
    else boundaryFrom (v.drop (decode16 v).2) (b + w) (k - 1)
termination_by v.length
decreasing_by
  · exact drop_shorter ‹_› (decode16_pos ‹_›)
  · exact drop_shorter ‹_› (decode16_pos ‹_›)

-- without a memo the string is short, so that the source's second look for one finds none either
def boundary16 (m : Option StrMemo) (v : List UInt8) (k : Nat) :
    Except Raise (Int × Option StrMemo) :=
  match m with
  | some m => (m.byteAt v k).map fun (b,m) => (b,some m)
  | none => .ok (boundaryFrom v 0 k,none)

def surrogate16 (u : Nat) : List UInt8 :=
  [UInt8.ofNat (0xe0 + u / 4096),UInt8.ofNat (0x80 + u / 64 % 64),UInt8.ofNat (0x80 + u % 64)]

def cut (v : List UInt8) (a b : Nat) : Except Raise (List UInt8) :=
  if a ≤ b ∧ b ≤ v.length then .ok ((v.drop a).take (b - a)) else .error .slice

def opening (v : List UInt8) (a : Int) : List UInt8 × Nat :=
  if a < 0 then
    let a := (-a - 1).toNat
    let (r,w) := decode16 (v.drop a)
    (surrogate16 (encodeRune r).2,a + w)
  else ([],a.toNat)

def closing (v : List UInt8) (b : Int) : Nat × List UInt8 :=
  if b < 0 then
    let b := (-b - 1).toNat
    let (r,_) := decode16 (v.drop b)
    (b,surrogate16 (encodeRune r).1)
  else (b.toNat,[])

def slice16Memo (v : List UInt8) (lo hi : Nat) (m : Option StrMemo) :
    Except Raise (List UInt8) :=
  if lo = hi then .ok []
  else do
    let (a,m) ← boundary16 m v lo
    let (b,_) ← boundary16 m v hi
    let middle ← cut v (opening v a).2 (closing v b).1
    .ok ((opening v a).1 ++ middle ++ (closing v b).2)

def unitsFrom (v : List UInt8) : List UInt16 :=
  if _ : v = [] then []
  else
    let (r,_) := decode16 v
    let rest := unitsFrom (v.drop (decode16 v).2)
    if 0xffff < r then
      UInt16.ofNat (encodeRune r).1 :: UInt16.ofNat (encodeRune r).2 :: rest
    else UInt16.ofNat r :: rest
termination_by v.length
decreasing_by exact drop_shorter ‹_› (decode16_pos ‹_›)

-- the capacity asked for is the length as an int32
def utf16Units (memos : Memos) (v : List UInt8) : Except Raise (List UInt16) :=
  if (strlen memos v).toInt < 0 then .error .makeslice else .ok (unitsFrom v)

def utf16Lone (r : Nat) : List UInt8 := if Half r then surrogate16 r else appendRune r

def utf16String : List UInt16 → List UInt8
  | [] => []
  | [u] => utf16Lone u.toNat
  | u :: t :: us =>
    if High u.toNat ∧ Low t.toNat then
      appendRune (decodePair u.toNat t.toNat) ++ utf16String us
    else utf16Lone u.toNat ++ utf16String (t :: us)

def hasHalf (v : List UInt8) : Bool :=
  if 2 < v.length then
    match v.idxOf? 0xed with
    | none => false
    | some i =>
      if 2 < (v.drop i).length ∧ half (v.drop i) 0xa0 0xbf then true
      else hasHalf (v.drop (i + 1))
  else false
termination_by v.length
decreasing_by
  rw [List.length_drop]
  omega

def pairAt (v : List UInt8) : Bool := half v 0xa0 0xaf && half (v.drop 3) 0xb0 0xbf

def canonLoop (v : List UInt8) (i last : Nat) (b : List UInt8) : List UInt8 × Nat :=
  if i + 5 < v.length then
    if pairAt (v.drop i) then
      canonLoop v (i + 6) (i + 6)
        (b ++ (v.drop last).take (i - last) ++
          appendRune (decodePair (decode16 (v.drop i)).1 (decode16 (v.drop (i + 3))).1))
    else canonLoop v (i + 1) last b
  else (b,last)
termination_by v.length - i

def canon (v : List UInt8) : List UInt8 :=
  if !hasHalf v then v
  else
    let (b,last) := canonLoop v 0 0 []
    if last = 0 then v else b ++ v.drop last

def concat (a b : List UInt8) : List UInt8 :=
  if 3 ≤ a.length ∧ 3 ≤ b.length ∧ byte a (a.length - 3) = 0xed ∧ byte b 0 = 0xed then
    canon (a ++ b)
  else a ++ b

def subS (memos : Memos) (v : List UInt8) (off length : Int32) : Except Raise (List UInt8) :=
  let m := memoOf memos v
  let ascii := match m with
    | some m => m.ascii
    | none => isASCII memos v
  let n : Int := if ascii then v.length else match m with
    | some m => m.units
    | none => count16 v
  if off.toInt < 0 ∨ n < off.toInt then .error .rangeOutOfBounds
  else if 0 ≤ length.toInt ∧ n < off.toInt + length.toInt then .error .rangeOutOfBounds
  else
    let stop := if 0 ≤ length.toInt then off.toInt + length.toInt else n
    if ascii then cut v off.toInt.toNat stop.toNat
    else slice16Memo v off.toInt.toNat stop.toNat m

def index16 (memos : Memos) (v sub : List UInt8) : Except Raise Int :=
  if !hasHalf sub && !hasHalf v then
    match index v sub with
    | some b => .ok (strlen memos (v.take b)).toInt
    | none => .ok (-1)
  else do
    let a ← utf16Units memos v
    let b ← utf16Units memos sub
    match index a b with
    | some i => .ok i
    | none => .ok (-1)

def find (memos : Memos) (v sub : List UInt8) (off : Int32) : Except Raise Int32 :=
  if sub = [] then .error .strgParVal
  else if isASCII memos v then
    if off.toInt < 0 ∨ (v.length : Int) < off.toInt then .error .rangeOutOfBounds
    else match index (v.drop off.toInt.toNat) sub with
      | none => .ok (-1)
      | some i => .ok (off + Int32.ofInt i)
  else do
    let sec ← subS memos v off (-1)
    let i ← index16 memos sec sub
    if i < 0 then .ok (-1) else .ok (off + Int32.ofInt i)

end OpenSteamgate.Text
