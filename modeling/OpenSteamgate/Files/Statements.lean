import Mathlib.Data.List.DropRight
import OpenSteamgate.Library.Storage
import OpenSteamgate.Dataset.Sandbox
import OpenSteamgate.Text.Utf16

namespace OpenSteamgate.Files

open Text Wtf8
open Dataset (Mode)

abbrev Bytes := List UInt8

inductive Kind
  | c
  | g
  | n
  | d
  | t
  | x
  | y
  | other
  deriving DecidableEq

structure Data where
  kind : Kind
  len : Nat
  value : Bytes

inductive Fault
  | fileOpen
  | fileOpenMode
  | notCompiled
  | raised (raise : Raise)

abbrev Name := List Char

structure OpenDataset where
  mode : Mode
  binary : Bool
  pos : Nat

structure DatasetOpen where
  mode : Mode
  binary : Bool
  position : Option Nat := none

structure Session where
  disk : Name → Option Bytes := fun _ => none
  files : Name → Option OpenDataset := fun _ => none
  subrc : Nat := 0

def blank : UInt8 := 32

def lineFeed : UInt8 := 10

def trimRight (v : Bytes) : Bytes := v.rdropWhile fun b => b = blank

def datasetName (name : Name) : Name := name.rdropWhile fun c => c = ' '

def hostOpen (disk : Name → Option Bytes) (name : Name) (mode : Mode) : Option (Name → Option Bytes) :=
  match mode,disk name with
  | .output,_ => some (Function.update disk name (some []))
  | .appending,none => some (Function.update disk name (some []))
  | .appending,some _ => some disk
  | .input,some _ | .update,some _ => some disk
  | .input,none | .update,none => none

variable (memos : Memos)

def openDataset (s : Session) (name : Name) (o : DatasetOpen) : Except Fault Session :=
  let name := datasetName name
  if (s.files name).isSome then .error .fileOpen
  else
    match hostOpen s.disk name o.mode with
    | none => .ok {s with subrc := 8}
    | some disk =>
      let pos := if o.mode = .appending then ((disk name).getD []).length else 0
      let file : OpenDataset := ⟨o.mode,o.binary,o.position.getD pos⟩
      .ok ⟨disk,Function.update s.files name (some file),0⟩

def closeDataset (s : Session) (name : Name) : Session :=
  {s with files := Function.update s.files (datasetName name) none,subrc := 0}

def opened (s : Session) (name : Name) : Except Fault OpenDataset :=
  match s.files (datasetName name) with
  | none => .error .fileOpenMode
  | some f => .ok f

def isByteLike (k : Kind) : Bool := k = .x || k = .y

def isCharLike (k : Kind) : Bool := k = .c || k = .g || k = .n || k = .d || k = .t

def charsOf (d : Data) (padded : Bool) : Bytes :=
  if d.kind = .c then
    let v := trimRight d.value
    if padded ∧ (strlen memos v).toInt < d.len then
      v ++ List.replicate (d.len - (strlen memos v).toInt).toNat blank
    else v
  else d.value

def utf16le (us : List UInt16) : Bytes :=
  us.flatMap fun u => [UInt8.ofNat (u.toNat % 256),UInt8.ofNat (u.toNat / 256)]

def unitsOfBytes : Bytes → List UInt16
  | a :: b :: rest => UInt16.ofNat (a.toNat + 256 * b.toNat) :: unitsOfBytes rest
  | _ => []

def fromUtf16LE (b : Bytes) : Bytes := utf16String (unitsOfBytes b)

def units16 (v : Bytes) : Except Fault (List UInt16) := (utf16Units memos v).mapError .raised

def transferred (f : OpenDataset) (src : Data) (length : Option Nat) (noEndOfLine : Bool) :
    Except Fault Bytes :=
  if f.binary then
    if isByteLike src.kind then
      match length with
      | none => .ok src.value
      | some n => .ok (if n ≤ src.value.length then src.value.take n
          else src.value ++ List.replicate (n - src.value.length) 0)
    else if isCharLike src.kind then do
      let text := charsOf memos src true
      match length with
      | none => do
        let us ← units16 memos text
        .ok (utf16le us)
      | some n => do
        let r ← units16 memos text
        let us ← units16 memos (utf16String (r.take n) ++ List.replicate (n - (r.take n).length) blank)
        .ok (utf16le us)
    else .error .notCompiled
  else if !isCharLike src.kind then .error .notCompiled
  else do
    let text ← match length with
      | none => .ok (charsOf memos src false)
      | some n => do
        let r ← units16 memos (charsOf memos src true)
        .ok (utf16String (r.take n))
    .ok (if noEndOfLine then text else text ++ [lineFeed])

def transfer (s : Session) (src : Data) (name : Name) (length : Option Nat) (noEndOfLine : Bool) :
    Except Fault Session := do
  let f ← opened s name
  if f.mode = .input then .error .fileOpenMode
  else do
    let b ← transferred memos f src length noEndOfLine
    let name := datasetName name
    let content := (s.disk name).map fun content => Record.writeAt 0 content f.pos b
    .ok ⟨Function.update s.disk name content,
      Function.update s.files name (some {f with pos := f.pos + b.length}),0⟩

section conversions

def cFit (v : Bytes) (n : Nat) : Except Fault Bytes := do
  let v ← if n < (strlen memos v).toInt then (subS memos v 0 (Int32.ofNat n)).mapError .raised else .ok v
  .ok (trimRight v)

def zeros (n : Nat) : Bytes := List.replicate n 48

def s2d (v : Bytes) : Except Fault Bytes := if v = [] then .ok (zeros 8) else cFit memos v 8

def s2t (v : Bytes) : Except Fault Bytes :=
  if v = [] then .ok (zeros 6)
  else
    let n := min 6 (strlen memos v).toInt
    do
      let v ← (subS memos v 0 (Int32.ofInt n)).mapError .raised
      .ok (v ++ zeros (6 - n).toNat)

def isDigit (b : UInt8) : Bool := 48 ≤ b && b ≤ 57

def moveString (target : Data) (v : Bytes) : Except Fault Data :=
  match target.kind with
  | .g => .ok {target with value := v}
  | .c => do
    let v ← cFit memos v target.len
    .ok {target with value := v}
  | .n =>
    if v ≠ [] ∧ v.all isDigit ∧ v.length ≤ target.len then
      .ok {target with value := zeros (target.len - v.length) ++ v}
    else .error .notCompiled
  | .d => do
    let v ← s2d memos v
    .ok {target with value := v}
  | .t => do
    let v ← s2t memos v
    .ok {target with value := v}
  | .x | .y | .other => .error .notCompiled

def clearData (d : Data) : Except Fault Data :=
  match d.kind with
  | .g | .y | .c => .ok {d with value := []}
  | .d => .ok {d with value := zeros 8}
  | .t => .ok {d with value := zeros 6}
  | .x => .ok {d with value := List.replicate d.len 0}
  | .n | .other => .error .notCompiled

end conversions

def datasetChunk : Nat := 64 * 1024

def lineAt (chunk : Nat) (content : Bytes) (pos : Nat) : Bytes × Nat × Bool :=
  let part := Record.readAt content pos chunk
  if _ : part = [] then ([],pos,false)
  else
    match part.idxOf? lineFeed with
    | some i => (part.take i,pos + (i + 1),true)
    | none =>
      let (line,rest) := lineAt chunk content (pos + part.length)
      (part ++ line,rest)
termination_by content.length - pos
decreasing_by
  have hlen : part.length ≤ content.length - pos := by
    rw [show part = (content.drop pos).take chunk from rfl,List.length_take,List.length_drop]
    exact Nat.min_le_right _ _
  have hpos : 0 < part.length := List.length_pos_iff.mpr ‹part ≠ []›
  have hinside : pos < content.length := Nat.lt_of_sub_pos (Nat.lt_of_lt_of_le hpos hlen)
  exact Nat.sub_lt_sub_left hinside (Nat.lt_add_of_pos_right hpos)

structure Reading where
  target : Data
  actual : Int32
  session : Session

def Session.at' (s : Session) (name : Name) (f : OpenDataset) (pos subrc : Nat) : Session :=
  {s with files := Function.update s.files (datasetName name) (some {f with pos := pos}),subrc := subrc}

def contentOf (s : Session) (name : Name) : Bytes := (s.disk (datasetName name)).getD []

def readDatasetLine (s : Session) (f : OpenDataset) (name : Name) (target : Data) (max : Option Nat) :
    Except Fault Reading :=
  if !isCharLike target.kind then .error .notCompiled
  else if max.isSome then .error .notCompiled
  else
    let (line,pos,ended) := lineAt datasetChunk (contentOf s name) f.pos
    if !ended ∧ line = [] then do
      let target ← clearData target
      .ok ⟨target,0,{s with subrc := 4}⟩
    else do
      let target ← moveString memos target line
      .ok ⟨target,strlen memos line,s.at' name f pos 0⟩

def readDatasetBytes (s : Session) (f : OpenDataset) (name : Name) (target : Data) (max : Option Nat) :
    Except Fault Reading := do
  let content := contentOf s name
  let want ← match target.kind with
    | .x => .ok target.len
    | .y | .g => .ok (content.length - f.pos)
    | .c | .n | .d | .t => .ok (target.len * 2)
    | .other => .error .notCompiled
  let want := min want (max.getD want)
  let b := Record.readAt content f.pos want
  let target ← match target.kind with
    | .x => .ok {target with value := b ++ List.replicate (target.len - b.length) 0}
    | .y => .ok {target with value := b}
    | _ => moveString memos target (fromUtf16LE b)
  let subrc := if target.kind = .y ∨ target.kind = .g then if b = [] then 4 else 0
    else if b.length < want ∨ want = 0 then 4 else 0
  .ok ⟨target,Int32.ofNat b.length,s.at' name f (f.pos + b.length) subrc⟩

def readDataset (s : Session) (name : Name) (target : Data) (max : Option Nat) : Except Fault Reading := do
  let f ← opened s name
  if f.mode = .output ∨ f.mode = .appending then .ok ⟨target,0,{s with subrc := 4}⟩
  else if !f.binary then readDatasetLine memos s f name target max
  else readDatasetBytes memos s f name target max

def transferAll (s : Session) (name : Name) : List Data → Except Fault (List (Nat × Nat) × Session)
  | [] => .ok ([],s)
  | d :: ds => do
    let s ← transfer memos s d name none false
    let f ← opened s name
    let (rest,t) ← transferAll s name ds
    .ok ((s.subrc,f.pos) :: rest,t)

def readAll (s : Session) (name : Name) : List Data → Except Fault (List (Reading × Nat) × Session)
  | [] => .ok ([],s)
  | d :: ds => do
    let r ← readDataset memos s name d none
    let f ← opened r.session name
    let (rest,t) ← readAll r.session name ds
    .ok ((r,f.pos) :: rest,t)

theorem transferAll_cons {s t : Session} {name : Name} {d : Data} {f : OpenDataset} (ds : List Data)
    (htransfer : transfer memos s d name none false = .ok t) (hfile : opened t name = .ok f) :
    transferAll memos s name (d :: ds) =
      (transferAll memos t name ds).map fun x => ((t.subrc,f.pos) :: x.1,x.2) := by
  rw [transferAll,htransfer]
  simp only [bind,Except.bind,hfile]
  cases transferAll memos t name ds with
  | error fault => rfl
  | ok x => rfl

theorem readAll_cons {s : Session} {name : Name} {d : Data} {r : Reading} {f : OpenDataset}
    (ds : List Data) (hread : readDataset memos s name d none = .ok r)
    (hfile : opened r.session name = .ok f) : readAll memos s name (d :: ds) =
      (readAll memos r.session name ds).map fun x => ((r,f.pos) :: x.1,x.2) := by
  rw [readAll,hread]
  simp only [bind,Except.bind,hfile]
  cases readAll memos r.session name ds with
  | error fault => rfl
  | ok x => rfl

def writeThenRead (s : Session) (name : Name) (binary : Bool) (sources targets : List Data) :
    Except Fault (List (Nat × Nat) × List (Reading × Nat)) := do
  let s ← openDataset s name {mode := .output,binary := binary}
  let (written,s) ← transferAll memos s name sources
  let s ← openDataset (closeDataset s name) name {mode := .input,binary := binary}
  let (read,_) ← readAll memos s name targets
  .ok (written,read)

end OpenSteamgate.Files
