import OpenSteamgate.Library.Outcome
import OpenSteamgate.Library.Utf8

namespace OpenSteamgate.Protocols.Bxml

abbrev Text := List Char

namespace T

def header : UInt8 := 0x3f

def name : UInt8 := 0x2b

def «open» : UInt8 := 0x3c

def close : UInt8 := 0x3e

def attr : UInt8 := 0x40

def attrValue : UInt8 := 0x41

def bind : UInt8 := 0x3a

def xmlns : UInt8 := 0x2a

def text : UInt8 := 0x54

def body : UInt8 := 0x42

def string : UInt8 := 0x43

end T

def magic : List UInt8 := [0x42,0x58,0x4d,0x4c]

def maxDoc : Nat := 64 * 1024 * 1024

inductive BxmlError
  | lengthPastEnd
  | invalidScalar
  | truncatedLength
  | invalidContinuation
  | valueExceeds
  | invalidDocument
  | nameOutOfRange
  | truncatedOpen
  | unmatchedClose
  | truncatedAttribute
  | attributeValue
  | truncatedNamespace
  | truncatedXmlns
  | unknownToken (token : UInt8)
  | unclosedElements
  | noPayload
  | tooManyNames
  | documentLimit

structure Node where
  name : Text
  attrs : List (Text × Text) := []
  text : Option Text := none
  body : Option (List UInt8) := none
  children : List Node := []

def continuation : Nat → Nat → List UInt8 → Except BxmlError (Nat × List UInt8)
  | 0,value,rest => .ok (value,rest)
  | _ + 1,_,[] => .error .truncatedLength
  | n + 1,value,next :: rest =>
    if next.toNat &&& 0xc0 ≠ 0x80 then .error .invalidContinuation
    else continuation n ((value <<< 6) ||| (next.toNat &&& 0x3f)) rest

def continued (size value : Nat) (rest : List UInt8) : Except BxmlError (Nat × List UInt8) :=
  if rest.length + 1 < size then .error .truncatedLength else continuation (size - 1) value rest

def lengthAt : List UInt8 → Except BxmlError (Nat × List UInt8)
  | [] => .error .lengthPastEnd
  | a :: rest =>
    if a.toNat < 0x80 then .ok (a.toNat,rest)
    else if a.toNat < 0xe0 then continued 2 (a.toNat &&& 0x1f) rest
    else if a.toNat < 0xf0 then continued 3 (a.toNat &&& 0x0f) rest
    else if a.toNat < 0xf8 then continued 4 (a.toNat &&& 7) rest
    else .error .invalidScalar

def valueAt (doc : List UInt8) : Except BxmlError (List UInt8 × List UInt8) := do
  let (length,rest) ← lengthAt doc
  if maxDoc < length ∨ rest.length < length then .error .valueExceeds
  else .ok (rest.take length,rest.drop length)

structure Decoder where
  names : List Text := []
  top : Node
  below : List Node := []

def nameOf (names : List Text) (ref : UInt8) : Except BxmlError Text :=
  if ref.toNat < 2 then .error .nameOutOfRange
  else
    match names[ref.toNat - 2]? with
    | some name => .ok name
    | none => .error .nameOutOfRange

namespace Decoder

def openNode (d : Decoder) : List UInt8 → Except BxmlError (Decoder × List UInt8)
  | ref :: _ :: rest => do
    let name ← nameOf d.names ref
    .ok ({d with top := {name := name},below := d.top :: d.below},rest)
  | _ => .error .truncatedOpen

def closeNode (d : Decoder) : Except BxmlError Decoder :=
  match d.below with
  | [] => .error .unmatchedClose
  | parent :: below =>
    .ok {d with top := {parent with children := parent.children ++ [d.top]},below := below}

def attrNode (d : Decoder) : List UInt8 → Except BxmlError (Decoder × List UInt8)
  | ref :: _ :: mark :: rest => do
    let name ← nameOf d.names ref
    if mark ≠ T.attrValue then .error .attributeValue
    else do
      let (value,rest) ← valueAt rest
      .ok ({d with top := {d.top with attrs := d.top.attrs ++ [(name,Utf8.decode value)]}},rest)
  | _ => .error .truncatedAttribute

def step (d : Decoder) (token : UInt8) (rest : List UInt8) :
    Except BxmlError (Decoder × List UInt8) :=
  if token = T.header then do
    let (_,rest) ← valueAt rest
    let (_,rest) ← valueAt rest
    .ok (d,rest)
  else if token = T.name then do
    let (name,rest) ← valueAt rest
    .ok ({d with names := d.names ++ [Utf8.decode name]},rest)
  else if token = T.open then d.openNode rest
  else if token = T.close then do
    let d ← d.closeNode
    .ok (d,rest)
  else if token = T.attr then d.attrNode rest
  else if token = T.attrValue then do
    let (_,rest) ← valueAt rest
    .ok (d,rest)
  else if token = T.bind then
    if rest.length < 2 then .error .truncatedNamespace else .ok (d,rest.drop 2)
  else if token = T.xmlns then
    if rest = [] then .error .truncatedXmlns else .ok (d,rest.drop 1)
  else if token = T.text ∨ token = T.string then do
    let (value,rest) ← valueAt rest
    .ok ({d with top := {d.top with text := some (Utf8.decode value)}},rest)
  else if token = T.body then do
    let (value,rest) ← valueAt rest
    .ok ({d with top := {d.top with body := some value}},rest)
  else .error (.unknownToken token)

end Decoder

variable {n value : Nat} {rest rest' bytes : List UInt8} {d d' : Decoder} {token : UInt8}

theorem continuation_length {value' : Nat} (h : continuation n value rest = .ok (value',rest')) :
    rest'.length ≤ rest.length := by
  induction n generalizing value rest with
  | zero =>
    obtain ⟨rfl,rfl⟩ := ok_pair h
    exact Nat.le_refl _
  | succ n ih =>
    cases rest with
    | nil => exact nomatch h
    | cons next rest =>
      rw [continuation] at h
      split at h
      · exact nomatch h
      · exact Nat.le_succ_of_le (ih h)

theorem continued_length {size value' : Nat} (h : continued size value rest = .ok (value',rest')) :
    rest'.length ≤ rest.length := by
  rw [continued] at h
  split at h
  · exact nomatch h
  · exact continuation_length h

theorem lengthAt_length (h : lengthAt rest = .ok (value,rest')) : rest'.length < rest.length := by
  cases rest with
  | nil => exact nomatch h
  | cons a rest =>
    refine Nat.lt_succ_of_le ?_
    rw [lengthAt] at h
    split at h
    · obtain ⟨rfl,rfl⟩ := ok_pair h
      exact Nat.le_refl _
    split at h
    · exact continued_length h
    split at h
    · exact continued_length h
    split at h
    · exact continued_length h
    · exact nomatch h

theorem valueAt_ok (h : valueAt rest = .ok (bytes,rest')) : ∃ length after,
    lengthAt rest = .ok (length,after) ∧ length ≤ after.length ∧ bytes = after.take length ∧
      rest' = after.drop length := by
  obtain ⟨⟨length,after⟩,hlength,h⟩ := bind_eq_ok h
  refine ⟨length,after,hlength,?_⟩
  change (if maxDoc < length ∨ after.length < length then _ else _) = _ at h
  by_cases hbig : maxDoc < length ∨ after.length < length
  · rw [if_pos hbig] at h
    exact nomatch h
  · rw [if_neg hbig] at h
    obtain ⟨rfl,rfl⟩ := ok_pair h
    exact ⟨by omega,rfl,rfl⟩

theorem valueAt_length (h : valueAt rest = .ok (bytes,rest')) : rest'.length < rest.length := by
  obtain ⟨length,after,hlength,_,_,rfl⟩ := valueAt_ok h
  exact Nat.lt_of_le_of_lt (List.drop_sublist length after).length_le (lengthAt_length hlength)

namespace Decoder

theorem openNode_length (h : d.openNode rest = .ok (d',rest')) : rest'.length ≤ rest.length := by
  match rest,h with
  | [],h => exact nomatch h
  | [_],h => exact nomatch h
  | ref :: _ :: rest,h =>
    obtain ⟨name,_,h⟩ := bind_eq_ok h
    obtain ⟨_,rfl⟩ := ok_pair h
    exact Nat.le_add_right _ 2

theorem attrNode_length (h : d.attrNode rest = .ok (d',rest')) : rest'.length ≤ rest.length := by
  match rest,h with
  | [],h => exact nomatch h
  | [_],h => exact nomatch h
  | [_,_],h => exact nomatch h
  | ref :: _ :: mark :: rest,h =>
    obtain ⟨name,_,h⟩ := bind_eq_ok h
    change (if mark ≠ T.attrValue then _ else _) = _ at h
    by_cases hmark : mark ≠ T.attrValue
    · rw [if_pos hmark] at h
      exact nomatch h
    rw [if_neg hmark] at h
    obtain ⟨⟨value,after⟩,hvalue,h⟩ := bind_eq_ok h
    obtain ⟨_,rfl⟩ := ok_pair h
    exact Nat.le_trans (valueAt_length hvalue).le (Nat.le_add_right _ 3)

theorem step_length (h : d.step token rest = .ok (d',rest')) : rest'.length ≤ rest.length := by
  have hvalue {k : List UInt8 × List UInt8 → Except BxmlError (Decoder × List UInt8)}
      (h : valueAt rest >>= k = .ok (d',rest')) (hk : ∀ p,∃ d,k p = .ok (d,p.2)) :
      rest'.length ≤ rest.length := by
    obtain ⟨p,hp,h⟩ := bind_eq_ok h
    obtain ⟨d,hd⟩ := hk p
    obtain ⟨-,rfl⟩ := ok_pair (hd.symm.trans h)
    exact (valueAt_length hp).le
  rw [step] at h
  split at h
  · obtain ⟨⟨_,first⟩,hfirst,h⟩ := bind_eq_ok h
    obtain ⟨⟨_,second⟩,hsecond,h⟩ := bind_eq_ok h
    obtain ⟨_,rfl⟩ := ok_pair h
    exact ((valueAt_length hsecond).trans (valueAt_length hfirst)).le
  split at h
  · exact hvalue h fun _ => ⟨_,rfl⟩
  split at h
  · exact openNode_length h
  split at h
  · obtain ⟨_,_,h⟩ := bind_eq_ok h
    obtain ⟨_,rfl⟩ := ok_pair h
    exact Nat.le_refl _
  split at h
  · exact attrNode_length h
  split at h
  · exact hvalue h fun _ => ⟨_,rfl⟩
  split at h
  · split at h
    · exact nomatch h
    · obtain ⟨_,rfl⟩ := ok_pair h
      exact (List.drop_sublist 2 rest).length_le
  split at h
  · split at h
    · exact nomatch h
    · obtain ⟨_,rfl⟩ := ok_pair h
      exact (List.drop_sublist 1 rest).length_le
  split at h
  · exact hvalue h fun _ => ⟨_,rfl⟩
  split at h
  · exact hvalue h fun _ => ⟨_,rfl⟩
  · exact nomatch h

def run (d : Decoder) : List UInt8 → Except BxmlError Node
  | [] => if d.below ≠ [] then .error .unclosedElements else .ok d.top
  | token :: rest =>
    match _h : d.step token rest with
    | .error e => .error e
    | .ok (d',rest') => run d' rest'
termination_by bytes => bytes.length
decreasing_by exact Nat.lt_succ_of_le (step_length ‹_›)

end Decoder

def decodeBxml (doc : List UInt8) : Except BxmlError Node :=
  if maxDoc < doc.length ∨ doc.take 4 ≠ magic then .error .invalidDocument
  else Decoder.run {top := {name := "#document".toList}} (doc.drop 4)

def child (node : Node) (name : Text) : Option Node :=
  node.children.find? fun candidate => candidate.name = name

def text (node : Option Node) (name : String) : Text :=
  ((node.bind fun node => child node name.toList).bind Node.text).getD []

def bxmlPayload (document : Node) : Except BxmlError Node :=
  let abap := (child document "abap".toList).or document.children.head?
  let values := (abap.bind fun node => child node "values".toList).or
    (abap.bind fun node => node.children.head?)
  match values.bind fun node => node.children.head? with
  | some payload => .ok payload
  | none => .error .noPayload

def putLength (length : Nat) : List UInt8 :=
  if length < 0x80 then [UInt8.ofNat length]
  else if length < 0x800 then
    [UInt8.ofNat (0xc0 ||| (length >>> 6)),UInt8.ofNat (0x80 ||| (length &&& 0x3f))]
  else if length < 0x10000 then
    [UInt8.ofNat (0xe0 ||| (length >>> 12)),UInt8.ofNat (0x80 ||| ((length >>> 6) &&& 0x3f)),
      UInt8.ofNat (0x80 ||| (length &&& 0x3f))]
  else
    [UInt8.ofNat (0xf0 ||| (length >>> 18)),UInt8.ofNat (0x80 ||| ((length >>> 12) &&& 0x3f)),
      UInt8.ofNat (0x80 ||| ((length >>> 6) &&& 0x3f)),UInt8.ofNat (0x80 ||| (length &&& 0x3f))]

def putValue (token : UInt8) (data : List UInt8) : List UInt8 :=
  token :: (putLength data.length ++ data)

def ref (names : List Text) (name : Text) : Except BxmlError (List UInt8 × UInt8 × List Text) :=
  match names.idxOf? name with
  | some index => .ok ([],UInt8.ofNat (index + 2),names)
  | none =>
    if 253 ≤ names.length then .error .tooManyNames
    else .ok (putValue T.name (Utf8.encode name),UInt8.ofNat (names.length + 2),names ++ [name])

def header (key value : String) : List UInt8 :=
  let k := Utf8.encode key.toList
  let v := Utf8.encode value.toList
  T.header :: (putLength k.length ++ k ++ putLength v.length ++ v)

def attributes : List Text → List (Text × Text) → Except BxmlError (List UInt8 × List Text)
  | names,[] => .ok ([],names)
  | names,(name,value) :: attrs => do
    let (definition,index,names) ← ref names name
    let (rest,names) ← attributes names attrs
    .ok (definition ++ [T.attr,index,if name = "lines".toList then 3 else 1] ++
      putValue T.attrValue (Utf8.encode value) ++ rest,names)

def content (node : Node) : List UInt8 :=
  match node.body,node.text with
  | some body,_ => putValue T.body body
  | none,some text => putValue T.text (Utf8.encode text)
  | none,none => []

mutual

def element (names : List Text) : Node → Except BxmlError (List UInt8 × List Text)
  | ⟨name,attrs,text,body,children⟩ => do
    let (definition,index,names) ← ref names name
    let (written,names) ← attributes names attrs
    let (inner,names) ← elements names children
    .ok (definition ++ [T.open,index,1] ++ written ++ content ⟨name,attrs,text,body,children⟩ ++
      inner ++ [T.close],names)

def elements (names : List Text) : List Node → Except BxmlError (List UInt8 × List Text)
  | [] => .ok ([],names)
  | node :: nodes => do
    let (first,names) ← element names node
    let (rest,names) ← elements names nodes
    .ok (first ++ rest,names)

end

def encodeBxml (payload : Node) : Except BxmlError (List UInt8) := do
  let (asxName,asx,names) ← ref [] "asx".toList
  let (asxUrlName,asxUrl,names) ← ref names "http://www.sap.com/abapxml".toList
  let (abapName,abap,names) ← ref names "abap".toList
  let (versionName,version,names) ← ref names "version".toList
  let (hintName,hint,names) ← ref names "asxhint".toList
  let (hintUrlName,hintUrl,names) ← ref names "http://www.sap.com/abapxml/hint".toList
  let (valuesName,values,names) ← ref names "values".toList
  let (written,_) ← element names payload
  let output := magic ++ header "VER" "0.7" ++ header "ENC" "utf-8" ++
    asxName ++ asxUrlName ++ [T.bind,asx,asxUrl] ++
    abapName ++ versionName ++ [T.open,abap,2,T.attr,version,1] ++
    putValue T.attrValue (Utf8.encode "1.0".toList) ++
    hintName ++ hintUrlName ++ valuesName ++
    [T.bind,hint,hintUrl,T.xmlns,asxUrl,T.open,values,2] ++
    written ++ [T.close,T.close]
  if maxDoc < output.length then .error .documentLimit else .ok output

structure Response where
  status : Nat
  reason : Option Text
  headers : List (Text × Text) := []
  body : List UInt8 := []

def padEnd (width : Nat) (text : Text) : Text :=
  text ++ List.replicate (width - text.length) ' '

def leaf (name : String) (value : Text) : Node := {name := name.toList,text := some value}

def row (header : Text × Text) : Node :=
  {name := "IHTTPNVP".toList,children := [leaf "NAME" header.1,leaf "VALUE" header.2]}

def responseTree (r : Response) : Node :=
  let rows := row ("~server_protocol".toList,"HTTP/1.1".toList) :: r.headers.map row
  {name := "RESPONSE".toList,children := [
    {name := "STATUS_LINE".toList,children := [
      leaf "VERSION" "HTTP/1.1".toList,
      leaf "STATUS_CODE" (padEnd 4 (Nat.toDigits 10 r.status)),
      leaf "REASON_PHRASE" (r.reason.getD [])]},
    {name := "HEADER_FIELDS".toList,
      attrs := [("lines".toList,Nat.toDigits 10 rows.length)],
      children := rows},
    if r.body ≠ [] then {name := "MESSAGE_BODY".toList,body := some r.body}
    else {name := "MESSAGE_BODY".toList}]}

def encodeAdtBxmlResponse (r : Response) : Except BxmlError (List UInt8) :=
  encodeBxml (responseTree r)

end OpenSteamgate.Protocols.Bxml
