import OpenSteamgate.Library.Lexeme

namespace OpenSteamgate.Protocols.Tunnel

open Marked Wtf8

abbrev JsString := List UInt16

def js (text : String) : JsString := Lexeme.utf16 text.toList

inductive TunnelError
  | invalidReference
  | lacks (name : JsString)
  | malformed (name : JsString)
  | invalidRequest
  | rootNotRequest
  | invalidRequestLine
  | malformedHeaders
  | invalidHeader
  | tooManyHeaders
  | invalidBody
  | bodyLimit
  | callStack

def maxXmlBytes : Nat := 8 * 1024 * 1024

def byteLength (s : JsString) : Nat := (bytes (pointsOf s)).length

def named : List (JsString × Nat) :=
  [(js "amp;",38),(js "lt;",60),(js "gt;",62),(js "quot;",34),(js "apos;",39)]

def isDecimal (c : UInt16) : Bool := 48 ≤ c && c ≤ 57

def isHexadecimal (c : UInt16) : Bool :=
  isDecimal c || 65 ≤ c && c ≤ 70 || 97 ≤ c && c ≤ 102

def digitValue (c : UInt16) : Nat :=
  if isDecimal c then c.toNat - 48 else if c ≤ 70 then c.toNat - 55 else c.toNat - 87

def reference (radix : Nat) (isDigit : UInt16 → Bool) (s : JsString) : Option (Nat × JsString) :=
  match s.takeWhile isDigit,s.dropWhile isDigit with
  | digit :: digits,59 :: rest =>
    some ((digit :: digits).foldl (fun point c => radix * point + digitValue c) 0,rest)
  | _,_ => none

def numeric : JsString → Option (Nat × JsString)
  | 35 :: 120 :: digits => reference 16 isHexadecimal digits
  | 35 :: digits => reference 10 isDecimal digits
  | _ => none

@[grind =] def entity : JsString → Option (Nat × JsString)
  | 38 :: rest =>
    match named.find? fun e => e.1.isPrefixOf rest with
    | some e => some (e.2,rest.drop e.1.length)
    | none => numeric rest
  | _ => none

def isPoint (point : Nat) : Bool :=
  0 < point && point ≤ 0x10ffff && !(0xd800 ≤ point && point ≤ 0xdfff)

theorem reference_length {radix : Nat} {isDigit : UInt16 → Bool} {s rest : JsString} {point : Nat}
    (h : reference radix isDigit s = some (point,rest)) : rest.length + 2 ≤ s.length := by
  rw [reference] at h
  split at h
  · rename_i digit digits after htake hdrop
    obtain ⟨_,rfl⟩ := Prod.mk.inj (Option.some.inj h)
    have hlength := congrArg List.length (List.takeWhile_append_dropWhile (p := isDigit) (l := s))
    rw [List.length_append,htake,hdrop,List.length_cons,List.length_cons] at hlength
    omega
  · exact nomatch h

theorem numeric_length {s rest : JsString} {point : Nat} (h : numeric s = some (point,rest)) :
    rest.length + 3 ≤ s.length := by
  rw [numeric.eq_def] at h
  split at h
  · have := reference_length h
    rw [List.length_cons,List.length_cons]
    omega
  · have := reference_length h
    rw [List.length_cons]
    omega
  · exact nomatch h

theorem entity_length {s rest : JsString} {point : Nat} (h : entity s = some (point,rest)) :
    rest.length + 4 ≤ s.length := by
  rw [entity.eq_def] at h
  split at h
  · rename_i after
    split at h
    · rename_i e he
      obtain ⟨_,rfl⟩ := Prod.mk.inj (Option.some.inj h)
      have hname : 3 ≤ e.1.length := by
        have hall : ∀ e ∈ named,3 ≤ e.1.length := by decide
        exact hall e (List.mem_of_find?_eq_some he)
      have hfound : e.1.isPrefixOf after = true :=
        List.find?_some (p := fun e : JsString × Nat => e.1.isPrefixOf after) he
      have hpre := (List.isPrefixOf_iff_prefix.mp hfound).length_le
      rw [List.length_drop,List.length_cons]
      omega
    · exact Nat.succ_le_succ (numeric_length h)
  · exact nomatch h

@[grind =] def xmlUnescape (s : JsString) : Except TunnelError JsString :=
  match s with
  | [] => .ok []
  | c :: rest =>
    match _h : entity (c :: rest) with
    | some (point,after) =>
      if isPoint point then do
        let text ← xmlUnescape after
        .ok (unitsOf point ++ text)
      else .error .invalidReference
    | none => do
      let text ← xmlUnescape rest
      .ok (c :: text)
termination_by s.length
decreasing_by
  · exact Nat.lt_of_lt_of_le (Nat.lt_add_of_pos_right (by decide)) (entity_length ‹_›)
  · exact Nat.lt_succ_self _

def xmlEscape (s : JsString) : JsString :=
  s.flatMap fun c =>
    if c = 38 then js "&amp;" else if c = 60 then js "&lt;" else if c = 62 then js "&gt;" else [c]

def tag (name : JsString) : JsString := 60 :: (name ++ [62])

def closing (name : JsString) : JsString := tag (47 :: name)

def indexFrom (s sub : JsString) (start : Nat) : Option Nat :=
  (index (s.drop start) sub).map (start + ·)

def slice (s : JsString) (start stop : Nat) : JsString := (s.drop start).take (stop - start)

def element (xml name : JsString) (required : Bool := true) : Except TunnelError JsString :=
  match indexFrom xml (tag name) 0 with
  | none => if required then .error (.lacks name) else .ok []
  | some start =>
    let start := start + (tag name).length
    match indexFrom xml (closing name) start with
    | none => .error (.malformed name)
    | some stop =>
      if (indexFrom xml (tag name) start).any (· < stop) then .error (.malformed name)
      else xmlUnescape (slice xml start stop)

def isMethod (s : JsString) : Bool :=
  1 ≤ s.length && s.length ≤ 16 && s.all fun c => 65 ≤ c && c ≤ 90

def isAlphanumeric (c : UInt16) : Bool :=
  isDecimal c || 65 ≤ c && c ≤ 90 || 97 ≤ c && c ≤ 122

def isToken (s : JsString) : Bool :=
  s ≠ [] && s.all fun c => isAlphanumeric c || (js "!#$%&'*+.^_\x60|~-").contains c

def hasNewline (s : JsString) : Bool := s.any fun c => c = 10 || c = 13

abbrev Header := JsString × JsString

def header (row : JsString) : Except TunnelError Header := do
  let name ← element row (js "NAME")
  let value ← element row (js "VALUE")
  if !isToken name || hasNewline value then .error .invalidHeader else .ok (name,value)

def rows (headers : List Header) (s : JsString) : Except TunnelError (List Header) :=
  match _h : index s (js "<item>") with
  | none => .ok headers
  | some i =>
    match index (s.drop (i + 6)) (js "</item>") with
    | none => .error .malformedHeaders
    | some j => do
      let found ← header ((s.drop (i + 6)).take j)
      let headers := headers ++ [found]
      if 256 < headers.length then .error .tooManyHeaders
      else rows headers ((s.drop (i + 6)).drop (j + 7))
termination_by s.length
decreasing_by
  have := index_lt (List.cons_ne_nil 60 _) _h
  simp only [List.length_drop]
  omega

def isBase64Char (c : UInt16) : Bool := isAlphanumeric c || c = 43 || c = 47

def isBase64 : JsString → Bool
  | [] => true
  | a :: b :: c :: d :: rest =>
    isBase64Char a && isBase64Char b &&
      (isBase64Char c && isBase64Char d && isBase64 rest ||
        rest.isEmpty && d = 61 && (c = 61 || isBase64Char c))
  | _ => false

def base64Char (n : Nat) : UInt16 :=
  if n < 26 then UInt16.ofNat (65 + n)
  else if n < 52 then UInt16.ofNat (71 + n)
  else if n < 62 then UInt16.ofNat (n - 4)
  else if n = 62 then 43
  else 47

def base64Value (c : UInt16) : Nat :=
  if c = 43 then 62
  else if c = 47 then 63
  else if c ≤ 57 then c.toNat + 4
  else if c ≤ 90 then c.toNat - 65
  else c.toNat - 71

def toBase64 : List UInt8 → JsString
  | [] => []
  | [a] => [base64Char (a.toNat / 4),base64Char (a.toNat % 4 * 16),61,61]
  | [a,b] => [base64Char (a.toNat / 4),base64Char (a.toNat % 4 * 16 + b.toNat / 16),
      base64Char (b.toNat % 16 * 4),61]
  | a :: b :: c :: rest =>
    base64Char (a.toNat / 4) :: base64Char (a.toNat % 4 * 16 + b.toNat / 16) ::
      base64Char (b.toNat % 16 * 4 + c.toNat / 64) :: base64Char (c.toNat % 64) :: toBase64 rest

def fromBase64 : JsString → List UInt8
  | a :: b :: c :: d :: rest =>
    let first := UInt8.ofNat (base64Value a * 4 + base64Value b / 16)
    let second := UInt8.ofNat (base64Value b % 16 * 16 + base64Value c / 4)
    let third := UInt8.ofNat (base64Value c % 4 * 64 + base64Value d)
    if c = 61 then [first]
    else if d = 61 then [first,second]
    else first :: second :: third :: fromBase64 rest
  | _ => []

structure Request where
  method : JsString
  url : JsString
  headers : List Header
  body : List UInt8

-- what the JavaScript engine decides: upper case, and the texts on which the body's pattern
-- exhausts its stack
structure Engine where
  toUpper : JsString → JsString
  exhausts : JsString → Bool
  letters : ∀ s,isMethod s → toUpper s = s

def isPath (url : JsString) : Bool := (js "/").isPrefixOf url && !(js "//").isPrefixOf url

def requestLine (engine : Engine) (xml : JsString) : Except TunnelError (JsString × JsString) := do
  let line ← element xml (js "REQUEST_LINE")
  let method ← element line (js "METHOD")
  let method := engine.toUpper method
  let url ← element line (js "URI")
  let version ← element line (js "VERSION")
  if !isMethod method || !isPath url || version ≠ js "HTTP/1.1" then .error .invalidRequestLine
  else .ok (method,url)

def messageBody (engine : Engine) (xml : JsString) : Except TunnelError (List UInt8) := do
  let text ← element xml (js "MESSAGE_BODY") false
  let encodedBody := text.filter fun c => !(c = 10 || c = 13)
  if engine.exhausts encodedBody then .error .callStack
  else if !isBase64 encodedBody then .error .invalidBody
  else
    let body := fromBase64 encodedBody
    if maxXmlBytes < body.length then .error .bodyLimit else .ok body

def parseAdtHttpRequest (engine : Engine) (xml : JsString) : Except TunnelError Request := do
  if maxXmlBytes < byteLength xml then .error .invalidRequest
  else if !((js "<REQUEST>").isPrefixOf xml && (js "</REQUEST>").isSuffixOf xml) then
    .error .rootNotRequest
  else do
    let (method,url) ← requestLine engine xml
    let headersXml ← element xml (js "HEADER_FIELDS")
    let headers ← rows [] headersXml
    let body ← messageBody engine xml
    .ok {method := method,url := url,headers := headers,body := body}

def field (name : String) (text : JsString) : JsString :=
  tag (js name) ++ text ++ closing (js name)

def item (text : JsString → JsString) (h : Header) : JsString :=
  js "<item>" ++ field "NAME" (text h.1) ++ field "VALUE" (text h.2) ++ js "</item>"

def line (text : JsString → JsString) (method url : JsString) : JsString :=
  field "METHOD" (text method) ++ field "URI" (text url) ++ field "VERSION" (js "HTTP/1.1")

def document (r : Request) : JsString :=
  js "<REQUEST>" ++ field "REQUEST_LINE" (line xmlEscape r.method r.url) ++
    field "HEADER_FIELDS" (r.headers.flatMap (item xmlEscape)) ++
    field "MESSAGE_BODY" (toBase64 r.body) ++ js "</REQUEST>"

end OpenSteamgate.Protocols.Tunnel
