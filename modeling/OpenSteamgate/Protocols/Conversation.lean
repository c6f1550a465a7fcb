import OpenSteamgate.Protocols.Bxml
import OpenSteamgate.Protocols.FieldChain
import OpenSteamgate.Protocols.Tunnel

namespace OpenSteamgate.Protocols.Server

open Tunnel (JsString js)
open Rfc (Field ChainError decodeRfcFieldChain maxXmlBytes)

abbrev Bytes := List UInt8

inductive ServerError
  | chain (error : ChainError)
  | bxml (error : Bxml.BxmlError)
  | tunnel (error : Tunnel.TunnelError)
  | unsupportedRecord
  | gatewayRecord
  | shortInitialize
  | invalidAllocate
  | unsupportedStep
  | logonPrefix
  | logonTrailer
  | logonField (tag : Nat)
  | authenticationFailed
  | passwordLength
  | passwordProfile
  | shortRequest
  | requestPrefix
  | requestTrailer
  | fastSerialization
  | noFunctionName
  | oddUtf16
  | nameNotCanonical
  | xmlLimit
  | compactLimit
  | compactFlags
  | inflation
  | functionNotFound
  | typeNotFound
  | unsupportedFunction (name : JsString)
  | notARequest
  | invalidRequest
  | invalidHeader
  | invalidURL
  | escapedBackend
  | noOwner

def signature : Bytes := [0xd9,0xc6,0xc3,0xf0,0xf0,0xf0,0xf0,0xf0,0xf0,0xf0,0xf0,0xf0]

def logonPrefixes : List Bytes := [[1,1,0,8,3,1],[1,1,0,8,1,2]]

def scrambleTable : List Nat :=
  [0xf0,0xed,0x53,0xb8,0x32,0x44,0xf1,0xf8,0x76,0xc6,0x79,0x59,0xfd,0x4f,0x13,0xa2,
    0xc1,0x51,0x95,0xec,0x54,0x83,0xc2,0x34,0x77,0x49,0x43,0xa2,0x7d,0xe2,0x65,0x96,
    0x5e,0x53,0x98,0x78,0x9a,0x17,0xa3,0x3c,0xd3,0x83,0xa8,0xb8,0x29,0xfb,0xdc,0xa5,
    0x55,0xd7,0x02,0x77,0x84,0x13,0xac,0xdd,0xf9,0xb8,0x31,0x16,0x61,0x0e,0x6d,0xfa]

def u16At (input : Bytes) (offset : Nat) : Nat := numberBE ((input.drop offset).take 2)

def bufferFrom (text : JsString) : Bytes :=
  Wtf8.bytes ((Wtf8.pointsOf text).map fun p => if Wtf8.Half p then 0xfffd else p)

def latin1 (value : Bytes) : JsString := value.map UInt8.toUInt16

def isPrintable (value : Bytes) : Bool := value.all fun b => 0x20 ≤ b && b ≤ 0x7e

structure Logon where
  client : JsString
  user : JsString
  language : JsString
  passwordField : Option Bytes
  ticket : Option Bytes

def byTag (fields : List Field) (tag : Nat) : Option Bytes :=
  (fields.reverse.find? fun field => field.tag = tag).map Field.value

def ascii (fields : List Field) (tag : Nat) : Except ServerError JsString :=
  match byTag fields tag with
  | some value =>
    if value ≠ [] ∧ isPrintable value then .ok (latin1 value) else .error (.logonField tag)
  | none => .error (.logonField tag)

def chainOf (input : Bytes) (previous : Nat) : Except ServerError (List Field × Nat) :=
  (decodeRfcFieldChain input previous).mapError ServerError.chain

def decodeRfcLogon (input : Bytes) : Except ServerError Logon := do
  if input.length < 28 ∨ input.take 12 ≠ signature ∨ (input.drop 12).take 6 ∉ logonPrefixes then
    .error .logonPrefix
  else do
    let (fields,bytesConsumed) ← chainOf (input.drop 18) 0x0101
    let trailer := input.drop (18 + bytesConsumed)
    if trailer.length ≠ 10 ∨ u16At trailer 0 ≠ 0xffff ∨ u16At trailer 2 ≠ 0 ∨
        u16At trailer 4 ≠ 18 + bytesConsumed + 2 then .error .logonTrailer
    else do
      let client ← ascii fields 0x0114
      let user ← ascii fields 0x0111
      let language ← ascii fields 0x0115
      .ok {client := client,user := user,language := language
           passwordField := byTag fields 0x0117,ticket := byTag fields 0x0670}

def unscrambleByte (seed start index : Nat) (b : UInt8) : UInt8 :=
  let table := (scrambleTable[(start + index) % 64]?).getD 0
  let term := (((seed * index * index : Nat) : Int) - index) % 256
  UInt8.ofNat (b.toNat ^^^ table ^^^ term.toNat)

def unscrambleRfcPassword (field : Bytes) : Except ServerError JsString :=
  if field.length < 4 ∨ 44 < field.length then .error .passwordLength
  else
    let seed := number (field.take 4)
    let start := (seed ^^^ (seed >>> 5) ^^^ (seed <<< 1)) % 2 ^ 32
    let clear := (field.drop 4).mapIdx fun index b => unscrambleByte seed start index b
    if isPrintable clear then .ok (latin1 clear) else .error .passwordProfile

inductive AuthMode
  | demo
  | static
  deriving DecidableEq

structure RfcAuth where
  mode : AuthMode
  user : JsString
  password : JsString
  client : JsString

structure BackendAuth where
  user : JsString
  password : JsString
  client : JsString
  language : JsString

def sameSecret (actual expected : JsString) : Bool := bufferFrom actual = bufferFrom expected

def authenticateLogon (frame : Bytes) (auth : RfcAuth) : Except ServerError Logon := do
  let logon ← decodeRfcLogon (frame.drop 80)
  match auth.mode with
  | .demo => .ok logon
  | .static =>
    match logon.ticket,logon.passwordField with
    | none,some passwordField => do
      let password ← unscrambleRfcPassword passwordField
      if !sameSecret logon.user auth.user || !sameSecret password auth.password ||
          (auth.client ≠ [] && !sameSecret logon.client auth.client) then
        .error .authenticationFailed
      else .ok logon
    | _,_ => .error .authenticationFailed

def isSpace (c : UInt16) : Bool :=
  9 ≤ c && c ≤ 13 || c = 0x20 || c = 0xa0 || c = 0x1680 || 0x2000 ≤ c && c ≤ 0x200a ||
    c = 0x2028 || c = 0x2029 || c = 0x202f || c = 0x205f || c = 0x3000 || c = 0xfeff

def trimEnd (text : JsString) : JsString := text.rdropWhile isSpace

def units : Bytes → JsString
  | low :: high :: rest => UInt16.ofNat (low.toNat + 256 * high.toNat) :: units rest
  | _ => []

def swapped : Bytes → Bytes
  | low :: high :: rest => high :: low :: swapped rest
  | rest => rest

def isName (text : JsString) : Bool :=
  text.all fun c => 65 ≤ c && c ≤ 90 || Tunnel.isDecimal c || c = 95

def decodeRfcName (value : Bytes) : Except ServerError JsString :=
  if value.length % 2 = 1 then .error .oddUtf16
  else if isName (trimEnd (units value)) then .ok (trimEnd (units value))
  else if isName (trimEnd (units (swapped value))) then .ok (trimEnd (units (swapped value)))
  else .error .nameNotCanonical

structure Table where
  name : JsString
  id : Option Bytes := none
  rowLength : Option Nat := none
  rows : List Bytes := []

structure Reading where
  importName : Option JsString := none
  imports : List (JsString × Bytes) := []
  tables : List Table := []
  table : Option Table := none

def setImport (imports : List (JsString × Bytes)) (name : JsString) (value : Bytes) :
    List (JsString × Bytes) :=
  if (imports.map Prod.fst).contains name then
    imports.map fun e => if e.1 = name then (name,value) else e
  else imports ++ [(name,value)]

namespace Reading

variable (s : Reading)

def all : List Table := s.tables ++ s.table.toList

def onTable (f : Table → Table) : Reading := {s with table := s.table.map f}

def field (field : Field) : Except ServerError Reading :=
  if field.tag = 0x0201 then do
    let name ← decodeRfcName field.value
    .ok {s with importName := some name}
  else if field.tag = 0x0203 ∧ s.importName.getD [] ≠ [] then
    .ok {s with imports := setImport s.imports (s.importName.getD []) field.value,importName := none}
  else if field.tag = 0x0301 then do
    let name ← decodeRfcName field.value
    .ok {s with tables := s.all,table := some {name := name}}
  else if field.tag = 0x0330 then .ok (s.onTable fun t => {t with id := some field.value})
  else if field.tag = 0x0302 ∧ 8 ≤ field.value.length then
    .ok (s.onTable fun t => {t with rowLength := some (numberBE (field.value.take 4))})
  else if field.tag = 0x0303 ∨ field.tag = 0x0304 then
    .ok (s.onTable fun t => {t with rows := t.rows ++ [field.value]})
  else .ok s

def fields : List Field → Reading → Except ServerError Reading
  | [],s => .ok s
  | f :: fs,s => do
    let s ← s.field f
    fields fs s

end Reading

structure Call where
  functionName : JsString
  requestedOutputs : List JsString
  imports : List (JsString × Bytes)
  tables : List Table
  sessionGUID : Option Bytes
  xml : JsString
  compact : Option Bytes
  eclipse : Bool

structure Url where
  origin : JsString
  pathname : JsString
  searchParams : List (JsString × JsString)

structure Platform where
  inflateRaw : Bytes → Option Bytes
  engine : Tunnel.Engine
  newURL : JsString → Option Url

def compactOf (platform : Platform) (fields : List Field) : Except ServerError (Option Bytes) :=
  let compact := ((fields.filter fun field => field.tag = 0x4001).map Field.value).flatten
  if 64 * 1024 * 1024 < compact.length then .error .compactLimit
  else
    match (fields.find? fun field => field.tag = 0x4000).map Field.value with
    | none => .ok none
    | some [1,0] => .ok (some compact)
    | some [1,1] =>
      match platform.inflateRaw compact with
      | some inflated => .ok (some inflated)
      | none => .error .inflation
    | some _ => .error .compactFlags

def requestChain (input : Bytes) : Except ServerError (List Field × Bool) := do
  if input.length < 12 then .error .shortRequest
  else
    let classic := input.take 4 = [5,2,0,0]
    let eclipse := ¬classic ∧ u16At input 0 = 0x0101
    if ¬classic ∧ ¬eclipse then .error .requestPrefix
    else do
      let (fields,bytesConsumed) ←
        if classic then chainOf (input.drop 4) 0x0502 else chainOf (0 :: 0 :: input) 0
      let consumed := if classic then bytesConsumed + 4 else bytesConsumed - 2
      let trailer := input.drop consumed
      if trailer.length ≠ 10 ∨ u16At trailer 0 ≠ 0xffff ∨ u16At trailer 2 ≠ 0 ∨
          u16At trailer 4 ≠ input.length - 8 ∨ u16At trailer 6 ≠ 0 ∨ u16At trailer 8 ≠ 0x8500 then
        .error .requestTrailer
      else .ok (fields,eclipse)

def text (value : Bytes) : JsString := Lexeme.utf16 (Utf8.decode value)

def decodeRfcRequest (platform : Platform) (input : Bytes) : Except ServerError Call := do
  let (fields,eclipse) ← requestChain input
  if fields.any fun field => field.tag = 0x5001 then .error .fastSerialization
  else
    match fields.find? fun field => field.tag = 0x0102 with
    | none => .error .noFunctionName
    | some functionField => do
      let functionName ← decodeRfcName functionField.value
      let requestedOutputs ← (fields.filter fun field => field.tag = 0x0205).mapM fun field =>
        decodeRfcName field.value
      let s ← Reading.fields fields {}
      let xml := ((fields.filter fun field => field.tag = 0x3c05).map Field.value).flatten
      if maxXmlBytes < xml.length then .error .xmlLimit
      else do
        let compact ← compactOf platform fields
        let guid := fields.find? fun field => field.tag = 0x0514 && field.value.length == 16
        .ok {functionName := functionName,requestedOutputs := requestedOutputs
             imports := s.imports,tables := s.all,sessionGUID := guid.map Field.value
             xml := text xml,compact := compact,eclipse := eclipse}

def importText (call : Call) (name : JsString) : JsString :=
  match (call.imports.find? fun e => e.1 = name).map Prod.snd with
  | none => []
  | some value =>
    if value.length % 2 = 1 then []
    else if isName (trimEnd (units value)) then trimEnd (units value)
    else if isName (trimEnd (units (swapped value))) then trimEnd (units (swapped value))
    else []

def ddic : List JsString :=
  [js "SADT_REST_REQUEST",js "SADT_REST_RESPONSE",js "SADT_REST_REQUEST_LINE",
    js "SADT_REST_STATUS_LINE",js "IHTTPNVP",js "IHTTPNVP_TAB"]

structure AdtRequest where
  method : JsString
  url : JsString
  version : Option JsString
  headers : List (JsString × JsString)
  body : Bytes

def parseAdtBxmlRequest (platform : Platform) (document : Bytes) :
    Except ServerError AdtRequest := do
  let request ← (Bxml.decodeBxml document >>= Bxml.bxmlPayload).mapError ServerError.bxml
  if request.name ≠ "REQUEST".toList then .error .notARequest
  else
    let line := Bxml.child request "REQUEST_LINE".toList
    let rows := ((Bxml.child request "HEADER_FIELDS".toList).map Bxml.Node.children).getD []
    let bodyNode := Bxml.child request "MESSAGE_BODY".toList
    .ok {method := platform.engine.toUpper (Lexeme.utf16 (Bxml.text line "METHOD"))
         url := Lexeme.utf16 (Bxml.text line "URI")
         version := some (Lexeme.utf16 (Bxml.text line "VERSION"))
         headers := rows.map fun row => (Lexeme.utf16 (Bxml.text (some row) "NAME"),
           Lexeme.utf16 (Bxml.text (some row) "VALUE"))
         body := (bodyNode.bind Bxml.Node.body).getD
           (Utf8.encode ((bodyNode.bind Bxml.Node.text).getD []))}

def parseAdtHttpRequest (platform : Platform) (xml : JsString) : Except ServerError AdtRequest := do
  let request ← (Tunnel.parseAdtHttpRequest platform.engine xml).mapError ServerError.tunnel
  .ok {method := request.method,url := request.url,version := none
       headers := request.headers,body := request.body}

def parseAdtRequest (platform : Platform) (call : Call) : Except ServerError AdtRequest :=
  match call.compact with
  | some compact => parseAdtBxmlRequest platform compact
  | none => parseAdtHttpRequest platform call.xml

def admitAdtRequest (request : AdtRequest) : Except ServerError AdtRequest :=
  let version := request.version.getD []
  if !Tunnel.isMethod request.method || !Tunnel.isPath request.url ||
      (version ≠ [] && version ≠ js "HTTP/1.1") || 8 * 1024 * 1024 < request.body.length then
    .error .invalidRequest
  else if request.headers.any fun h => !Tunnel.isToken h.1 || Tunnel.hasNewline h.2 then
    .error .invalidHeader
  else .ok request

def Url.get (url : Url) (name : JsString) : Option JsString :=
  (url.searchParams.find? fun e => e.1 = name).map Prod.snd

def Url.setDefault (url : Url) (name value : JsString) : Url :=
  if value ≠ [] ∧ url.get name = none then
    {url with searchParams := url.searchParams ++ [(name,value)]}
  else url

structure Config where
  platform : Platform
  origin : JsString
  backendAuth : BackendAuth
  rfcAuth : RfcAuth

def backendRequestTarget (config : Config) (path : JsString) (auth : BackendAuth) :
    Except ServerError Url :=
  match config.platform.newURL path with
  | none => .error .invalidURL
  | some target =>
    if target.origin ≠ config.origin then .error .escapedBackend
    else .ok ((target.setDefault (js "sap-client") auth.client).setDefault (js "sap-language")
      auth.language)

inductive Phase
  | gateway
  | initialise
  | allocate
  | logon
  | calls
  deriving DecidableEq

abbrev Principal := JsString × JsString

structure Conversation where
  phase : Phase := .gateway
  principal : Option Principal := none
  auth : BackendAuth

inductive Answer
  | pong
  | accepted
  | silent
  | loggedOn (caller : Logon)
  | metadata (functionName : JsString)
  | request (request : AdtRequest) (target : Url)

def niPing : Bytes := [0x4e,0x49,0x5f,0x50,0x49,0x4e,0x47,0]

def selectedAuth (config : Config) (caller : Logon) : BackendAuth :=
  if config.rfcAuth.mode = .demo ∧ config.backendAuth.user = [] then
    {config.backendAuth with user := caller.user}
  else config.backendAuth

def answerCall (config : Config) (conversation : Conversation) (payload : Bytes) :
    Except ServerError Answer := do
  let call ← decodeRfcRequest config.platform payload
  if call.functionName = js "RFC_GET_FUNCTION_INTERFACE" then
    if importText call (js "FUNCNAME") ≠ js "SADT_REST_RFC_ENDPOINT" then .error .functionNotFound
    else .ok (.metadata call.functionName)
  else if call.functionName = js "DDIF_FIELDINFO_GET" then
    if importText call (js "TABNAME") ∉ ddic then .error .typeNotFound
    else .ok (.metadata call.functionName)
  else if call.functionName ≠ js "SADT_REST_RFC_ENDPOINT" then
    .error (.unsupportedFunction call.functionName)
  else do
    let parsed ← parseAdtRequest config.platform call
    let request ← admitAdtRequest parsed
    let target ← backendRequestTarget config request.url conversation.auth
    .ok (.request request target)

def handle (config : Config) (conversation : Conversation) (frame : Bytes) :
    Except ServerError (Conversation × Answer) :=
  if frame = niPing then .ok (conversation,.pong)
  else if conversation.phase = .gateway then
    if frame.length ≠ 64 then .error .gatewayRecord
    else .ok ({conversation with phase := .initialise},.accepted)
  else if frame.length < 2 ∨ frame[0]? ≠ some 0x06 then .error .unsupportedRecord
  else if conversation.phase = .initialise ∧ frame[1]? = some 0x01 then
    if frame.length < 80 then .error .shortInitialize
    else .ok ({conversation with phase := .allocate},.accepted)
  else if conversation.phase = .allocate ∧ frame[1]? = some 0x0f then .ok (conversation,.silent)
  else if conversation.phase = .allocate ∧ frame[1]? = some 0x05 then
    if frame.length ≠ 80 then .error .invalidAllocate
    else .ok ({conversation with phase := .logon},.accepted)
  else if frame[1]? ≠ some 0xcb ∨ frame.length ≤ 80 then .error .unsupportedStep
  else if conversation.phase = .logon then do
    let caller ← authenticateLogon frame config.rfcAuth
    .ok ({phase := .calls,principal := some (caller.client,caller.user)
          auth := if config.rfcAuth.mode = .demo ∧ config.backendAuth.user = [] then
              {config.backendAuth with user := caller.user}
            else conversation.auth},
      .loggedOn caller)
  else do
    let answer ← answerCall config conversation (frame.drop 80)
    .ok (conversation,answer)

end OpenSteamgate.Protocols.Server
