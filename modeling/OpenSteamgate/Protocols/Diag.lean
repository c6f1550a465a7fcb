import OpenSteamgate.Library.Outcome
import OpenSteamgate.Library.Endian

namespace OpenSteamgate.Protocols.Diag

inductive DiagError
  | range (name : String) (maximum value : Nat)
  | compressed
  | truncatedAppl
  | truncatedXml
  | unknownType (type : Nat)
  | overruns (bytes : Nat)
  | outOfRange
  | endless

def size (value maximum : Nat) (name : String) : Except DiagError Nat :=
  if maximum < value then .error (.range name maximum value) else .ok value

def octet (value : Nat) (name : String) : Except DiagError Nat := size value 0xff name

def u16 (value : Nat) (name : String) : Except DiagError Nat := size value 0xffff name

structure DiagHeader where
  mode : Nat := 0
  comFlag : Nat := 0
  modeStat : Nat := 0
  errNo : Nat := 0
  msgType : Nat := 0
  msgInfo : Nat := 0
  msgRC : Nat := 0
  compress : Nat := 0

def encodeDiagHeader (h : DiagHeader) : Except DiagError (List UInt8) :=
  ([(h.mode,"DIAG mode"),(h.comFlag,"DIAG comFlag"),(h.modeStat,"DIAG modeStat"),
    (h.errNo,"DIAG errNo"),(h.msgType,"DIAG msgType"),(h.msgInfo,"DIAG msgInfo"),
    (h.msgRC,"DIAG msgRC"),(h.compress,"DIAG compression")] : List (Nat × String)).mapM
      fun field => (octet field.1 field.2).map UInt8.ofNat

def appl : Nat := 0x10

def xml : Nat := 0x11

def appl4 : Nat := 0x12

structure DiagItem where
  type : Nat
  id : Option Nat := none
  sid : Option Nat := none
  value : List UInt8 := []

def u32Bytes (value : Nat) (name : String) : Except DiagError (List UInt8) :=
  (size value 0xffffffff name).map (bigEndian 4)

def encodeDiagItem (item : DiagItem) : Except DiagError (List UInt8) := do
  let itemType ← octet item.type "DIAG item type"
  if itemType = appl then
    let length ← u16 item.value.length "DIAG APPL value length"
    let id ← octet (item.id.getD 0) "DIAG APPL id"
    let sid ← octet (item.sid.getD 0) "DIAG APPL sid"
    return .ofNat itemType :: .ofNat id :: .ofNat sid :: (bigEndian 2 length ++ item.value)
  else if itemType = appl4 then
    let id ← octet (item.id.getD 0) "DIAG APPL4 id"
    let sid ← octet (item.sid.getD 0) "DIAG APPL4 sid"
    let length ← u32Bytes item.value.length "value"
    return .ofNat itemType :: .ofNat id :: .ofNat sid :: (length ++ item.value)
  else if itemType = xml then
    let length ← u32Bytes item.value.length "value"
    return .ofNat itemType :: (length ++ item.value)
  else return .ofNat itemType :: item.value

def encodeDiagItems (items : List DiagItem) : Except DiagError (List UInt8) :=
  (items.mapM encodeDiagItem).map List.flatten

def encodeDiagMessage (header : DiagHeader) (items : List DiagItem) :
    Except DiagError (List UInt8) := do
  if header.compress ≠ 0 then .error .compressed
  else
    let head ← encodeDiagHeader header
    let stream ← encodeDiagItems items
    return head ++ stream

def fixed : List (Nat × Nat) :=
  [(0x01,16),(0x02,20),(0x03,3),(0x07,76),(0x08,1),(0x09,22),(0x0a,3),(0x0b,2),(0x0c,0),(0x13,2),
    (0x15,9)]

def subarray (body : List UInt8) (offset length : Nat) : Except DiagError (List UInt8) :=
  if offset + length ≤ body.length then .ok ((body.drop offset).take length) else .error .outOfRange

def readBE (len : Nat) (body : List UInt8) (offset : Nat) : Except DiagError Nat :=
  (subarray body offset len).map numberBE

structure ItemHead where
  id : Option Nat
  sid : Option Nat
  start : Nat
  length : Nat

def itemHead (body : List UInt8) (offset type : Nat) : Except DiagError ItemHead :=
  if type = appl ∨ type = appl4 then
    let lengthBytes := if type = appl then 2 else 4
    if body.length < offset + 3 + lengthBytes then .error .truncatedAppl
    else do
      let id ← readBE 1 body (offset + 1)
      let sid ← readBE 1 body (offset + 2)
      let length ← readBE lengthBytes body (offset + 3)
      return ⟨some id,some sid,offset + 3 + lengthBytes,length⟩
  else if type = xml then
    if body.length < offset + 5 then .error .truncatedXml
    else do
      let length ← readBE 4 body (offset + 1)
      return ⟨none,none,offset + 5,length⟩
  else match fixed.lookup type with
    | some length => .ok ⟨none,none,offset + 1,length⟩
    | none => .error (.unknownType type)

def itemAt (body : List UInt8) (offset : Nat) : Except DiagError (DiagItem × Nat) := do
  let type ← readBE 1 body offset
  let head ← itemHead body offset type
  if body.length - head.start < head.length then
    .error (.overruns (head.length - (body.length - head.start)))
  else
    let value ← subarray body head.start head.length
    return (⟨type,head.id,head.sid,value⟩,head.start + head.length)

def parseFrom (body : List UInt8) : Nat → List DiagItem → Nat → Except DiagError (List DiagItem)
  | 0,_,_ => .error .endless
  | n + 1,output,offset =>
    if offset < body.length then do
      let (item,offset) ← itemAt body offset
      parseFrom body n (output ++ [item]) offset
    else .ok output

def parseDiagItems (body : List UInt8) : Except DiagError (List DiagItem) :=
  parseFrom body (body.length + 1) [] 0

inductive Wire : DiagItem → List UInt8 → Prop
  | appl (id sid : UInt8) {value : List UInt8} : value.length ≤ 0xffff →
      Wire ⟨appl,some id.toNat,some sid.toNat,value⟩
        (0x10 :: id :: sid :: (bigEndian 2 value.length ++ value))
  | appl4 (id sid : UInt8) {value : List UInt8} : value.length ≤ 0xffffffff →
      Wire ⟨appl4,some id.toNat,some sid.toNat,value⟩
        (0x12 :: id :: sid :: (bigEndian 4 value.length ++ value))
  | xml {value : List UInt8} : value.length ≤ 0xffffffff →
      Wire ⟨xml,none,none,value⟩ (0x11 :: (bigEndian 4 value.length ++ value))
  | fixed {type : UInt8} {value : List UInt8} : fixed.lookup type.toNat = some value.length →
      Wire ⟨type.toNat,none,none,value⟩ (type :: value)

inductive Known (item : DiagItem) : Prop
  | appl : item.type = appl → item.id.getD 0 ≤ 0xff → item.sid.getD 0 ≤ 0xff →
      item.value.length ≤ 0xffff → Known item
  | appl4 : item.type = appl4 → item.id.getD 0 ≤ 0xff → item.sid.getD 0 ≤ 0xff →
      item.value.length ≤ 0xffffffff → Known item
  | xml : item.type = xml → item.value.length ≤ 0xffffffff → Known item
  | fixed : fixed.lookup item.type = some item.value.length → Known item

def DiagItem.stored (item : DiagItem) : DiagItem :=
  if item.type = appl ∨ item.type = appl4 then
    {item with id := some (item.id.getD 0),sid := some (item.sid.getD 0)}
  else {item with id := none,sid := none}

variable {body bytes rest e : List UInt8} {offset len n type next : Nat} {item : DiagItem}
  {items out : List DiagItem} {es : List (List UInt8)}

section Encoding

theorem fixed_type {length : Nat} (h : fixed.lookup type = some length) :
    type ≤ 0xff ∧ type ≠ appl ∧ type ≠ appl4 ∧ type ≠ xml := by
  obtain ⟨front,behind,hlist,-⟩ := List.lookup_eq_some_iff.mp h
  have hmem : (type,length) ∈ fixed := hlist ▸ List.mem_append_right _ List.mem_cons_self
  simp only [fixed,List.mem_cons,Prod.mk.injEq,List.not_mem_nil,or_false] at hmem
  unfold appl appl4 xml
  omega

theorem octet_ok {value : Nat} {name : String} (h : value ≤ 0xff) : octet value name = .ok value :=
  if_neg (Nat.not_lt.mpr h)

theorem u32Bytes_ok {value : Nat} {name : String} (h : value ≤ 0xffffffff) :
    u32Bytes value name = .ok (bigEndian 4 value) := by
  rw [u32Bytes,size,if_neg (Nat.not_lt.mpr h)]
  rfl

theorem encode_appl {id sid : Nat} {value : List UInt8} (hid : id ≤ 0xff) (hsid : sid ≤ 0xff)
    (hvalue : value.length ≤ 0xffff) {i j : Option Nat} (hi : i.getD 0 = id) (hj : j.getD 0 = sid) :
    encodeDiagItem ⟨appl,i,j,value⟩ =
      .ok (0x10 :: .ofNat id :: .ofNat sid :: (bigEndian 2 value.length ++ value)) := by
  rw [encodeDiagItem]
  simp only [hi,hj,octet_ok hid,octet_ok hsid,u16,size,if_neg (Nat.not_lt.mpr hvalue)]
  rfl

theorem encode_appl4 {id sid : Nat} {value : List UInt8} (hid : id ≤ 0xff) (hsid : sid ≤ 0xff)
    (hvalue : value.length ≤ 0xffffffff) {i j : Option Nat} (hi : i.getD 0 = id)
    (hj : j.getD 0 = sid) : encodeDiagItem ⟨appl4,i,j,value⟩ =
      .ok (0x12 :: .ofNat id :: .ofNat sid :: (bigEndian 4 value.length ++ value)) := by
  rw [encodeDiagItem]
  simp only [hi,hj,octet_ok hid,octet_ok hsid,u32Bytes_ok hvalue]
  rfl

theorem encode_xml {value : List UInt8} (hvalue : value.length ≤ 0xffffffff) {i j : Option Nat} :
    encodeDiagItem ⟨xml,i,j,value⟩ = .ok (0x11 :: (bigEndian 4 value.length ++ value)) := by
  rw [encodeDiagItem]
  simp only [u32Bytes_ok hvalue]
  rfl

theorem encode_fixed {length : Nat} (h : fixed.lookup type = some length) {i j : Option Nat}
    {value : List UInt8} : encodeDiagItem ⟨type,i,j,value⟩ = .ok (.ofNat type :: value) := by
  obtain ⟨hrange,happl,happl4,hxml⟩ := fixed_type h
  rw [encodeDiagItem]
  simp only [octet_ok hrange]
  change (if type = appl then _ else if type = appl4 then _ else if type = xml then _ else _) = _
  rw [if_neg happl,if_neg happl4,if_neg hxml]
  rfl

theorem known_wire (h : Known item) : ∃ e,encodeDiagItem item = .ok e ∧ Wire item.stored e := by
  obtain ⟨type,i,j,value⟩ := item
  cases h with
  | appl htype hid hsid hvalue =>
    obtain rfl : type = appl := htype
    refine ⟨_,encode_appl hid hsid hvalue rfl rfl,?_⟩
    have hwire := Wire.appl (.ofNat (i.getD 0)) (.ofNat (j.getD 0)) hvalue
    rwa [UInt8.toNat_ofNat_of_lt' (Nat.lt_succ_of_le hid),
      UInt8.toNat_ofNat_of_lt' (Nat.lt_succ_of_le hsid)] at hwire
  | appl4 htype hid hsid hvalue =>
    obtain rfl : type = appl4 := htype
    refine ⟨_,encode_appl4 hid hsid hvalue rfl rfl,?_⟩
    have hwire := Wire.appl4 (.ofNat (i.getD 0)) (.ofNat (j.getD 0)) hvalue
    rwa [UInt8.toNat_ofNat_of_lt' (Nat.lt_succ_of_le hid),
      UInt8.toNat_ofNat_of_lt' (Nat.lt_succ_of_le hsid)] at hwire
  | xml htype hvalue =>
    obtain rfl : type = xml := htype
    exact ⟨_,encode_xml hvalue,.xml hvalue⟩
  | fixed hvalue =>
    have hvalue : fixed.lookup type = some value.length := hvalue
    obtain ⟨hrange,happl,happl4,hxml⟩ := fixed_type hvalue
    refine ⟨_,encode_fixed hvalue,?_⟩
    have htype : (UInt8.ofNat type).toNat = type := UInt8.toNat_ofNat_of_lt' (Nat.lt_succ_of_le hrange)
    rw [DiagItem.stored,if_neg (not_or.mpr ⟨happl,happl4⟩)]
    have hwire := @Wire.fixed (.ofNat type) value (by rw [htype]; exact hvalue)
    rwa [htype] at hwire

theorem wire_known (h : Wire item e) :
    encodeDiagItem item = .ok e ∧ Known item ∧ item.stored = item := by
  cases h with
  | appl id sid hvalue =>
    have hid : id.toNat ≤ 0xff := Nat.le_of_lt_succ id.toNat_lt
    have hsid : sid.toNat ≤ 0xff := Nat.le_of_lt_succ sid.toNat_lt
    have hencode := encode_appl hid hsid hvalue (i := some id.toNat) (j := some sid.toNat) rfl rfl
    rw [UInt8.ofNat_toNat,UInt8.ofNat_toNat] at hencode
    exact ⟨hencode,.appl rfl hid hsid hvalue,rfl⟩
  | appl4 id sid hvalue =>
    have hid : id.toNat ≤ 0xff := Nat.le_of_lt_succ id.toNat_lt
    have hsid : sid.toNat ≤ 0xff := Nat.le_of_lt_succ sid.toNat_lt
    have hencode := encode_appl4 hid hsid hvalue (i := some id.toNat) (j := some sid.toNat) rfl rfl
    rw [UInt8.ofNat_toNat,UInt8.ofNat_toNat] at hencode
    exact ⟨hencode,.appl4 rfl hid hsid hvalue,rfl⟩
  | xml hvalue => exact ⟨encode_xml hvalue,.xml rfl hvalue,rfl⟩
  | @fixed type value hvalue =>
    obtain ⟨-,happl,happl4,-⟩ := fixed_type hvalue
    have hencode := @encode_fixed _ _ hvalue none none value
    rw [UInt8.ofNat_toNat] at hencode
    refine ⟨hencode,.fixed hvalue,?_⟩
    rw [DiagItem.stored,if_neg (not_or.mpr ⟨happl,happl4⟩)]

end Encoding

section Reading

theorem subarray_bytes (h : body.drop offset = bytes ++ rest) (hin : offset ≤ body.length)
    (hlen : bytes.length = len) : subarray body offset len = .ok bytes := by
  have hlength := congrArg List.length h
  rw [List.length_drop,List.length_append] at hlength
  rw [subarray,if_pos (by omega),h,List.take_left' hlen]

theorem subarray_ok (h : subarray body offset len = .ok bytes) :
    offset + len ≤ body.length ∧ bytes.length = len ∧
      body.drop offset = bytes ++ body.drop (offset + len) := by
  rw [subarray] at h
  split at h
  · rename_i hroom
    obtain rfl := Except.ok.inj h
    refine ⟨hroom,?_,?_⟩
    · rw [List.length_take,List.length_drop]
      omega
    · rw [← List.drop_drop,List.take_append_drop]
  · cases h

theorem readBE_bytes (h : body.drop offset = bytes ++ rest) (hin : offset ≤ body.length)
    (hlen : bytes.length = len) : readBE len body offset = .ok (numberBE bytes) := by
  rw [readBE,subarray_bytes h hin hlen]
  rfl

theorem readBE_ok {value : Nat} (h : readBE len body offset = .ok value) :
    ∃ bytes,numberBE bytes = value ∧ offset + len ≤ body.length ∧ bytes.length = len ∧
      body.drop offset = bytes ++ body.drop (offset + len) := by
  rw [readBE] at h
  cases hbytes : subarray body offset len with
  | error _ => rw [hbytes] at h; cases h
  | ok bytes =>
    rw [hbytes] at h
    exact ⟨bytes,Except.ok.inj h,subarray_ok hbytes⟩

theorem drop_behind (h : body.drop offset = bytes ++ rest) (hlen : bytes.length = len) :
    body.drop (offset + len) = rest := by
  rw [← List.drop_drop,h,List.drop_left' hlen]

theorem wire_length (h : Wire item e) : 0 < e.length := by
  cases h <;> exact Nat.succ_pos _

theorem byte_at {b : UInt8} (h : body.drop offset = b :: rest) :
    readBE 1 body offset = .ok b.toNat ∧ body.drop (offset + 1) = rest ∧ offset < body.length := by
  have hlength := congrArg List.length h
  rw [List.length_drop,List.length_cons] at hlength
  refine ⟨?_,@drop_behind _ [b] _ _ _ h rfl,by omega⟩
  rw [@readBE_bytes _ [b] rest _ 1 h (by omega) rfl]
  simp [numberBE,number]

theorem number_at {value : Nat} (h : body.drop offset = bigEndian len value ++ rest)
    (hin : offset ≤ body.length) (hvalue : value < 256 ^ len) :
    readBE len body offset = .ok value ∧ body.drop (offset + len) = rest ∧
      offset + len ≤ body.length := by
  have hlen := BigEndian.length_bigEndian len value
  have hlength := congrArg List.length h
  rw [List.length_drop,List.length_append,hlen] at hlength
  refine ⟨?_,drop_behind h hlen,by omega⟩
  rw [readBE_bytes h hin hlen,BigEndian.numberBE_bigEndian hvalue]

theorem itemAt_head {head : ItemHead} {value : List UInt8} (htype : readBE 1 body offset = .ok type)
    (hhead : itemHead body offset type = .ok head) (hlength : value.length = head.length)
    (hin : head.start ≤ body.length) (hvalue : body.drop head.start = value ++ rest) :
    itemAt body offset = .ok (⟨type,head.id,head.sid,value⟩,head.start + head.length) := by
  have hsize := congrArg List.length hvalue
  rw [List.length_drop,List.length_append] at hsize
  rw [itemAt,htype]
  change (itemHead body offset type >>= _) = _
  rw [hhead]
  change (if body.length - head.start < head.length then _ else _) = _
  rw [if_neg (by omega),subarray_bytes hvalue hin hlength]
  rfl

theorem itemHead_appl {id sid : UInt8} {length : Nat} (htype : type = appl ∨ type = appl4)
    (hdrop : body.drop (offset + 1) = id :: sid :: (bigEndian (if type = appl then 2 else 4) length ++ rest))
    (hlength : length < 256 ^ (if type = appl then 2 else 4)) :
    itemHead body offset type = .ok ⟨some id.toNat,some sid.toNat,
      offset + 3 + (if type = appl then 2 else 4),length⟩ ∧
      body.drop (offset + 3 + (if type = appl then 2 else 4)) = rest ∧
      offset + 3 + (if type = appl then 2 else 4) ≤ body.length := by
  generalize hbytes : (if type = appl then 2 else 4) = lengthBytes at *
  obtain ⟨hid,hdrop,-⟩ := byte_at hdrop
  obtain ⟨hsid,hdrop,hin⟩ := byte_at hdrop
  obtain ⟨hnumber,hvalue,hroom⟩ := number_at hdrop hin hlength
  refine ⟨?_,hvalue,hroom⟩
  rw [itemHead,if_pos htype]
  simp only [hbytes]
  rw [if_neg (by omega),hid]
  change (readBE 1 body (offset + 2) >>= _) = _
  rw [hsid]
  change (readBE lengthBytes body (offset + 3) >>= _) = _
  rw [hnumber]
  rfl

theorem itemAt_wire (h : Wire item e) (hdrop : body.drop offset = e ++ rest) :
    itemAt body offset = .ok (item,offset + e.length) := by
  cases h with
  | @appl id sid value hvalue =>
    obtain ⟨htype,hdrop,-⟩ := byte_at hdrop
    obtain ⟨hhead,hrest,hin⟩ := @itemHead_appl body (value ++ rest) offset appl id sid value.length
      (.inl rfl) (by simpa using hdrop) (Nat.lt_succ_of_le hvalue)
    rw [itemAt_head htype hhead rfl hin hrest]
    simp [appl]
    omega
  | @appl4 id sid value hvalue =>
    obtain ⟨htype,hdrop,-⟩ := byte_at hdrop
    obtain ⟨hhead,hrest,hin⟩ := @itemHead_appl body (value ++ rest) offset appl4 id sid value.length
      (.inr rfl) (by simpa [appl4,appl] using hdrop) (Nat.lt_succ_of_le hvalue)
    rw [itemAt_head htype hhead rfl hin hrest]
    simp [appl4,appl]
    omega
  | @xml value hvalue =>
    obtain ⟨htype,hdrop,hin⟩ := byte_at hdrop
    have hdrop : body.drop (offset + 1) = bigEndian 4 value.length ++ (value ++ rest) :=
      hdrop.trans (List.append_assoc _ _ _)
    obtain ⟨hnumber,hrest,hroom⟩ := number_at hdrop hin (Nat.lt_succ_of_le hvalue)
    have hhead : itemHead body offset xml = .ok ⟨none,none,offset + 5,value.length⟩ := by
      rw [itemHead,if_neg (by decide),if_pos rfl,if_neg (by omega),hnumber]
      rfl
    rw [itemAt_head htype hhead rfl hroom hrest]
    simp [xml]
    omega
  | @fixed type value hvalue =>
    obtain ⟨-,happl,happl4,hxml⟩ := fixed_type hvalue
    obtain ⟨htype,hdrop,hin⟩ := byte_at hdrop
    have hhead : itemHead body offset type.toNat = .ok ⟨none,none,offset + 1,value.length⟩ := by
      rw [itemHead,if_neg (not_or.mpr ⟨happl,happl4⟩),if_neg hxml,hvalue]
    rw [itemAt_head htype hhead rfl hin hdrop]
    simp
    omega

theorem byte_ok {value : Nat} (h : readBE 1 body offset = .ok value) :
    ∃ b : UInt8,b.toNat = value ∧ offset < body.length ∧
      body.drop offset = b :: body.drop (offset + 1) := by
  obtain ⟨bytes,rfl,hroom,hlen,hdrop⟩ := readBE_ok h
  obtain ⟨b,rfl⟩ := List.length_eq_one_iff.mp hlen
  exact ⟨b,by simp [numberBE,number],hroom,hdrop⟩

theorem number_ok {value : Nat} (h : readBE len body offset = .ok value) :
    value < 256 ^ len ∧ body.drop offset = bigEndian len value ++ body.drop (offset + len) := by
  obtain ⟨bytes,rfl,-,hlen,hdrop⟩ := readBE_ok h
  refine ⟨hlen ▸ BigEndian.numberBE_lt bytes,?_⟩
  rwa [BigEndian.bigEndian_numberBE hlen]

inductive Head : Nat → ItemHead → List UInt8 → Prop
  | appl (id sid : UInt8) {start length : Nat} : length ≤ 0xffff →
      Head appl ⟨some id.toNat,some sid.toNat,start,length⟩ (id :: sid :: bigEndian 2 length)
  | appl4 (id sid : UInt8) {start length : Nat} : length ≤ 0xffffffff →
      Head appl4 ⟨some id.toNat,some sid.toNat,start,length⟩ (id :: sid :: bigEndian 4 length)
  | xml {start length : Nat} : length ≤ 0xffffffff →
      Head xml ⟨none,none,start,length⟩ (bigEndian 4 length)
  | fixed {type start length : Nat} : fixed.lookup type = some length →
      Head type ⟨none,none,start,length⟩ []

theorem itemHead_ok {head : ItemHead} (h : itemHead body offset type = .ok head) :
    ∃ bytes,Head type head bytes ∧ head.start = offset + 1 + bytes.length ∧
      body.drop (offset + 1) = bytes ++ body.drop head.start := by
  unfold itemHead at h
  split at h
  · rename_i htype
    simp only at h
    generalize hbytes : (if type = appl then 2 else 4) = lengthBytes at h
    split at h
    · cases h
    obtain ⟨id,hid,h⟩ := bind_eq_ok h
    obtain ⟨sid,hsid,h⟩ := bind_eq_ok h
    obtain ⟨length,hlength,h⟩ := bind_eq_ok h
    obtain rfl := Except.ok.inj h
    obtain ⟨id,rfl,-,hid⟩ := byte_ok hid
    obtain ⟨sid,rfl,-,hsid⟩ := byte_ok hsid
    obtain ⟨hbound,hlength⟩ := number_ok hlength
    rcases htype with rfl | rfl
    · obtain rfl : 2 = lengthBytes := hbytes
      refine ⟨_,.appl id sid (Nat.le_of_lt_succ hbound),?_,?_⟩
      · simp
      · rw [hid,hsid]
        exact congrArg _ (congrArg _ hlength)
    · obtain rfl : 4 = lengthBytes := hbytes
      refine ⟨_,.appl4 id sid (Nat.le_of_lt_succ hbound),?_,?_⟩
      · simp
      · rw [hid,hsid]
        exact congrArg _ (congrArg _ hlength)
  split at h
  · rename_i htype
    split at h
    · cases h
    obtain ⟨length,hlength,h⟩ := bind_eq_ok h
    obtain rfl := Except.ok.inj h
    obtain ⟨hbound,hlength⟩ := number_ok hlength
    rw [htype]
    refine ⟨_,.xml (Nat.le_of_lt_succ hbound),?_,hlength⟩
    simp
  split at h
  · rename_i length hlookup
    obtain rfl := Except.ok.inj h
    exact ⟨[],.fixed hlookup,rfl,rfl⟩
  · cases h

theorem head_wire {head : ItemHead} {t : UInt8} {value : List UInt8} (h : Head t.toNat head bytes)
    (hlength : value.length = head.length) :
    Wire ⟨t.toNat,head.id,head.sid,value⟩ (t :: (bytes ++ value)) := by
  generalize htype : t.toNat = type at h
  have hbyte : t = .ofNat type := by rw [← htype,UInt8.ofNat_toNat]
  cases h with
  | @appl id sid start length hbound =>
    obtain rfl : value.length = length := hlength
    rw [hbyte]
    exact .appl id sid hbound
  | @appl4 id sid start length hbound =>
    obtain rfl : value.length = length := hlength
    rw [hbyte]
    exact .appl4 id sid hbound
  | @xml start length hbound =>
    obtain rfl : value.length = length := hlength
    rw [hbyte]
    exact .xml hbound
  | fixed hlookup =>
    rw [← htype] at hlookup ⊢
    exact .fixed (by rw [hlookup,hlength])

theorem itemAt_ok (h : itemAt body offset = .ok (item,next)) :
    ∃ e,Wire item e ∧ next = offset + e.length ∧ next ≤ body.length ∧
      body.drop offset = e ++ body.drop next := by
  obtain ⟨type,htype,h⟩ := bind_eq_ok h
  obtain ⟨head,hhead,h⟩ := bind_eq_ok h
  split at h
  · cases h
  obtain ⟨value,hvalue,h⟩ := bind_eq_ok h
  obtain ⟨rfl,rfl⟩ := ok_pair h
  obtain ⟨t,rfl,-,htype⟩ := byte_ok htype
  obtain ⟨bytes,hbytes,hstart,hdrop⟩ := itemHead_ok hhead
  obtain ⟨hroom,hlength,hbehind⟩ := subarray_ok hvalue
  refine ⟨_,head_wire hbytes hlength,?_,hroom,?_⟩
  · rw [List.length_cons,List.length_append,hlength,hstart]
    omega
  · rw [htype,hdrop,hbehind,List.cons_append,List.append_assoc]

end Reading

section Streams

theorem parseFrom_wire (h : List.Forall₂ Wire items es) :
    ∀ {n offset : Nat} {out : List DiagItem},offset ≤ body.length → body.drop offset = es.flatten →
      es.length < n → parseFrom body n out offset = .ok (out ++ items) := by
  induction h with
  | nil =>
    intro n offset out hin hdrop hn
    obtain ⟨n,rfl⟩ := Nat.exists_eq_succ_of_ne_zero (Nat.ne_zero_of_lt hn)
    have hend : body.length ≤ offset := List.drop_eq_nil_iff.mp hdrop
    rw [parseFrom,if_neg (by omega),List.append_nil]
  | @cons item e items es hwire _ ih =>
    intro n offset out hin hdrop hn
    obtain ⟨n,rfl⟩ := Nat.exists_eq_succ_of_ne_zero (Nat.ne_zero_of_lt hn)
    rw [List.flatten_cons] at hdrop
    have hlength := congrArg List.length hdrop
    rw [List.length_drop,List.length_append] at hlength
    have hpos := wire_length hwire
    have hrest := @ih n (offset + e.length) (out ++ [item]) (by omega) (drop_behind hdrop rfl)
      (Nat.lt_of_succ_lt_succ hn)
    rw [parseFrom,if_pos (by omega),itemAt_wire hwire hdrop]
    rw [List.append_assoc] at hrest
    exact hrest

theorem parseFrom_ok : ∀ {n offset : Nat} {out result : List DiagItem},
    parseFrom body n out offset = .ok result →
    ∃ items es,result = out ++ items ∧ List.Forall₂ Wire items es ∧ body.drop offset = es.flatten := by
  intro n
  induction n with
  | zero => intro offset out result h; cases h
  | succ n ih =>
    intro offset out result h
    rw [parseFrom] at h
    split at h
    · cases hitem : itemAt body offset with
      | error e => rw [hitem] at h; cases h
      | ok r =>
        obtain ⟨item,next⟩ := r
        rw [hitem] at h
        obtain ⟨e,hwire,-,-,hdrop⟩ := itemAt_ok hitem
        obtain ⟨items,es,hresult,hwires,hrest⟩ := ih h
        refine ⟨item :: items,e :: es,?_,.cons hwire hwires,?_⟩
        · rw [hresult,List.append_assoc,List.singleton_append]
        · rw [List.flatten_cons,← hrest,hdrop]
    · rename_i hend
      obtain rfl := Except.ok.inj h
      exact ⟨[],[],(List.append_nil _).symm,.nil,List.drop_eq_nil_of_le (Nat.not_lt.mp hend)⟩

def DiagError.Named (e : DiagError) : Prop := e ≠ .outOfRange ∧ e ≠ .endless

theorem readBE_in (len : Nat) (h : offset + len ≤ body.length) :
    ∃ value,readBE len body offset = .ok value := by
  rw [readBE,subarray,if_pos h]
  exact ⟨_,rfl⟩

theorem itemHead_named {e : DiagError} (h : itemHead body offset type = .error e) : e.Named := by
  unfold itemHead at h
  split at h
  · simp only at h
    generalize (if type = appl then 2 else 4) = lengthBytes at h
    split at h
    · obtain rfl := Except.error.inj h
      exact ⟨by simp,by simp⟩
    · rename_i hroom
      obtain ⟨id,hid⟩ := @readBE_in body (offset + 1) 1 (by omega)
      obtain ⟨sid,hsid⟩ := @readBE_in body (offset + 2) 1 (by omega)
      obtain ⟨length,hlength⟩ := @readBE_in body (offset + 3) lengthBytes (by omega)
      rw [hid,hsid,hlength] at h
      cases h
  split at h
  · split at h
    · obtain rfl := Except.error.inj h
      exact ⟨by simp,by simp⟩
    · rename_i hroom
      obtain ⟨length,hlength⟩ := @readBE_in body (offset + 1) 4 (by omega)
      rw [hlength] at h
      cases h
  split at h
  · cases h
  · obtain rfl := Except.error.inj h
    exact ⟨by simp,by simp⟩

theorem itemAt_named {e : DiagError} (hin : offset < body.length)
    (h : itemAt body offset = .error e) : e.Named := by
  obtain ⟨type,htype⟩ := @readBE_in body offset 1 hin
  rw [itemAt,htype] at h
  change (itemHead body offset type >>= _) = _ at h
  cases hhead : itemHead body offset type with
  | error e' =>
    rw [hhead] at h
    obtain rfl := Except.error.inj h
    exact itemHead_named hhead
  | ok head =>
    rw [hhead] at h
    change (if body.length - head.start < head.length then _ else _) = _ at h
    split at h
    · obtain rfl := Except.error.inj h
      exact ⟨by simp,by simp⟩
    · rename_i hroom
      obtain ⟨bytes,-,hstart,hdrop⟩ := itemHead_ok hhead
      have hlength := congrArg List.length hdrop
      rw [List.length_append,List.length_drop,List.length_drop] at hlength
      rw [subarray,if_pos (by omega)] at h
      cases h

theorem parseFrom_named {e : DiagError} : ∀ {n offset : Nat} {out : List DiagItem},
    body.length - offset < n → parseFrom body n out offset = .error e → e.Named := by
  intro n
  induction n with
  | zero => intro offset out hn h; exact absurd hn (Nat.not_lt_zero _)
  | succ n ih =>
    intro offset out hn h
    rw [parseFrom] at h
    split at h
    · rename_i hin
      cases hitem : itemAt body offset with
      | error e' =>
        rw [hitem] at h
        obtain rfl := Except.error.inj h
        exact itemAt_named hin hitem
      | ok r =>
        obtain ⟨item,next⟩ := r
        rw [hitem] at h
        obtain ⟨e,hwire,hnext,-,-⟩ := itemAt_ok hitem
        have hpos := wire_length hwire
        exact ih (by omega) h
    · cases h

theorem encodeDiagItems_wire (h : List.Forall₂ Wire items es) :
    encodeDiagItems items = .ok es.flatten := by
  have hencode : items.mapM encodeDiagItem = .ok es := by
    induction h with
    | nil => rfl
    | cons hwire _ ih =>
      rw [List.mapM_cons,(wire_known hwire).1,ih]
      rfl
  rw [encodeDiagItems,hencode]
  rfl

theorem encodeDiagItems_known (h : ∀ item ∈ items,Known item) :
    ∃ es,encodeDiagItems items = .ok es.flatten ∧
      List.Forall₂ Wire (items.map DiagItem.stored) es := by
  have hencode : ∃ es,items.mapM encodeDiagItem = .ok es ∧
      List.Forall₂ Wire (items.map DiagItem.stored) es := by
    induction items with
    | nil => exact ⟨[],rfl,.nil⟩
    | cons item items ih =>
      obtain ⟨hitem,hitems⟩ := List.forall_mem_cons.mp h
      obtain ⟨e,he,hwire⟩ := known_wire hitem
      obtain ⟨es,hes,hwires⟩ := ih hitems
      refine ⟨e :: es,?_,.cons hwire hwires⟩
      rw [List.mapM_cons,he,hes]
      rfl
  obtain ⟨es,hes,hwires⟩ := hencode
  refine ⟨es,?_,hwires⟩
  rw [encodeDiagItems,hes]
  rfl

theorem parseDiagItems_wire (h : List.Forall₂ Wire items es) :
    parseDiagItems es.flatten = .ok items := by
  have hlength : es.length ≤ es.flatten.length := by
    induction h with
    | nil => exact le_rfl
    | @cons _ e _ es hwire _ ih =>
      have hpos := wire_length hwire
      rw [List.flatten_cons,List.length_cons,List.length_append]
      omega
  exact parseFrom_wire h (Nat.zero_le _) rfl (Nat.lt_succ_of_le hlength)

theorem wires_known (h : List.Forall₂ Wire items es) :
    ∀ item ∈ items,Known item ∧ item.stored = item := by
  induction h with
  | nil => exact List.forall_mem_nil _
  | cons hwire _ ih => exact List.forall_mem_cons.mpr ⟨(wire_known hwire).2,ih⟩

theorem mapM_length {α β : Type} {f : α → Except DiagError β} {xs : List α} :
    ∀ {ys : List β},xs.mapM f = .ok ys → ys.length = xs.length := by
  induction xs with
  | nil =>
    intro ys h
    obtain rfl := Except.ok.inj h
    rfl
  | cons x xs ih =>
    intro ys h
    rw [List.mapM_cons] at h
    obtain ⟨y,-,h⟩ := bind_eq_ok h
    obtain ⟨zs,hzs,h⟩ := bind_eq_ok h
    obtain rfl := Except.ok.inj h
    rw [List.length_cons,List.length_cons,ih hzs]

theorem encodeDiagHeader_length {header : DiagHeader} {head : List UInt8}
    (h : encodeDiagHeader header = .ok head) : head.length = 8 := mapM_length h

theorem items_round_trip :
    (∀ body items,parseDiagItems body = .ok items →
      encodeDiagItems items = .ok body ∧ ∀ item ∈ items,Known item ∧ item.stored = item) ∧
    (∀ items,(∀ item ∈ items,Known item) → ∃ body,encodeDiagItems items = .ok body ∧
      parseDiagItems body = .ok (items.map DiagItem.stored) ∧
      ((∀ item ∈ items,item.stored = item) → parseDiagItems body = .ok items)) ∧
    (∀ body e,parseDiagItems body = .error e → e.Named) ∧
    ∀ header items message,encodeDiagMessage header items = .ok message →
      (∀ item ∈ items,Known item) →
      parseDiagItems (message.drop 8) = .ok (items.map DiagItem.stored) := by
  refine ⟨fun body items h => ?_,fun items hknown => ?_,fun body e h =>
    parseFrom_named (Nat.lt_succ_of_le (Nat.sub_le _ _)) h,fun header items message h hknown => ?_⟩
  · obtain ⟨items',es,hitems,hwires,hbody⟩ := parseFrom_ok h
    rw [List.nil_append] at hitems
    subst hitems
    rw [encodeDiagItems_wire hwires]
    exact ⟨congrArg Except.ok hbody.symm,wires_known hwires⟩
  · obtain ⟨es,hencode,hwires⟩ := encodeDiagItems_known hknown
    have hparse := parseDiagItems_wire hwires
    refine ⟨es.flatten,hencode,hparse,fun hstored => ?_⟩
    rwa [List.map_congr_left hstored,List.map_id'] at hparse
  · unfold encodeDiagMessage at h
    split at h
    · cases h
    obtain ⟨head,hhead,h⟩ := bind_eq_ok h
    obtain ⟨stream,hstream,h⟩ := bind_eq_ok h
    obtain rfl := Except.ok.inj h
    obtain ⟨es,hencode,hwires⟩ := encodeDiagItems_known hknown
    obtain rfl := Except.ok.inj (hstream.symm.trans hencode)
    rw [List.drop_left' (encodeDiagHeader_length hhead)]
    exact parseDiagItems_wire hwires

end Streams

end OpenSteamgate.Protocols.Diag
