import OpenSteamgate.Library.Outcome
import OpenSteamgate.Protocols.Conversation
import OpenSteamgate.Protocols.Tunnelled

namespace OpenSteamgate.Protocols.Server

open Tunnel (JsString js)
open Rfc (Field ChainError encodeRfcFieldChain maxXmlBytes)

structure RfcName where
  text : JsString
  isName : isName text = true
  nonempty : text ≠ []
  bigEndian : Bool

def RfcName.bytes (name : RfcName) : Bytes :=
  name.text.flatMap fun c =>
    let low := UInt8.ofNat c.toNat
    if name.bigEndian then [0,low] else [low,0]

inductive Entry
  | output (name : RfcName)
  | import' (name : RfcName) (value : Bytes)
  | table (name : RfcName) (id info : Option Bytes) (rows : List (Bool × Bytes))
  | xml (parts : List Bytes)
  | other (tag : Nat) (value : Bytes)

def neutral (tag : Nat) : Bool :=
  decide (tag ≤ 0xffff) && tag ∉ [0x0102,0x0201,0x0203,0x0205,0x0301,0x0302,0x0303,0x0304,0x0330,
    0x3c05,0x4000,0x4001,0x5001,0xffff]

namespace Entry

def fields : Entry → List Field
  | .output name => [⟨0x0205,name.bytes⟩]
  | .import' name value => [⟨0x0201,name.bytes⟩,⟨0x0203,value⟩]
  | .table name id info rows =>
    ⟨0x0301,name.bytes⟩ :: (id.map fun v => ⟨0x0330,v⟩).toList ++
      (info.map fun v => ⟨0x0302,v⟩).toList ++
      rows.map fun row => ⟨if row.1 then 0x0303 else 0x0304,row.2⟩
  | .xml parts => ⟨0x3c02,[]⟩ :: parts.map (fun v => ⟨0x3c05,v⟩) ++ [⟨0x3c02,[]⟩]
  | .other tag value => [⟨tag,value⟩]

def Fits : Entry → Prop
  | .other tag _ => neutral tag = true
  | _ => True

end Entry

section names

def isNameChar (c : UInt16) : Bool := 65 ≤ c && c ≤ 90 || Tunnel.isDecimal c || c = 95

theorem isNameChar_iff {c : UInt16} : isNameChar c = true ↔
    65 ≤ c.toNat ∧ c.toNat ≤ 90 ∨ 48 ≤ c.toNat ∧ c.toNat ≤ 57 ∨ c.toNat = 95 := by
  have heq : c = 95 ↔ c.toNat = 95 := UInt16.toNat_inj.symm
  simp only [isNameChar,Tunnel.isDecimal,Bool.or_eq_true,Bool.and_eq_true,decide_eq_true_iff,
    UInt16.le_iff_toNat_le,heq,or_assoc]
  rfl

theorem isName_iff {t : JsString} : isName t = true ↔ ∀ c ∈ t,isNameChar c = true :=
  List.all_eq_true

theorem isSpace_name {c : UInt16} (h : isNameChar c = true) : isSpace c = false := by
  rw [isNameChar_iff] at h
  have hne (d : UInt16) (hd : d.toNat < 48 ∨ 95 < d.toNat) : decide (c = d) = false := by
    rw [decide_eq_false_iff_not]
    rintro rfl
    omega
  simp only [isSpace,hne 0x20 (by decide),hne 0xa0 (by decide),hne 0x1680 (by decide),
    hne 0x2028 (by decide),hne 0x2029 (by decide),hne 0x202f (by decide),hne 0x205f (by decide),
    hne 0x3000 (by decide),hne 0xfeff (by decide),Bool.or_false,Bool.or_eq_false_iff,
    Bool.and_eq_false_iff,decide_eq_false_iff_not,UInt16.le_iff_toNat_le]
  have h13 : (13 : UInt16).toNat = 13 := rfl
  have h2000 : (0x2000 : UInt16).toNat = 0x2000 := rfl
  rw [h13,h2000]
  omega

theorem trimEnd_name {t : JsString} (h : isName t = true) : trimEnd t = t := by
  refine List.rdropWhile_eq_self_iff.mpr fun hne => ?_
  rw [isSpace_name ((isName_iff).mp h _ (List.getLast_mem hne))]
  exact Bool.false_ne_true

def littleBytes (t : JsString) : Bytes := t.flatMap fun c => [UInt8.ofNat c.toNat,0]

def bigBytes (t : JsString) : Bytes := t.flatMap fun c => [0,UInt8.ofNat c.toNat]

theorem RfcName.bytes_eq (name : RfcName) :
    name.bytes = if name.bigEndian then bigBytes name.text else littleBytes name.text := by
  unfold RfcName.bytes bigBytes littleBytes
  cases name.bigEndian with
  | true => rfl
  | false => rfl

theorem units_littleBytes {t : JsString} (h : isName t = true) : units (littleBytes t) = t := by
  induction t with
  | nil => rfl
  | cons c t ih =>
    obtain ⟨hc,ht⟩ := List.forall_mem_cons.mp ((isName_iff).mp h)
    rw [isNameChar_iff] at hc
    have hone : UInt16.ofNat ((UInt8.ofNat c.toNat).toNat + 256 * (0 : UInt8).toNat) = c := by
      rw [UInt8.toNat_ofNat_of_lt' (by change c.toNat < 256; omega)]
      exact UInt16.ofNat_toNat
    change UInt16.ofNat _ :: units (littleBytes t) = _
    rw [hone,ih ((isName_iff).mpr ht)]

def turned (c : UInt16) : UInt16 := UInt16.ofNat (256 * c.toNat)

theorem units_bigBytes {t : JsString} (h : isName t = true) :
    units (bigBytes t) = t.map turned := by
  induction t with
  | nil => rfl
  | cons c t ih =>
    obtain ⟨hc,ht⟩ := List.forall_mem_cons.mp ((isName_iff).mp h)
    rw [isNameChar_iff] at hc
    have hone : UInt16.ofNat ((0 : UInt8).toNat + 256 * (UInt8.ofNat c.toNat).toNat) = turned c := by
      rw [UInt8.toNat_ofNat_of_lt' (by change c.toNat < 256; omega)]
      exact congrArg UInt16.ofNat (Nat.zero_add _)
    change UInt16.ofNat _ :: units (bigBytes t) = _
    rw [hone,ih ((isName_iff).mpr ht)]
    rfl

theorem swapped_bigBytes (t : JsString) : swapped (bigBytes t) = littleBytes t := by
  induction t with
  | nil => rfl
  | cons c t ih => exact congrArg (UInt8.ofNat c.toNat :: 0 :: ·) ih

theorem length_bytes (t : JsString) :
    (littleBytes t).length % 2 = 0 ∧ (bigBytes t).length % 2 = 0 := by
  induction t with
  | nil => exact ⟨rfl,rfl⟩
  | cons c t ih =>
    have hl : (littleBytes (c :: t)).length = (littleBytes t).length + 2 := rfl
    have hb : (bigBytes (c :: t)).length = (bigBytes t).length + 2 := rfl
    omega

theorem toNat_turned {c : UInt16} (h : isNameChar c = true) : (turned c).toNat = 256 * c.toNat := by
  rw [isNameChar_iff] at h
  exact UInt16.toNat_ofNat_of_lt' (by change 256 * c.toNat < 65536; omega)

theorem isSpace_turned {c : UInt16} (h : isNameChar c = true) : isSpace (turned c) = decide (c = 48) := by
  have hn := toNat_turned h
  rw [isNameChar_iff] at h
  have heq (d : UInt16) : turned c = d ↔ 256 * c.toNat = d.toNat := by
    rw [← UInt16.toNat_inj,hn]
  have hzero : c = 48 ↔ c.toNat = 48 := UInt16.toNat_inj.symm
  rw [Bool.eq_iff_iff]
  simp only [isSpace,Bool.or_eq_true,Bool.and_eq_true,decide_eq_true_iff,UInt16.le_iff_toNat_le,heq,hn,
    hzero,UInt16.reduceToNat]
  omega

theorem isNameChar_turned {c : UInt16} (h : isNameChar c = true) : isNameChar (turned c) = false := by
  have hn := toNat_turned h
  rw [isNameChar_iff] at h
  rw [Bool.eq_false_iff,Ne,isNameChar_iff,hn]
  omega

def RfcName.seen (name : RfcName) : JsString :=
  if name.bigEndian && name.text.all (· == 48) then [] else name.text

theorem trimEnd_turned {t : JsString} (h : isName t = true) :
    isName (trimEnd (t.map turned)) = true ↔ ∀ c ∈ t,c = 48 := by
  have hchars := (isName_iff).mp h
  have hdrop : trimEnd (t.map turned) = (t.rdropWhile fun c => decide (c = 48)).map turned := by
    unfold trimEnd List.rdropWhile
    rw [← List.map_reverse,List.dropWhile_map,List.map_reverse]
    congr 2
    have hmem : ∀ c ∈ t.reverse,(isSpace ∘ turned) c = decide (c = 48) :=
      fun c hc => isSpace_turned (hchars c (List.mem_reverse.mp hc))
    generalize t.reverse = u at hmem
    induction u with
    | nil => rfl
    | cons c u ih =>
      obtain ⟨hc,hu⟩ := List.forall_mem_cons.mp hmem
      rw [List.dropWhile_cons,List.dropWhile_cons,hc,ih hu]
  rw [hdrop]
  constructor
  · intro hname
    have hnil : (t.rdropWhile fun c => decide (c = 48)) = [] := by
      cases hrest : t.rdropWhile fun c => decide (c = 48) with
      | nil => rfl
      | cons c u =>
        rw [hrest] at hname
        have hmem : c ∈ t := by
          have hprefix := List.rdropWhile_prefix (fun c => decide (c = 48)) (l := t)
          exact hprefix.subset (hrest ▸ List.mem_cons_self)
        have hc := (isName_iff).mp hname (turned c) (List.mem_map_of_mem List.mem_cons_self)
        rw [isNameChar_turned (hchars c hmem)] at hc
        cases hc
    intro c hc
    exact of_decide_eq_true (List.rdropWhile_eq_nil_iff.mp hnil c hc)
  · intro hall
    rw [List.rdropWhile_eq_nil_iff.mpr fun c hc => decide_eq_true (hall c hc)]
    rfl

theorem decodeRfcName_bytes (name : RfcName) : decodeRfcName name.bytes = .ok name.seen := by
  have hlength := length_bytes name.text
  have hunits := units_littleBytes name.isName
  have htrim := trimEnd_name name.isName
  unfold decodeRfcName RfcName.seen
  rw [name.bytes_eq]
  cases hbig : name.bigEndian with
  | false =>
    rw [if_neg Bool.false_ne_true,if_neg (by omega),hunits,htrim,if_pos name.isName]
    exact congrArg Except.ok (if_neg Bool.false_ne_true).symm
  | true =>
    rw [if_pos rfl,if_neg (by omega),swapped_bigBytes,hunits,htrim,units_bigBytes name.isName]
    by_cases hzero : ∀ c ∈ name.text,c = 48
    · have hname := (trimEnd_turned name.isName).mpr hzero
      have hnil : trimEnd (name.text.map turned) = [] := by
        refine List.rdropWhile_eq_nil_iff.mpr fun x hx => ?_
        obtain ⟨c,hc,rfl⟩ := List.mem_map.mp hx
        rw [isSpace_turned ((isName_iff).mp name.isName c hc)]
        exact decide_eq_true (hzero c hc)
      rw [if_pos hname,hnil,if_pos (by simpa using hzero)]
    · rw [if_neg fun h => hzero ((trimEnd_turned name.isName).mp h),if_pos name.isName,
        if_neg (by simpa using hzero)]

end names

namespace Entry

def outputs : Entry → List RfcName
  | .output name => [name]
  | _ => []

def imports : Entry → List (RfcName × Bytes)
  | .import' name value => [(name,value)]
  | _ => []

def rowLength (info : Option Bytes) : Option Nat :=
  (info.filter fun v => 8 ≤ v.length).map fun v => numberBE (v.take 4)

def tables : Entry → List (RfcName × Option Bytes × Option Nat × List Bytes)
  | .table name id info rows => [(name,id,rowLength info,rows.map Prod.snd)]
  | _ => []

def parts : Entry → List Bytes
  | .xml parts => parts
  | _ => []

def seenImports (e : Entry) : List (JsString × Bytes) :=
  (e.imports.filter fun i => i.1.seen ≠ []).map fun i => (i.1.seen,i.2)

def seenTables (e : Entry) : List Table :=
  e.tables.map fun t => {name := t.1.seen,id := t.2.1,rowLength := t.2.2.1,rows := t.2.2.2}

end Entry

section reading

variable {s s' : Reading} {f : Field} {fs : List Field}

theorem fields_cons (h : s.field f = .ok s') : Reading.fields (f :: fs) s = Reading.fields fs s' :=
  congrArg (· >>= Reading.fields fs) h

theorem field_other (h : f.tag ∉ [0x0201,0x0203,0x0301,0x0330,0x0302,0x0303,0x0304]) :
    s.field f = .ok s := by
  simp only [List.mem_cons,List.not_mem_nil,or_false,not_or] at h
  obtain ⟨h1,h2,h3,h4,h5,h6,h7⟩ := h
  rw [Reading.field,if_neg h1,if_neg fun h => h2 h.1,if_neg h3,if_neg h4,if_neg fun h => h5 h.1,
    if_neg fun h => h.elim h6 h7]

def Reading.Idle (s : Reading) : Prop := s.importName.getD [] = []

theorem fields_rows {t : Table} (rows : List (Bool × Bytes)) (ht : s.table = some t) :
    Reading.fields ((rows.map fun row => ⟨if row.1 then 0x0303 else 0x0304,row.2⟩) ++ fs) s =
      Reading.fields fs {s with table := some {t with rows := t.rows ++ rows.map Prod.snd}} := by
  induction rows generalizing s t with
  | nil =>
    obtain ⟨importName,imports,tables,table⟩ := s
    cases ht
    simp
  | cons row rows ih =>
    have hrow : s.field ⟨if row.1 then 0x0303 else 0x0304,row.2⟩ =
        .ok {s with table := some {t with rows := t.rows ++ [row.2]}} := by
      cases row.1 <;> simp [Reading.field,Reading.onTable,ht]
    rw [List.map_cons,List.cons_append,fields_cons hrow,ih rfl]
    simp

theorem field_import (s : Reading) (name : RfcName) :
    s.field ⟨0x0201,name.bytes⟩ = .ok {s with importName := some name.seen} := by
  rw [Reading.field,if_pos rfl,decodeRfcName_bytes]
  rfl

theorem field_table (s : Reading) (name : RfcName) :
    s.field ⟨0x0301,name.bytes⟩ =
      .ok {s with tables := s.all,table := some {name := name.seen}} := by
  rw [Reading.field,if_neg (by simp),if_neg (by simp),if_pos rfl,decodeRfcName_bytes]
  rfl

theorem fields_id {t : Table} (id : Option Bytes) (ht : s.table = some t) (hid : t.id = none) :
    Reading.fields ((id.map fun v => ⟨0x0330,v⟩).toList ++ fs) s =
      Reading.fields fs {s with table := some {t with id := id}} := by
  cases id with
  | none =>
    obtain ⟨importName,imports,tables,table⟩ := s
    obtain ⟨name,id,rowLength,rows⟩ := t
    cases ht
    cases hid
    rfl
  | some id =>
    refine fields_cons ?_
    simp [Reading.field,Reading.onTable,ht]

theorem fields_info {t : Table} (info : Option Bytes) (ht : s.table = some t)
    (hlength : t.rowLength = none) :
    Reading.fields ((info.map fun v => ⟨0x0302,v⟩).toList ++ fs) s =
      Reading.fields fs {s with table := some {t with rowLength := Entry.rowLength info}} := by
  obtain ⟨importName,imports,tables,table⟩ := s
  obtain ⟨name,id,rowLength,rows⟩ := t
  cases ht
  cases hlength
  cases info with
  | none => rfl
  | some v =>
    refine fields_cons ?_
    by_cases hlong : 8 ≤ v.length
    · simp [Reading.field,Reading.onTable,Entry.rowLength,hlong]
    · simp [Reading.field,Entry.rowLength,hlong]
      omega

theorem fields_ignored {more : List Field}
    (h : ∀ f ∈ more,f.tag ∉ [0x0201,0x0203,0x0301,0x0330,0x0302,0x0303,0x0304]) :
    Reading.fields (more ++ fs) s = Reading.fields fs s := by
  induction more with
  | nil => rfl
  | cons f more ih =>
    obtain ⟨hf,hmore⟩ := List.forall_mem_cons.mp h
    rw [List.cons_append,fields_cons (field_other hf),ih hmore]

def readTags : List Nat := [0x0201,0x0203,0x0205,0x0301,0x0302,0x0303,0x0304,0x0330,0x3c05]

def Entry.Quiet : Entry → Prop
  | .other tag _ => tag ∉ readTags
  | _ => True

theorem fields_entry {e : Entry} (hquiet : e.Quiet) (hidle : s.Idle)
    (hfresh : ∀ i ∈ e.imports,i.1.seen ≠ [] → i.1.seen ∉ s.imports.map Prod.fst) :
    ∃ s',Reading.fields (e.fields ++ fs) s = Reading.fields fs s' ∧ s'.Idle ∧
      s'.imports = s.imports ++ e.seenImports ∧ s'.all = s.all ++ e.seenTables := by
  have hsame (h : ∀ f ∈ e.fields,f.tag ∉ [0x0201,0x0203,0x0301,0x0330,0x0302,0x0303,0x0304])
      (hi : e.seenImports = []) (ht : e.seenTables = []) :
      ∃ s',Reading.fields (e.fields ++ fs) s = Reading.fields fs s' ∧ s'.Idle ∧
        s'.imports = s.imports ++ e.seenImports ∧ s'.all = s.all ++ e.seenTables := by
    refine ⟨s,fields_ignored h,hidle,?_,?_⟩
    · rw [hi,List.append_nil]
    · rw [ht,List.append_nil]
  cases e with
  | output name => exact hsame (by simp [Entry.fields]) rfl rfl
  | import' name value =>
    change ∃ s',Reading.fields (⟨0x0201,name.bytes⟩ :: ⟨0x0203,value⟩ :: fs) s = _ ∧ _
    rw [fields_cons (field_import s name)]
    by_cases hseen : name.seen = []
    · refine ⟨{s with importName := some name.seen},fields_cons ?_,hseen,?_,?_⟩
      · rw [Reading.field,if_neg (by simp),if_neg fun h => h.2 hseen]
        simp
      · simp [Entry.seenImports,Entry.imports,hseen]
      · exact (List.append_nil _).symm
    · have hnew : setImport s.imports name.seen value = s.imports ++ [(name.seen,value)] :=
        if_neg (by
          rw [List.contains_iff_mem]
          exact hfresh (name,value) (List.mem_singleton.mpr rfl) hseen)
      refine ⟨{s with imports := s.imports ++ [(name.seen,value)],importName := none},
        fields_cons ?_,rfl,?_,?_⟩
      · rw [Reading.field,if_neg (by simp),if_pos ⟨rfl,hseen⟩]
        exact congrArg (fun l => Except.ok {s with imports := l,importName := none}) hnew
      · simp [Entry.seenImports,Entry.imports,hseen]
      · exact (List.append_nil _).symm
  | table name id info rows =>
    refine ⟨{s with
      tables := s.all
      table := some {
        name := name.seen
        id := id
        rowLength := Entry.rowLength info
        rows := rows.map Prod.snd}},?_,hidle,?_,rfl⟩
    · have hfields : (Entry.table name id info rows).fields ++ fs = ⟨0x0301,name.bytes⟩ ::
          ((id.map fun v => ⟨0x0330,v⟩).toList ++ ((info.map fun v => ⟨0x0302,v⟩).toList ++
            ((rows.map fun row => ⟨if row.1 then 0x0303 else 0x0304,row.2⟩) ++ fs))) := by
        simp [Entry.fields]
      rw [hfields,fields_cons (field_table s name),fields_id id rfl rfl,fields_info info rfl rfl,fields_rows rows rfl]
      rfl
    · exact (List.append_nil _).symm
  | xml parts =>
    refine hsame ?_ rfl rfl
    intro f hf
    rw [Entry.fields,List.mem_append,List.mem_cons,List.mem_map,List.mem_singleton] at hf
    rcases hf with (rfl | ⟨v,-,rfl⟩) | rfl <;> simp
  | other tag value =>
    refine hsame ?_ rfl rfl
    intro f hf
    obtain rfl := List.mem_singleton.mp hf
    have hother : tag ∉ [0x0201,0x0203,0x0205,0x0301,0x0302,0x0303,0x0304,0x0330,0x3c05] := hquiet
    simp only [List.mem_cons,List.not_mem_nil,or_false,not_or] at hother ⊢
    tauto

theorem fields_entries {entries : List Entry} (hquiet : ∀ e ∈ entries,e.Quiet) (hidle : s.Idle)
    (hnodup : ((entries.flatMap Entry.imports).map fun i => i.1.text).Nodup)
    (hfresh : ∀ i ∈ entries.flatMap Entry.imports,i.1.text ∉ s.imports.map Prod.fst) :
    ∃ s',Reading.fields (entries.flatMap Entry.fields ++ fs) s = Reading.fields fs s' ∧ s'.Idle ∧
      s'.imports = s.imports ++ entries.flatMap Entry.seenImports ∧
      s'.all = s.all ++ entries.flatMap Entry.seenTables := by
  induction entries generalizing s with
  | nil => exact ⟨s,rfl,hidle,(List.append_nil _).symm,(List.append_nil _).symm⟩
  | cons e entries ih =>
    have hseen (i : RfcName × Bytes) (h : i.1.seen ≠ []) : i.1.seen = i.1.text := by
      unfold RfcName.seen at h ⊢
      split
      · next hzero => exact absurd (if_pos hzero) h
      · rfl
    obtain ⟨he,hrest⟩ := List.forall_mem_cons.mp hquiet
    rw [List.flatMap_cons] at hnodup hfresh
    rw [List.map_append,List.nodup_append] at hnodup
    obtain ⟨-,hnodup,hapart⟩ := hnodup
    obtain ⟨s',hs',hidle',himports,htables⟩ :=
      @fields_entry s (entries.flatMap Entry.fields ++ fs) e he hidle fun i hi hne => by
        rw [hseen i hne]
        exact hfresh i (List.mem_append_left _ hi)
    have hfresh' : ∀ i ∈ entries.flatMap Entry.imports,i.1.text ∉ s'.imports.map Prod.fst := by
      intro i hi hmem
      rw [himports,List.map_append,List.mem_append] at hmem
      rcases hmem with hmem | hmem
      · exact hfresh i (List.mem_append_right _ hi) hmem
      · obtain ⟨p,hp,heq⟩ := List.mem_map.mp hmem
        obtain ⟨j,hj,rfl⟩ := List.mem_map.mp hp
        obtain ⟨hj,hne⟩ := List.mem_filter.mp hj
        have htext : j.1.text = i.1.text := (hseen j (of_decide_eq_true hne)).symm.trans heq
        exact hapart _ (List.mem_map_of_mem hj) _ (List.mem_map_of_mem hi) htext
    obtain ⟨s'',hs'',hidle'',himports',htables'⟩ := ih hrest hidle' hnodup hfresh'
    refine ⟨s'',?_,hidle'',?_,?_⟩
    · rw [List.flatMap_cons,List.append_assoc,hs',hs'']
    · rw [himports',himports,List.flatMap_cons,List.append_assoc]
    · rw [htables',htables,List.flatMap_cons,List.append_assoc]

end reading

structure CutRequest where
  eclipse : Bool
  start : Bytes
  before : List Entry
  function : RfcName
  after : List Entry
  document : List Char
  fits : ∀ e ∈ before ++ after, e.Fits
  distinct : (((before ++ after).flatMap Entry.imports).map fun i => i.1.text).Nodup
  xml : ((before ++ after).flatMap Entry.parts).flatten = Utf8.encode document

namespace CutRequest

variable (r : CutRequest)

def entries : List Entry := r.before ++ r.after

def opening : List Entry := if r.eclipse then [.other 0x0101 r.start] else []

def fields : List Field :=
  (r.opening ++ r.before).flatMap Entry.fields ++ ⟨0x0102,r.function.bytes⟩ ::
    (r.after.flatMap Entry.fields ++ [⟨0xffff,[]⟩])

def initial : Nat := if r.eclipse then 0 else 0x0502

def trailer (n : Nat) : Bytes :=
  [0xff,0xff] ++ bigEndian 2 (n / 65536 % 65536) ++ bigEndian 2 (n % 65536) ++ [0,0,0x85,0]

def bytes : Except ChainError Bytes := do
  let chain ← encodeRfcFieldChain r.initial r.fields
  let front := if r.eclipse then chain.drop 2 else [5,2,0,0] ++ chain
  .ok (front ++ trailer (front.length + 10 - 8))

def names : List RfcName :=
  r.function :: r.entries.flatMap Entry.outputs ++
    ((r.entries.flatMap Entry.imports).map Prod.fst ++ (r.entries.flatMap Entry.tables).map Prod.fst)

structure Recovered (call : Call) : Prop where
  functionName : call.functionName = r.function.text
  outputs : call.requestedOutputs = (r.entries.flatMap Entry.outputs).map RfcName.text
  imports : call.imports = (r.entries.flatMap Entry.imports).map fun i => (i.1.text,i.2)
  tables : call.tables = (r.entries.flatMap Entry.tables).map fun t =>
    {name := t.1.text,id := t.2.1,rowLength := t.2.2.1,rows := t.2.2.2}
  xml : call.xml = Lexeme.utf16 r.document

end CutRequest

section chain

variable {e : Entry} {entries : List Entry} {r : CutRequest} {input chain : Bytes}

theorem table_fields {name : RfcName} {id info : Option Bytes} {rows : List (Bool × Bytes)}
    {f : Field} (h : f ∈ (Entry.table name id info rows).fields) :
    f.tag = 0x0301 ∨ f.tag = 0x0330 ∨ f.tag = 0x0302 ∨ f.tag = 0x0303 ∨ f.tag = 0x0304 := by
  simp only [Entry.fields,List.mem_append,List.mem_cons,Option.mem_toList,Option.map_eq_some_iff,
    List.mem_map] at h
  rcases h with ((rfl | ⟨v,-,rfl⟩) | ⟨v,-,rfl⟩) | ⟨row,-,rfl⟩
  · simp
  · simp
  · simp
  · cases row.1 <;> simp

theorem entry_tags (h : e.Fits) : ∀ f ∈ e.fields,f.tag ∉ [0x0102,0x4000,0x4001,0x5001,0xffff] := by
  intro f hf
  cases e with
  | output name =>
    obtain rfl := List.mem_singleton.mp hf
    simp
  | import' name value =>
    rcases List.mem_cons.mp hf with rfl | hf
    · simp
    · obtain rfl := List.mem_singleton.mp hf
      simp
  | table name id info rows =>
    rcases table_fields hf with h | h | h | h | h <;> rw [h] <;> decide
  | xml parts =>
    rw [Entry.fields,List.mem_append,List.mem_cons,List.mem_map,List.mem_singleton] at hf
    rcases hf with (rfl | ⟨v,-,rfl⟩) | rfl <;> simp
  | other tag value =>
    obtain rfl := List.mem_singleton.mp hf
    have hneutral : neutral tag = true := h
    simp only [neutral,Bool.and_eq_true,decide_eq_true_iff,List.mem_cons,not_or] at hneutral
    simp only [List.mem_cons,List.not_mem_nil,or_false,not_or]
    tauto

theorem entries_tags (h : ∀ e ∈ entries,e.Fits) :
    ∀ f ∈ entries.flatMap Entry.fields,f.tag ∉ [0x0102,0x4000,0x4001,0x5001,0xffff] := by
  intro f hf
  obtain ⟨e,he,hf⟩ := List.mem_flatMap.mp hf
  exact entry_tags (h e he) f hf

theorem front_fits (r : CutRequest) : ∀ e ∈ r.opening ++ r.before,e.Fits := by
  intro e he
  rcases List.mem_append.mp he with he | he
  · unfold CutRequest.opening at he
    split at he
    · obtain rfl := List.mem_singleton.mp he
      exact (by decide : neutral 0x0101 = true)
    · cases he
  · exact r.fits e (List.mem_append_left _ he)

theorem after_fits (r : CutRequest) : ∀ e ∈ r.after,e.Fits :=
  fun e he => r.fits e (List.mem_append_right _ he)

theorem fields_tags (r : CutRequest) {f : Field} (hf : f ∈ r.fields) :
    f.tag ∉ [0x4000,0x4001,0x5001] := by
  have hsub (h : f.tag ∉ [0x0102,0x4000,0x4001,0x5001,0xffff]) : f.tag ∉ [0x4000,0x4001,0x5001] := by
    simp only [List.mem_cons,List.not_mem_nil,or_false,not_or] at h ⊢
    tauto
  rw [CutRequest.fields,List.mem_append,List.mem_cons,List.mem_append,List.mem_singleton] at hf
  rcases hf with hf | rfl | hf | rfl
  · exact hsub (entries_tags (front_fits r) f hf)
  · simp
  · exact hsub (entries_tags (after_fits r) f hf)
  · simp

theorem fields_terminated (r : CutRequest) : Rfc.Terminated 0xffff r.fields := by
  refine ⟨(r.opening ++ r.before).flatMap Entry.fields ++ ⟨0x0102,r.function.bytes⟩ ::
    r.after.flatMap Entry.fields,⟨0xffff,[]⟩,?_,rfl,?_⟩
  · rw [CutRequest.fields,List.append_assoc,List.cons_append]
  · intro f hf
    rw [List.mem_append,List.mem_cons] at hf
    rcases hf with hf | rfl | hf
    · have := entries_tags (front_fits r) f hf
      simp only [List.mem_cons,not_or] at this
      exact this.2.2.2.2.1
    · simp
    · have := entries_tags (after_fits r) f hf
      simp only [List.mem_cons,not_or] at this
      exact this.2.2.2.2.1

theorem length_trailer (n : Nat) : (CutRequest.trailer n).length = 10 := by
  simp [CutRequest.trailer]

theorem trailer_reads (n : Nat) : u16At (CutRequest.trailer n) 0 = 0xffff ∧
    u16At (CutRequest.trailer n) 2 = n / 65536 % 65536 ∧
    u16At (CutRequest.trailer n) 4 = n % 65536 ∧ u16At (CutRequest.trailer n) 6 = 0 ∧
    u16At (CutRequest.trailer n) 8 = 0x8500 := by
  obtain ⟨a,b,hab⟩ := List.length_eq_two.mp (BigEndian.length_bigEndian 2 (n / 65536 % 65536))
  obtain ⟨c,d,hcd⟩ := List.length_eq_two.mp (BigEndian.length_bigEndian 2 (n % 65536))
  have htrailer : CutRequest.trailer n = [0xff,0xff,a,b,c,d,0,0,0x85,0] := by
    rw [CutRequest.trailer,hab,hcd]
    rfl
  have hhigh : numberBE [a,b] = n / 65536 % 65536 := by
    rw [← hab]
    exact BigEndian.numberBE_bigEndian (by omega)
  have hlow : numberBE [c,d] = n % 65536 := by
    rw [← hcd]
    exact BigEndian.numberBE_bigEndian (by omega)
  rw [htrailer]
  exact ⟨rfl,hhigh,hlow,rfl,rfl⟩

theorem chainOf_encode {previous : Nat} {fields : List Field} {encoded : Bytes} (trailing : Bytes)
    (h : encodeRfcFieldChain previous fields = .ok encoded) (hterm : Rfc.Terminated 0xffff fields) :
    chainOf (encoded ++ trailing) previous = .ok (fields,encoded.length) := by
  have hlength := Rfc.encodeFrom_length h
  have hdecode : Rfc.decodeFrom (encoded ++ trailing) 0xffff (encoded ++ trailing).length [] previous 0 =
      .ok ([] ++ fields,0 + encoded.length) :=
    Rfc.decodeFrom_encode h hterm rfl (by rw [List.length_append]; omega)
  rw [Nat.zero_add] at hdecode
  exact congrArg (Except.mapError ServerError.chain) hdecode

theorem encode_start {previous : Nat} {f : Field} {fields : List Field} {encoded : Bytes}
    (h : encodeRfcFieldChain previous (f :: fields) = .ok encoded) :
    6 ≤ encoded.length ∧
      ∃ more,encoded = bigEndian 2 previous ++ (bigEndian 2 f.tag ++ more) := by
  obtain ⟨header,total,rest,-,-,-,hheader,-,rfl⟩ := Rfc.encodeFrom_cons h
  obtain ⟨more,rfl⟩ := hheader.start
  have hlength := hheader.length
  constructor
  · rw [List.length_append,List.length_append]
    omega
  · exact ⟨more ++ f.value ++ rest,by simp only [List.append_assoc]⟩

theorem trailer_accepted (front : Bytes) (n : Nat) :
    ((((front ++ CutRequest.trailer n).drop front.length).length ≠ 10 ∨
      u16At ((front ++ CutRequest.trailer n).drop front.length) 0 ≠ 0xffff ∨
      u16At ((front ++ CutRequest.trailer n).drop front.length) 2 ≠ 0 ∨
      u16At ((front ++ CutRequest.trailer n).drop front.length) 4 ≠ n ∨
      u16At ((front ++ CutRequest.trailer n).drop front.length) 6 ≠ 0 ∨
      u16At ((front ++ CutRequest.trailer n).drop front.length) 8 ≠ 0x8500)) ↔ 0xffff < n := by
  obtain ⟨h0,h2,h4,h6,h8⟩ := trailer_reads n
  rw [List.drop_left' rfl,length_trailer,h0,h2,h4,h6,h8]
  omega

theorem requestChain_classic {fields : List Field} {n : Nat}
    (hn : ([5,2,0,0] ++ chain ++ CutRequest.trailer n).length - 8 = n)
    (hchain : chainOf (chain ++ CutRequest.trailer n) 0x0502 = .ok (fields,chain.length)) :
    requestChain ([5,2,0,0] ++ chain ++ CutRequest.trailer n) =
      if 0xffff < n then .error .requestTrailer else .ok (fields,false) := by
  have hfront : ([5,2,0,0] ++ chain).length = chain.length + 4 := rfl
  have hlength : ¬([5,2,0,0] ++ chain ++ CutRequest.trailer n).length < 12 := by
    rw [List.length_append,hfront,length_trailer]
    omega
  have htake : ([5,2,0,0] ++ chain ++ CutRequest.trailer n).take 4 = [5,2,0,0] := rfl
  have hdrop : ([5,2,0,0] ++ chain ++ CutRequest.trailer n).drop 4 = chain ++ CutRequest.trailer n := rfl
  have haccepted := trailer_accepted ([5,2,0,0] ++ chain) n
  rw [hfront] at haccepted
  rw [requestChain,if_neg hlength]
  dsimp only
  rw [if_neg fun h => h.1 htake,if_pos htake,hdrop,hchain]
  dsimp only [bind,Except.bind]
  rw [if_pos htake,hn]
  by_cases hlong : 0xffff < n
  · rw [if_pos (haccepted.mpr hlong),if_pos hlong]
  · rw [if_neg fun h => hlong (haccepted.mp h),if_neg hlong]
    have hnot : ¬(¬([5,2,0,0] ++ chain ++ CutRequest.trailer n).take 4 = [5,2,0,0] ∧
        u16At ([5,2,0,0] ++ chain ++ CutRequest.trailer n) 0 = 0x0101) := fun h => h.1 htake
    rw [decide_eq_false hnot]

theorem requestChain_eclipse {fields : List Field} {front : Bytes} {n consumed : Nat}
    (hn : (front ++ CutRequest.trailer n).length - 8 = n) (hroom : 4 ≤ front.length)
    (hstart : ∃ more,front = 1 :: 1 :: more) (hconsumed : consumed = front.length + 2)
    (hchain : chainOf (0 :: 0 :: (front ++ CutRequest.trailer n)) 0 = .ok (fields,consumed)) :
    requestChain (front ++ CutRequest.trailer n) =
      if 0xffff < n then .error .requestTrailer else .ok (fields,true) := by
  have hlength : ¬(front ++ CutRequest.trailer n).length < 12 := by
    rw [List.length_append,length_trailer]
    omega
  have hclassic : ¬(front ++ CutRequest.trailer n).take 4 = [5,2,0,0] := by
    obtain ⟨more,rfl⟩ := hstart
    rintro ⟨⟩
  have heclipse : u16At (front ++ CutRequest.trailer n) 0 = 0x0101 := by
    obtain ⟨more,rfl⟩ := hstart
    rfl
  have haccepted := trailer_accepted front n
  have hfront : consumed - 2 = front.length := by omega
  rw [requestChain,if_neg hlength]
  dsimp only
  rw [if_neg fun h => h.2 ⟨hclassic,heclipse⟩,if_neg hclassic,hchain]
  dsimp only [bind,Except.bind]
  rw [if_neg hclassic,hfront,hn]
  by_cases hlong : 0xffff < n
  · rw [if_pos (haccepted.mpr hlong),if_pos hlong]
  · rw [if_neg fun h => hlong (haccepted.mp h),if_neg hlong,decide_eq_true ⟨hclassic,heclipse⟩]

theorem requestChain_bytes (h : r.bytes = .ok input) :
    requestChain input =
      if 0xffff < input.length - 8 then .error .requestTrailer else .ok (r.fields,r.eclipse) := by
  obtain ⟨chain,hchain,hret⟩ := bind_eq_ok h
  have hterm := fields_terminated r
  cases heclipse : r.eclipse with
  | false =>
    rw [heclipse] at hret
    obtain rfl := Except.ok.inj hret
    have hinitial : r.initial = 0x0502 := by
      rw [CutRequest.initial,heclipse]
      rfl
    rw [hinitial] at hchain
    have hn (n : Nat) (hn : n = ([5,2,0,0] ++ chain).length + 10 - 8) :
        ([5,2,0,0] ++ chain ++ CutRequest.trailer n).length - 8 = n := by
      rw [List.length_append,length_trailer,hn]
    have hread := requestChain_classic (hn _ rfl) (chainOf_encode _ hchain hterm)
    exact hread.trans (by rw [if_neg Bool.false_ne_true,hn _ rfl])
  | true =>
    rw [heclipse] at hret
    obtain rfl := Except.ok.inj hret
    have hinitial : r.initial = 0 := by
      rw [CutRequest.initial,heclipse]
      rfl
    have hfields : ∃ rest,r.fields = ⟨0x0101,r.start⟩ :: rest := by
      rw [CutRequest.fields,CutRequest.opening,heclipse]
      exact ⟨_,rfl⟩
    obtain ⟨rest,hrest⟩ := hfields
    rw [hinitial] at hchain
    have hchain' := hchain
    rw [hrest] at hchain'
    obtain ⟨hsix,more,hmore⟩ := encode_start hchain'
    have hzeros : bigEndian 2 0 = [0,0] := by decide
    have hones : bigEndian 2 0x0101 = [1,1] := by decide
    have hchainEq : chain = 0 :: 0 :: 1 :: 1 :: more := by
      rw [hzeros,hones] at hmore
      exact hmore
    have hread := chainOf_encode (CutRequest.trailer ((chain.drop 2).length + 10 - 8)) hchain hterm
    have hn : ((chain.drop 2) ++ CutRequest.trailer ((chain.drop 2).length + 10 - 8)).length - 8 =
        (chain.drop 2).length + 10 - 8 := by
      rw [List.length_append,length_trailer]
    have hfront : chain.drop 2 = 1 :: 1 :: more := by rw [hchainEq]; rfl
    have hzero : chain = 0 :: 0 :: chain.drop 2 := by rw [hfront,hchainEq]
    have hlen : chain.length = (chain.drop 2).length + 2 := by
      rw [List.length_drop]
      omega
    have hshort : 4 ≤ (chain.drop 2).length := by omega
    have hconv : chainOf (0 :: 0 :: (chain.drop 2 ++
        CutRequest.trailer ((chain.drop 2).length + 10 - 8))) 0 = .ok (r.fields,chain.length) := by
      rw [← hread]
      exact congrArg (chainOf · 0)
        (congrArg (· ++ CutRequest.trailer ((chain.drop 2).length + 10 - 8)) hzero).symm
    have hdone := requestChain_eclipse hn hshort ⟨more,hfront⟩ hlen hconv
    exact hdone.trans (by rw [if_pos rfl,hn])

end chain

section decoding

variable {e : Entry} {entries : List Entry} {r : CutRequest} {input chain : Bytes}

namespace CutRequest

variable (r : CutRequest)

def all : List Entry :=
  r.opening ++ r.before ++ .other 0x0102 r.function.bytes :: (r.after ++ [.other 0xffff []])

theorem fields_eq : r.fields = r.all.flatMap Entry.fields := by
  simp [fields,all,Entry.fields]

theorem flatMap_all {β : Type} (g : Entry → List β) (h : ∀ tag value,g (.other tag value) = []) :
    r.all.flatMap g = r.entries.flatMap g := by
  have hopening : r.opening.flatMap g = [] := by
    unfold opening
    split
    · simp [h]
    · rfl
  simp [all,entries,hopening,h]

end CutRequest

theorem quiet_of_fits (h : e.Fits) : e.Quiet := by
  cases e with
  | other tag value =>
    have hneutral : neutral tag = true := h
    simp only [neutral,Bool.and_eq_true,decide_eq_true_iff,List.mem_cons,not_or] at hneutral
    change tag ∉ readTags
    simp only [readTags,List.mem_cons,List.not_mem_nil,or_false,not_or]
    tauto
  | output name => trivial
  | import' name value => trivial
  | table name id info rows => trivial
  | xml parts => trivial

theorem all_quiet (r : CutRequest) : ∀ e ∈ r.all,e.Quiet := by
  intro e he
  rcases List.mem_append.mp he with he | he
  · exact quiet_of_fits (front_fits r e he)
  rcases List.mem_cons.mp he with rfl | he
  · exact (by decide : 0x0102 ∉ readTags)
  rcases List.mem_append.mp he with he | he
  · exact quiet_of_fits (after_fits r e he)
  · obtain rfl := List.mem_singleton.mp he
    exact (by decide : 0xffff ∉ readTags)

theorem filter_outputs (h : ∀ e ∈ entries,e.Quiet) :
    ((entries.flatMap Entry.fields).filter fun f => f.tag = 0x0205) =
      (entries.flatMap Entry.outputs).map fun name => ⟨0x0205,name.bytes⟩ := by
  rw [List.filter_flatMap,List.map_flatMap]
  refine List.flatMap_congr fun e he => ?_
  have hquiet := h e he
  cases e with
  | output name => rfl
  | import' name value => rfl
  | table name id info rows =>
    refine List.filter_eq_nil_iff.mpr fun f hf => ?_
    rcases table_fields hf with h | h | h | h | h <;> rw [h] <;> decide
  | xml parts =>
    refine List.filter_eq_nil_iff.mpr fun f hf => ?_
    rw [Entry.fields,List.mem_append,List.mem_cons,List.mem_map,List.mem_singleton] at hf
    rcases hf with (rfl | ⟨v,-,rfl⟩) | rfl <;> simp
  | other tag value =>
    have htag : tag ≠ 0x0205 := fun heq => hquiet (heq ▸ by decide)
    simp [Entry.fields,Entry.outputs,htag]

theorem filter_xml (parts : List Bytes) :
    ((parts.map fun v => (⟨0x3c05,v⟩ : Field)).filter fun f => f.tag = 0x3c05).map Field.value =
      parts := by
  induction parts with
  | nil => rfl
  | cons v parts ih => rw [List.map_cons,List.filter_cons_of_pos (by simp),List.map_cons,ih]

theorem filter_parts (h : ∀ e ∈ entries,e.Quiet) :
    ((entries.flatMap Entry.fields).filter fun f => f.tag = 0x3c05).map Field.value =
      entries.flatMap Entry.parts := by
  rw [List.filter_flatMap,List.map_flatMap]
  refine List.flatMap_congr fun e he => ?_
  have hquiet := h e he
  cases e with
  | output name => rfl
  | import' name value => rfl
  | table name id info rows =>
    refine List.map_eq_nil_iff.mpr (List.filter_eq_nil_iff.mpr fun f hf => ?_)
    rcases table_fields hf with h | h | h | h | h <;> rw [h] <;> decide
  | xml parts =>
    rw [Entry.fields,List.filter_append,List.filter_cons_of_neg (by simp),
      List.filter_cons_of_neg (by simp),List.filter_nil,List.append_nil,Entry.parts]
    exact filter_xml parts
  | other tag value =>
    have htag : tag ≠ 0x3c05 := fun heq => hquiet (heq ▸ by decide)
    simp [Entry.fields,Entry.parts,htag]

theorem mapM_outputs (names : List RfcName) :
    ((names.map fun name => (⟨0x0205,name.bytes⟩ : Field)).mapM fun f => decodeRfcName f.value) =
      .ok (names.map RfcName.seen) := by
  induction names with
  | nil => rfl
  | cons name names ih =>
    rw [List.map_cons,List.mapM_cons,decodeRfcName_bytes,ih]
    rfl

theorem encodeFrom_values {previous total : Nat} {fields : List Field} {encoded : Bytes}
    (h : Rfc.encodeFrom previous total fields = .ok encoded) (p : Field → Bool) :
    ((fields.filter p).map Field.value).flatten.length ≤ encoded.length := by
  induction fields generalizing previous total encoded with
  | nil => exact Nat.zero_le _
  | cons f fields ih =>
    obtain ⟨header,total',rest,-,-,-,-,hrest,rfl⟩ := Rfc.encodeFrom_cons h
    have hmore := ih hrest
    rw [List.length_append,List.length_append]
    cases hp : p f with
    | true =>
      rw [List.filter_cons_of_pos hp,List.map_cons,List.flatten_cons,List.length_append]
      omega
    | false =>
      rw [List.filter_cons_of_neg (by rw [hp]; exact Bool.false_ne_true)]
      omega

def CutRequest.perceived (r : CutRequest) : Call := {
  functionName := r.function.seen
  requestedOutputs := (r.entries.flatMap Entry.outputs).map RfcName.seen
  imports := r.entries.flatMap Entry.seenImports
  tables := r.entries.flatMap Entry.seenTables
  sessionGUID :=
    (r.fields.find? fun field => field.tag = 0x0514 && field.value.length == 16).map Field.value
  xml := Lexeme.utf16 r.document
  compact := none
  eclipse := r.eclipse}

theorem decodeRfcRequest_bytes (platform : Platform) (h : r.bytes = .ok input) :
    decodeRfcRequest platform input =
      if 0xffff < input.length - 8 then .error .requestTrailer else .ok r.perceived := by
  have hchain := requestChain_bytes h
  unfold decodeRfcRequest
  rw [hchain]
  by_cases hlong : 0xffff < input.length - 8
  · rw [if_pos hlong,if_pos hlong]
    rfl
  · rw [if_neg hlong,if_neg hlong]
    have hnone (t : Nat) (ht : t ∈ [0x4000,0x4001,0x5001]) : ∀ f ∈ r.fields,¬f.tag = t :=
      fun f hf heq => fields_tags r hf (heq ▸ ht)
    have hfast : (r.fields.any fun field => field.tag = 0x5001) = false := by
      rw [List.any_eq_false]
      exact fun f hf => by simpa using hnone 0x5001 (by decide) f hf
    have hfunction : (r.fields.find? fun field => field.tag = 0x0102) =
        some ⟨0x0102,r.function.bytes⟩ := by
      rw [CutRequest.fields,List.find?_append,Option.or_of_isNone,List.find?_cons_of_pos (by simp)]
      rw [Option.isNone_iff_eq_none,List.find?_eq_none]
      intro f hf htag
      have := entries_tags (front_fits r) f hf
      rw [of_decide_eq_true htag] at this
      exact this (by decide)
    have houtputs : ((r.fields.filter fun field => field.tag = 0x0205).mapM fun field =>
        decodeRfcName field.value) =
          .ok ((r.entries.flatMap Entry.outputs).map RfcName.seen) := by
      rw [r.fields_eq,filter_outputs (all_quiet r),mapM_outputs,r.flatMap_all _ fun _ _ => rfl]
    have hparts : ((r.fields.filter fun field => field.tag = 0x3c05).map Field.value).flatten =
        Utf8.encode r.document := by
      rw [r.fields_eq,filter_parts (all_quiet r),r.flatMap_all _ fun _ _ => rfl]
      exact r.xml
    have hread : ∃ s',Reading.fields r.fields {} = .ok s' ∧
        s'.imports = r.entries.flatMap Entry.seenImports ∧
        s'.all = r.entries.flatMap Entry.seenTables := by
      have himports := r.flatMap_all Entry.imports fun _ _ => rfl
      obtain ⟨s',hs',-,hi,ht⟩ := @fields_entries {} [] r.all (all_quiet r) rfl
        (by rw [himports]; exact r.distinct) (by simp)
      refine ⟨s',?_,?_,?_⟩
      · rw [List.append_nil] at hs'
        rw [r.fields_eq,hs']
        rfl
      · rw [hi,r.flatMap_all _ fun _ _ => rfl]
        rfl
      · rw [ht,r.flatMap_all _ fun _ _ => rfl]
        rfl
    obtain ⟨s',hs',hi,ht⟩ := hread
    have hcompact : compactOf platform r.fields = .ok none := by
      have hempty : (r.fields.filter fun field => field.tag = 0x4001) = [] :=
        List.filter_eq_nil_iff.mpr fun f hf => by simpa using hnone 0x4001 (by decide) f hf
      have hflag : (r.fields.find? fun field => field.tag = 0x4000) = none :=
        List.find?_eq_none.mpr fun f hf => by simpa using hnone 0x4000 (by decide) f hf
      rw [compactOf,hempty,hflag]
      rfl
    have hlimit : ¬maxXmlBytes < (Utf8.encode r.document).length := by
      obtain ⟨chain,hencode,hret⟩ := bind_eq_ok h
      have hvalues := encodeFrom_values hencode fun field => field.tag = 0x3c05
      rw [hparts] at hvalues
      obtain rfl := Except.ok.inj hret
      have hfront : chain.length - 2 ≤
          (if r.eclipse = true then chain.drop 2 else [5,2,0,0] ++ chain).length := by
        split
        · rw [List.length_drop]
        · rw [List.length_append]
          omega
      rw [List.length_append,length_trailer] at hlong
      have hmax : maxXmlBytes = 8388608 := rfl
      omega
    change (if (r.fields.any fun field => field.tag = 0x5001) = true then _ else _) = _
    rw [hfast,if_neg Bool.false_ne_true,hfunction]
    dsimp only
    rw [decodeRfcName_bytes]
    dsimp only [bind,Except.bind]
    rw [houtputs]
    dsimp only
    rw [hs']
    dsimp only
    rw [hparts,if_neg hlimit,hcompact]
    dsimp only
    rw [text,Utf8.decode_encode,hi,ht]
    rfl

theorem seen_eq_iff (name : RfcName) :
    name.seen = name.text ↔ ¬(name.bigEndian = true ∧ ∀ c ∈ name.text,c = 48) := by
  have hcondition : name.bigEndian = true ∧ (∀ c ∈ name.text,c = 48) ↔
      (name.bigEndian && name.text.all (· == 48)) = true := by simp
  unfold RfcName.seen
  rw [hcondition]
  split
  · next h => exact ⟨fun heq => absurd heq.symm name.nonempty,fun hnot => absurd h hnot⟩
  · next h => exact ⟨fun _ => h,fun _ => rfl⟩

theorem seenImports_eq (entries : List Entry) : entries.flatMap Entry.seenImports =
    ((entries.flatMap Entry.imports).filter fun i => i.1.seen ≠ []).map fun i => (i.1.seen,i.2) := by
  rw [List.filter_flatMap,List.map_flatMap]
  rfl

theorem imports_iff (is : List (RfcName × Bytes)) :
    ((is.filter fun i => i.1.seen ≠ []).map fun i => (i.1.seen,i.2)) =
      (is.map fun i => (i.1.text,i.2)) ↔ ∀ i ∈ is,i.1.seen = i.1.text := by
  constructor
  · intro h
    have hlength := congrArg List.length h
    rw [List.length_map,List.length_map] at hlength
    have hall := List.length_filter_eq_length_iff.mp hlength
    rw [List.filter_eq_self.mpr hall] at h
    intro i hi
    exact (Prod.mk.inj (List.map_inj_left.mp h i hi)).1
  · intro h
    have hall : (is.filter fun i => i.1.seen ≠ []) = is := by
      refine List.filter_eq_self.mpr fun i hi => decide_eq_true ?_
      rw [h i hi]
      exact i.1.nonempty
    rw [hall]
    exact List.map_congr_left fun i hi => by rw [h i hi]

theorem recovered_iff (r : CutRequest) :
    r.Recovered r.perceived ↔ ∀ name ∈ r.names,name.seen = name.text := by
  have htables : r.perceived.tables = (r.entries.flatMap Entry.tables).map fun t =>
      {name := t.1.seen,id := t.2.1,rowLength := t.2.2.1,rows := t.2.2.2} := by
    rw [List.map_flatMap]
    rfl
  constructor
  · intro h name hname
    rw [CutRequest.names,List.mem_append,List.mem_cons,List.mem_append,List.mem_map,List.mem_map] at hname
    rcases hname with (rfl | hname) | ⟨i,hi,rfl⟩ | ⟨t,ht,rfl⟩
    · exact h.functionName
    · exact List.map_inj_left.mp h.outputs name hname
    · have himports := h.imports
      rw [CutRequest.perceived] at himports
      exact (imports_iff _).mp ((seenImports_eq _).symm.trans himports) i hi
    · have htable := List.map_inj_left.mp (htables.symm.trans h.tables) t ht
      exact congrArg Table.name htable
  · intro h
    have hmem {name : RfcName} (hname : name ∈ r.names) := h name hname
    refine ⟨?_,?_,?_,?_,rfl⟩
    · exact hmem (List.mem_append_left _ List.mem_cons_self)
    · exact List.map_congr_left fun name hname =>
        hmem (List.mem_append_left _ (List.mem_cons_of_mem _ hname))
    · refine (seenImports_eq _).trans ((imports_iff _).mpr fun i hi => hmem ?_)
      exact List.mem_append_right _ (List.mem_append_left _ (List.mem_map_of_mem hi))
    · refine htables.trans (List.map_congr_left fun t ht => ?_)
      have hname : t.1.seen = t.1.text := hmem (List.mem_append_right _
        (List.mem_append_right _ (List.mem_map_of_mem ht)))
      rw [hname]

theorem cut_request_recovered (platform : Platform) {r : CutRequest} {input : Bytes}
    (h : r.bytes = .ok input) :
    (∃ call, decodeRfcRequest platform input = .ok call ∧ r.Recovered call) ↔
      input.length - 8 ≤ 0xffff ∧
        ∀ name ∈ r.names, ¬(name.bigEndian = true ∧ ∀ c ∈ name.text, c = 48) := by
  have hdecode := decodeRfcRequest_bytes platform h
  have hnames : (∀ name ∈ r.names, ¬(name.bigEndian = true ∧ ∀ c ∈ name.text, c = 48)) ↔
      r.Recovered r.perceived := by
    rw [recovered_iff]
    exact forall₂_congr fun name _ => (seen_eq_iff name).symm
  rw [hdecode,hnames]
  by_cases hlong : 0xffff < input.length - 8
  · rw [if_pos hlong]
    constructor
    · rintro ⟨call,hcall,-⟩
      cases hcall
    · rintro ⟨hshort,-⟩
      omega
  · rw [if_neg hlong]
    constructor
    · rintro ⟨call,hcall,hrecovered⟩
      cases hcall
      exact ⟨by omega,hrecovered⟩
    · rintro ⟨-,hrecovered⟩
      exact ⟨r.perceived,rfl,hrecovered⟩

end decoding

section samples

def samplePlatform : Platform := {
  inflateRaw := fun _ => none
  engine := Tunnel.asciiEngine
  newURL := fun _ => none}

def sampleRequest : CutRequest where
  eclipse := true
  start := [4,2,1,5]
  before := [.other 0x0103 [0,0]]
  function := ⟨[0x46,0x30],by decide,by decide,true⟩
  after := [.output ⟨[0x52],by decide,by decide,true⟩,
    .import' ⟨[0x41,0x5f],by decide,by decide,false⟩ [1,2],
    .table ⟨[0x54],by decide,by decide,false⟩ (some [7]) (some [0,0,0,2,0,0,0,1]) [(true,[8,9])],
    .xml [[0x3c,0x41],[0x2f,0x3e]]]
  document := ['<','A','/','>']
  fits := by
    simp only [List.mem_append,List.mem_cons,List.not_mem_nil,or_false]
    rintro e (rfl | rfl | rfl | rfl | rfl)
    · exact (by decide : neutral 0x0103 = true)
    · trivial
    · trivial
    · trivial
    · trivial
  distinct := by decide
  xml := by decide

set_option maxRecDepth 10000 in
theorem cut_request_recovered_sample :
    ∃ input call, sampleRequest.bytes = .ok input ∧ decodeRfcRequest samplePlatform input = .ok call ∧
      sampleRequest.Recovered call := by
  have hbytes : sampleRequest.bytes = .ok (sampleRequest.bytes.toOption.getD []) := rfl
  have hnames : ∀ name ∈ sampleRequest.names,
      ¬(name.bigEndian = true ∧ (name.text.all fun c => c = 48) = true) := by decide +kernel
  obtain ⟨call,hcall,hrecovered⟩ := (cut_request_recovered samplePlatform hbytes).mpr
    ⟨by decide +kernel,fun name hname h => hnames name hname ⟨h.1,by simpa using h.2⟩⟩
  exact ⟨_,call,hbytes,hcall,hrecovered⟩

variable {previous total : Nat} {f : Field} {fields : List Field}

theorem fieldHeader_total (hprevious : previous ≤ 0xffff) (htag : f.tag ≤ 0xffff)
    (hlength : f.value.length ≤ Rfc.maxFieldBytes) :
    ∃ header,Rfc.fieldHeader previous f = .ok header := by
  have hmax : Rfc.maxFieldBytes = 16777216 := rfl
  have h16 (n : Nat) (hn : n ≤ 0xffff) : Rfc.u16 n = .ok (bigEndian 2 n) := if_neg (by omega)
  have h32 : Rfc.u32 f.value.length = .ok (bigEndian 4 f.value.length) := if_neg (by omega)
  unfold Rfc.fieldHeader
  rw [h16 previous hprevious,h16 f.tag htag,h16 0xffff le_rfl,h32]
  dsimp only [bind,Except.bind]
  split
  · rw [h16 f.value.length (by omega)]
    exact ⟨_,rfl⟩
  · exact ⟨_,rfl⟩

theorem encodeFrom_total (hprevious : previous ≤ 0xffff)
    (hfields : ∀ f ∈ fields,f.tag ≤ 0xffff ∧ f.value.length ≤ Rfc.maxFieldBytes)
    (hsum : total + (fields.map fun f => 10 + f.value.length).sum ≤ maxXmlBytes + 65536) :
    ∃ encoded,Rfc.encodeFrom previous total fields = .ok encoded := by
  induction fields generalizing previous total with
  | nil => exact ⟨[],rfl⟩
  | cons f fields ih =>
    obtain ⟨⟨htag,hlength⟩,hrest⟩ := List.forall_mem_cons.mp hfields
    obtain ⟨header,hheader⟩ := fieldHeader_total hprevious htag hlength
    have hten := ((Rfc.fieldHeader_ok hheader).2.2).length
    rw [List.map_cons,List.sum_cons] at hsum
    obtain ⟨rest,hencoded⟩ : ∃ rest,
        Rfc.encodeFrom f.tag (total + header.length + f.value.length) fields = .ok rest :=
      ih htag hrest (by omega)
    rw [Rfc.encodeFrom,if_neg (by omega),if_neg (by omega),hheader]
    dsimp only [bind,Except.bind]
    rw [if_neg (by omega),hencoded]
    exact ⟨_,rfl⟩

theorem length_encode_replicate (n : Nat) : (Utf8.encode (List.replicate n 'a')).length = n := by
  induction n with
  | zero => rfl
  | succ n ih =>
    change (Utf8.encode (List.replicate n 'a')).length + 1 = n + 1
    rw [ih]

def longRequest (n : Nat) : CutRequest where
  eclipse := false
  start := []
  before := []
  function := ⟨[0x46],by decide,by decide,false⟩
  after := [.xml [Utf8.encode (List.replicate n 'a')]]
  document := List.replicate n 'a'
  fits := by
    simp only [List.nil_append,List.mem_singleton]
    rintro e rfl
    trivial
  distinct := List.nodup_nil
  xml := by simp [Entry.parts]

theorem long_request_refused :
    ∃ input, (longRequest 65600).bytes = .ok input ∧
      (Utf8.encode (longRequest 65600).document).length < maxXmlBytes ∧
      ¬∃ call, decodeRfcRequest samplePlatform input = .ok call ∧ (longRequest 65600).Recovered call := by
  have hsize : (Utf8.encode (List.replicate 65600 'a')).length = 65600 := length_encode_replicate _
  generalize hr : longRequest 65600 = r
  have hfields : r.fields = [⟨0x0102,[0x46,0]⟩,⟨0x3c02,[]⟩,
      ⟨0x3c05,Utf8.encode (List.replicate 65600 'a')⟩,⟨0x3c02,[]⟩,⟨0xffff,[]⟩] := by
    rw [← hr]
    rfl
  have hdocument : Utf8.encode r.document = Utf8.encode (List.replicate 65600 'a') := by
    rw [← hr]
    rfl
  have heclipse : r.eclipse = false := by
    rw [← hr]
    rfl
  have hmax : maxXmlBytes = 8388608 := rfl
  have hfield : Rfc.maxFieldBytes = 16777216 := rfl
  generalize Utf8.encode (List.replicate 65600 'a') = v at hsize hfields hdocument
  obtain ⟨chain,hchain⟩ : ∃ chain, encodeRfcFieldChain r.initial r.fields = .ok chain := by
    refine encodeFrom_total ?_ ?_ ?_
    · rw [CutRequest.initial]
      split <;> omega
    · rw [hfields]
      simp [hsize,hfield]
    · rw [hfields]
      simp [hsize,hmax]
  have hvalues := encodeFrom_values hchain fun field => field.tag = 0x3c05
  rw [hfields] at hvalues
  have hlong : 65600 ≤ chain.length := by simpa [hsize] using hvalues
  have hbytes : r.bytes = .ok ([5,2,0,0] ++ chain ++
      CutRequest.trailer (([5,2,0,0] ++ chain).length + 10 - 8)) := by
    rw [CutRequest.bytes,hchain,heclipse]
    rfl
  refine ⟨_,hbytes,?_,?_⟩
  · rw [hdocument,hsize,hmax]
    omega
  · have hrefused := decodeRfcRequest_bytes samplePlatform hbytes
    rw [if_pos (by
      rw [List.length_append,List.length_append,length_trailer]
      omega)] at hrefused
    rintro ⟨call,hcall,-⟩
    rw [hrefused] at hcall
    cases hcall

end samples

end OpenSteamgate.Protocols.Server
