import OpenSteamgate.Zip.Directory

namespace OpenSteamgate.Zip

open LittleEndian

def bytesOf (s : String) : List UInt8 := s.toUTF8.data.toList

structure Written where
  version : List UInt8
  flags : Nat
  method : Nat
  time : List UInt8
  crc : BitVec 32
  compressedSize : Nat
  size : Nat
  attributes : List UInt8
  headerOffset : Nat
  name : String
  extra : List UInt8
  comment : List UInt8
  version_length : version.length = 4
  flags_lt : flags < 65536
  method_eq : method = 0 ∨ method = 8
  time_length : time.length = 4
  compressedSize_lt : compressedSize < 2147483648
  size_lt : size < 2147483648
  attributes_length : attributes.length = 8
  headerOffset_lt : headerOffset < 2147483648
  name_le : (bytesOf name).length ≤ 65535
  extra_le : extra.length ≤ 65535
  comment_le : comment.length ≤ 65535

namespace Written

def entry (e : Written) : Entry where
  name := e.name
  method := e.method
  crc32 := e.crc
  compressedSize := e.compressedSize
  size := e.size
  isDirectory := e.name.toList.getLast? == some '/'
  isEncrypted := e.flags % 2 == 1
  headerOffset := e.headerOffset

def fields (e : Written) : List (List UInt8) :=
  [lcCentral,e.version,littleEndian 2 e.flags,littleEndian 2 e.method,e.time,
    littleEndian 4 e.crc.toNat,littleEndian 4 e.compressedSize,littleEndian 4 e.size,
    littleEndian 2 (bytesOf e.name).length,littleEndian 2 e.extra.length,
    littleEndian 2 e.comment.length,e.attributes,littleEndian 4 e.headerOffset,bytesOf e.name,e.extra,
    e.comment]

def record (e : Written) : List UInt8 := e.fields.flatten

theorem length_record (e : Written) : e.record.length =
    46 + (bytesOf e.name).length + e.extra.length + e.comment.length := by
  simp only [record,fields,List.flatten_cons,List.flatten_nil,List.length_append,
    length_littleEndian,e.version_length,e.time_length,e.attributes_length,lcCentral,List.length_cons,
    List.length_nil]
  omega

end Written

theorem text_bytesOf (s : String) : text (bytesOf s) = s := by
  have hsome : String.fromUTF8? s.toUTF8 = some s := dif_pos s.isValidUTF8
  rw [text,bytesOf]
  exact congrArg (·.getD "") hsome

theorem text_eq {bytes : List UInt8} {s : String} (h : text bytes = s) :
    s = "" ∨ bytesOf s = bytes := by
  rw [text,String.fromUTF8?] at h
  split at h
  · right
    rw [← h]
    rfl
  · exact .inl h.symm

theorem toNat_append_byte {n : Nat} (x : BitVec n) (byte : UInt8) :
    (x ++ byte.toBitVec).toNat = x.toNat * 256 + byte.toNat := by
  have hlt : byte.toBitVec.toNat < 2 ^ 8 := byte.toBitVec.isLt
  rw [BitVec.toNat_append,← Nat.shiftLeft_add_eq_or_of_lt hlt,Nat.shiftLeft_eq]
  rfl

theorem crcOf_littleEndian (c : BitVec 32) : crcOf (littleEndian 4 c.toNat) = c := by
  have hc := c.isLt
  refine BitVec.eq_of_toNat_eq ?_
  have hbyte : ∀ n,(UInt8.ofNat (n % 256)).toNat = n % 256 := fun n => by
    rw [UInt8.toNat_ofNat']
    exact Nat.mod_mod n 256
  simp only [crcOf,littleEndian,List.getD_cons_zero,List.getD_cons_succ]
  rw [toNat_append_byte,toNat_append_byte,toNat_append_byte,UInt8.toNat_toBitVec,hbyte,hbyte,hbyte,hbyte]
  omega

namespace Written

variable (e : Written) {before after : List UInt8}

theorem fieldOffset_eq : fieldOffset e.fields 2 = 8 ∧ fieldOffset e.fields 3 = 10 ∧
    fieldOffset e.fields 5 = 16 ∧ fieldOffset e.fields 6 = 20 ∧ fieldOffset e.fields 7 = 24 ∧
    fieldOffset e.fields 8 = 28 ∧ fieldOffset e.fields 9 = 30 ∧ fieldOffset e.fields 10 = 32 ∧
    fieldOffset e.fields 12 = 42 ∧ fieldOffset e.fields 13 = 46 := by
  simp [fieldOffset,fields,lcCentral,e.version_length,e.time_length,e.attributes_length]

structure StandsAt (e : Written) (cd : List UInt8) (off : Nat) : Prop where
  readable : Readable cd off
  name_in : nameEnd cd off ≤ cd.length
  name_eq : nameEnd cd off = off + 46 + (bytesOf e.name).length
  entry_eq : entryAt cd off = e.entry
  end_eq : entryEnd cd off = off + e.record.length

theorem standsAt : e.StandsAt (before ++ e.record ++ after) before.length := by
  obtain ⟨h2,h3,h5,h6,h7,h8,h9,h10,h12,h13⟩ := e.fieldOffset_eq
  have hcrc_lt := e.crc.isLt
  have hname_le := e.name_le
  have hextra_le := e.extra_le
  have hcomment_le := e.comment_le
  have hmethod_lt : e.method < 256 ^ 2 := by
    rcases e.method_eq with h | h <;> omega
  have hlen := e.length_record
  have hcd : (before ++ e.record ++ after).length = before.length + e.record.length + after.length := by
    rw [List.length_append,List.length_append]
  have hsig := drop_field e.fields before after 0 rfl
  have hflags := word_field e.fields before after 2 e.flags_lt rfl
  have hmethod := word_field e.fields before after 3 hmethod_lt rfl
  have hcrc := drop_field e.fields before after 5 rfl
  have hcomp := word_field e.fields before after 6 (e.compressedSize_lt.trans (by decide)) rfl
  have hsize := word_field e.fields before after 7 (e.size_lt.trans (by decide)) rfl
  have hnlen := word_field e.fields before after 8 (Nat.lt_succ_of_le hname_le) rfl
  have helen := word_field e.fields before after 9 (Nat.lt_succ_of_le hextra_le) rfl
  have hklen := word_field e.fields before after 10 (Nat.lt_succ_of_le hcomment_le) rfl
  have hoffset := word_field e.fields before after 12 (e.headerOffset_lt.trans (by decide)) rfl
  have hname := drop_field e.fields before after 13 rfl
  rw [h2] at hflags
  rw [h3] at hmethod
  rw [h5,length_littleEndian] at hcrc
  rw [h6] at hcomp
  rw [h7] at hsize
  rw [h8] at hnlen
  rw [h9] at helen
  rw [h10] at hklen
  rw [h12] at hoffset
  rw [h13] at hname
  have hrecord : before ++ e.record ++ after = before ++ e.fields.flatten ++ after := rfl
  rw [hrecord] at hcd ⊢
  generalize before ++ e.fields.flatten ++ after = cd at *
  refine ⟨⟨by omega,hsig,?_,?_,?_⟩,?_,?_,?_,?_⟩
  · rw [hcomp]
    exact e.compressedSize_lt
  · rw [hsize]
    exact e.size_lt
  · rw [hoffset]
    exact e.headerOffset_lt
  · rw [nameEnd,hnlen]
    omega
  · rw [nameEnd,hnlen]
  · simp only [entryAt,hflags,hmethod,hcrc,hcomp,hsize,hnlen,hoffset,hname,text_bytesOf,
      crcOf_littleEndian,entry]
  · rw [entryEnd,nameEnd,hnlen,helen,hklen,hlen]
    omega

end Written

theorem readEntry_written (e : Written) {cd : List UInt8} {off : Nat} (h : e.StandsAt cd off)
    (hcd : cd.length < 2147483648) (hend : off + e.record.length < 2147483648) :
    readEntry cd off = .ok (e.entry,off + e.record.length) := by
  have hread : EntryRead cd off (readEntry cd off) := readEntry_spec hcd
  have hin := h.readable.inside
  have hname := h.name_in
  generalize readEntry cd off = answer at hread
  cases hread with
  | far hoff => omega
  | unreadable reason hoff hr => exact (hr h.readable).elim
  | nameFar hr hname => omega
  | nameOutside reason hr _ hnin => exact (hnin hname).elim
  | endFar hr _ _ hfar =>
    rw [h.end_eq] at hfar
    exact (hfar hend).elim
  | listed => rw [h.entry_eq,h.end_eq]

def records (es : List Written) : List UInt8 := (es.map Written.record).flatten

theorem readEntries_written (es : List Written) (count : Nat) (before after : List UInt8)
    (entries : List Entry) (hcd : (before ++ records es ++ after).length < 2147483648) :
    readEntries (before ++ records es ++ after) (es.length + count) before.length entries =
      readEntries (before ++ records es ++ after) count (before.length + (records es).length)
        (entries ++ es.map Written.entry) := by
  induction es generalizing before entries with
  | nil => rw [List.length_nil,Nat.zero_add,records,List.map_nil,List.map_nil,List.append_nil]; rfl
  | cons e es ih =>
    have hsplit : before ++ records (e :: es) ++ after =
        before ++ e.record ++ (records es ++ after) := by
      simp only [records,List.map_cons,List.flatten_cons,List.append_assoc]
    have hshift : before ++ records (e :: es) ++ after =
        before ++ e.record ++ records es ++ after := by
      rw [hsplit,List.append_assoc _ (records es) after]
    have hlen : (records (e :: es)).length = e.record.length + (records es).length := by
      simp only [records,List.map_cons,List.flatten_cons,List.length_append]
    have hstands : e.StandsAt (before ++ records (e :: es) ++ after) before.length := by
      rw [hsplit]
      exact e.standsAt
    have hend : before.length + e.record.length < 2147483648 := by
      simp only [List.length_append,hlen] at hcd
      omega
    rw [List.length_cons,Nat.add_right_comm,readEntries_succ,readEntry_written e hstands hcd hend,
      Checked.ok_bind]
    have hrest := ih (before ++ e.record) (entries ++ [e.entry]) (by rw [← hshift]; exact hcd)
    rw [← hshift,List.length_append] at hrest
    rw [hrest,hlen,List.map_cons,Nat.add_assoc,List.append_assoc entries]
    rfl

def endFields (count cdSize cdOff klen : Nat) : List (List UInt8) :=
  [lcEocd,littleEndian 2 0,littleEndian 2 0,littleEndian 2 count,littleEndian 2 count,
    littleEndian 4 cdSize,littleEndian 4 cdOff,littleEndian 2 klen]

section end_fields

variable (count cdSize cdOff klen : Nat)

theorem length_endFields : (endFields count cdSize cdOff klen).flatten.length = 22 := by
  simp [endFields,lcEocd]

theorem endFields_offset : fieldOffset (endFields count cdSize cdOff klen) 1 = 4 ∧
    fieldOffset (endFields count cdSize cdOff klen) 2 = 6 ∧
    fieldOffset (endFields count cdSize cdOff klen) 4 = 10 ∧
    fieldOffset (endFields count cdSize cdOff klen) 5 = 12 ∧
    fieldOffset (endFields count cdSize cdOff klen) 6 = 16 ∧
    fieldOffset (endFields count cdSize cdOff klen) 7 = 20 := by
  simp [fieldOffset,endFields,lcEocd]

structure EndPlaced (archive : List UInt8) (off count cdSize cdOff : Nat) : Prop where
  endsAt : EndsAt archive off
  disk : word archive (off + 4) 2 = 0
  start : word archive (off + 6) 2 = 0
  count_eq : word archive (off + 10) 2 = count
  cdSize_eq : word archive (off + 12) 4 = cdSize
  cdOff_eq : word archive (off + 16) 4 = cdOff

variable {count cdSize cdOff}

theorem endPlaced (front comment : List UInt8) (hcount : count ≤ 65534)
    (hcomment : comment.length ≤ 65535) (hsize : cdSize < 2147483648) (hoff : cdOff < 2147483648) :
    EndPlaced (front ++ ((endFields count cdSize cdOff comment.length).flatten ++ comment))
      front.length count cdSize cdOff := by
  obtain ⟨h1,h2,h4,h5,h6,h7⟩ := endFields_offset count cdSize cdOff comment.length
  have hlen := length_endFields count cdSize cdOff comment.length
  have hsig := drop_field (endFields count cdSize cdOff comment.length) front comment 0 rfl
  have hdisk := word_field (endFields count cdSize cdOff comment.length) front comment 1
    (show 0 < 256 ^ 2 by decide) rfl
  have hstart := word_field (endFields count cdSize cdOff comment.length) front comment 2
    (show 0 < 256 ^ 2 by decide) rfl
  have hcount' := word_field (endFields count cdSize cdOff comment.length) front comment 4
    (show count < 256 ^ 2 by omega) rfl
  have hsize' := word_field (endFields count cdSize cdOff comment.length) front comment 5
    (show cdSize < 256 ^ 4 by omega) rfl
  have hoff' := word_field (endFields count cdSize cdOff comment.length) front comment 6
    (show cdOff < 256 ^ 4 by omega) rfl
  have hklen := word_field (endFields count cdSize cdOff comment.length) front comment 7
    (show comment.length < 256 ^ 2 by omega) rfl
  rw [h1] at hdisk
  rw [h2] at hstart
  rw [h4] at hcount'
  rw [h5] at hsize'
  rw [h6] at hoff'
  rw [h7] at hklen
  generalize (endFields count cdSize cdOff comment.length).flatten = bytes at *
  have hall : (front ++ bytes ++ comment).length = front.length + 22 + comment.length := by
    rw [List.length_append,List.length_append,hlen]
  rw [← List.append_assoc]
  exact ⟨⟨by omega,hsig,by omega⟩,hdisk,hstart,hcount',hsize',hoff'⟩

end end_fields

structure Layout where
  data : List UInt8
  entries : List Written
  comment : String
  count_le : entries.length ≤ 65534
  comment_le : (bytesOf comment).length ≤ 65535
  short : data.length + (records entries).length + 22 + (bytesOf comment).length < 2147483648

namespace Layout

variable (l : Layout)

def endRecord : List UInt8 := (endFields l.entries.length (records l.entries).length l.data.length
  (bytesOf l.comment).length).flatten

def place : Nat := l.data.length + (records l.entries).length

def archive : List UInt8 := l.data ++ records l.entries ++ (l.endRecord ++ bytesOf l.comment)

theorem length_endRecord : l.endRecord.length = 22 := length_endFields _ _ _ _

theorem length_archive : l.archive.length = l.place + 22 + (bytesOf l.comment).length := by
  simp only [archive,place,List.length_append,l.length_endRecord]
  omega

theorem archive_lt : l.archive.length < 2147483648 := by
  rw [length_archive,place]
  exact l.short

structure Placed (archive : List UInt8) : Prop where
  endsAt : EndsAt archive l.place
  described : Described archive l.place l.place
  count : word archive (l.place + 10) 2 = l.entries.length
  directory : directory archive l.place = records l.entries
  comment : archive.drop (l.place + 22) = bytesOf l.comment

theorem placed : l.Placed l.archive := by
  have hcount_le := l.count_le
  have hshort := l.short
  have hplace : (l.data ++ records l.entries).length = l.place := List.length_append
  have hp : EndPlaced l.archive (l.data ++ records l.entries).length l.entries.length
      (records l.entries).length l.data.length :=
    endPlaced _ _ hcount_le l.comment_le (by omega) (by omega)
  rw [hplace] at hp
  obtain ⟨hends,hdisk,hstart,hcount,hsize,hoff⟩ := hp
  refine ⟨hends,⟨hdisk,hstart,?_,?_,?_,?_⟩,hcount,?_,?_⟩
  · rw [hcount]
    omega
  · rw [hsize]
    omega
  · rw [hoff]
    omega
  · rw [hsize,hoff,place]
  · change (l.archive.drop (word l.archive (l.place + 16) 4)).take
      (word l.archive (l.place + 12) 4) = _
    rw [hoff,hsize,archive,List.append_assoc,List.drop_left,List.take_left]
  · have hfront : (l.data ++ records l.entries ++ l.endRecord).length = l.place + 22 := by
      rw [List.length_append,hplace,length_endRecord]
    rw [archive,← List.append_assoc,← hfront,List.drop_left]

def ReadBack : Prop := ∃ r, create (Source.ofBytes l.archive l.archive_lt) () = .ok r ∧
  r.getEntries = l.entries.map Written.entry ∧ r.getComment = l.comment

theorem endsAt_later (i : Nat) :
    EndsAt l.archive (l.place + i) ↔ EndsAt (l.endRecord ++ bytesOf l.comment) i := by
  have hplace : (l.data ++ records l.entries).length = l.place := List.length_append
  rw [archive,← hplace]
  exact endsAt_append _ _ i

theorem readBack_iff :
    l.ReadBack ↔ ∀ i,0 < i → ¬EndsAt (l.endRecord ++ bytesOf l.comment) i := by
  have hp := l.placed
  have hcreated := create_spec l.archive_lt
  rw [ReadBack]
  constructor
  · rintro ⟨r,hr,-,hcomment⟩ i hi he
    have hlater := (l.endsAt_later i).mpr he
    rw [hr] at hcreated
    generalize hanswer : Except.ok r = answer at hcreated
    cases hcreated with
    | refused reason _ => cases hanswer
    | listed off hl hd =>
      have hoff : l.place + i ≤ off := by
        by_contra hlt
        exact hl.2 _ (by omega) hlater
      have hin := hl.1.inside
      have hlen := l.length_archive
      cases hread : readEntries (directory l.archive off) (word l.archive (off + 10) 2) 0 [] with
      | error e =>
        rw [hread] at hanswer
        cases hanswer
      | ok entries =>
        rw [hread] at hanswer
        obtain rfl := Except.ok.inj hanswer
        have hshorter : (l.archive.drop (off + 22)).length < (bytesOf l.comment).length := by
          rw [List.length_drop]
          omega
        rcases text_eq hcomment with hempty | hsame
        · rw [hempty] at hshorter
          exact absurd hshorter (Nat.not_lt_zero _)
        · rw [hsame] at hshorter
          exact lt_irrefl _ hshorter
  · intro hnone
    have hlast : LastEnd l.archive l.place := by
      refine ⟨hp.endsAt,fun i hlt he => ?_⟩
      obtain ⟨j,rfl⟩ := Nat.exists_eq_add_of_lt hlt
      rw [Nat.add_assoc] at he
      exact hnone (j + 1) (Nat.succ_pos j) ((l.endsAt_later _).mp he)
    generalize create (Source.ofBytes l.archive l.archive_lt) () = answer at hcreated
    cases hcreated with
    | refused reason hrefused => exact (hrefused _ hlast hp.described).elim
    | listed off hl hd =>
      obtain rfl := lastEnd_unique hl hlast
      have hshort := l.short
      have hread := readEntries_written l.entries 0 [] [] [] (by
        simp only [List.nil_append,List.append_nil]
        omega)
      rw [List.nil_append,List.append_nil,Nat.add_zero,List.length_nil,List.nil_append] at hread
      rw [hp.directory,hp.count,hp.comment,hread,text_bytesOf]
      exact ⟨_,rfl,rfl,rfl⟩

end Layout

theorem central_directory_exact (l : Layout) (archive : List UInt8)
    (h : archive.length < 2147483648) :
    (l.ReadBack ↔ ∀ i, 0 < i → ¬EndsAt (l.endRecord ++ bytesOf l.comment) i) ∧
      ((create (Source.ofBytes archive h) ()).Sound ↔ Walkable archive) :=
  ⟨l.readBack_iff,sound_create h⟩

theorem Layout.walkable (l : Layout)
    (hnone : ∀ i, 0 < i → ¬EndsAt (l.endRecord ++ bytesOf l.comment) i) : Walkable l.archive := by
  obtain ⟨r,hr,-⟩ := l.readBack_iff.mpr hnone
  refine (sound_create l.archive_lt).mp ?_
  rw [hr]
  trivial

def fileEntry : Written where
  version := [20,0,20,0]
  flags := 0
  method := 8
  time := [0,0,33,0]
  crc := 0xD8932AAC
  compressedSize := 4
  size := 2
  attributes := List.replicate 8 0
  headerOffset := 0
  name := "dir/a"
  extra := [1,2,3]
  comment := [0x68]
  version_length := rfl
  flags_lt := by decide
  method_eq := .inr rfl
  time_length := rfl
  compressedSize_lt := by decide
  size_lt := by decide
  attributes_length := rfl
  headerOffset_lt := by decide
  name_le := by decide +kernel
  extra_le := by decide
  comment_le := by decide

def directoryEntry : Written :=
  { fileEntry with
    flags := 1
    method := 0
    headerOffset := 39
    name := "dir/"
    flags_lt := by decide
    method_eq := .inl rfl
    headerOffset_lt := by decide
    name_le := by decide +kernel }

def pairLayout : Layout where
  data := List.replicate 73 7
  entries := [fileEntry,directoryEntry]
  comment := "PK"
  count_le := by decide
  comment_le := by decide +kernel
  short := by decide +kernel

theorem central_directory_exact_sample :
    pairLayout.ReadBack ∧ (create (Source.ofBytes pairLayout.archive pairLayout.archive_lt) ()).Sound := by
  have h := central_directory_exact pairLayout pairLayout.archive pairLayout.archive_lt
  have hnone : ∀ i,0 < i → ¬EndsAt (pairLayout.endRecord ++ bytesOf pairLayout.comment) i :=
    fun i hi he => by
      have hin := he.inside
      have hlen : (pairLayout.endRecord ++ bytesOf pairLayout.comment).length = 24 := by
        decide +kernel
      have hle : i = 1 ∨ i = 2 := by omega
      rcases hle with rfl | rfl
      · exact absurd he.signature (by decide +kernel)
      · exact absurd he.signature (by decide +kernel)
  refine ⟨h.1.mpr hnone,?_⟩
  rw [h.2]
  exact pairLayout.walkable hnone

section overflow

def bigEntry : Written where
  version := List.replicate 4 0
  flags := 0
  method := 0
  time := List.replicate 4 0
  crc := 0
  compressedSize := 0
  size := 0
  attributes := List.replicate 8 0
  headerOffset := 0
  name := ""
  extra := List.replicate 65535 0
  comment := List.replicate 65535 0
  version_length := rfl
  flags_lt := by decide
  method_eq := .inl rfl
  time_length := rfl
  compressedSize_lt := by decide
  size_lt := by decide
  attributes_length := rfl
  headerOffset_lt := by decide
  name_le := by decide
  extra_le := List.length_replicate.le
  comment_le := List.length_replicate.le

theorem length_bigEntry : bigEntry.record.length = 131116 := by
  have hname : (bytesOf bigEntry.name).length = 0 := rfl
  have hextra : bigEntry.extra.length = 65535 := List.length_replicate
  have hcomment : bigEntry.comment.length = 65535 := List.length_replicate
  rw [bigEntry.length_record,hname,hextra,hcomment]

theorem length_records_replicate (k : Nat) (e : Written) :
    (records (List.replicate k e)).length = k * e.record.length := by
  rw [records,List.map_replicate,List.length_flatten,List.map_replicate,List.sum_replicate_nat]

def cutDirectory (es : List Written) (e : Written) : List UInt8 :=
  (records es ++ e.record).take ((records es).length + 46)

variable (es : List Written) (e : Written)

theorem length_cutDirectory : (cutDirectory es e).length = (records es).length + 46 := by
  have hlen := e.length_record
  rw [cutDirectory,List.length_take,List.length_append]
  omega

theorem cutDirectory_eq : cutDirectory es e = records es ++ e.record.take 46 := by
  rw [cutDirectory,List.take_length_add_append]

theorem word_cutDirectory {i n : Nat} (h : i + n ≤ 46) :
    word (cutDirectory es e) ((records es).length + i) n =
      word (records es ++ e.record) ((records es).length + i) n := by
  have hslice := word_slice (records es ++ e.record) 0
    (show (records es).length + i + n ≤ (records es).length + 46 by omega)
  rwa [List.drop_zero,Nat.zero_add] at hslice

theorem cutDirectory_entry (hname : bytesOf e.name = []) :
    Readable (cutDirectory es e) (records es).length ∧
      nameEnd (cutDirectory es e) (records es).length = (records es).length + 46 ∧
      entryEnd (cutDirectory es e) (records es).length = (records es).length + e.record.length := by
  have hstands : e.StandsAt (records es ++ e.record ++ []) (records es).length := e.standsAt
  rw [List.append_nil] at hstands
  obtain ⟨hr,-,hname',-,hend⟩ := hstands
  rw [hname,List.length_nil,Nat.add_zero] at hname'
  have hword := fun i n h => word_cutDirectory es e (i := i) (n := n) h
  have hlen := length_cutDirectory es e
  refine ⟨⟨by omega,?_,?_,?_,?_⟩,?_,?_⟩
  · have hsig := hr.signature
    rwa [cutDirectory,List.drop_take,List.take_take,Nat.min_eq_left (by omega)]
  · rw [hword 20 4 (by omega)]
    exact hr.compressedSize
  · rw [hword 24 4 (by omega)]
    exact hr.size
  · rw [hword 42 4 (by omega)]
    exact hr.headerOffset
  · rw [← hname',nameEnd,nameEnd,hword 28 2 (by omega)]
  · rw [← hend,entryEnd,entryEnd,nameEnd,nameEnd,hword 28 2 (by omega),hword 30 2 (by omega),
      hword 32 2 (by omega)]

def cutArchive : List UInt8 :=
  cutDirectory es e ++
    ((endFields (es.length + 1) (cutDirectory es e).length 0 ([] : List UInt8).length).flatten ++ [])

theorem cutArchive_overflows (hname : bytesOf e.name = []) (hcount : es.length + 1 ≤ 65534)
    (hshort : (records es).length + 68 < 2147483648)
    (hfar : 2147483648 ≤ (records es).length + e.record.length) : ¬Walkable (cutArchive es e) := by
  intro hwalk
  have hlen := length_cutDirectory es e
  have hp := endPlaced (cutDirectory es e) [] hcount (by decide)
    (show (cutDirectory es e).length < 2147483648 by omega) (show 0 < 2147483648 by decide)
  change EndPlaced (cutArchive es e) _ _ _ _ at hp
  have hall : (cutArchive es e).length = (cutDirectory es e).length + 22 := by
    rw [cutArchive,List.length_append,List.append_nil,length_endFields]
  have hlast : LastEnd (cutArchive es e) (cutDirectory es e).length := by
    refine ⟨hp.endsAt,fun i hlt hi => ?_⟩
    have := hi.inside
    omega
  have hdescribed : Described (cutArchive es e) (cutDirectory es e).length
      (cutDirectory es e).length := by
    refine ⟨hp.disk,hp.start,?_,?_,?_,?_⟩
    · rw [hp.count_eq]
      omega
    · rw [hp.cdSize_eq]
      omega
    · rw [hp.cdOff_eq]
      decide
    · rw [hp.cdOff_eq,hp.cdSize_eq,Nat.zero_add]
  have hdirectory : directory (cutArchive es e) (cutDirectory es e).length = cutDirectory es e := by
    rw [directory,hp.cdOff_eq,hp.cdSize_eq,List.drop_zero,cutArchive,List.take_left]
  have hfits := hwalk _ hlast hdescribed
  have hcd : (cutDirectory es e).length < 2147483648 := by omega
  rw [hdirectory,hp.count_eq,← sound_readEntries hcd _ []] at hfits
  have hread := readEntries_written es 1 [] (e.record.take 46) [] (by
    rw [List.nil_append,← cutDirectory_eq]
    exact hcd)
  rw [List.nil_append,← cutDirectory_eq,List.length_nil,Nat.zero_add] at hread
  rw [hread,sound_readEntries hcd] at hfits
  obtain ⟨hr,hname_end,hend⟩ := cutDirectory_entry es e hname
  have hclaim := ((hfits.2 hr).2 (by omega)).1
  omega

theorem constructor_overflows : ¬∀ (archive : List UInt8) (h : archive.length < 2147483648),
    (create (Source.ofBytes archive h) ()).Sound := by
  intro hall
  have hlen := length_records_replicate 16378 bigEntry
  rw [length_bigEntry] at hlen
  have hcount : (List.replicate 16378 bigEntry).length = 16378 := List.length_replicate
  have hbig := length_bigEntry
  have hname : bytesOf bigEntry.name = [] := rfl
  generalize List.replicate 16378 bigEntry = es at hlen hcount
  have hcut := length_cutDirectory es bigEntry
  have hshort : (cutArchive es bigEntry).length < 2147483648 := by
    rw [cutArchive,List.length_append,List.append_nil,length_endFields]
    omega
  exact cutArchive_overflows es bigEntry hname (by omega) (by omega) (by omega)
    ((sound_create hshort).mp (hall _ hshort))

end overflow

end OpenSteamgate.Zip
