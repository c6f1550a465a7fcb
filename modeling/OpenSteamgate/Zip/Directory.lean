import OpenSteamgate.Zip.Runs

namespace OpenSteamgate.Zip

open LittleEndian

structure EndsAt (data : List UInt8) (off : Nat) : Prop where
  inside : off + 22 ≤ data.length
  signature : (data.drop off).take 4 = lcEocd
  exact_ : off + 22 + word data (off + 20) 2 = data.length

instance (data : List UInt8) (off : Nat) : Decidable (EndsAt data off) :=
  decidable_of_iff (off + 22 ≤ data.length ∧ (data.drop off).take 4 = lcEocd ∧
    off + 22 + word data (off + 20) 2 = data.length)
    ⟨fun h => ⟨h.1,h.2.1,h.2.2⟩,fun h => ⟨h.inside,h.signature,h.exact_⟩⟩

def LastEnd (data : List UInt8) (off : Nat) : Prop :=
  EndsAt data off ∧ ∀ i, off < i → ¬EndsAt data i

structure Described (data : List UInt8) (off limit : Nat) : Prop where
  disk : word data (off + 4) 2 = 0
  start : word data (off + 6) 2 = 0
  count : word data (off + 10) 2 ≠ 65535
  cdSize : word data (off + 12) 4 < 2147483648
  cdOff : word data (off + 16) 4 < 2147483648
  inside : word data (off + 16) 4 + word data (off + 12) 4 ≤ limit

def directory (archive : List UInt8) (off : Nat) : List UInt8 :=
  (archive.drop (word archive (off + 16) 4)).take (word archive (off + 12) 4)

section end_record

variable {data tail : List UInt8} {off : Nat}

theorem endsAt_eq (h : off + 22 ≤ data.length) (hdata : data.length ≤ 65557) :
    endsAt data off = .ok (decide (EndsAt data off)) := by
  have hlen : word data (off + 20) 2 < 65536 := word_lt data (off + 20) 2
  rw [endsAt,Checked.slice_ok (by omega),Checked.ok_bind]
  by_cases hsig : (data.drop off).take 4 = lcEocd
  · rw [if_pos hsig,le_two (by omega) (by omega),Checked.ok_bind,Checked.int_ok (by omega),Checked.ok_bind]
    refine congrArg Except.ok (decide_eq_decide.mpr ⟨fun he => ?_,fun he => he.exact_⟩)
    exact ⟨h,hsig,he⟩
  · rw [if_neg hsig]
    exact congrArg Except.ok (decide_eq_false fun hc => hsig hc.signature).symm

inductive Found (data : List UInt8) (n : Nat) : Result (Option Nat) → Prop
  | none : (∀ i < n, ¬EndsAt data i) → Found data n (.ok none)
  | some (off : Nat) : EndsAt data off → (∀ i < n, off < i → ¬EndsAt data i) →
      Found data n (.ok (some off))

theorem findEnd_spec {n : Nat} (h : n + 21 ≤ data.length) (hdata : data.length ≤ 65557) :
    Found data n (findEnd data n) := by
  induction n with
  | zero => exact .none fun i hi => (Nat.not_lt_zero i hi).elim
  | succ n ih =>
    rw [findEnd,endsAt_eq (by omega) hdata,Checked.ok_bind]
    by_cases he : EndsAt data n
    · rw [decide_eq_true he,if_pos rfl]
      exact .some n he fun i hi hlt => by omega
    · rw [decide_eq_false he,if_neg (by decide)]
      have hrest := ih (by omega)
      generalize findEnd data n = answer at hrest
      have hlast : ∀ i < n + 1,i < n ∨ i = n := fun i hi => by omega
      cases hrest with
      | none hnone =>
        refine .none fun i hi => ?_
        rcases hlast i hi with hlt | rfl
        · exact hnone i hlt
        · exact he
      | some off hoff hmax =>
        refine .some off hoff fun i hi hlt => ?_
        rcases hlast i hi with hlt' | rfl
        · exact hmax i hlt' hlt
        · exact he

inductive EndRead (size : Nat) (tail : List UInt8) : Result EndRecord → Prop
  | none (reason : String) : (∀ i, ¬EndsAt tail i) → EndRead size tail (fail reason)
  | refused (off : Nat) (reason : String) : LastEnd tail off →
      ¬Described tail off (size - tail.length + off) → EndRead size tail (fail reason)
  | found (off : Nat) : LastEnd tail off → Described tail off (size - tail.length + off) →
      EndRead size tail (.ok ⟨word tail (off + 10) 2,word tail (off + 12) 4,word tail (off + 16) 4,
        text (tail.drop (off + 22))⟩)

theorem readEnd_found {size : Nat} (htail : tail.length ≤ 65557) (hsize : tail.length ≤ size)
    (hlimit : size < 2147483648) (hfind : findEnd tail (tail.length - 21) = .ok (some off))
    (hlast : LastEnd tail off) : EndRead size tail (readEnd size tail) := by
  have hin := hlast.1.inside
  have hexact := hlast.1.exact_
  rw [readEnd,hfind,Checked.ok_bind]
  simp only
  rw [le_two (by omega) (by omega),Checked.ok_bind]
  by_cases hdisk : word tail (off + 4) 2 = 0
  swap
  · rw [if_pos hdisk]
    exact .refused off _ hlast fun hd => hdisk hd.disk
  rw [if_neg (not_not.mpr hdisk),le_two (by omega) (by omega),Checked.ok_bind]
  by_cases hstart : word tail (off + 6) 2 = 0
  swap
  · rw [if_pos hstart]
    exact .refused off _ hlast fun hd => hstart hd.start
  rw [if_neg (not_not.mpr hstart),le_two (by omega) (by omega),Checked.ok_bind]
  by_cases hcount : word tail (off + 10) 2 = 65535
  · rw [if_pos hcount]
    exact .refused off _ hlast fun hd => hd.count hcount
  rw [if_neg hcount,le_four (by omega) (by omega)]
  by_cases hcdSize : word tail (off + 12) 4 < 2147483648
  swap
  · rw [if_neg hcdSize]
    exact .refused off _ hlast fun hd => hcdSize hd.cdSize
  rw [if_pos hcdSize,Checked.ok_bind,le_four (by omega) (by omega)]
  by_cases hcdOff : word tail (off + 16) 4 < 2147483648
  swap
  · rw [if_neg hcdOff]
    exact .refused off _ hlast fun hd => hcdOff hd.cdOff
  rw [if_pos hcdOff,Checked.ok_bind,le_two (by omega) (by omega),Checked.ok_bind,
    Checked.int_ok (by omega),Checked.ok_bind,if_neg (by omega),Checked.slice_ok (by omega),
    Checked.ok_bind,Checked.slice_ok (by simp only [List.length_take,List.length_drop]; omega),
    Checked.ok_bind,Checked.int_ok (by omega),Checked.ok_bind]
  split
  · rename_i hout
    exact .refused off _ hlast fun hd => by
      have := hd.inside
      omega
  · rename_i hout
    have hcomment : (((tail.drop off).take (tail.length - off)).drop 22).take
        (word tail (off + 20) 2) = tail.drop (off + 22) := by
      have hall : (tail.drop off).take (tail.length - off) = tail.drop off :=
        List.take_of_length_le (by rw [List.length_drop])
      rw [hall,List.drop_drop]
      exact List.take_of_length_le (by rw [List.length_drop]; omega)
    rw [hcomment]
    exact .found off hlast ⟨hdisk,hstart,hcount,hcdSize,hcdOff,by omega⟩

theorem readEnd_spec {size : Nat} (hlow : 22 ≤ tail.length) (htail : tail.length ≤ 65557)
    (hsize : tail.length ≤ size) (hlimit : size < 2147483648) :
    EndRead size tail (readEnd size tail) := by
  have hfound : Found tail (tail.length - 21) (findEnd tail (tail.length - 21)) :=
    findEnd_spec (by omega) htail
  have hbeyond : ∀ i,¬i < tail.length - 21 → ¬EndsAt tail i := fun i hi he => by
    have := he.inside
    omega
  generalize hfind : findEnd tail (tail.length - 21) = answer at hfound
  cases hfound with
  | none hnone =>
    rw [readEnd,hfind]
    refine .none _ fun i => ?_
    by_cases hi : i < tail.length - 21
    · exact hnone i hi
    · exact hbeyond i hi
  | some off hoff hmax =>
    refine readEnd_found htail hsize hlimit hfind ⟨hoff,fun i hlt => ?_⟩
    by_cases hi : i < tail.length - 21
    · exact hmax i hi hlt
    · exact hbeyond i hi

theorem endsAt_append (front tail : List UInt8) (off : Nat) :
    EndsAt (front ++ tail) (front.length + off) ↔ EndsAt tail off := by
  have hsig : ((front ++ tail).drop (front.length + off)).take 4 = (tail.drop off).take 4 := by
    rw [← List.drop_drop,List.drop_left]
  have hword : word (front ++ tail) (front.length + off + 20) 2 = word tail (off + 20) 2 := by
    rw [Nat.add_assoc,word_append]
  have hlen : (front ++ tail).length = front.length + tail.length := List.length_append
  constructor
  · intro h
    have hin := h.inside
    have hex := h.exact_
    exact ⟨by omega,hsig ▸ h.signature,by omega⟩
  · intro h
    have hin := h.inside
    have hex := h.exact_
    exact ⟨by omega,hsig.trans h.signature,by omega⟩

theorem described_append {front tail : List UInt8} {off : Nat} :
    Described (front ++ tail) (front.length + off) (front.length + off) ↔
      Described tail off (front.length + off) := by
  have hword : ∀ i n,word (front ++ tail) (front.length + off + i) n = word tail (off + i) n :=
    fun i n => by rw [Nat.add_assoc,word_append]
  constructor
  · rintro ⟨h1,h2,h3,h4,h5,h6⟩
    rw [hword] at h1 h2 h3 h4 h5 h6
    rw [hword] at h6
    exact ⟨h1,h2,h3,h4,h5,h6⟩
  · rintro ⟨h1,h2,h3,h4,h5,h6⟩
    refine ⟨?_,?_,?_,?_,?_,?_⟩ <;> rw [hword]
    · exact h1
    · exact h2
    · exact h3
    · exact h4
    · exact h5
    · rw [hword]
      exact h6

theorem EndsAt.near (h : EndsAt data off) : data.length ≤ off + 65557 := by
  have hex := h.exact_
  have hlen : word data (off + 20) 2 < 65536 := word_lt data (off + 20) 2
  omega

theorem lastEnd_unique {off off' : Nat} (h : LastEnd data off) (h' : LastEnd data off') :
    off = off' := by
  rcases Nat.lt_trichotomy off off' with hlt | heq | hlt
  · exact (h.2 off' hlt h'.1).elim
  · exact heq
  · exact (h'.2 off hlt h.1).elim

inductive Created (archive : List UInt8) : Result (Reader Unit) → Prop
  | refused (reason : String) :
      (∀ off, LastEnd archive off → ¬Described archive off off) → Created archive (fail reason)
  | listed (off : Nat) : LastEnd archive off → Described archive off off → Created archive
      ((readEntries (directory archive off) (word archive (off + 10) 2) 0 []).map fun entries =>
        { source := (), entries := entries, comment := text (archive.drop (off + 22)) })

theorem readPiece_ofBytes {archive : List UInt8} (h : archive.length < 2147483648) {pos : Nat}
    (hpos : pos ≤ archive.length) (len : Nat) :
    (Source.ofBytes archive h).readPiece () pos len = (.ok ((archive.drop pos).take len),()) := by
  have hread : (Source.ofBytes archive h).read () pos len =
      (.ok ((archive.drop pos).take len),()) := if_neg (not_lt.mpr hpos)
  rw [Source.readPiece,hread]

theorem create_spec {archive : List UInt8} (h : archive.length < 2147483648) :
    Created archive (create (Source.ofBytes archive h) ()) := by
  have hsize : (Source.ofBytes archive h).readSize () = (.ok archive.length,()) := rfl
  rw [create,readDirectory,hsize]
  simp only
  by_cases hshort : archive.length < 22
  · rw [if_pos hshort]
    refine .refused _ fun off hl _ => ?_
    have := hl.1.inside
    omega
  rw [if_neg hshort]
  generalize htake : (if 65557 < archive.length then 65557 else archive.length) = tailLen
  have hbound : 22 ≤ tailLen ∧ tailLen ≤ 65557 ∧ tailLen ≤ archive.length ∧
      (tailLen = 65557 ∨ tailLen = archive.length) := by
    split at htake <;> omega
  rw [readPiece_ofBytes h (Nat.sub_le _ _)]
  simp only
  have htail : (archive.drop (archive.length - tailLen)).take tailLen =
      archive.drop (archive.length - tailLen) :=
    List.take_of_length_le (by rw [List.length_drop]; omega)
  rw [htail]
  obtain ⟨front,tail,hfront,hdrop,harchive⟩ : ∃ front tail,front.length = archive.length - tailLen ∧
      archive.drop (archive.length - tailLen) = tail ∧ archive = front ++ tail :=
    ⟨archive.take (archive.length - tailLen),_,by rw [List.length_take]; omega,rfl,
      (List.take_append_drop _ _).symm⟩
  have hlen := congrArg List.length harchive
  rw [List.length_append] at hlen
  have hlow : ∀ i,EndsAt archive i → ∃ off,i = front.length + off := fun i hi => by
    have := hi.near
    exact ⟨i - front.length,by omega⟩
  have hends : ∀ off,EndsAt archive (front.length + off) ↔ EndsAt tail off := fun off => by
    rw [harchive]
    exact endsAt_append front tail off
  have hlast : ∀ off,LastEnd tail off → LastEnd archive (front.length + off) := fun off hl => by
    refine ⟨(hends off).mpr hl.1,fun i hlt hi => ?_⟩
    obtain ⟨off',rfl⟩ := hlow i hi
    exact hl.2 off' (by omega) ((hends off').mp hi)
  have hdescribed : ∀ off,Described archive (front.length + off) (front.length + off) ↔
      Described tail off (archive.length - tail.length + off) := fun off => by
    have hshift : archive.length - tail.length = front.length := by omega
    rw [hshift,harchive]
    exact described_append
  rw [hdrop]
  have hread : EndRead archive.length tail (readEnd archive.length tail) :=
    readEnd_spec (by omega) (by omega) (by omega) h
  generalize readEnd archive.length tail = answer at hread
  cases hread with
  | none reason hnone =>
    refine .refused reason fun off hl _ => ?_
    obtain ⟨off',rfl⟩ := hlow off hl.1
    exact hnone off' ((hends off').mp hl.1)
  | refused off reason hl hd =>
    refine .refused reason fun off' hl' hd' => ?_
    obtain rfl := lastEnd_unique hl' (hlast off hl)
    exact hd ((hdescribed off).mp hd')
  | found off hl hd =>
    have hd' := (hdescribed off).mpr hd
    have hinside := hd'.inside
    have hin := (hlast off hl).1.inside
    have hword : ∀ i n,word tail (off + i) n = word archive (front.length + off + i) n :=
      fun i n => by rw [harchive,Nat.add_assoc,word_append]
    have hcomment : tail.drop (off + 22) = archive.drop (front.length + off + 22) := by
      have hleft : (front ++ tail).drop (front.length + (off + 22)) = tail.drop (off + 22) := by
        rw [← List.drop_drop,List.drop_left]
      rw [harchive,Nat.add_assoc,hleft]
    simp only [hword,hcomment]
    rw [readPiece_ofBytes h (by omega)]
    simp only
    have hlisted := Created.listed (front.length + off) (hlast off hl) hd'
    simp only [directory] at hlisted
    generalize readEntries _ _ 0 [] = answer at hlisted ⊢
    cases answer with
    | error e => exact hlisted
    | ok entries => exact hlisted

end end_record

structure Readable (cd : List UInt8) (off : Nat) : Prop where
  inside : off + 46 ≤ cd.length
  signature : (cd.drop off).take 4 = lcCentral
  compressedSize : word cd (off + 20) 4 < 2147483648
  size : word cd (off + 24) 4 < 2147483648
  headerOffset : word cd (off + 42) 4 < 2147483648

def nameEnd (cd : List UInt8) (off : Nat) : Nat := off + 46 + word cd (off + 28) 2

def entryEnd (cd : List UInt8) (off : Nat) : Nat :=
  nameEnd cd off + word cd (off + 30) 2 + word cd (off + 32) 2

def entryAt (cd : List UInt8) (off : Nat) : Entry :=
  let name := text ((cd.drop (off + 46)).take (word cd (off + 28) 2))
  { name := name
    method := word cd (off + 10) 2
    crc32 := crcOf ((cd.drop (off + 16)).take 4)
    compressedSize := word cd (off + 20) 4
    size := word cd (off + 24) 4
    isDirectory := name.toList.getLast? == some '/'
    isEncrypted := word cd (off + 8) 2 % 2 == 1
    headerOffset := word cd (off + 42) 4 }

def Fits (cd : List UInt8) : Nat → Nat → Prop
  | 0, _ => True
  | count + 1, off => off + 46 < 2147483648 ∧ (Readable cd off →
      nameEnd cd off < 2147483648 ∧ (nameEnd cd off ≤ cd.length →
        entryEnd cd off < 2147483648 ∧ Fits cd count (entryEnd cd off)))

section entries

variable {cd : List UInt8} {off : Nat}

inductive EntryRead (cd : List UInt8) (off : Nat) : Result (Entry × Nat) → Prop
  | far : ¬off + 46 < 2147483648 → EntryRead cd off (.error .overflow)
  | unreadable (reason : String) : off + 46 < 2147483648 → ¬Readable cd off →
      EntryRead cd off (fail reason)
  | nameFar : Readable cd off → ¬nameEnd cd off < 2147483648 → EntryRead cd off (.error .overflow)
  | nameOutside (reason : String) : Readable cd off → nameEnd cd off < 2147483648 →
      ¬nameEnd cd off ≤ cd.length → EntryRead cd off (fail reason)
  | endFar : Readable cd off → nameEnd cd off < 2147483648 → nameEnd cd off ≤ cd.length →
      ¬entryEnd cd off < 2147483648 → EntryRead cd off (.error .overflow)
  | listed : Readable cd off → nameEnd cd off < 2147483648 → nameEnd cd off ≤ cd.length →
      entryEnd cd off < 2147483648 → EntryRead cd off (.ok (entryAt cd off,entryEnd cd off))

theorem int_far {n : Nat} (h : ¬n < 2147483648) : (Checked.int n : Result Nat) = .error .overflow :=
  if_neg h

theorem readEntry_spec (hcd : cd.length < 2147483648) : EntryRead cd off (readEntry cd off) := by
  rw [readEntry]
  by_cases hoff : off + 46 < 2147483648
  swap
  · rw [int_far hoff]
    exact .far hoff
  rw [Checked.int_ok hoff,Checked.ok_bind]
  by_cases hin : off + 46 ≤ cd.length
  swap
  · rw [if_pos (by omega)]
    exact .unreadable _ hoff fun hr => hin hr.inside
  rw [if_neg (by omega),Checked.slice_ok (by omega),Checked.ok_bind]
  by_cases hsig : (cd.drop off).take 4 = lcCentral
  swap
  · rw [if_pos hsig]
    exact .unreadable _ hoff fun hr => hsig hr.signature
  rw [if_neg (not_not.mpr hsig),le_two (by omega) hcd,Checked.ok_bind,le_two (by omega) hcd,
    Checked.ok_bind,Checked.slice_ok (by omega),Checked.ok_bind,le_four (by omega) hcd]
  by_cases hcomp : word cd (off + 20) 4 < 2147483648
  swap
  · rw [if_neg hcomp]
    exact .unreadable _ hoff fun hr => hcomp hr.compressedSize
  rw [if_pos hcomp,Checked.ok_bind,le_four (by omega) hcd]
  by_cases hsize : word cd (off + 24) 4 < 2147483648
  swap
  · rw [if_neg hsize]
    exact .unreadable _ hoff fun hr => hsize hr.size
  rw [if_pos hsize,Checked.ok_bind,le_two (by omega) hcd,Checked.ok_bind,le_two (by omega) hcd,
    Checked.ok_bind,le_two (by omega) hcd,Checked.ok_bind,le_four (by omega) hcd]
  by_cases hheader : word cd (off + 42) 4 < 2147483648
  swap
  · rw [if_neg hheader]
    exact .unreadable _ hoff fun hr => hheader hr.headerOffset
  have hr : Readable cd off := ⟨hin,hsig,hcomp,hsize,hheader⟩
  rw [if_pos hheader,Checked.ok_bind]
  change EntryRead cd off (Checked.int (nameEnd cd off) >>= _)
  by_cases hname : nameEnd cd off < 2147483648
  swap
  · rw [int_far hname]
    exact .nameFar hr hname
  rw [Checked.int_ok hname,Checked.ok_bind]
  by_cases hnin : nameEnd cd off ≤ cd.length
  swap
  · rw [if_pos (by omega)]
    exact .nameOutside _ hr hname hnin
  rw [if_neg (by omega),Checked.slice_ok hnin,Checked.ok_bind]
  change EntryRead cd off (Checked.int (nameEnd cd off + word cd (off + 30) 2) >>= _)
  by_cases hend : entryEnd cd off < 2147483648
  · rw [Checked.int_ok ((Nat.le_add_right _ _).trans_lt hend),Checked.ok_bind]
    change EntryRead cd off (Checked.int (entryEnd cd off) >>= _)
    rw [Checked.int_ok hend,Checked.ok_bind]
    exact .listed hr hname hnin hend
  · have hfar := EntryRead.endFar hr hname hnin hend
    by_cases hextra : nameEnd cd off + word cd (off + 30) 2 < 2147483648
    · rw [Checked.int_ok hextra,Checked.ok_bind]
      change EntryRead cd off (Checked.int (entryEnd cd off) >>= _)
      rw [int_far hend]
      exact hfar
    · rw [int_far hextra]
      exact hfar

theorem readEntries_succ (count : Nat) (entries : List Entry) :
    readEntries cd (count + 1) off entries =
      readEntry cd off >>= fun p => readEntries cd count p.2 (entries ++ [p.1]) := rfl

theorem sound_readEntries (hcd : cd.length < 2147483648) (count : Nat) (entries : List Entry) :
    (readEntries cd count off entries).Sound ↔ Fits cd count off := by
  induction count generalizing off entries with
  | zero => exact Iff.rfl
  | succ count ih =>
    rw [readEntries_succ,Fits]
    have hread : EntryRead cd off (readEntry cd off) := readEntry_spec hcd
    generalize readEntry cd off = answer at hread
    cases hread with
    | far hoff => exact ⟨False.elim,fun h => hoff h.1⟩
    | unreadable reason hoff hr => exact ⟨fun _ => ⟨hoff,fun h => (hr h).elim⟩,fun _ => trivial⟩
    | nameFar hr hname => exact ⟨False.elim,fun h => hname (h.2 hr).1⟩
    | nameOutside reason hr hname hnin =>
      exact ⟨fun _ => ⟨hr.inside.trans_lt hcd,fun _ => ⟨hname,fun h => (hnin h).elim⟩⟩,fun _ => trivial⟩
    | endFar hr hname hnin hend => exact ⟨False.elim,fun h => hend ((h.2 hr).2 hnin).1⟩
    | listed hr hname hnin hend =>
      rw [Checked.ok_bind]
      refine (ih (entries ++ [entryAt cd off])).trans ⟨fun h => ?_,fun h => ((h.2 hr).2 hnin).2⟩
      exact ⟨hr.inside.trans_lt hcd,fun _ => ⟨hname,fun _ => ⟨hend,h⟩⟩⟩

end entries

def Walkable (archive : List UInt8) : Prop :=
  ∀ off, LastEnd archive off → Described archive off off →
    Fits (directory archive off) (word archive (off + 10) 2) 0

theorem sound_map {α β : Type} {f : α → β} {answer : Result α} :
    Checked.Sound (answer.map f) ↔ answer.Sound := by
  cases answer with
  | ok a => exact Iff.rfl
  | error e => cases e <;> exact Iff.rfl

theorem sound_create {archive : List UInt8} (h : archive.length < 2147483648) :
    (create (Source.ofBytes archive h) ()).Sound ↔ Walkable archive := by
  have hcreated := create_spec h
  generalize create (Source.ofBytes archive h) () = answer at hcreated
  cases hcreated with
  | refused reason hnone => exact ⟨fun _ off hl hd => (hnone off hl hd).elim,fun _ => trivial⟩
  | listed off hl hd =>
    have hcd : (directory archive off).length < 2147483648 :=
      (List.length_take_le _ _).trans_lt hd.cdSize
    rw [sound_map,sound_readEntries hcd]
    refine ⟨fun hf off' hl' _ => ?_,fun hw => hw off hl hd⟩
    obtain rfl := lastEnd_unique hl' hl
    exact hf

end OpenSteamgate.Zip
