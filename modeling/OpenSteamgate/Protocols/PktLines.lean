import Mathlib.Data.List.TakeWhile
import OpenSteamgate.Library.Lexeme
import OpenSteamgate.Library.Outcome
import OpenSteamgate.Library.Utf8

namespace OpenSteamgate.Protocols.Git

open Attempts

open Lexeme (strlen)

abbrev Text := List Char

abbrev Bytes := List UInt8

structure Outside (ε : Type) where
  xstring_to_string_utf8 : Bytes → Except ε Text
  blankAt : Option Nat

variable {ε : Type} (o : Outside ε)

def Outside.decoded (data : Bytes) : Checked ε Text :=
  match o.xstring_to_string_utf8 data with
  | .ok text => .ok text
  | .error e => Checked.raise e

def digits : Text := ['0','1','2','3','4','5','6','7','8','9','a','b','c','d','e','f']

def findDigit (c : Char) : Option Nat := if c = ' ' then o.blankAt else digits.idxOf? c

def hexFrom (length : Int) : Text → Int
  | [] => length
  | c :: text =>
    match findDigit o c with
    | none => -1
    | some index => hexFrom (length * 16 + index) text

def hex_to_int (iv_hex : Bytes) : Checked ε Int := do
  let text ← o.decoded iv_hex
  return hexFrom o 0 (text.map Char.toLower)

def int_to_hex (iv_int : Nat) : Text :=
  go 4 iv_int []
where
  go : Nat → Nat → Text → Text
    | 0,_,hex => hex
    | times + 1,rest,hex => go times (rest / 16) (digits.getD (rest % 16) ' ' :: hex)

def until_null (iv_data : Bytes) : Checked ε Bytes :=
  go iv_data.length 0
where
  go : Nat → Nat → Checked ε Bytes
    | 0,_ => .ok iv_data
    | left + 1,at_ => do
      let byte ← Checked.slice iv_data at_ 1
      if byte = [0] then
        if at_ = 0 then return [] else Checked.slice iv_data 0 at_
      else go left (at_ + 1)

def split (text : Text) (separator : Char) : Text × Text :=
  (text.takeWhile (· ≠ separator),(text.dropWhile (· ≠ separator)).drop 1)

structure Ref where
  sha1 : Text
  name : Text

-- in the pattern `#*` the star stands for itself
def isServiceLine (line : Text) : Bool := line = ['*']

def refOf (line : Text) : Option Ref :=
  if isServiceLine line then none
  else
    let line := line.filter (· ≠ '\n')
    let parts := split line '\t'
    let parts := if parts.2 = [] then split line ' ' else parts
    if strlen parts.1 ≠ 40 ∨ parts.2 = [] then none
    else some {sha1 := parts.1,name := (split parts.2 '\t').1}

def parseTurn (iv_data : Bytes) : Nat × List Ref → Checked ε (Turn (Nat × List Ref) (List Ref))
  | (offset,refs) =>
    if offset + 4 ≤ iv_data.length then do
      let hex ← Checked.slice iv_data offset 4
      let length ← hex_to_int o hex
      if length = 0 then return .next (offset + 4,refs)
      else if length < 4 ∨ (iv_data.length : Int) < offset + length then return .done refs
      else do
        let hex ← Checked.slice iv_data offset length.toNat
        let hex ← Checked.slice hex 4 (hex.length - 4)
        let data ← until_null hex
        let line ← o.decoded data
        return .next (offset + length.toNat,refs ++ (refOf line).toList)
    else return .done refs

def parse_refs (iv_data : Bytes) : Option (Checked ε (List Ref)) :=
  loop (parseTurn o iv_data) (iv_data.length + 1) (0,[])

-- `PACK`
def packMark : Bytes := [0x50,0x41,0x43,0x4b]

def packTurn (noPack : ε) (iv_data : Bytes) (offset : Nat) : Checked ε (Turn Nat Bytes) :=
  if offset + 4 ≤ iv_data.length then do
    let hex ← Checked.slice iv_data offset 4
    if hex = packMark then do
      let pack ← Checked.slice iv_data offset (iv_data.length - offset)
      return .done pack
    else do
      let length ← hex_to_int o hex
      if length = 0 then return .next (offset + 4)
      else if length < 4 ∨ (iv_data.length : Int) < offset + length then Checked.raise noPack
      else return .next (offset + length.toNat)
  else Checked.raise noPack

-- `noPack` is the exception 'the answer carries no pack'
def pack_of (noPack : ε) (iv_data : Bytes) : Option (Checked ε Bytes) :=
  loop (packTurn o noPack iv_data) (iv_data.length + 1) 0

section lines

def pktLine (payload : Bytes) : Bytes := Utf8.encode (int_to_hex (payload.length + 4)) ++ payload

def flushPacket : Bytes := Utf8.encode ['0','0','0','0']

inductive Line where
  | flush
  | service (name : Text) (ended : Bool) (after : Option Bytes)
  | ref (r : Ref) (tab ended : Bool) (after : Option Bytes)

def Line.text : Line → Text
  | .flush => []
  | .service name ended _ => '#' :: ' ' :: 's' :: 'e' :: 'r' :: 'v' :: 'i' :: 'c' :: 'e' :: '=' ::
      (name ++ if ended then ['\n'] else [])
  | .ref r tab ended _ =>
    r.sha1 ++ (if tab then '\t' else ' ') :: (r.name ++ if ended then ['\n'] else [])

def afterNull : Option Bytes → Bytes
  | none => []
  | some bytes => 0 :: bytes

def Line.after : Line → Bytes
  | .flush => []
  | .service _ _ after => afterNull after
  | .ref _ _ _ after => afterNull after

def Line.payload (line : Line) : Bytes := Utf8.encode line.text ++ line.after

def Line.bytes : Line → Bytes
  | .flush => flushPacket
  | .service name ended after => pktLine (Line.service name ended after).payload
  | .ref r tab ended after => pktLine (Line.ref r tab ended after).payload

def Line.refs : Line → List Ref
  | .flush => []
  | .service .. => []
  | .ref r _ _ _ => [r]

def Clean (text : Text) : Prop := ∀ c ∈ text,c ≠ ' ' ∧ c ≠ '\t' ∧ c ≠ '\n' ∧ c ≠ '\x00'

def Line.Formed (line : Line) : Prop :=
  line.bytes.length ≤ 65535 ∧
    match line with
    | .flush => True
    | .service name _ _ => ∀ c ∈ name,c ≠ '\t' ∧ c ≠ '\x00'
    | .ref r _ _ _ => strlen r.sha1 = 40 ∧ Clean r.sha1 ∧ r.name ≠ [] ∧ Clean r.name

def frame : Option Bytes → Bytes
  | none => flushPacket
  | some payload => pktLine payload

inductive Framed : Bytes → Prop
  | nil : Framed []
  | flush {front header : Bytes} (h : Framed front) (hlen : header.length = 4)
    (hhex : hex_to_int o header = .ok 0) : Framed (front ++ header)
  | line {front header payload : Bytes} (h : Framed front) (hlen : header.length = 4)
    (hhex : hex_to_int o header = .ok ((payload.length : Int) + 4)) :
    Framed (front ++ (header ++ payload))

end lines

section texts

variable {text : Text} {c : Char}

theorem split_at {front back : Text} {separator : Char} (h : ∀ c ∈ front,c ≠ separator) :
    split (front ++ separator :: back) separator = (front,back) := by
  have hfront : ∀ c ∈ front,decide (c ≠ separator) = true := fun c hc => decide_eq_true (h c hc)
  have hstop : decide (separator ≠ separator) = false := decide_eq_false fun h => h rfl
  rw [split,List.takeWhile_append_of_pos hfront,List.dropWhile_append_of_pos hfront,
    List.takeWhile_cons_of_neg (by rw [hstop]; exact Bool.false_ne_true),
    List.dropWhile_cons_of_neg (by rw [hstop]; exact Bool.false_ne_true),List.append_nil]
  rfl

theorem split_none {separator : Char} (h : ∀ c ∈ text,c ≠ separator) :
    split text separator = (text,[]) := by
  have hall : ∀ c ∈ text,decide (c ≠ separator) = true := fun c hc => decide_eq_true (h c hc)
  rw [split,List.takeWhile_eq_self_iff.mpr hall,List.dropWhile_eq_nil_iff.mpr hall]
  rfl

theorem filter_ended (h : ∀ c ∈ text,c ≠ '\n') (ended : Bool) :
    (text ++ if ended then ['\n'] else []).filter (· ≠ '\n') = text := by
  have hall : text.filter (· ≠ '\n') = text :=
    List.filter_eq_self.mpr fun c hc => decide_eq_true (h c hc)
  rw [List.filter_append,hall]
  cases ended with
  | true => exact List.append_nil text
  | false => exact List.append_nil text

theorem refOf_ref (r : Ref) (tab ended : Bool) (after : Option Bytes) (hlen : strlen r.sha1 = 40)
    (hsha : Clean r.sha1) (hname : r.name ≠ []) (hclean : Clean r.name) :
    refOf (Line.ref r tab ended after).text = some r := by
  have hmark : isServiceLine (Line.ref r tab ended after).text = false := by
    rw [isServiceLine,decide_eq_false_iff_not,Line.text]
    intro heq
    cases hs : r.sha1 with
    | nil =>
      rw [hs] at hlen
      exact absurd hlen (by decide)
    | cons c cs =>
      rw [hs,List.cons_append] at heq
      have hrest := (List.cons.inj heq).2
      simp at hrest
  have hline : (Line.ref r tab ended after).text.filter (· ≠ '\n') =
      r.sha1 ++ (if tab then '\t' else ' ') :: r.name := by
    have hsep : (if tab then '\t' else ' ') ≠ '\n' := by
      cases tab with
      | true => exact Char.ne_of_val_ne (by decide)
      | false => exact Char.ne_of_val_ne (by decide)
    rw [Line.text,List.filter_append,List.filter_cons,if_pos (decide_eq_true hsep),
      filter_ended fun c hc => (hclean c hc).2.2.1,
      List.filter_eq_self.mpr fun c hc => decide_eq_true (hsha c hc).2.2.1]
  have hnametab : split r.name '\t' = (r.name,[]) := split_none fun c hc => (hclean c hc).2.1
  have hparts : (if (split (r.sha1 ++ (if tab then '\t' else ' ') :: r.name) '\t').2 = [] then
        split (r.sha1 ++ (if tab then '\t' else ' ') :: r.name) ' '
      else split (r.sha1 ++ (if tab then '\t' else ' ') :: r.name) '\t') = (r.sha1,r.name) := by
    cases tab with
    | true =>
      rw [if_pos rfl,split_at fun c hc => (hsha c hc).2.1,if_neg hname]
    | false =>
      have hnone : ∀ c ∈ r.sha1 ++ ' ' :: r.name,c ≠ '\t' := by
        intro c hc
        rcases List.mem_append.mp hc with hc | hc
        · exact (hsha c hc).2.1
        rcases List.mem_cons.mp hc with rfl | hc
        · decide
        · exact (hclean c hc).2.1
      rw [if_neg Bool.false_ne_true,split_none hnone,if_pos rfl,split_at fun c hc => (hsha c hc).1]
  rw [refOf,hmark,if_neg Bool.false_ne_true]
  simp only [hline,hparts,hlen,hname,hnametab,ne_eq,not_true_eq_false,or_self,if_false]

theorem refOf_service (name : Text) (ended : Bool) (after : Option Bytes)
    (hname : ∀ c ∈ name,c ≠ '\t') : refOf (Line.service name ended after).text = none := by
  obtain ⟨rest,hrest,hline⟩ : ∃ rest : Text,(∀ c ∈ rest,c ≠ '\t') ∧
      (Line.service name ended after).text.filter (· ≠ '\n') = '#' :: ' ' :: rest := by
    refine ⟨(Line.service name ended after).text.tail.tail.filter (· ≠ '\n'),?_,?_⟩
    · intro c hc
      have hmem := (List.mem_filter.mp hc).1
      simp only [Line.text,List.tail_cons,List.mem_cons,List.mem_append] at hmem
      rcases hmem with rfl | rfl | rfl | rfl | rfl | rfl | rfl | rfl | hmem | hmem
      iterate 8 decide
      · exact hname c hmem
      · cases ended with
        | true => rw [List.mem_singleton.mp hmem]; decide
        | false => exact absurd hmem List.not_mem_nil
    · rfl
  have hnone : ∀ c ∈ ['#',' '] ++ rest,c ≠ '\t' := by
    intro c hc
    rcases List.mem_append.mp hc with hc | hc
    · rcases List.mem_cons.mp hc with rfl | hc
      · decide
      · rw [List.mem_singleton.mp hc]
        decide
    · exact hrest c hc
  have hparts : split ('#' :: ' ' :: rest) ' ' = (['#'],rest) :=
    @split_at ['#'] rest ' ' fun c hc => by rw [List.mem_singleton.mp hc]; decide
  rw [refOf,if_neg (by rw [isServiceLine,decide_eq_true_eq]; exact fun h => nomatch h)]
  simp only [hline]
  rw [show split ('#' :: ' ' :: rest) '\t' = ('#' :: ' ' :: rest,[]) from split_none hnone,if_pos rfl,
    hparts]
  exact if_pos (.inl (show (1 : Nat) ≠ 40 by decide))

end texts

section readings

variable {o} {data front payload bytes : Bytes} {n : Nat}

theorem int_to_hex_eq (n : Nat) : int_to_hex n =
    [digits.getD (n / 16 / 16 / 16 % 16) ' ',digits.getD (n / 16 / 16 % 16) ' ',
      digits.getD (n / 16 % 16) ' ',digits.getD (n % 16) ' '] := rfl

theorem digit_found (h : n < 16) : findDigit o ((digits.getD n ' ').toLower) = some n := by
  have hall : (List.range 16).all (fun n => (digits.getD n ' ').toLower ≠ ' ' &&
      digits.idxOf? ((digits.getD n ' ').toLower) = some n) = true := by decide
  have hn := List.all_eq_true.mp hall n (List.mem_range.mpr h)
  rw [Bool.and_eq_true,decide_eq_true_eq,decide_eq_true_eq] at hn
  rw [findDigit,if_neg hn.1,hn.2]

def Converts (o : Outside ε) : Prop := ∀ text,o.xstring_to_string_utf8 (Utf8.encode text) = .ok text

theorem Converts.decoded (h : Converts o) (text : Text) : o.decoded (Utf8.encode text) = .ok text := by
  rw [Outside.decoded,h text]

theorem hexFrom_cons {c : Char} {i : Nat} (h : findDigit o c = some i) (length : Int) (text : Text) :
    hexFrom o length (c :: text) = hexFrom o (length * 16 + i) text := by
  rw [hexFrom,h]

theorem hex_to_int_int_to_hex (h : Converts o) (hn : n < 65536) :
    hex_to_int o (Utf8.encode (int_to_hex n)) = .ok (n : Int) := by
  rw [hex_to_int,h.decoded,Checked.ok_bind,int_to_hex_eq]
  simp only [List.map_cons,List.map_nil]
  rw [hexFrom_cons (digit_found (Nat.mod_lt _ (by decide))),
    hexFrom_cons (digit_found (Nat.mod_lt _ (by decide))),
    hexFrom_cons (digit_found (Nat.mod_lt _ (by decide))),
    hexFrom_cons (digit_found (Nat.mod_lt _ (by decide))),hexFrom]
  refine congrArg Except.ok ?_
  omega

theorem length_header (n : Nat) : (Utf8.encode (int_to_hex n)).length = 4 := by
  have hall : (List.range 16).all (fun n =>
      (Wtf8.encode (digits.getD n ' ').toNat).length = 1) = true := by decide
  have hone (m : Nat) : (Wtf8.encode (digits.getD (m % 16) ' ').toNat).length = 1 := by
    have hm := List.all_eq_true.mp hall (m % 16) (List.mem_range.mpr (Nat.mod_lt m (by decide)))
    rwa [decide_eq_true_eq] at hm
  rw [int_to_hex_eq,Utf8.encode_cons,Utf8.encode_cons,Utf8.encode_cons,Utf8.encode_cons,Utf8.encode_nil]
  simp only [List.length_append,hone,List.length_nil]

theorem length_pktLine (payload : Bytes) : (pktLine payload).length = payload.length + 4 := by
  rw [pktLine,List.length_append,length_header,Nat.add_comm]

theorem byte_ne_zero (h : n < 256) (hn : 0 < n) : (0 : UInt8) ≠ UInt8.ofNat n := by
  intro heq
  have hzero := Utf8.toNat_byte h
  rw [← heq] at hzero
  exact absurd hzero.symm (Nat.pos_iff_ne_zero.mp hn)

theorem zero_not_mem_encode (hn : 0 < n) (hlimit : n < 1114112) : (0 : UInt8) ∉ Wtf8.encode n := by
  rw [Wtf8.encode]
  split
  · simpa using byte_ne_zero (by omega) hn
  split
  · simp only [List.mem_cons,List.not_mem_nil,or_false,not_or]
    exact ⟨byte_ne_zero (by omega) (by omega),byte_ne_zero (by omega) (by omega)⟩
  split
  · simp only [List.mem_cons,List.not_mem_nil,or_false,not_or]
    exact ⟨byte_ne_zero (by omega) (by omega),byte_ne_zero (by omega) (by omega),
      byte_ne_zero (by omega) (by omega)⟩
  · simp only [List.mem_cons,List.not_mem_nil,or_false,not_or]
    exact ⟨byte_ne_zero (by omega) (by omega),byte_ne_zero (by omega) (by omega),
      byte_ne_zero (by omega) (by omega),byte_ne_zero (by omega) (by omega)⟩

theorem zero_not_mem {text : Text} (h : ∀ c ∈ text,c ≠ '\x00') : (0 : UInt8) ∉ Utf8.encode text := by
  induction text with
  | nil => exact List.not_mem_nil
  | cons c text ih =>
    have hlimit : c.toNat < 1114112 := by
      rcases c.valid with hv | hv
      · exact Nat.lt_trans hv (by decide)
      · exact hv.2
    rw [Utf8.encode_cons,List.mem_append,not_or]
    refine ⟨zero_not_mem_encode ?_ hlimit,ih fun c hc => h c (List.mem_cons_of_mem _ hc)⟩
    refine Nat.pos_of_ne_zero fun hzero => h c List.mem_cons_self ?_
    rw [← Char.ofNat_toNat c,hzero]

theorem until_null_eq (data : Bytes) :
    (until_null data : Checked ε Bytes) = .ok (data.takeWhile (· ≠ 0)) := by
  have hgo (left : Nat) (front rest : Bytes) (hdata : data = front ++ rest)
      (hfront : ∀ b ∈ front,decide (b ≠ 0) = true) (hleft : rest.length = left) :
      (until_null.go data left front.length : Checked ε Bytes) = .ok (data.takeWhile (· ≠ 0)) := by
    induction left generalizing front rest with
    | zero =>
      rw [until_null.go]
      obtain rfl := List.length_eq_zero_iff.mp hleft
      rw [List.append_nil] at hdata
      subst hdata
      rw [List.takeWhile_eq_self_iff.mpr hfront]
    | succ left ih =>
      cases rest with
      | nil => exact absurd hleft (Nat.succ_ne_zero left).symm
      | cons b rest =>
        rw [until_null.go,Checked.slice_ok (by rw [hdata]; simp),Checked.ok_bind]
        have hbyte : (data.drop front.length).take 1 = [b] := by
          rw [hdata,List.drop_left]
          rfl
        rw [hbyte]
        by_cases hb : b = 0
        · rw [if_pos (congrArg (fun b => [b]) hb)]
          have htake : data.takeWhile (· ≠ 0) = front := by
            rw [hdata,List.takeWhile_append_of_pos hfront,hb]
            exact List.append_nil front
          split
          · rename_i hzero
            rw [htake,List.length_eq_zero_iff.mp hzero]
            rfl
          · rw [htake,Checked.slice_ok (by rw [hdata]; simp),hdata,List.drop_zero,List.take_left]
        · rw [if_neg fun h => hb (List.cons.inj h).1]
          have hstep := ih (front ++ [b]) rest (by rw [hdata]; simp) (by
            intro c hc
            rcases List.mem_append.mp hc with hc | hc
            · exact hfront c hc
            · rw [List.mem_singleton.mp hc]
              exact decide_eq_true hb) (Nat.succ.inj hleft)
          rwa [List.length_append] at hstep
  exact hgo data.length [] data rfl nofun rfl

theorem until_null_payload {line : Line} (h : ∀ c ∈ line.text,c ≠ '\x00') :
    (until_null line.payload : Checked ε Bytes) = .ok (Utf8.encode line.text) := by
  have htext : ∀ b ∈ Utf8.encode line.text,decide (b ≠ 0) = true := by
    intro b hb
    exact decide_eq_true fun hzero => zero_not_mem h (hzero ▸ hb)
  have hafter : line.after.takeWhile (fun b => decide (b ≠ 0)) = [] := by
    match line with
    | .flush => rfl
    | .service _ _ none => rfl
    | .service _ _ (some bytes) => rfl
    | .ref _ _ _ none => rfl
    | .ref _ _ _ (some bytes) => rfl
  rw [until_null_eq,Line.payload,List.takeWhile_append_of_pos htext,hafter,List.append_nil]

end readings

section runs

variable {o} {data front back payload : Bytes} {refs : List Ref} {noPack : ε} {fuel offset : Nat}

theorem slice_header {header rest : Bytes} (h : header.length = 4) :
    (Checked.slice (front ++ (header ++ rest)) front.length 4 : Checked ε Bytes) = .ok header := by
  rw [Checked.slice_ok (by simp only [List.length_append]; omega),List.drop_left,List.take_left' h]

theorem flushPacket_eq : flushPacket = Utf8.encode (int_to_hex 0) := rfl

theorem length_flushPacket : flushPacket.length = 4 := length_header 0

theorem parseTurn_flush (h : Converts o) (front back : Bytes) (refs : List Ref) :
    parseTurn o (front ++ (flushPacket ++ back)) (front.length,refs) =
      .ok (.next (front.length + 4,refs)) := by
  have hlen : front.length + 4 ≤ (front ++ (flushPacket ++ back)).length := by
    simp only [List.length_append,length_flushPacket]
    omega
  rw [parseTurn,if_pos hlen,slice_header length_flushPacket,Checked.ok_bind,flushPacket_eq,
    hex_to_int_int_to_hex h (by decide),Checked.ok_bind,if_pos (show ((0 : Nat) : Int) = 0 from rfl)]
  rfl

theorem parseTurn_line (h : Converts o) {line : Line} (hlen : (pktLine line.payload).length ≤ 65535)
    (htext : ∀ c ∈ line.text,c ≠ '\x00') (front back : Bytes) (refs : List Ref) :
    parseTurn o (front ++ (pktLine line.payload ++ back)) (front.length,refs) =
      .ok (.next (front.length + (pktLine line.payload).length,
        refs ++ (refOf line.text).toList)) := by
  have hsize : (front ++ (pktLine line.payload ++ back)).length =
      front.length + (line.payload.length + 4) + back.length := by
    simp only [List.length_append,length_pktLine]
    omega
  have hheader : (Checked.slice (front ++ (pktLine line.payload ++ back)) front.length 4 :
      Checked ε Bytes) = .ok (Utf8.encode (int_to_hex (line.payload.length + 4))) := by
    rw [pktLine,List.append_assoc]
    exact slice_header (length_header _)
  have hwhole : (Checked.slice (front ++ (pktLine line.payload ++ back)) front.length
      (line.payload.length + 4) : Checked ε Bytes) = .ok (pktLine line.payload) := by
    rw [Checked.slice_ok (by omega),List.drop_left,List.take_left' (length_pktLine _)]
  have hrest : (Checked.slice (pktLine line.payload) 4 ((pktLine line.payload).length - 4) :
      Checked ε Bytes) = .ok line.payload := by
    rw [Checked.slice_ok (by rw [length_pktLine]; omega),length_pktLine,Nat.add_sub_cancel,pktLine,
      List.drop_left' (length_header _),List.take_length]
  rw [length_pktLine] at hlen
  rw [parseTurn,if_pos (by omega),hheader,Checked.ok_bind,
    hex_to_int_int_to_hex h (by omega),Checked.ok_bind,if_neg (by omega),if_neg (by omega)]
  rw [Int.toNat_natCast,hwhole,Checked.ok_bind,hrest,Checked.ok_bind,until_null_payload htext,
    Checked.ok_bind,h.decoded,Checked.ok_bind,length_pktLine]
  rfl

theorem Line.Formed.text {line : Line} (h : line.Formed) : ∀ c ∈ line.text,c ≠ '\x00' := by
  have hended (ended : Bool) : ∀ c ∈ if ended then ['\n'] else ([] : Text),c ≠ '\x00' := by
    cases ended with
    | true => intro c hc; rw [List.mem_singleton.mp hc]; decide
    | false => exact nofun
  match line,h with
  | .flush,_ => exact nofun
  | .service name ended after,⟨_,hname⟩ =>
    intro c hc
    simp only [Line.text,List.mem_cons,List.mem_append] at hc
    rcases hc with rfl | rfl | rfl | rfl | rfl | rfl | rfl | rfl | rfl | rfl | hc | hc
    iterate 10 decide
    · exact (hname c hc).2
    · exact hended ended c hc
  | .ref r tab ended after,⟨_,_,hsha,_,hname⟩ =>
    intro c hc
    rw [Line.text] at hc
    rcases List.mem_append.mp hc with hc | hc
    · exact (hsha c hc).2.2.2
    rcases List.mem_cons.mp hc with rfl | hc
    · cases tab with
      | true => exact Char.ne_of_val_ne (by decide)
      | false => exact Char.ne_of_val_ne (by decide)
    rcases List.mem_append.mp hc with hc | hc
    · exact (hname c hc).2.2.2
    · exact hended ended c hc

theorem Line.Formed.turn (hconv : Converts o) {line : Line} (h : line.Formed) (front back : Bytes)
    (refs : List Ref) : parseTurn o (front ++ (line.bytes ++ back)) (front.length,refs) =
      .ok (.next (front.length + line.bytes.length,refs ++ line.refs)) := by
  have htext := h.text
  match line,h with
  | .flush,_ =>
    have hturn := parseTurn_flush hconv front back refs
    rw [Line.bytes,Line.refs,List.append_nil,length_flushPacket]
    exact hturn
  | .service name ended after,⟨hlen,hname⟩ =>
    have hturn := parseTurn_line hconv hlen htext front back refs
    rw [refOf_service name ended after fun c hc => (hname c hc).1] at hturn
    exact hturn
  | .ref r tab ended after,⟨hlen,hsha,hshaclean,hname,hnameclean⟩ =>
    have hturn := parseTurn_line hconv hlen htext front back refs
    rw [refOf_ref r tab ended after hsha hshaclean hname hnameclean] at hturn
    exact hturn

theorem parse_lines (hconv : Converts o) (lines : List Line) (h : ∀ line ∈ lines,line.Formed)
    (front : Bytes) (refs : List Ref) (hfuel : lines.length < fuel) :
    loop (parseTurn o (front ++ lines.flatMap Line.bytes)) fuel (front.length,refs) =
      some (.ok (refs ++ lines.flatMap Line.refs)) := by
  induction lines generalizing front refs fuel with
  | nil =>
    obtain ⟨fuel,rfl⟩ := Nat.exists_eq_add_one_of_ne_zero (Nat.ne_of_gt hfuel)
    refine (loop_done ?_).trans (by rw [List.flatMap_nil,List.append_nil])
    rw [parseTurn,List.flatMap_nil,List.append_nil,if_neg (by omega)]
    rfl
  | cons line lines ih =>
    obtain ⟨fuel,rfl⟩ := Nat.exists_eq_add_one_of_ne_zero (Nat.ne_of_gt (Nat.lt_of_le_of_lt (Nat.zero_le _) hfuel))
    have hturn := (h line List.mem_cons_self).turn hconv front (lines.flatMap Line.bytes) refs
    rw [List.flatMap_cons,List.flatMap_cons,loop_next hturn]
    have hrest := ih (fun l hl => h l (List.mem_cons_of_mem _ hl)) (front ++ line.bytes)
      (refs ++ line.refs) (Nat.lt_of_succ_lt_succ hfuel)
    rwa [List.length_append,List.append_assoc,List.append_assoc] at hrest

theorem length_lines_le (lines : List Line) : lines.length ≤ (lines.flatMap Line.bytes).length := by
  induction lines with
  | nil => exact Nat.le_refl 0
  | cons line lines ih =>
    have hline : 1 ≤ line.bytes.length := by
      match line with
      | .flush => rw [Line.bytes,length_flushPacket]; decide
      | .service .. => rw [Line.bytes,length_pktLine]; omega
      | .ref .. => rw [Line.bytes,length_pktLine]; omega
    rw [List.flatMap_cons,List.length_append,List.length_cons]
    omega

theorem packTurn_flush (h : Converts o) (front back : Bytes) :
    packTurn o noPack (front ++ (flushPacket ++ back)) front.length =
      .ok (.next (front.length + 4)) := by
  have hlen : front.length + 4 ≤ (front ++ (flushPacket ++ back)).length := by
    simp only [List.length_append,length_flushPacket]
    omega
  rw [packTurn,if_pos hlen,slice_header length_flushPacket,Checked.ok_bind,
    if_neg (show flushPacket ≠ packMark by decide),flushPacket_eq,
    hex_to_int_int_to_hex h (by decide),Checked.ok_bind,if_pos (show ((0 : Nat) : Int) = 0 from rfl)]
  rfl

theorem header_ne_mark (n : Nat) : Utf8.encode (int_to_hex n) ≠ packMark := by
  have hall : (List.range 16).all (fun n =>
      (Wtf8.encode (digits.getD n ' ').toNat).head? ≠ some 0x50 &&
      (Wtf8.encode (digits.getD n ' ').toNat).length = 1) = true := by decide
  have hdigit := List.all_eq_true.mp hall (n / 16 / 16 / 16 % 16)
    (List.mem_range.mpr (Nat.mod_lt _ (by decide)))
  rw [Bool.and_eq_true,decide_eq_true_eq,decide_eq_true_eq] at hdigit
  intro heq
  rw [int_to_hex_eq,Utf8.encode_cons] at heq
  cases hfirst : Wtf8.encode (digits.getD (n / 16 / 16 / 16 % 16) ' ').toNat with
  | nil =>
    rw [hfirst] at hdigit
    exact absurd hdigit.2 (by decide)
  | cons b bs =>
    rw [hfirst] at hdigit heq
    rw [packMark,List.cons_append] at heq
    exact hdigit.1 (congrArg some (List.cons.inj heq).1)

theorem packTurn_line (h : Converts o) (hlen : (pktLine payload).length ≤ 65535) (front back : Bytes) :
    packTurn o noPack (front ++ (pktLine payload ++ back)) front.length =
      .ok (.next (front.length + (pktLine payload).length)) := by
  have hsize : (front ++ (pktLine payload ++ back)).length =
      front.length + (payload.length + 4) + back.length := by
    simp only [List.length_append,length_pktLine]
    omega
  have hheader : (Checked.slice (front ++ (pktLine payload ++ back)) front.length 4 :
      Checked ε Bytes) = .ok (Utf8.encode (int_to_hex (payload.length + 4))) := by
    rw [pktLine,List.append_assoc]
    exact slice_header (length_header _)
  rw [length_pktLine] at hlen ⊢
  rw [packTurn,if_pos (by omega),hheader,Checked.ok_bind,if_neg (header_ne_mark _),
    hex_to_int_int_to_hex h (by omega),Checked.ok_bind,if_neg (by omega),if_neg (by omega)]
  rfl

theorem packTurn_mark (rest : Bytes) (front : Bytes) :
    packTurn o noPack (front ++ (packMark ++ rest)) front.length = .ok (.done (packMark ++ rest)) := by
  have hlen : packMark.length = 4 := rfl
  have hsize : (front ++ (packMark ++ rest)).length = front.length + (4 + rest.length) := by
    simp only [List.length_append,hlen]
  rw [packTurn,if_pos (by omega),slice_header hlen,Checked.ok_bind,if_pos rfl,
    Checked.slice_ok (by omega),Checked.ok_bind,List.drop_left,
    List.take_of_length_le (by simp only [List.length_append]; omega)]
  rfl

theorem pack_lines (hconv : Converts o) (lines : List (Option Bytes))
    (h : ∀ line ∈ lines,(frame line).length ≤ 65535) (front rest : Bytes)
    (hfuel : lines.length < fuel) :
    loop (packTurn o noPack (front ++ (lines.flatMap frame ++ (packMark ++ rest)))) fuel
      front.length = some (.ok (packMark ++ rest)) := by
  induction lines generalizing front fuel with
  | nil =>
    obtain ⟨fuel,rfl⟩ := Nat.exists_eq_add_one_of_ne_zero (Nat.ne_of_gt hfuel)
    exact loop_done (packTurn_mark rest front)
  | cons line lines ih =>
    obtain ⟨fuel,rfl⟩ := Nat.exists_eq_add_one_of_ne_zero (Nat.ne_of_gt (Nat.lt_of_le_of_lt (Nat.zero_le _) hfuel))
    have hturn : packTurn o noPack (front ++ (frame line ++
        (lines.flatMap frame ++ (packMark ++ rest)))) front.length =
        .ok (.next (front.length + (frame line).length)) := by
      cases line with
      | none => exact packTurn_flush hconv front _
      | some payload => exact packTurn_line hconv (h _ List.mem_cons_self) front _
    have hrest := ih (fun l hl => h l (List.mem_cons_of_mem _ hl)) (front ++ frame line)
      (Nat.lt_of_succ_lt_succ hfuel)
    rw [List.flatMap_cons,List.append_assoc (frame line),loop_next hturn]
    rwa [List.length_append,List.append_assoc] at hrest

theorem length_frames_le (lines : List (Option Bytes)) :
    lines.length ≤ (lines.flatMap frame).length := by
  induction lines with
  | nil => exact Nat.le_refl 0
  | cons line lines ih =>
    have hline : 1 ≤ (frame line).length := by
      cases line with
      | none => rw [frame,length_flushPacket]; decide
      | some payload => rw [frame,length_pktLine]; omega
    rw [List.flatMap_cons,List.length_append,List.length_cons]
    omega

end runs

section anything

variable {o} {data : Bytes} {noPack : ε}

theorem decoded_sound (data : Bytes) : (o.decoded data).Sound := by
  rw [Outside.decoded]
  split
  · trivial
  · trivial

theorem hex_to_int_sound (data : Bytes) : (hex_to_int o data).Sound :=
  (decoded_sound data).bind fun _ _ => trivial

theorem slice_sound {off len : Nat} (h : off + len ≤ data.length) :
    (Checked.slice data off len : Checked ε Bytes).Sound := by
  rw [Checked.slice_ok h]
  trivial

theorem length_slice {off len : Nat} {part : Bytes}
    (h : (Checked.slice data off len : Checked ε Bytes) = .ok part) :
    off + len ≤ data.length ∧ part = (data.drop off).take len ∧ part.length = len := by
  rw [Checked.slice] at h
  split at h
  · obtain rfl := Except.ok.inj h
    refine ⟨‹_›,rfl,?_⟩
    rw [List.length_take,List.length_drop]
    omega
  · exact nomatch h

theorem parseTurn_sound (data : Bytes) (s : Nat × List Ref) : (parseTurn o data s).Sound := by
  obtain ⟨offset,refs⟩ := s
  rw [parseTurn]
  split
  · rename_i hin
    refine (slice_sound hin).bind fun hex _ => (hex_to_int_sound hex).bind fun length _ => ?_
    split
    · trivial
    split
    · trivial
    · rename_i hshort
      refine (slice_sound (by omega)).bind fun whole hwhole => ?_
      have hlen := (length_slice hwhole).2.2
      refine (slice_sound (by omega)).bind fun rest _ => ?_
      rw [until_null_eq,Checked.ok_bind]
      exact (decoded_sound _).bind fun _ _ => trivial
  · trivial

theorem parseTurn_next {s s' : Nat × List Ref} (h : parseTurn o data s = .ok (.next s')) :
    s.1 + 4 ≤ data.length ∧ s.1 + 4 ≤ s'.1 := by
  obtain ⟨offset,refs⟩ := s
  rw [parseTurn] at h
  split at h
  · rename_i hin
    obtain ⟨hex,_,h⟩ := bind_eq_ok h
    obtain ⟨length,_,h⟩ := bind_eq_ok h
    split at h
    · cases h
      exact ⟨hin,Nat.le_refl _⟩
    split at h
    · exact nomatch Except.ok.inj h
    · obtain ⟨whole,_,h⟩ := bind_eq_ok h
      obtain ⟨rest,_,h⟩ := bind_eq_ok h
      obtain ⟨text,_,h⟩ := bind_eq_ok h
      obtain ⟨line,_,h⟩ := bind_eq_ok h
      cases h
      exact ⟨hin,show offset + 4 ≤ offset + length.toNat by omega⟩
  · exact nomatch Except.ok.inj h

theorem packTurn_cases (noPack : ε) (data : Bytes) (offset : Nat) :
    (∃ e,packTurn o noPack data offset = .error (.raised e)) ∨
    (offset + 4 ≤ data.length ∧ packTurn o noPack data offset = .ok (.done (data.drop offset)) ∧
      packMark <+: data.drop offset) ∨
    (offset + 4 ≤ data.length ∧ packTurn o noPack data offset = .ok (.next (offset + 4)) ∧
      hex_to_int o ((data.drop offset).take 4) = .ok 0) ∨ ∃ n : Nat,offset + (n + 4) ≤ data.length ∧
      packTurn o noPack data offset = .ok (.next (offset + (n + 4))) ∧
      hex_to_int o ((data.drop offset).take 4) = .ok ((n : Int) + 4) := by
  rw [packTurn]
  by_cases hin : offset + 4 ≤ data.length
  · rw [if_pos hin,Checked.slice_ok hin,Checked.ok_bind]
    by_cases hmark : (data.drop offset).take 4 = packMark
    · refine .inr (.inl ⟨hin,?_,?_⟩)
      · rw [if_pos hmark,Checked.slice_ok (by omega),Checked.ok_bind,
          List.take_of_length_le (by rw [List.length_drop])]
        rfl
      · rw [← hmark]
        exact List.take_prefix 4 _
    rw [if_neg hmark]
    cases hlength : hex_to_int o ((data.drop offset).take 4) with
    | error e =>
      have hsound := hex_to_int_sound (o := o) ((data.drop offset).take 4)
      rw [hlength] at hsound
      cases e with
      | raised e => exact .inl ⟨e,rfl⟩
      | overflow => exact hsound.elim
      | range => exact hsound.elim
    | ok length =>
      rw [Checked.ok_bind]
      by_cases hzero : length = 0
      · rw [if_pos hzero,hzero]
        exact .inr (.inr (.inl ⟨hin,rfl,rfl⟩))
      rw [if_neg hzero]
      by_cases hover : length < 4 ∨ (data.length : Int) < offset + length
      · rw [if_pos hover]
        exact .inl ⟨noPack,rfl⟩
      · rw [if_neg hover]
        obtain ⟨n,rfl⟩ : ∃ n : Nat,length = (n : Int) + 4 := ⟨(length - 4).toNat,by omega⟩
        refine .inr (.inr (.inr ⟨n,by omega,?_,rfl⟩))
        rw [show ((n : Int) + 4).toNat = n + 4 by omega]
        rfl
  · rw [if_neg hin]
    exact .inl ⟨noPack,rfl⟩

theorem take_four {offset n : Nat} (data : Bytes) :
    data.take (offset + (4 + n)) =
      data.take offset ++ ((data.drop offset).take 4 ++ ((data.drop offset).drop 4).take n) := by
  rw [List.take_add,List.take_add]

theorem Framed.next {offset : Nat} (h : Framed o (data.take offset))
    (hin : offset + 4 ≤ data.length) (hhex : hex_to_int o ((data.drop offset).take 4) = .ok 0) :
    Framed o (data.take (offset + 4)) := by
  have hlen : ((data.drop offset).take 4).length = 4 := by
    rw [List.length_take,List.length_drop]
    omega
  have hnew := h.flush hlen hhex
  rwa [← List.take_add] at hnew

theorem Framed.after {offset n : Nat} (h : Framed o (data.take offset))
    (hin : offset + (n + 4) ≤ data.length)
    (hhex : hex_to_int o ((data.drop offset).take 4) = .ok ((n : Int) + 4)) :
    Framed o (data.take (offset + (n + 4))) := by
  have hlen : ((data.drop offset).take 4).length = 4 := by
    rw [List.length_take,List.length_drop]
    omega
  have hpayload : (((data.drop offset).drop 4).take n).length = n := by
    rw [List.length_take,List.length_drop,List.length_drop]
    omega
  have hnew := h.line hlen (show hex_to_int o ((data.drop offset).take 4) =
    .ok (((((data.drop offset).drop 4).take n).length : Int) + 4) by rw [hpayload,hhex])
  rwa [← take_four,Nat.add_comm 4] at hnew

theorem parse_refs_ends (data : Bytes) : ∃ r,parse_refs o data = some r ∧ r.Sound := by
  have hless (s s' : Nat × List Ref) (h : parseTurn o data s = .ok (.next s')) :
      data.length - s'.1 < data.length - s.1 := by
    have := parseTurn_next h
    omega
  have hstart : data.length - ((0 : Nat),([] : List Ref)).1 < data.length + 1 :=
    Nat.lt_succ_of_le (Nat.sub_le _ _)
  obtain ⟨r,hr⟩ := loop_ends (fun s : Nat × List Ref => data.length - s.1) hless hstart
  refine ⟨r,hr,loop_rule (fun _ => True) Checked.Sound ?_ (fun _ _ _ _ => trivial)
    (fun _ _ _ _ => trivial) trivial hr⟩
  intro s e _ herror
  have hsound := parseTurn_sound (o := o) data s
  rw [herror] at hsound
  cases e with
  | raised e => trivial
  | overflow => exact hsound
  | range => exact hsound

theorem pack_of_ends (noPack : ε) (data : Bytes) :
    ∃ r,pack_of o noPack data = some r ∧ ((∃ e,r = .error (.raised e)) ∨
        ∃ front pack,r = .ok pack ∧ data = front ++ pack ∧ Framed o front ∧ packMark <+: pack) := by
  have hless (s s' : Nat) (h : packTurn o noPack data s = .ok (.next s')) :
      data.length - s' < data.length - s := by
    rcases packTurn_cases (o := o) noPack data s with
      ⟨e,hturn⟩ | ⟨_,hturn,_⟩ | ⟨hin,hturn,_⟩ | ⟨n,hin,hturn,_⟩
    · rw [hturn] at h
      exact nomatch h
    · rw [hturn] at h
      exact nomatch Except.ok.inj h
    · rw [hturn] at h
      obtain rfl := Turn.next.inj (Except.ok.inj h)
      omega
    · rw [hturn] at h
      obtain rfl := Turn.next.inj (Except.ok.inj h)
      omega
  have hstart : data.length - 0 < data.length + 1 := Nat.lt_succ_of_le (Nat.sub_le _ _)
  obtain ⟨r,hr⟩ := loop_ends (fun s => data.length - s) hless hstart
  refine ⟨r,hr,loop_rule (fun offset => Framed o (data.take offset)) (fun r =>
    (∃ e,r = .error (.raised e)) ∨
      ∃ front pack,r = .ok pack ∧ data = front ++ pack ∧ Framed o front ∧ packMark <+: pack)
    ?_ ?_ ?_ .nil hr⟩
  · intro s e _ herror
    rcases packTurn_cases (o := o) noPack data s with
      ⟨e',hturn⟩ | ⟨_,hturn,_⟩ | ⟨_,hturn,_⟩ | ⟨n,_,hturn,_⟩
    · rw [hturn] at herror
      cases herror
      exact .inl ⟨e',rfl⟩
    all_goals
      rw [hturn] at herror
      exact nomatch herror
  · intro s a hframed hdone
    rcases packTurn_cases (o := o) noPack data s with
      ⟨e',hturn⟩ | ⟨_,hturn,hmark⟩ | ⟨_,hturn,_⟩ | ⟨n,_,hturn,_⟩
    · rw [hturn] at hdone
      exact nomatch hdone
    · rw [hturn] at hdone
      obtain rfl := Turn.done.inj (Except.ok.inj hdone)
      exact .inr ⟨data.take s,_,rfl,(List.take_append_drop s data).symm,hframed,hmark⟩
    all_goals
      rw [hturn] at hdone
      exact nomatch Except.ok.inj hdone
  · intro s s' hframed hnext
    rcases packTurn_cases (o := o) noPack data s with
      ⟨e',hturn⟩ | ⟨_,hturn,_⟩ | ⟨hin,hturn,hhex⟩ | ⟨n,hin,hturn,hhex⟩
    · rw [hturn] at hnext
      exact nomatch hnext
    · rw [hturn] at hnext
      exact nomatch Except.ok.inj hnext
    · rw [hturn] at hnext
      obtain rfl := Turn.next.inj (Except.ok.inj hnext)
      exact hframed.next hin hhex
    · rw [hturn] at hnext
      obtain rfl := Turn.next.inj (Except.ok.inj hnext)
      exact hframed.after hin hhex

end anything

theorem pkt_lines_read_back (o : Outside ε) (noPack : ε) (hconv : Converts o) :
    (∀ lines : List Line,(∀ line ∈ lines,line.Formed) →
      parse_refs o (lines.flatMap Line.bytes) = some (.ok (lines.flatMap Line.refs))) ∧
    (∀ (lines : List (Option Bytes)) (pack : Bytes),(∀ line ∈ lines,(frame line).length ≤ 65535) →
      packMark <+: pack → pack_of o noPack (lines.flatMap frame ++ pack) = some (.ok pack)) ∧
    (∀ n,n ≤ 65535 → hex_to_int o (Utf8.encode (int_to_hex n)) = .ok (n : Int)) ∧
    (∀ data,(∃ r,parse_refs o data = some r ∧ r.Sound) ∧
      ∃ r,pack_of o noPack data = some r ∧ r.Sound ∧
        ((¬∃ front pack,data = front ++ pack ∧ Framed o front ∧ packMark <+: pack) →
          ∃ e,r = .error (.raised e))) := by
  refine ⟨?_,?_,fun n hn => hex_to_int_int_to_hex hconv (Nat.lt_succ_of_le hn),fun data =>
    ⟨parse_refs_ends data,?_⟩⟩
  · intro lines h
    exact parse_lines hconv lines h [] [] (Nat.lt_succ_of_le (length_lines_le lines))
  · rintro lines pack h ⟨rest,rfl⟩
    have hfuel : lines.length < (lines.flatMap frame ++ (packMark ++ rest)).length + 1 := by
      have := length_frames_le lines
      rw [List.length_append]
      omega
    exact pack_lines hconv lines h [] rest hfuel
  · obtain ⟨r,hr,hcases⟩ := pack_of_ends (o := o) noPack data
    rcases hcases with ⟨e,rfl⟩ | ⟨front,pack,rfl,hdata,hframed,hmark⟩
    · exact ⟨_,hr,trivial,fun _ => ⟨e,rfl⟩⟩
    · exact ⟨_,hr,trivial,fun hnone => absurd ⟨front,pack,hdata,hframed,hmark⟩ hnone⟩

theorem pkt_lines_read_back_main :
    parse_refs (ε := Unit) {xstring_to_string_utf8 := fun data => .ok (Utf8.decode data),blankAt := none}
      ([.service ['g'] true none,.flush,.ref ⟨List.replicate 40 'a',['m']⟩ false true (some [109,10]),
        .flush].flatMap Line.bytes) = some (.ok [⟨List.replicate 40 'a',['m']⟩]) := by
  refine (pkt_lines_read_back
    {xstring_to_string_utf8 := fun data => .ok (Utf8.decode data),blankAt := none} ()
    fun text => congrArg Except.ok (Utf8.decode_encode text)).1 _ fun line hline => ?_
  simp only [List.mem_cons,List.not_mem_nil,or_false] at hline
  rcases hline with rfl | rfl | rfl | rfl
  · exact ⟨by decide,fun c hc => by rw [List.mem_singleton.mp hc]; decide⟩
  · exact ⟨by decide,trivial⟩
  · have hlength : strlen (List.replicate 40 'a') = 40 := by decide +kernel
    exact ⟨by decide,hlength,fun c hc => by rw [List.eq_of_mem_replicate hc]; decide,by decide,
      fun c hc => by rw [List.mem_singleton.mp hc]; decide⟩
  · exact ⟨by decide,trivial⟩

end OpenSteamgate.Protocols.Git
