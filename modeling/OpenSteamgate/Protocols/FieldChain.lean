import OpenSteamgate.Library.Outcome
import OpenSteamgate.Library.Endian

namespace OpenSteamgate.Protocols.Rfc

def maxFieldBytes : Nat := 16 * 1024 * 1024

def maxXmlBytes : Nat := 8 * 1024 * 1024

structure Field where
  tag : Nat
  value : List UInt8 := []

inductive ChainError
  | tagRange
  | fieldLimit
  | chainLimit
  | truncatedHeader
  | brokenChain
  | truncatedExtended
  | invalidLength
  | noTerminal
  | outOfRange

def u16 (value : Nat) : Except ChainError (List UInt8) :=
  if 0xffff < value then .error .outOfRange else .ok (bigEndian 2 value)

def u32 (value : Nat) : Except ChainError (List UInt8) :=
  if 0xffffffff < value then .error .outOfRange else .ok (bigEndian 4 value)

def fieldHeader (previous : Nat) (field : Field) : Except ChainError (List UInt8) := do
  let before ← u16 previous
  let tag ← u16 field.tag
  if field.value.length < 0xffff then do
    let length ← u16 field.value.length
    .ok (before ++ tag ++ length)
  else do
    let mark ← u16 0xffff
    let length ← u32 field.value.length
    .ok (before ++ tag ++ mark ++ length)

def encodeFrom : Nat → Nat → List Field → Except ChainError (List UInt8)
  | _,_,[] => .ok []
  | previous,total,field :: fields =>
    if 0xffff < field.tag then .error .tagRange
    else if maxFieldBytes < field.value.length then .error .fieldLimit
    else do
      let header ← fieldHeader previous field
      let total := total + header.length + field.value.length
      if maxXmlBytes + 65536 < total then .error .chainLimit
      else do
        let rest ← encodeFrom field.tag total fields
        .ok (header ++ field.value ++ rest)

def encodeRfcFieldChain (initialPreviousTag : Nat) (fields : List Field) :
    Except ChainError (List UInt8) := encodeFrom initialPreviousTag 0 fields

def readBE (len : Nat) (input : List UInt8) (offset : Nat) : Except ChainError Nat :=
  if offset + len ≤ input.length then .ok (numberBE ((input.drop offset).take len))
  else .error .outOfRange

def fieldLength (input : List UInt8) (offset : Nat) : Except ChainError (Nat × Nat) := do
  let length ← readBE 2 input (offset + 4)
  if length = 0xffff then
    if input.length < offset + 10 then .error .truncatedExtended
    else do
      let length ← readBE 4 input (offset + 6)
      .ok (length,10)
  else .ok (length,6)

def decodeFrom (input : List UInt8) (terminalTag : Nat) :
    Nat → List Field → Nat → Nat → Except ChainError (List Field × Nat)
  | 0,_,_,_ => .error .noTerminal
  | n + 1,fields,previous,offset =>
    if input.length ≤ offset then .error .noTerminal
    else if input.length < offset + 6 then .error .truncatedHeader
    else do
      let claimedPrevious ← readBE 2 input offset
      let tag ← readBE 2 input (offset + 2)
      if claimedPrevious ≠ previous then .error .brokenChain
      else do
        let (length,headerLength) ← fieldLength input offset
        if maxFieldBytes < length ∨ input.length < offset + headerLength + length then
          .error .invalidLength
        else
          let value := (input.drop (offset + headerLength)).take length
          let fields := fields ++ [{tag := tag,value := value}]
          let offset := offset + headerLength + length
          if tag = terminalTag then .ok (fields,offset)
          else decodeFrom input terminalTag n fields tag offset

def decodeRfcFieldChain (data : List UInt8) (initialPreviousTag : Nat) (terminalTag : Nat := 0xffff) :
    Except ChainError (List Field × Nat) :=
  decodeFrom data terminalTag data.length [] initialPreviousTag 0

inductive Header (previous : Nat) (f : Field) : List UInt8 → Prop
  | short : f.value.length < 0xffff →
      Header previous f (bigEndian 2 previous ++ bigEndian 2 f.tag ++ bigEndian 2 f.value.length)
  | extended : f.value.length ≤ 0xffffffff →
      Header previous f (bigEndian 2 previous ++ bigEndian 2 f.tag ++ bigEndian 2 0xffff ++
        bigEndian 4 f.value.length)

inductive Linked : Nat → List Field → List UInt8 → Prop
  | nil (previous : Nat) : Linked previous [] []
  | cons {previous : Nat} {f : Field} {fields : List Field} {header rest : List UInt8} :
      Header previous f header → Linked f.tag fields rest →
      Linked previous (f :: fields) (header ++ f.value ++ rest)

def Terminated (terminalTag : Nat) (fields : List Field) : Prop :=
  ∃ init last,fields = init ++ [last] ∧ last.tag = terminalTag ∧ ∀ f ∈ init,f.tag ≠ terminalTag

variable {previous total terminal offset n len : Nat} {f : Field} {fields done : List Field}
  {header encoded input before after : List UInt8}

theorem u16_ok {value : Nat} (h : u16 value = .ok encoded) :
    value ≤ 0xffff ∧ encoded = bigEndian 2 value := by
  rw [u16] at h
  split at h
  · exact nomatch h
  · exact ⟨by omega,(Except.ok.inj h).symm⟩

theorem fieldHeader_ok (h : fieldHeader previous f = .ok header) :
    previous ≤ 0xffff ∧ f.tag ≤ 0xffff ∧ Header previous f header := by
  obtain ⟨pre,hpre,h⟩ := bind_eq_ok h
  obtain ⟨tag,htagBytes,h⟩ := bind_eq_ok h
  obtain ⟨hprevious,rfl⟩ := u16_ok hpre
  obtain ⟨htag,rfl⟩ := u16_ok htagBytes
  refine ⟨hprevious,htag,?_⟩
  split at h
  · rename_i hshort
    obtain ⟨length,hlength,h⟩ := bind_eq_ok h
    obtain ⟨_,rfl⟩ := u16_ok hlength
    cases h
    exact .short hshort
  · obtain ⟨mark,hmark,h⟩ := bind_eq_ok h
    obtain ⟨_,rfl⟩ := u16_ok hmark
    obtain ⟨length,hlength,h⟩ := bind_eq_ok h
    rw [u32] at hlength
    split at hlength
    · exact nomatch hlength
    · cases hlength
      cases h
      exact .extended (by omega)

theorem readBE_bytes {bytes rest : List UInt8} (h : input.drop offset = bytes ++ rest)
    (hlen : bytes.length = len) (hpos : 0 < len) : readBE len input offset = .ok (numberBE bytes) := by
  have hlength := congrArg List.length h
  rw [List.length_drop,List.length_append] at hlength
  rw [readBE,if_pos (by omega),h,List.take_left' hlen]

theorem readBE_number {value : Nat} {rest : List UInt8} (hvalue : value < 256 ^ len)
    (h : input.drop offset = bigEndian len value ++ rest) (hpos : 0 < len) :
    readBE len input offset = .ok value := by
  rw [readBE_bytes h (BigEndian.length_bigEndian len value) hpos,BigEndian.numberBE_bigEndian hvalue]

theorem drop_more {bytes rest : List UInt8} {k : Nat} (h : input.drop offset = bytes ++ rest)
    (hlen : bytes.length = k) : input.drop (offset + k) = rest := by
  rw [← List.drop_drop,h,List.drop_left' hlen]

theorem Header.length (h : Header previous f header) : 6 ≤ header.length ∧ header.length ≤ 10 := by
  cases h with
  | short _ =>
    simp only [List.length_append,BigEndian.length_bigEndian]
    omega
  | extended _ =>
    simp only [List.length_append,BigEndian.length_bigEndian]
    omega

theorem Header.start (h : Header previous f header) :
    ∃ more,header = bigEndian 2 previous ++ (bigEndian 2 f.tag ++ more) := by
  cases h with
  | short _ => exact ⟨_,List.append_assoc _ _ _⟩
  | extended _ => exact ⟨_,by rw [List.append_assoc,List.append_assoc]⟩

theorem fieldLength_eq {length : Nat} (h : readBE 2 input (offset + 4) = .ok length) :
    fieldLength input offset = if length = 0xffff then
      (if input.length < offset + 10 then .error .truncatedExtended
      else (readBE 4 input (offset + 6)).map (·,10)) else .ok (length,6) := by
  rw [fieldLength,h]
  change (if length = 0xffff then _ else _) = _
  split
  · split
    · rfl
    · cases readBE 4 input (offset + 6) with
      | error e => rfl
      | ok length => rfl
  · rfl

theorem fieldLength_header (h : Header previous f header) {rest : List UInt8}
    (hinput : input.drop offset = header ++ rest) :
    fieldLength input offset = .ok (f.value.length,header.length) := by
  cases h with
  | short hshort =>
    rw [List.append_assoc,List.append_assoc] at hinput
    have htag := drop_more hinput (BigEndian.length_bigEndian 2 _)
    have hlength := drop_more htag (BigEndian.length_bigEndian 2 _)
    have hread := readBE_number (by omega) hlength (by decide)
    rw [fieldLength_eq hread,if_neg (by omega)]
    simp only [List.length_append,BigEndian.length_bigEndian]
  | extended hlong =>
    rw [List.append_assoc,List.append_assoc,List.append_assoc] at hinput
    have htag := drop_more hinput (BigEndian.length_bigEndian 2 _)
    have hmark := drop_more htag (BigEndian.length_bigEndian 2 _)
    have hlength := drop_more hmark (BigEndian.length_bigEndian 2 _)
    have hread := readBE_number (by decide) hmark (by decide)
    have hread' := readBE_number (by omega) hlength (by decide)
    have hroom := congrArg List.length hlength
    rw [List.length_drop,List.length_append,BigEndian.length_bigEndian] at hroom
    rw [fieldLength_eq hread,if_pos rfl,if_neg (by omega),hread',Except.map]
    simp only [List.length_append,BigEndian.length_bigEndian]

theorem decodeFrom_field (hprevious : previous ≤ 0xffff) (htag : f.tag ≤ 0xffff)
    (hlimit : f.value.length ≤ maxFieldBytes) (h : Header previous f header)
    {rest : List UInt8} (hinput : input.drop offset = header ++ f.value ++ rest) :
    decodeFrom input terminal (n + 1) done previous offset =
      if f.tag = terminal then .ok (done ++ [f],offset + header.length + f.value.length)
      else decodeFrom input terminal n (done ++ [f]) f.tag
        (offset + header.length + f.value.length) := by
  have hlength := congrArg List.length hinput
  rw [List.length_drop,List.length_append,List.length_append] at hlength
  have hsix := h.length
  rw [List.append_assoc] at hinput
  obtain ⟨more,hmore⟩ := h.start
  have hfirst := hinput
  rw [hmore,List.append_assoc,List.append_assoc] at hfirst
  have hread := readBE_number (by omega) hfirst (by decide)
  have hread' := readBE_number (by omega) (drop_more hfirst (BigEndian.length_bigEndian 2 _))
    (by decide)
  have hvalue := drop_more hinput rfl
  rw [decodeFrom,if_neg (by omega),if_neg (by omega),hread,hread',fieldLength_header h hinput]
  change (if previous ≠ previous then _ else if _ then _ else _) = _
  rw [if_neg (not_not.mpr rfl),if_neg (by omega),hvalue,List.take_left' rfl]

theorem terminated_cons (h : Terminated terminal (f :: fields)) :
    (f.tag = terminal ∧ fields = []) ∨ (f.tag ≠ terminal ∧ Terminated terminal fields) := by
  obtain ⟨init,last,hfields,hlast,hinit⟩ := h
  cases init with
  | nil =>
    rw [List.nil_append,List.cons.injEq] at hfields
    obtain ⟨rfl,hnil⟩ := hfields
    exact .inl ⟨hlast,hnil⟩
  | cons g init =>
    rw [List.cons_append,List.cons.injEq] at hfields
    obtain ⟨rfl,hrest⟩ := hfields
    obtain ⟨hg,hinit⟩ := List.forall_mem_cons.mp hinit
    exact .inr ⟨hg,init,last,hrest,hlast,hinit⟩

theorem encodeFrom_cons (h : encodeFrom previous total (f :: fields) = .ok encoded) :
    ∃ header total' rest,previous ≤ 0xffff ∧ f.tag ≤ 0xffff ∧ f.value.length ≤ maxFieldBytes ∧
      Header previous f header ∧ encodeFrom f.tag total' fields = .ok rest ∧
      encoded = header ++ f.value ++ rest := by
  rw [encodeFrom] at h
  split at h
  · exact nomatch h
  split at h
  · exact nomatch h
  obtain ⟨header,hheader,h⟩ := bind_eq_ok h
  obtain ⟨hprevious,htag,hheader⟩ := fieldHeader_ok hheader
  simp only at h
  split at h
  · exact nomatch h
  obtain ⟨rest,hrest,h⟩ := bind_eq_ok h
  cases h
  exact ⟨header,_,rest,hprevious,htag,by omega,hheader,hrest,rfl⟩

theorem encodeFrom_length (h : encodeFrom previous total fields = .ok encoded) :
    fields.length ≤ encoded.length := by
  induction fields generalizing previous total encoded with
  | nil => exact Nat.zero_le _
  | cons f fields ih =>
    obtain ⟨header,total',rest,_,_,_,hheader,hrest,rfl⟩ := encodeFrom_cons h
    have hsix := hheader.length
    have := ih hrest
    rw [List.length_cons,List.length_append,List.length_append]
    omega

theorem decodeFrom_encode (h : encodeFrom previous total fields = .ok encoded)
    (hterm : Terminated terminal fields) (hinput : input.drop offset = encoded ++ after)
    (hn : fields.length ≤ n) : decodeFrom input terminal n done previous offset =
      .ok (done ++ fields,offset + encoded.length) := by
  induction fields generalizing previous total encoded offset n done with
  | nil =>
    obtain ⟨init,last,hfields,_⟩ := hterm
    exact absurd hfields.symm (List.append_ne_nil_of_right_ne_nil _ (List.cons_ne_nil _ _))
  | cons f fields ih =>
    obtain ⟨header,total',rest,hprevious,htag,hlimit,hheader,hrest,rfl⟩ := encodeFrom_cons h
    obtain ⟨n,rfl⟩ := Nat.exists_eq_add_of_le' hn
    rw [List.append_assoc] at hinput
    rw [List.length_cons,← Nat.add_assoc,decodeFrom_field hprevious htag hlimit hheader hinput]
    rcases terminated_cons hterm with ⟨hlast,rfl⟩ | ⟨hmore,hterm⟩
    · cases hrest
      rw [if_pos hlast,List.append_nil,List.length_append,Nat.add_assoc]
    · have hdrop := drop_more hinput rfl
      rw [List.length_append,← Nat.add_assoc] at hdrop
      rw [if_neg hmore,ih hrest hterm hdrop (Nat.le_add_left _ _),List.append_assoc,
        List.length_append,List.length_append]
      simp only [List.singleton_append,Nat.add_assoc]

theorem readBE_ok {value : Nat} (h : readBE len input offset = .ok value) :
    input.drop offset = bigEndian len value ++ input.drop (offset + len) ∧ value < 256 ^ len := by
  rw [readBE] at h
  split at h
  · rename_i hroom
    cases h
    have hlength : ((input.drop offset).take len).length = len := by
      rw [List.length_take,List.length_drop]
      omega
    refine ⟨?_,?_⟩
    · rw [BigEndian.bigEndian_numberBE hlength,← List.drop_drop,List.take_append_drop]
    · exact Nat.lt_of_lt_of_eq (BigEndian.numberBE_lt _) (by rw [hlength])
  · exact nomatch h

theorem fieldLength_ok {length headerLength : Nat}
    (h : fieldLength input offset = .ok (length,headerLength)) :
    (length < 0xffff ∧ headerLength = 6 ∧
      input.drop (offset + 4) = bigEndian 2 length ++ input.drop (offset + 6)) ∨
    (length ≤ 0xffffffff ∧ headerLength = 10 ∧ input.drop (offset + 4) =
      bigEndian 2 0xffff ++ (bigEndian 4 length ++ input.drop (offset + 10))) := by
  obtain ⟨mark,hmark,_⟩ := bind_eq_ok h
  obtain ⟨hdrop,hlt⟩ := readBE_ok hmark
  rw [fieldLength_eq hmark] at h
  split at h
  · rename_i hsentinel
    subst hsentinel
    split at h
    · exact nomatch h
    · cases hread : readBE 4 input (offset + 6) with
      | error e => rw [hread] at h; exact nomatch h
      | ok value =>
        obtain ⟨hdrop',hlt'⟩ := readBE_ok hread
        rw [hread] at h
        cases h
        refine .inr ⟨by omega,rfl,?_⟩
        rw [hdrop,hdrop']
  · cases h
    exact .inl ⟨by omega,rfl,hdrop⟩

theorem decodeFrom_inv {r : List Field × Nat}
    (h : decodeFrom input terminal (n + 1) done previous offset = .ok r) :
    ∃ f header rest,input.drop offset = header ++ f.value ++ rest ∧ Header previous f header ∧
      previous ≤ 0xffff ∧ f.tag ≤ 0xffff ∧ f.value.length ≤ maxFieldBytes := by
  rw [decodeFrom] at h
  split at h
  · exact nomatch h
  split at h
  · exact nomatch h
  obtain ⟨claimed,hclaimed,h⟩ := bind_eq_ok h
  obtain ⟨tag,htag,h⟩ := bind_eq_ok h
  obtain ⟨hdrop,hlt⟩ := readBE_ok hclaimed
  obtain ⟨hdrop',hlt'⟩ := readBE_ok htag
  by_cases hsame : claimed = previous
  swap
  · rw [if_pos hsame] at h
    exact nomatch h
  subst hsame
  rw [if_neg (not_not.mpr rfl)] at h
  obtain ⟨⟨length,headerLength⟩,hlength,h⟩ := bind_eq_ok h
  by_cases hroom : maxFieldBytes < length ∨ input.length < offset + headerLength + length
  · simp only [hroom,if_true] at h
    exact nomatch h
  have hvalue : ((input.drop (offset + headerLength)).take length).length = length := by
    rw [List.length_take,List.length_drop]
    omega
  have hsplit : input.drop (offset + headerLength) = (input.drop (offset + headerLength)).take length ++
        input.drop (offset + headerLength + length) := by
    rw [← List.drop_drop (i := length),List.take_append_drop]
  refine ⟨⟨tag,(input.drop (offset + headerLength)).take length⟩,?_⟩
  rcases fieldLength_ok hlength with ⟨hshort,rfl,hrest⟩ | ⟨hlong,rfl,hrest⟩
  · have hheader : Header claimed ⟨tag,(input.drop (offset + 6)).take length⟩ _ :=
      .short (by rw [hvalue]; exact hshort)
    refine ⟨_,input.drop (offset + 6 + length),?_,hheader,by omega,
      by change tag ≤ _; omega,by rw [hvalue]; omega⟩
    rw [hdrop,hdrop',hrest,hvalue]
    simp only [List.append_assoc]
    rw [← hsplit]
  · have hheader : Header claimed ⟨tag,(input.drop (offset + 10)).take length⟩ _ :=
      .extended (by rw [hvalue]; exact hlong)
    refine ⟨_,input.drop (offset + 10 + length),?_,hheader,by omega,
      by change tag ≤ _; omega,by rw [hvalue]; omega⟩
    rw [hdrop,hdrop',hrest,hvalue]
    simp only [List.append_assoc]
    rw [← hsplit]

theorem decodeFrom_linked {out : List Field} {consumed : Nat}
    (h : decodeFrom input terminal n done previous offset = .ok (out,consumed)) :
    ∃ fields bytes,out = done ++ fields ∧ consumed = offset + bytes.length ∧
      bytes <+: input.drop offset ∧ Linked previous fields bytes ∧ Terminated terminal fields := by
  induction n generalizing done previous offset with
  | zero => exact nomatch h
  | succ n ih =>
    obtain ⟨f,header,rest,hinput,hheader,hprevious,htag,hlimit⟩ := decodeFrom_inv h
    rw [decodeFrom_field hprevious htag hlimit hheader hinput] at h
    split at h
    · rename_i hlast
      cases h
      refine ⟨[f],header ++ f.value ++ [],rfl,?_,?_,.cons hheader (.nil _),
        [],f,rfl,hlast,List.forall_mem_nil _⟩
      · rw [List.append_nil,List.length_append,Nat.add_assoc]
      · rw [hinput,List.append_nil]
        exact List.prefix_append _ _
    · rename_i hmore
      obtain ⟨fields,bytes,rfl,rfl,hbytes,hlinked,init,last,rfl,hlast,hinit⟩ := ih h
      refine ⟨f :: (init ++ [last]),header ++ f.value ++ bytes,?_,?_,?_,.cons hheader hlinked,
        f :: init,last,rfl,hlast,List.forall_mem_cons.mpr ⟨hmore,hinit⟩⟩
      · rw [List.append_assoc,List.singleton_append]
      · simp only [List.length_append,Nat.add_assoc]
      · have hdrop := drop_more hinput rfl
        rw [List.length_append,← Nat.add_assoc] at hdrop
        rw [hdrop] at hbytes
        rw [hinput]
        exact (List.prefix_append_right_inj _).mpr hbytes

theorem readBE_in (len : Nat) (h : offset + len ≤ input.length) :
    ∃ value,readBE len input offset = .ok value := ⟨_,if_pos h⟩

theorem fieldLength_within (h : ¬input.length < offset + 6) :
    fieldLength input offset ≠ .error .outOfRange := by
  obtain ⟨mark,hmark⟩ : ∃ mark,readBE 2 input (offset + 4) = .ok mark := readBE_in 2 (by omega)
  rw [fieldLength_eq hmark]
  split
  · split
    · exact nofun
    · obtain ⟨length,hlength⟩ : ∃ length,readBE 4 input (offset + 6) = .ok length :=
        readBE_in 4 (by omega)
      rw [hlength]
      exact nofun
  · exact nofun

theorem decodeFrom_within : decodeFrom input terminal n done previous offset ≠
    .error .outOfRange := by
  induction n generalizing done previous offset with
  | zero => exact nofun
  | succ n ih =>
    rw [decodeFrom]
    split
    · exact nofun
    split
    · exact nofun
    rename_i hsix
    obtain ⟨claimed,hclaimed⟩ : ∃ claimed,readBE 2 input offset = .ok claimed := readBE_in 2 (by omega)
    obtain ⟨tag,htag⟩ : ∃ tag,readBE 2 input (offset + 2) = .ok tag := readBE_in 2 (by omega)
    rw [hclaimed,htag]
    change (if claimed ≠ previous then _ else _) ≠ _
    split
    · exact nofun
    have hlength := fieldLength_within hsix
    cases hfield : fieldLength input offset with
    | error e =>
      rw [hfield] at hlength
      exact fun h => hlength (congrArg Except.error (Except.error.inj h))
    | ok r =>
      change (if _ then _ else if _ then _ else _) ≠ _
      split
      · exact nofun
      split
      · exact nofun
      · exact ih

theorem field_chain_exact (previous terminal : Nat) :
    (∀ fields encoded trailing,Terminated terminal fields →
      encodeRfcFieldChain previous fields = .ok encoded →
      decodeRfcFieldChain (encoded ++ trailing) previous terminal = .ok (fields,encoded.length)) ∧
    ∀ input,decodeRfcFieldChain input previous terminal ≠ .error .outOfRange ∧
      ∀ fields consumed,decodeRfcFieldChain input previous terminal = .ok (fields,consumed) →
        consumed ≤ input.length ∧ Linked previous fields (input.take consumed) ∧
        Terminated terminal fields := by
  refine ⟨fun fields encoded trailing hterm hencode => ?_,fun input => ⟨decodeFrom_within,?_⟩⟩
  · have hlength := encodeFrom_length hencode
    have hdecode : decodeFrom (encoded ++ trailing) terminal (encoded ++ trailing).length [] previous 0 =
        .ok ([] ++ fields,0 + encoded.length) :=
      decodeFrom_encode hencode hterm rfl (by rw [List.length_append]; omega)
    rw [Nat.zero_add] at hdecode
    exact hdecode
  · intro fields consumed h
    obtain ⟨more,bytes,hmore,hconsumed,hbytes,hlinked,hterm⟩ := decodeFrom_linked h
    rw [List.nil_append] at hmore
    rw [Nat.zero_add] at hconsumed
    rw [List.drop_zero] at hbytes
    subst hmore hconsumed
    rw [List.prefix_iff_eq_take.mp hbytes] at hlinked
    exact ⟨hbytes.length_le,hlinked,hterm⟩

end OpenSteamgate.Protocols.Rfc
