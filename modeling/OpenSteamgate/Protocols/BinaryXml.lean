import OpenSteamgate.Protocols.Bxml

namespace OpenSteamgate.Protocols.Bxml

def scalarLimit : Nat := 2097152

mutual

def Node.nodes : Node → List Node
  | ⟨name,attrs,text,body,children⟩ => ⟨name,attrs,text,body,children⟩ :: nodesOf children

def nodesOf : List Node → List Node
  | [] => []
  | node :: nodes => node.nodes ++ nodesOf nodes

end

def Node.strings (node : Node) : List Text :=
  node.name :: node.attrs.flatMap (fun attr => [attr.1,attr.2]) ++ node.text.toList

def Node.Single (node : Node) : Prop := ∀ m ∈ node.nodes,m.text = none ∨ m.body = none

def Node.Short (node : Node) : Prop :=
  ∀ m ∈ node.nodes,(∀ s ∈ m.strings,(Utf8.encode s).length < scalarLimit) ∧
    ∀ b ∈ m.body,b.length < scalarLimit

def HeldText (s : Text) : Prop :=
  (Utf8.encode s).length < scalarLimit + 2 * s.count Utf8.replacement

def Node.OwnHeld (node : Node) : Prop :=
  (∀ s ∈ node.strings,HeldText s) ∧ ∀ b ∈ node.body,b.length < scalarLimit

def Node.Held (node : Node) : Prop := ∀ m ∈ node.nodes,m.OwnHeld

variable {n m value x y : Nat} {data rest bytes doc : List UInt8} {d : Decoder}
  {name value' : Text} {names names' : List Text} {node : Node}

theorem or_eq_add {k : Nat} (c : Nat) (h : x < 2 ^ k) : 2 ^ k * c ||| x = 2 ^ k * c + x :=
  (Nat.two_pow_add_eq_or_of_lt h c).symm

theorem toNat_byte (h : n < 256) : (UInt8.ofNat n).toNat = n := UInt8.toNat_ofNat_of_lt' h

theorem continuation_mark : ∀ y < 64,(0x80 + y) &&& 0xc0 = 0x80 := by decide

theorem continuation_byte (h : y < 64) :
    continuation (n + 1) value (UInt8.ofNat (0x80 ||| y) :: rest) =
      continuation n (value * 64 + y) rest := by
  have hor : 0x80 ||| y = 0x80 + y := or_eq_add (k := 6) 2 h
  have hlow : (0x80 + y) &&& 0x3f = y := by
    rw [Nat.and_two_pow_sub_one_eq_mod _ 6]
    omega
  rw [continuation,hor,toNat_byte (by omega),if_neg (not_not_intro (continuation_mark y h)),hlow,
    ← Nat.shiftLeft_add_eq_or_of_lt h,Nat.shiftLeft_eq]

theorem continued_eq {size : Nat} (h : size ≤ rest.length + 1) :
    continued size value rest = continuation (size - 1) value rest := if_neg (Nat.not_lt.mpr h)

theorem lengthAt_putLength (h : n < scalarLimit) (rest : List UInt8) :
    lengthAt (putLength n ++ rest) = .ok (n,rest) := by
  have hsix : ∀ k,n >>> k &&& 0x3f = n >>> k % 64 := fun k =>
    Nat.and_two_pow_sub_one_eq_mod (n >>> k) 6
  have hlow : n &&& 0x3f = n % 64 := Nat.and_two_pow_sub_one_eq_mod n 6
  rw [scalarLimit] at h
  rcases Nat.lt_or_ge n 0x80 with h1 | h1
  · rw [putLength,if_pos h1,List.singleton_append,lengthAt,toNat_byte (by omega),if_pos h1]
  rcases Nat.lt_or_ge n 0x800 with h2 | h2
  · have hfirst : 0xc0 ||| n >>> 6 = 0xc0 + n / 64 := by
      rw [Nat.shiftRight_eq_div_pow]
      exact or_eq_add (k := 5) 6 (by omega)
    have hmask : (0xc0 + n / 64) &&& 0x1f = n / 64 := by
      rw [Nat.and_two_pow_sub_one_eq_mod _ 5]
      omega
    rw [putLength,if_neg (by omega),if_pos h2,List.cons_append,List.singleton_append,lengthAt,
      hfirst,hlow,toNat_byte (by omega),if_neg (by omega),if_pos (by omega),hmask,
      continued_eq (by simp),continuation_byte (n := 0) (by omega),continuation]
    rw [show n / 64 * 64 + n % 64 = n by omega]
  rcases Nat.lt_or_ge n 0x10000 with h3 | h3
  · have hfirst : 0xe0 ||| n >>> 12 = 0xe0 + n / 4096 := by
      rw [Nat.shiftRight_eq_div_pow]
      exact or_eq_add (k := 4) 14 (by omega)
    have hmask : (0xe0 + n / 4096) &&& 0x0f = n / 4096 := by
      rw [Nat.and_two_pow_sub_one_eq_mod _ 4]
      omega
    rw [putLength,if_neg (by omega),if_neg (by omega),if_pos h3,List.cons_append,
      List.cons_append,List.singleton_append,lengthAt,hfirst,hlow,hsix,
      toNat_byte (by omega),if_neg (by omega),if_neg (by omega),if_pos (by omega),hmask,
      continued_eq (by simp),continuation_byte (n := 1) (by omega),
      continuation_byte (n := 0) (by omega),continuation,Nat.shiftRight_eq_div_pow]
    rw [show (n / 4096 * 64 + n / 2 ^ 6 % 64) * 64 + n % 64 = n by omega]
  · have hfirst : 0xf0 ||| n >>> 18 = 0xf0 + n / 262144 := by
      rw [Nat.shiftRight_eq_div_pow]
      exact or_eq_add (k := 3) 30 (by omega)
    have hmask : (0xf0 + n / 262144) &&& 7 = n / 262144 := by
      rw [Nat.and_two_pow_sub_one_eq_mod _ 3]
      omega
    rw [putLength,if_neg (by omega),if_neg (by omega),if_neg (by omega),List.cons_append,
      List.cons_append,List.cons_append,List.singleton_append,lengthAt,hfirst,hlow,hsix,hsix,
      toNat_byte (by omega),if_neg (by omega),if_neg (by omega),if_neg (by omega),
      if_pos (by omega),hmask,continued_eq (by simp),
      continuation_byte (n := 2) (by omega),continuation_byte (n := 1) (by omega),
      continuation_byte (n := 0) (by omega),continuation,Nat.shiftRight_eq_div_pow,Nat.shiftRight_eq_div_pow]
    rw [show ((n / 262144 * 64 + n / 2 ^ 12 % 64) * 64 + n / 2 ^ 6 % 64) * 64 + n % 64 = n
      by omega]

theorem valueAt_put (h : data.length < scalarLimit) (rest : List UInt8) :
    valueAt (putLength data.length ++ (data ++ rest)) = .ok (data,rest) := by
  have hsmall : ¬(maxDoc < data.length ∨ (data ++ rest).length < data.length) := by
    rw [scalarLimit] at h
    rw [maxDoc,List.length_append]
    omega
  rw [valueAt,lengthAt_putLength h]
  change (if maxDoc < data.length ∨ (data ++ rest).length < data.length then _ else _) = _
  rw [if_neg hsmall,List.take_left,List.drop_left]

theorem continuation_lt (h : continuation n value rest = .ok (m,bytes)) :
    m < (value + 1) * 64 ^ n := by
  induction n generalizing value rest with
  | zero =>
    obtain ⟨rfl,rfl⟩ := ok_pair h
    omega
  | succ n ih =>
    cases rest with
    | nil => cases h
    | cons next rest =>
      rw [continuation] at h
      split at h
      · cases h
      have hlow : next.toNat &&& 0x3f < 64 := by
        rw [Nat.and_two_pow_sub_one_eq_mod _ 6]
        omega
      rw [← Nat.shiftLeft_add_eq_or_of_lt hlow,Nat.shiftLeft_eq] at h
      calc m < (value * 2 ^ 6 + (next.toNat &&& 0x3f) + 1) * 64 ^ n := ih h
        _ ≤ (value + 1) * 64 * 64 ^ n := Nat.mul_le_mul_right _ (by omega)
        _ = (value + 1) * 64 ^ (n + 1) := by rw [Nat.pow_succ,Nat.mul_assoc,Nat.mul_comm 64]

theorem continued_lt {size bound : Nat} (h : continued size value rest = .ok (m,bytes))
    (hbound : (value + 1) * 64 ^ (size - 1) ≤ bound) : m < bound := by
  rw [continued] at h
  split at h
  · cases h
  · exact Nat.lt_of_lt_of_le (continuation_lt h) hbound

theorem lengthAt_lt (h : lengthAt doc = .ok (m,rest)) : m < scalarLimit := by
  cases doc with
  | nil => cases h
  | cons a doc =>
    have h2 : a.toNat &&& 0x1f < 32 := by
      rw [Nat.and_two_pow_sub_one_eq_mod _ 5]
      omega
    have h3 : a.toNat &&& 0x0f < 16 := by
      rw [Nat.and_two_pow_sub_one_eq_mod _ 4]
      omega
    have h4 : a.toNat &&& 7 < 8 := by
      rw [Nat.and_two_pow_sub_one_eq_mod _ 3]
      omega
    rw [scalarLimit]
    rw [lengthAt] at h
    split at h
    · obtain ⟨rfl,rfl⟩ := ok_pair h
      omega
    split at h
    · exact continued_lt h (by omega)
    split at h
    · exact continued_lt h (by omega)
    split at h
    · exact continued_lt h (by omega)
    · cases h

theorem valueAt_lt (h : valueAt doc = .ok (bytes,rest)) : bytes.length < scalarLimit := by
  obtain ⟨length,after,hlength,hle,rfl,_⟩ := valueAt_ok h
  rw [List.length_take,Nat.min_eq_left hle]
  exact lengthAt_lt hlength

namespace Decoder

variable {top : Node} {below : List Node} {token index : UInt8} {d' : Decoder}
  {definition written rest' : List UInt8} {attrs : List (Text × Text)}

theorem run_cons (h : d.step token rest = .ok (d',rest')) :
    d.run (token :: rest) = d'.run rest' := by
  rw [run]
  split
  · rename_i e he
    cases h.symm.trans he
  · rename_i d₁ rest₁ hd
    obtain ⟨rfl,rfl⟩ := ok_pair (h.symm.trans hd)
    rfl

theorem step_value {f : List UInt8 × List UInt8 → Except BxmlError (Decoder × List UInt8)}
    (hstep : d.step token (putLength data.length ++ (data ++ rest)) =
      valueAt (putLength data.length ++ (data ++ rest)) >>= f)
    (h : data.length < scalarLimit) (hf : f (data,rest) = .ok (d',rest)) :
    d.run (putValue token data ++ rest) = d'.run rest := by
  rw [putValue,List.cons_append,List.append_assoc]
  apply run_cons
  rw [hstep,valueAt_put h]
  exact hf

theorem run_name (h : (Utf8.encode name).length < scalarLimit) :
    run ⟨names,top,below⟩ (putValue T.name (Utf8.encode name) ++ rest) =
      run ⟨names ++ [name],top,below⟩ rest := by
  refine step_value rfl h ?_
  change Except.ok (Decoder.mk (names ++ [Utf8.decode (Utf8.encode name)]) top below,rest) = _
  rw [Utf8.decode_encode]

theorem run_text (h : (Utf8.encode value').length < scalarLimit) :
    run ⟨names,top,below⟩ (putValue T.text (Utf8.encode value') ++ rest) =
      run ⟨names,{top with text := some value'},below⟩ rest := by
  refine step_value rfl h ?_
  change Except.ok (Decoder.mk names {top with text := some (Utf8.decode (Utf8.encode value'))}
    below,rest) = _
  rw [Utf8.decode_encode]

theorem run_body (h : data.length < scalarLimit) :
    run ⟨names,top,below⟩ (putValue T.body data ++ rest) =
      run ⟨names,{top with body := some data},below⟩ rest := step_value rfl h rfl

theorem run_open {mark : UInt8} (h : nameOf names index = .ok name) :
    run ⟨names,top,below⟩ (T.open :: index :: mark :: rest) =
      run ⟨names,{name := name},top :: below⟩ rest := by
  apply run_cons
  change (nameOf names index >>= fun name => _) = _
  rw [h]
  rfl

theorem run_close {parent : Node} : run ⟨names,top,parent :: below⟩ (T.close :: rest) =
    run ⟨names,{parent with children := parent.children ++ [top]},below⟩ rest := run_cons rfl

theorem run_attr {mark : UInt8} (h : nameOf names index = .ok name)
    (hvalue : (Utf8.encode value').length < scalarLimit) :
    run ⟨names,top,below⟩ (T.attr :: index :: mark :: (putValue T.attrValue (Utf8.encode value') ++ rest)) =
      run ⟨names,{top with attrs := top.attrs ++ [(name,value')]},below⟩ rest := by
  apply run_cons
  change (nameOf names index >>= fun name => if T.attrValue ≠ T.attrValue then _ else
    valueAt (putLength (Utf8.encode value').length ++ Utf8.encode value' ++ rest) >>= _) = _
  rw [h,List.append_assoc,valueAt_put hvalue]
  change Except.ok (Decoder.mk names
    {top with attrs := top.attrs ++ [(name,Utf8.decode (Utf8.encode value'))]} below,rest) = _
  rw [Utf8.decode_encode]

theorem run_bind {index' : UInt8} : d.run (T.bind :: index :: index' :: rest) = d.run rest := by
  apply run_cons
  change (if rest.length + 2 < 2 then Except.error BxmlError.truncatedNamespace
    else .ok (d,rest)) = _
  rw [if_neg (by omega)]

theorem run_xmlns : d.run (T.xmlns :: index :: rest) = d.run rest := run_cons rfl

theorem run_header {key value : String} (hkey : (Utf8.encode key.toList).length < scalarLimit)
    (hvalue : (Utf8.encode value.toList).length < scalarLimit) :
    d.run (header key value ++ rest) = d.run rest := by
  rw [header,List.cons_append,List.append_assoc,List.append_assoc,List.append_assoc]
  apply run_cons
  change (valueAt _ >>= fun r => valueAt r.2 >>= fun r => .ok (d,r.2)) = _
  rw [valueAt_put hkey]
  change (valueAt _ >>= fun r => .ok (d,r.2)) = _
  rw [valueAt_put hvalue]
  rfl

theorem nameOf_ok {i : Nat} (hi : names[i]? = some name) (hlt : i < 253) :
    nameOf names (UInt8.ofNat (i + 2)) = .ok name := by
  rw [nameOf,toNat_byte (by omega),if_neg (by omega),Nat.add_sub_cancel,hi]

theorem run_ref (h : ref names name = .ok (definition,index,names'))
    (hsize : names.length ≤ 253) (hname : (Utf8.encode name).length < scalarLimit) :
    names'.length ≤ 253 ∧ nameOf names' index = .ok name ∧ ∀ top below rest,
      run ⟨names,top,below⟩ (definition ++ rest) = run ⟨names',top,below⟩ rest := by
  rw [ref] at h
  split at h
  · rename_i i hi
    obtain ⟨rfl,hrest⟩ := ok_pair h
    obtain ⟨rfl,rfl⟩ := Prod.mk.inj hrest
    obtain ⟨hlt,hget,_⟩ := List.findIdx?_eq_some_iff_getElem.mp hi
    refine ⟨hsize,nameOf_ok ?_ (by omega),fun top below rest => rfl⟩
    rw [List.getElem?_eq_getElem hlt,eq_of_beq hget]
  · split at h
    · exact nomatch h
    obtain ⟨rfl,hrest⟩ := ok_pair h
    obtain ⟨rfl,rfl⟩ := Prod.mk.inj hrest
    refine ⟨?_,nameOf_ok ?_ (by omega),fun top below rest => run_name hname⟩
    · rw [List.length_append,List.length_singleton]
      omega
    · rw [List.getElem?_append_right (Nat.le_refl _),Nat.sub_self]
      rfl

theorem run_attributes (h : attributes names attrs = .ok (written,names'))
    (hsize : names.length ≤ 253)
    (hshort : ∀ s ∈ attrs.flatMap fun attr => [attr.1,attr.2],(Utf8.encode s).length < scalarLimit) :
    names'.length ≤ 253 ∧ ∀ top below rest,run ⟨names,top,below⟩ (written ++ rest) =
      run ⟨names',{top with attrs := top.attrs ++ attrs},below⟩ rest := by
  induction attrs generalizing names written with
  | nil =>
    obtain ⟨rfl,rfl⟩ := ok_pair h
    refine ⟨hsize,fun top below rest => ?_⟩
    cases top
    rw [List.append_nil]
    rfl
  | cons attr attrs ih =>
    obtain ⟨name,value⟩ := attr
    obtain ⟨⟨definition,index,names₁⟩,href,h⟩ := bind_eq_ok h
    obtain ⟨⟨others,names₂⟩,hothers,h⟩ := bind_eq_ok h
    obtain ⟨rfl,rfl⟩ := ok_pair h
    obtain ⟨hsize₁,hindex,hdefined⟩ := run_ref href hsize
      (hshort name (List.mem_cons_self ..))
    obtain ⟨hsize₂,hread⟩ := ih hothers hsize₁ fun s hs => hshort s
      (List.mem_cons_of_mem _ (List.mem_cons_of_mem _ hs))
    refine ⟨hsize₂,fun top below rest => ?_⟩
    rw [List.append_assoc,List.append_assoc,List.append_assoc,hdefined]
    refine (run_attr hindex (hshort value ?_)).trans ?_
    · exact List.mem_cons_of_mem _ (List.mem_cons_self ..)
    · rw [hread,List.append_assoc]
      rfl

theorem run_content {text : Option Text} {body : Option (List UInt8)} {children : List Node}
    (hone : text = none ∨ body = none)
    (htext : ∀ s ∈ text,(Utf8.encode s).length < scalarLimit)
    (hbody : ∀ b ∈ body,b.length < scalarLimit) :
    run ⟨names,⟨name,attrs,none,none,[]⟩,below⟩
        (content ⟨name,attrs,text,body,children⟩ ++ rest) =
      run ⟨names,⟨name,attrs,text,body,[]⟩,below⟩ rest := by
  cases body with
  | some body =>
    cases text with
    | some text => exact nomatch hone
    | none => exact run_body (hbody body rfl)
  | none =>
    cases text with
    | some text => exact run_text (htext text rfl)
    | none => rfl

end Decoder

variable {nodes : List Node} {written : List UInt8}

theorem nodes_self (node : Node) : node ∈ node.nodes := by
  cases node
  rw [Node.nodes]
  exact List.mem_cons_self ..

mutual

theorem run_element (node : Node) {names names' : List Text} {written : List UInt8}
    (h : element names node = .ok (written,names')) (hsize : names.length ≤ 253)
    (hsingle : node.Single) (hshort : node.Short) :
    names'.length ≤ 253 ∧ ∀ top below rest,
      Decoder.run ⟨names,top,below⟩ (written ++ rest) =
        Decoder.run ⟨names',{top with children := top.children ++ [node]},below⟩ rest := by
  match node with
  | ⟨name,attrs,text,body,children⟩ =>
    rw [element] at h
    obtain ⟨⟨definition,index,names₁⟩,href,h⟩ := bind_eq_ok h
    obtain ⟨⟨others,names₂⟩,hattrs,h⟩ := bind_eq_ok h
    obtain ⟨⟨inner,names₃⟩,hinner,h⟩ := bind_eq_ok h
    obtain ⟨rfl,rfl⟩ := ok_pair h
    have hself := nodes_self ⟨name,attrs,text,body,children⟩
    obtain ⟨hstrings,hbody⟩ := hshort _ hself
    have hbelow : ∀ m ∈ nodesOf children,m ∈ Node.nodes ⟨name,attrs,text,body,children⟩ :=
      fun m hm => by
        rw [Node.nodes]
        exact List.mem_cons_of_mem _ hm
    obtain ⟨hsize₁,hindex,hdefined⟩ := Decoder.run_ref href hsize
      (hstrings name (List.mem_cons_self ..))
    obtain ⟨hsize₂,hread⟩ := Decoder.run_attributes hattrs hsize₁ fun s hs =>
      hstrings s (List.mem_cons_of_mem _ (List.mem_append_left _ hs))
    obtain ⟨hsize₃,hchildren⟩ := run_elements children hinner hsize₂
      (fun m hm => hsingle m (hbelow m hm)) (fun m hm => hshort m (hbelow m hm))
    refine ⟨hsize₃,fun top below rest => ?_⟩
    rw [List.append_assoc,List.append_assoc,List.append_assoc,List.append_assoc,List.append_assoc,hdefined]
    refine (Decoder.run_open hindex).trans ?_
    rw [List.append_eq,List.nil_append,hread]
    refine (Decoder.run_content (hsingle _ hself) (fun s hs => hstrings s ?_) hbody).trans ?_
    · exact List.mem_cons_of_mem _ (List.mem_append_right _ (Option.mem_toList.mpr hs))
    rw [hchildren]
    exact Decoder.run_close

theorem run_elements (nodes : List Node) {names names' : List Text} {written : List UInt8}
    (h : elements names nodes = .ok (written,names')) (hsize : names.length ≤ 253)
    (hsingle : ∀ m ∈ nodesOf nodes,m.text = none ∨ m.body = none)
    (hshort : ∀ m ∈ nodesOf nodes,(∀ s ∈ m.strings,(Utf8.encode s).length < scalarLimit) ∧
      ∀ b ∈ m.body,b.length < scalarLimit) :
    names'.length ≤ 253 ∧ ∀ top below rest,
      Decoder.run ⟨names,top,below⟩ (written ++ rest) =
        Decoder.run ⟨names',{top with children := top.children ++ nodes},below⟩ rest := by
  match nodes with
  | [] =>
    rw [elements] at h
    obtain ⟨rfl,rfl⟩ := ok_pair h
    refine ⟨hsize,fun top below rest => ?_⟩
    cases top
    rw [List.append_nil]
    rfl
  | node :: nodes =>
    rw [elements] at h
    rw [nodesOf] at hsingle hshort
    obtain ⟨⟨first,names₁⟩,hfirst,h⟩ := bind_eq_ok h
    obtain ⟨⟨others,names₂⟩,hothers,h⟩ := bind_eq_ok h
    obtain ⟨rfl,rfl⟩ := ok_pair h
    obtain ⟨hsize₁,hnode⟩ := run_element node hfirst hsize
      (fun m hm => hsingle m (List.mem_append_left _ hm))
      (fun m hm => hshort m (List.mem_append_left _ hm))
    obtain ⟨hsize₂,hnodes⟩ := run_elements nodes hothers hsize₁
      (fun m hm => hsingle m (List.mem_append_right _ hm))
      (fun m hm => hshort m (List.mem_append_right _ hm))
    refine ⟨hsize₂,fun top below rest => ?_⟩
    rw [List.append_assoc,hnode,hnodes,List.append_assoc]
    rfl

end

theorem nameOf_ref {definition : List UInt8} {index earlier : UInt8} {first : Text}
    (h : ref names name = .ok (definition,index,names')) (hfirst : nameOf names earlier = .ok first) :
    nameOf names' earlier = .ok first := by
  rw [ref] at h
  split at h
  · obtain ⟨_,hrest⟩ := ok_pair h
    rw [← (Prod.mk.inj hrest).2]
    exact hfirst
  · split at h
    · exact nomatch h
    obtain ⟨_,hrest⟩ := ok_pair h
    rw [← (Prod.mk.inj hrest).2]
    rw [nameOf] at hfirst ⊢
    split at hfirst
    · exact nomatch hfirst
    · rename_i hpast
      rw [if_neg hpast]
      split at hfirst
      · rename_i found hfound
        rw [List.getElem?_append_left (List.getElem?_eq_some_iff.mp hfound).1,hfound]
        exact hfirst
      · exact nomatch hfirst

def documentOf (payload : Node) : Node :=
  {name := "#document".toList,children := [
    {name := "abap".toList,attrs := [("version".toList,"1.0".toList)],children := [
      {name := "values".toList,children := [payload]}]}]}

theorem bxmlPayload_documentOf (payload : Node) : bxmlPayload (documentOf payload) = .ok payload :=
  rfl

theorem encodeBxml_ok (h : encodeBxml node = .ok doc) :
    doc.length ≤ maxDoc ∧ ∃ rest,doc = magic ++ rest ∧ (node.Single → node.Short →
      Decoder.run {top := {name := "#document".toList}} rest = .ok (documentOf node)) := by
  obtain ⟨⟨d1,asx,n1⟩,h1,h⟩ := bind_eq_ok h
  obtain ⟨⟨d2,asxUrl,n2⟩,h2,h⟩ := bind_eq_ok h
  obtain ⟨⟨d3,abap,n3⟩,h3,h⟩ := bind_eq_ok h
  obtain ⟨⟨d4,version,n4⟩,h4,h⟩ := bind_eq_ok h
  obtain ⟨⟨d5,hint,n5⟩,h5,h⟩ := bind_eq_ok h
  obtain ⟨⟨d6,hintUrl,n6⟩,h6,h⟩ := bind_eq_ok h
  obtain ⟨⟨d7,values,n7⟩,h7,h⟩ := bind_eq_ok h
  obtain ⟨⟨written,n8⟩,h8,h⟩ := bind_eq_ok h
  change (if maxDoc < List.length _ then _ else _) = _ at h
  split at h
  · exact nomatch h
  rename_i hsize
  obtain rfl := Except.ok.inj h
  refine ⟨Nat.not_lt.mp hsize,_,by simp only [List.append_assoc]; rfl,fun hsingle hshort => ?_⟩
  obtain ⟨s1,_,r1⟩ := Decoder.run_ref h1 (Nat.zero_le 253) (by decide)
  obtain ⟨s2,_,r2⟩ := Decoder.run_ref h2 s1 (by decide)
  obtain ⟨s3,i3,r3⟩ := Decoder.run_ref h3 s2 (by decide)
  obtain ⟨s4,i4,r4⟩ := Decoder.run_ref h4 s3 (by decide)
  obtain ⟨s5,_,r5⟩ := Decoder.run_ref h5 s4 (by decide)
  obtain ⟨s6,_,r6⟩ := Decoder.run_ref h6 s5 (by decide)
  obtain ⟨s7,i7,r7⟩ := Decoder.run_ref h7 s6 (by decide)
  obtain ⟨_,r8⟩ := run_element node h8 s7 hsingle hshort
  have i3 := nameOf_ref h4 i3
  rw [Decoder.run_header (by decide) (by decide),Decoder.run_header (by decide) (by decide),r1,r2]
  refine Decoder.run_bind.trans ?_
  rw [List.append_eq,List.nil_append,r3,r4]
  refine (Decoder.run_open i3).trans ((Decoder.run_attr i4 (by decide)).trans ?_)
  rw [r5,r6,r7]
  refine Decoder.run_bind.trans (Decoder.run_xmlns.trans ((Decoder.run_open i7).trans ?_))
  rw [List.append_eq,List.nil_append,List.nil_append,r8]
  refine Decoder.run_close.trans (Decoder.run_close.trans ?_)
  rw [Decoder.run]
  rfl

theorem mem_nodesOf {m : Node} : m ∈ nodesOf nodes ↔ ∃ c ∈ nodes,m ∈ c.nodes := by
  induction nodes with
  | nil => simp [nodesOf]
  | cons node nodes ih => simp [nodesOf,ih]

theorem forall_nodes {P : Node → Prop} :
    (∀ m ∈ node.nodes,P m) ↔ P node ∧ ∀ c ∈ node.children,∀ m ∈ c.nodes,P m := by
  obtain ⟨name,attrs,text,body,children⟩ := node
  rw [Node.nodes]
  constructor
  · intro h
    refine ⟨h _ (List.mem_cons_self ..),fun c hc m hm => h m (List.mem_cons_of_mem _ ?_)⟩
    exact (mem_nodesOf).mpr ⟨c,hc,hm⟩
  · rintro ⟨hown,hchildren⟩ m hm
    cases hm with
    | head => exact hown
    | tail _ hm =>
      obtain ⟨c,hc,hm⟩ := (mem_nodesOf).mp hm
      exact hchildren c hc m hm

theorem mem_strings {s : Text} : s ∈ node.strings ↔
    s = node.name ∨ (∃ attr ∈ node.attrs,s = attr.1 ∨ s = attr.2) ∨ node.text = some s := by
  simp [Node.strings,List.mem_flatMap]

theorem held_iff : node.Held ↔ node.OwnHeld ∧ ∀ c ∈ node.children,c.Held := forall_nodes

theorem nameOf_mem {index : UInt8} (h : nameOf names index = .ok name) : name ∈ names := by
  rw [nameOf] at h
  split at h
  · exact nomatch h
  split at h
  · rename_i found hfound
    rw [← Except.ok.inj h]
    exact List.mem_of_getElem? hfound
  · exact nomatch h

theorem decode_held (h : valueAt doc = .ok (bytes,rest)) : HeldText (Utf8.decode bytes) :=
  Nat.lt_of_le_of_lt (Utf8.length_decode bytes) (Nat.add_lt_add_right (valueAt_lt h) _)

namespace Decoder

structure Held (d : Decoder) : Prop where
  names : ∀ s ∈ d.names,HeldText s
  top : d.top.Held
  below : ∀ node ∈ d.below,node.Held

variable {d' : Decoder} {token : UInt8} {rest' : List UInt8}

theorem openNode_held (hd : d.Held) (h : d.openNode rest = .ok (d',rest')) : d'.Held := by
  match rest,h with
  | [],h => exact nomatch h
  | [_],h => exact nomatch h
  | index :: _ :: rest,h =>
    obtain ⟨name,hname,h⟩ := bind_eq_ok h
    obtain ⟨rfl,_⟩ := ok_pair h
    refine ⟨hd.names,(held_iff).mpr ⟨⟨?_,fun b hb => nomatch hb⟩,fun c hc => nomatch hc⟩,?_⟩
    · intro s hs
      obtain rfl := List.mem_singleton.mp hs
      exact hd.names s (nameOf_mem hname)
    · intro node hnode
      cases hnode with
      | head => exact hd.top
      | tail _ hnode => exact hd.below node hnode

theorem closeNode_held (hd : d.Held) (h : d.closeNode = .ok d') : d'.Held := by
  rw [closeNode] at h
  split at h
  · exact nomatch h
  rename_i parent below hbelow
  obtain rfl := Except.ok.inj h
  obtain ⟨hown,hchildren⟩ := (held_iff).mp (hd.below parent (by rw [hbelow]; exact .head _))
  refine ⟨hd.names,(held_iff).mpr ⟨hown,fun c hc => ?_⟩,fun node hnode => hd.below node ?_⟩
  · rcases List.mem_append.mp hc with hc | hc
    · exact hchildren c hc
    · rw [List.mem_singleton.mp hc]
      exact hd.top
  · rw [hbelow]
    exact .tail _ hnode

theorem attrNode_held (hd : d.Held) (h : d.attrNode rest = .ok (d',rest')) : d'.Held := by
  match rest,h with
  | [],h => exact nomatch h
  | [_],h => exact nomatch h
  | [_,_],h => exact nomatch h
  | index :: _ :: mark :: rest,h =>
    obtain ⟨name,hname,h⟩ := bind_eq_ok h
    change (if mark ≠ T.attrValue then _ else _) = _ at h
    by_cases hmark : mark ≠ T.attrValue
    · rw [if_pos hmark] at h
      exact nomatch h
    rw [if_neg hmark] at h
    obtain ⟨⟨value,after⟩,hvalue,h⟩ := bind_eq_ok h
    obtain ⟨rfl,_⟩ := ok_pair h
    obtain ⟨⟨hstrings,hbody⟩,hchildren⟩ := (held_iff).mp hd.top
    refine ⟨hd.names,(held_iff).mpr ⟨⟨fun s hs => ?_,hbody⟩,hchildren⟩,hd.below⟩
    rcases (mem_strings).mp hs with hs | ⟨attr,hattr,hs⟩ | hs
    · exact hstrings s ((mem_strings).mpr (.inl hs))
    · rcases List.mem_append.mp hattr with hattr | hattr
      · exact hstrings s ((mem_strings).mpr (.inr (.inl ⟨attr,hattr,hs⟩)))
      · obtain rfl := List.mem_singleton.mp hattr
        rcases hs with rfl | rfl
        · exact hd.names _ (nameOf_mem hname)
        · exact decode_held hvalue
    · exact hstrings s ((mem_strings).mpr (.inr (.inr hs)))

theorem text_held (hd : d.Held) (h : valueAt doc = .ok (bytes,rest)) :
    Held {d with top := {d.top with text := some (Utf8.decode bytes)}} := by
  obtain ⟨⟨hstrings,hbody⟩,hchildren⟩ := (held_iff).mp hd.top
  refine ⟨hd.names,(held_iff).mpr ⟨⟨fun s hs => ?_,hbody⟩,hchildren⟩,hd.below⟩
  rcases (mem_strings).mp hs with hs | hs | hs
  · exact hstrings s ((mem_strings).mpr (.inl hs))
  · exact hstrings s ((mem_strings).mpr (.inr (.inl hs)))
  · rw [← Option.some.inj hs]
    exact decode_held h

theorem body_held (hd : d.Held) (h : valueAt doc = .ok (bytes,rest)) :
    Held {d with top := {d.top with body := some bytes}} := by
  obtain ⟨⟨hstrings,_⟩,hchildren⟩ := (held_iff).mp hd.top
  refine ⟨hd.names,(held_iff).mpr ⟨⟨hstrings,fun b hb => ?_⟩,hchildren⟩,hd.below⟩
  rw [← Option.some.inj hb]
  exact valueAt_lt h

theorem name_held (hd : d.Held) (h : valueAt doc = .ok (bytes,rest)) :
    Held {d with names := d.names ++ [Utf8.decode bytes]} := by
  refine ⟨fun s hs => ?_,hd.top,hd.below⟩
  rcases List.mem_append.mp hs with hs | hs
  · exact hd.names s hs
  · rw [List.mem_singleton.mp hs]
    exact decode_held h

theorem step_held (hd : d.Held) (h : d.step token rest = .ok (d',rest')) : d'.Held := by
  rw [step] at h
  split at h
  · obtain ⟨⟨_,first⟩,_,h⟩ := bind_eq_ok h
    obtain ⟨⟨_,second⟩,_,h⟩ := bind_eq_ok h
    obtain ⟨rfl,_⟩ := ok_pair h
    exact hd
  split at h
  · obtain ⟨⟨bytes,after⟩,hvalue,h⟩ := bind_eq_ok h
    obtain ⟨rfl,_⟩ := ok_pair h
    exact name_held hd hvalue
  split at h
  · exact openNode_held hd h
  split at h
  · obtain ⟨closed,hclosed,h⟩ := bind_eq_ok h
    obtain ⟨rfl,_⟩ := ok_pair h
    exact closeNode_held hd hclosed
  split at h
  · exact attrNode_held hd h
  split at h
  · obtain ⟨⟨_,after⟩,_,h⟩ := bind_eq_ok h
    obtain ⟨rfl,_⟩ := ok_pair h
    exact hd
  split at h
  · split at h
    · cases h
    · obtain ⟨rfl,_⟩ := ok_pair h
      exact hd
  split at h
  · split at h
    · cases h
    · obtain ⟨rfl,_⟩ := ok_pair h
      exact hd
  split at h
  · obtain ⟨⟨bytes,after⟩,hvalue,h⟩ := bind_eq_ok h
    obtain ⟨rfl,_⟩ := ok_pair h
    exact text_held hd hvalue
  split at h
  · obtain ⟨⟨bytes,after⟩,hvalue,h⟩ := bind_eq_ok h
    obtain ⟨rfl,_⟩ := ok_pair h
    exact body_held hd hvalue
  · cases h

theorem run_held (hd : d.Held) (h : d.run doc = .ok node) : node.Held := by
  fun_induction run d doc with
  | case1 d hbelow => exact nomatch h
  | case2 d hbelow =>
    rw [← Except.ok.inj h]
    exact hd.top
  | case3 d token rest e he => exact nomatch h
  | case4 d token rest d' rest' hstep ih => exact ih (step_held hd hstep) h

end Decoder

theorem decodeBxml_held (h : decodeBxml doc = .ok node) : node.Held := by
  rw [decodeBxml] at h
  split at h
  · exact nomatch h
  have htop : Node.Held {name := "#document".toList} := by
    refine (held_iff).mpr ⟨⟨fun s hs => ?_,fun b hb => nomatch hb⟩,fun c hc => nomatch hc⟩
    rw [List.mem_singleton.mp hs,HeldText]
    decide
  exact Decoder.run_held (d := {top := {name := "#document".toList}})
    ⟨fun s hs => absurd hs List.not_mem_nil,htop,fun n hn => absurd hn List.not_mem_nil⟩ h

theorem child_mem {c : Node} (h : child node name = some c) : c ∈ node.children :=
  List.mem_of_find?_eq_some h

def received (doc : List UInt8) : Except BxmlError Node := decodeBxml doc >>= bxmlPayload

theorem received_held (h : received doc = .ok node) : node.Held := by
  obtain ⟨document,hdocument,h⟩ := bind_eq_ok h
  have hdocument := decodeBxml_held hdocument
  have hstep : ∀ (name : Text) {o : Option Node},(∀ n ∈ o,n.Held) →
      ∀ n ∈ (o.bind fun node => child node name).or (o.bind fun node => node.children.head?),
        n.Held := by
    intro name o ho n hn
    cases o with
    | none => exact nomatch hn
    | some m =>
      have hchildren := ((held_iff).mp (ho m rfl)).2
      rcases Option.or_eq_some_iff.mp hn with hn | ⟨_,hn⟩
      · exact hchildren n (child_mem hn)
      · exact hchildren n (List.mem_of_mem_head? hn)
  have habap := hstep "abap".toList (o := some document) fun n hn =>
    Option.some.inj hn ▸ hdocument
  have hvalues := hstep "values".toList habap
  rw [bxmlPayload] at h
  split at h
  · rename_i payload hpayload
    obtain ⟨values,hvalue,hpayload⟩ := Option.bind_eq_some_iff.mp hpayload
    rw [← Except.ok.inj h]
    exact ((held_iff).mp (hvalues values hvalue)).2 payload (List.mem_of_mem_head? hpayload)
  · exact nomatch h

theorem received_encoded (h : encodeBxml node = .ok doc) (hsingle : node.Single)
    (hshort : node.Short) : received doc = .ok node := by
  obtain ⟨hsize,rest,rfl,hrun⟩ := encodeBxml_ok h
  have hmagic : ¬(maxDoc < (magic ++ rest).length ∨ (magic ++ rest).take 4 ≠ magic) := by
    rintro (hbig | hne)
    · exact absurd hsize (Nat.not_le.mpr hbig)
    · exact hne rfl
  rw [received,decodeBxml,if_neg hmagic]
  change Decoder.run _ rest >>= _ = _
  rw [hrun hsingle hshort]
  exact bxmlPayload_documentOf node

structure Fields where
  version : Text
  status : Text
  reason : Text
  headers : List (Text × Text)
  body : List UInt8

def responseFields (payload : Node) : Fields :=
  let line := child payload "STATUS_LINE".toList
  let rows := ((child payload "HEADER_FIELDS".toList).map Node.children).getD []
  {version := text line "VERSION"
   status := text line "STATUS_CODE"
   reason := text line "REASON_PHRASE"
   headers := rows.map fun row => (text (some row) "NAME",text (some row) "VALUE")
   body := ((child payload "MESSAGE_BODY".toList).bind Node.body).getD []}

def Response.fields (r : Response) : Fields :=
  {version := "HTTP/1.1".toList
   status := padEnd 4 (Nat.toDigits 10 r.status)
   reason := r.reason.getD []
   headers := ("~server_protocol".toList,"HTTP/1.1".toList) :: r.headers
   body := r.body}

theorem responseFields_tree (r : Response) : responseFields (responseTree r) = r.fields := by
  have hrows : (r.headers.map row).map
      (fun row => (text (some row) "NAME",text (some row) "VALUE")) = r.headers := by
    rw [List.map_map]
    exact List.map_id _
  have hbody : ((child (responseTree r) "MESSAGE_BODY".toList).bind Node.body).getD [] =
      r.body := by
    unfold responseTree
    by_cases h : r.body = []
    · rw [if_neg (not_not.mpr h),h]
      rfl
    · rw [if_pos h]
      rfl
  rw [responseFields,hbody]
  change Fields.mk _ _ _ (_ :: (r.headers.map row).map _) _ = _
  rw [hrows]
  rfl

theorem leaf_body (name : String) (value : Text) : ∀ m ∈ (leaf name value).nodes,m.body = none :=
  forall_nodes.mpr ⟨rfl,fun _ hc => nomatch hc⟩

theorem row_body (header : Text × Text) : ∀ m ∈ (row header).nodes,m.body = none := by
  refine forall_nodes.mpr ⟨rfl,fun _ hc => ?_⟩
  rcases List.mem_pair.mp hc with rfl | rfl
  · exact leaf_body _ _
  · exact leaf_body _ _

theorem responseTree_body (r : Response) : ∀ m ∈ (responseTree r).nodes,
    m.body = none ∨ m.text = none ∧ m.body = some r.body := by
  refine forall_nodes.mpr ⟨.inl rfl,fun c hc => ?_⟩
  rcases List.mem_cons.mp hc with rfl | hc
  · refine forall_nodes.mpr ⟨.inl rfl,fun c hc m hm => .inl ?_⟩
    rcases List.mem_cons.mp hc with rfl | hc
    · exact leaf_body _ _ m hm
    rcases List.mem_pair.mp hc with rfl | rfl
    · exact leaf_body _ _ m hm
    · exact leaf_body _ _ m hm
  rcases List.mem_pair.mp hc with rfl | rfl
  · refine forall_nodes.mpr ⟨.inl rfl,fun c hc m hm => .inl ?_⟩
    rcases List.mem_cons.mp hc with rfl | hc
    · exact row_body _ m hm
    · obtain ⟨header,_,rfl⟩ := List.mem_map.mp hc
      exact row_body header m hm
  · split
    · exact forall_nodes.mpr ⟨.inr ⟨rfl,rfl⟩,fun c hc => nomatch hc⟩
    · exact forall_nodes.mpr ⟨.inl rfl,fun c hc => nomatch hc⟩

theorem responseTree_single (r : Response) : (responseTree r).Single := fun m hm => by
  rcases responseTree_body r m hm with h | ⟨h,_⟩
  · exact .inr h
  · exact .inl h

theorem held_body {payload : Node} (h : payload.Held) :
    (responseFields payload).body.length < scalarLimit := by
  change (((child payload "MESSAGE_BODY".toList).bind Node.body).getD []).length < scalarLimit
  cases hbody : (child payload "MESSAGE_BODY".toList).bind Node.body with
  | none => decide
  | some body =>
    obtain ⟨node,hnode,hbody⟩ := Option.bind_eq_some_iff.mp hbody
    obtain ⟨⟨_,hheld⟩,_⟩ := held_iff.mp ((held_iff.mp h).2 node (child_mem hnode))
    exact hheld body hbody

def Response.ShortStrings (r : Response) : Prop :=
  ∀ m ∈ (responseTree r).nodes,∀ s ∈ m.strings,(Utf8.encode s).length < scalarLimit

theorem response_short {r : Response} (h : r.ShortStrings) (hbody : r.body.length < scalarLimit) :
    (responseTree r).Short := fun m hm => by
  refine ⟨h m hm,fun b hb => ?_⟩
  rcases responseTree_body r m hm with hnone | ⟨_,hsome⟩
  · exact nomatch hnone.symm.trans hb
  · rw [Option.some.inj (hb.symm.trans hsome)]
    exact hbody

theorem response_recovered {r : Response} (h : encodeAdtBxmlResponse r = .ok doc)
    (hstrings : r.ShortStrings) :
    (received doc).map responseFields = .ok r.fields ↔ r.body.length < scalarLimit := by
  constructor
  · intro hfields
    cases hnode : received doc with
    | error e =>
      rw [hnode] at hfields
      exact nomatch hfields
    | ok node =>
      rw [hnode] at hfields
      have hbody := held_body (received_held hnode)
      rw [Except.ok.inj hfields] at hbody
      exact hbody
  · intro hbody
    rw [received_encoded h (responseTree_single r) (response_short hstrings hbody)]
    exact congrArg Except.ok (responseFields_tree r)

theorem putLength_length (n : Nat) : (putLength n).length ≤ 4 := by
  rw [putLength]
  split
  · exact Nat.le_add_left 1 3
  split
  · exact Nat.le_add_left 2 2
  split
  · exact Nat.le_add_left 3 1
  · exact Nat.le_refl 4

def startNames : List Text :=
  ["asx".toList,"http://www.sap.com/abapxml".toList,"abap".toList,"version".toList,
    "asxhint".toList,"http://www.sap.com/abapxml/hint".toList,"values".toList]

def preamble : List UInt8 :=
  let define : String → List UInt8 := fun name => putValue T.name (Utf8.encode name.toList)
  magic ++ header "VER" "0.7" ++ header "ENC" "utf-8" ++
    define "asx" ++ define "http://www.sap.com/abapxml" ++ [T.bind,2,3] ++
    define "abap" ++ define "version" ++ [T.open,4,2,T.attr,5,1] ++
    putValue T.attrValue (Utf8.encode "1.0".toList) ++
    define "asxhint" ++ define "http://www.sap.com/abapxml/hint" ++ define "values" ++
    [T.bind,6,7,T.xmlns,3,T.open,8,2]

theorem encodeBxml_eq (node : Node) : encodeBxml node = element startNames node >>= fun r =>
    if maxDoc < (preamble ++ r.1 ++ [T.close,T.close]).length then .error .documentLimit
    else .ok (preamble ++ r.1 ++ [T.close,T.close]) := rfl

def bodyTree (body : List UInt8) : Node := {name := ['R'],body := some body}

theorem element_bodyTree (body : List UInt8) : element startNames (bodyTree body) =
    .ok (putValue T.name (Utf8.encode ['R']) ++ [T.open,9,1] ++ putValue T.body body ++
      [T.close],startNames ++ [['R']]) := by
  rw [← List.append_nil (_ ++ [T.open,9,1]),← List.append_nil (_ ++ putValue T.body body)]
  rfl

set_option maxRecDepth 4000 in
theorem preamble_length : preamble.length ≤ 200 := by decide

theorem bodyTree_accepted (body : List UInt8) (h : body.length ≤ 4194304) :
    ∃ doc,encodeBxml (bodyTree body) = .ok doc := by
  have hpreamble := preamble_length
  have hlength := putLength_length body.length
  have hname : (putValue T.name (Utf8.encode ['R'])).length = 3 := by decide
  have hencode := encodeBxml_eq (bodyTree body)
  rw [element_bodyTree] at hencode
  refine ⟨_,hencode.trans (if_neg ?_)⟩
  simp only [List.length_append,List.length_cons,List.length_nil,maxDoc,putValue] at hname ⊢
  omega

def Node.Plain (node : Node) : Prop := ∀ m ∈ node.nodes,∀ s ∈ m.strings,Utf8.replacement ∉ s

theorem held_short (hplain : node.Plain) (h : node.Held) : node.Short := fun m hm => by
  refine ⟨fun s hs => ?_,(h m hm).2⟩
  have hheld := (h m hm).1 s hs
  rw [HeldText,List.count_eq_zero_of_not_mem (hplain m hm s hs)] at hheld
  exact hheld

theorem payload_recovered {tree : Node} (hsingle : tree.Single)
    (h : encodeBxml tree = .ok doc) :
    (tree.Short → received doc = .ok tree) ∧ (received doc = .ok tree → tree.Held) ∧
      (tree.Plain → (received doc = .ok tree ↔ tree.Short)) ∧
      ∀ r : Response,tree = responseTree r → r.ShortStrings →
        ((received doc).map responseFields = .ok r.fields ↔ r.body.length < scalarLimit) := by
  refine ⟨received_encoded h hsingle,received_held,fun hplain => ⟨fun hreceived => ?_,?_⟩,
    fun r hr hstrings => ?_⟩
  · exact held_short hplain (received_held hreceived)
  · exact received_encoded h hsingle
  · subst hr
    exact response_recovered h hstrings

def sampleTree : Node where
  name := ['R']
  attrs := [(['A'],['1']),(['B'],['ü'])]
  children := [
    {name := ['R'],text := some ['t','ü']},
    {name := ['A'],body := some [1,2],children := [{name := ['R'],attrs := [(['B'],[])]}]}]

theorem sampleTree_fits : sampleTree.Single ∧ sampleTree.Short ∧
    (encodeBxml sampleTree).toOption.isSome = true := by
  unfold Node.Single Node.Short
  decide +kernel

theorem payload_recovered_sample : ∃ doc,encodeBxml sampleTree = .ok doc ∧
    received doc = .ok sampleTree := by
  obtain ⟨hsingle,hshort,hencodes⟩ := sampleTree_fits
  cases hdoc : encodeBxml sampleTree with
  | error => exact nomatch hdoc ▸ hencodes
  | ok doc => exact ⟨doc,rfl,(payload_recovered hsingle hdoc).1 hshort⟩

def largeBody : List UInt8 := List.replicate 2097152 0

theorem large_body_lost : ∃ doc,encodeBxml (bodyTree largeBody) = .ok doc ∧
    received doc ≠ .ok (bodyTree largeBody) := by
  have hlarge : largeBody.length = 2097152 := List.length_replicate
  obtain ⟨doc,hdoc⟩ := bodyTree_accepted largeBody (by rw [hlarge]; decide)
  refine ⟨doc,hdoc,fun h => ?_⟩
  have hheld := (received_held h (bodyTree largeBody) (nodes_self _)).2 largeBody rfl
  rw [hlarge] at hheld
  exact absurd hheld (by decide)

end OpenSteamgate.Protocols.Bxml
