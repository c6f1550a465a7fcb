import OpenSteamgate.Protocols.RequestText

namespace OpenSteamgate.Protocols.Tunnel

open Marked Wtf8

variable {s t u v a pre post rest name text method url : JsString} {c : UInt16} {n : Nat}
  {b : List UInt8}

theorem base64Char_spec : ∀ n < 64,isBase64Char (base64Char n) = true ∧
    base64Value (base64Char n) = n := by decide

theorem base64Char_ne (h : n < 64) (hc : isBase64Char c = false) : base64Char n ≠ c := fun heq => by
  have hn := (base64Char_spec n h).1
  rw [heq,hc] at hn
  exact nomatch hn

theorem byte_of_parts {m : Nat} {x : UInt8} (h : m = x.toNat) : UInt8.ofNat m = x := by
  rw [h,UInt8.ofNat_toNat]

theorem fromBase64_toBase64 (b : List UInt8) :
    isBase64 (toBase64 b) = true ∧ fromBase64 (toBase64 b) = b := by
  fun_induction toBase64 b with
  | case1 => exact ⟨rfl,rfl⟩
  | case2 a =>
    have ha := a.toNat_lt
    obtain ⟨h1,v1⟩ := base64Char_spec (a.toNat / 4) (by omega)
    obtain ⟨h2,v2⟩ := base64Char_spec (a.toNat % 4 * 16) (by omega)
    constructor
    · simp [isBase64,h1,h2]
    · rw [fromBase64,if_pos rfl,v1,v2]
      exact congrArg (· :: []) (byte_of_parts (by omega))
  | case3 a b =>
    have ha := a.toNat_lt
    have hb := b.toNat_lt
    obtain ⟨h1,v1⟩ := base64Char_spec (a.toNat / 4) (by omega)
    obtain ⟨h2,v2⟩ := base64Char_spec (a.toNat % 4 * 16 + b.toNat / 16) (by omega)
    obtain ⟨h3,v3⟩ := base64Char_spec (b.toNat % 16 * 4) (by omega)
    have hne := base64Char_ne (n := b.toNat % 16 * 4) (c := 61) (by omega) rfl
    constructor
    · simp [isBase64,h1,h2,h3]
    · rw [fromBase64,if_neg hne,if_pos rfl,v1,v2,v3]
      rw [byte_of_parts (x := a) (by omega),byte_of_parts (x := b) (by omega)]
  | case4 a b c rest ih =>
    have ha := a.toNat_lt
    have hb := b.toNat_lt
    have hc := c.toNat_lt
    obtain ⟨h1,v1⟩ := base64Char_spec (a.toNat / 4) (by omega)
    obtain ⟨h2,v2⟩ := base64Char_spec (a.toNat % 4 * 16 + b.toNat / 16) (by omega)
    obtain ⟨h3,v3⟩ := base64Char_spec (b.toNat % 16 * 4 + c.toNat / 64) (by omega)
    obtain ⟨h4,v4⟩ := base64Char_spec (c.toNat % 64) (by omega)
    have hne3 := base64Char_ne (n := b.toNat % 16 * 4 + c.toNat / 64) (c := 61) (by omega) rfl
    have hne4 := base64Char_ne (n := c.toNat % 64) (c := 61) (by omega) rfl
    constructor
    · simp [isBase64,h1,h2,h3,h4,ih.1]
    · rw [fromBase64,if_neg hne3,if_neg hne4,v1,v2,v3,v4,ih.2,
        byte_of_parts (x := a) (by omega),byte_of_parts (x := b) (by omega),byte_of_parts (x := c) (by omega)]

def Armored (c : UInt16) : Prop := isBase64Char c = true ∨ c = 61

theorem toBase64_armored (b : List UInt8) : ∀ c ∈ toBase64 b,Armored c := by
  have hchar : ∀ n < 64,Armored (base64Char n) := fun n hn => .inl (base64Char_spec n hn).1
  fun_induction toBase64 b with
  | case1 => exact fun c hc => nomatch hc
  | case2 a =>
    have ha := a.toNat_lt
    simp only [List.forall_mem_cons]
    exact ⟨hchar _ (by omega),hchar _ (by omega),.inr rfl,.inr rfl,fun c hc => nomatch hc⟩
  | case3 a b =>
    have ha := a.toNat_lt
    have hb := b.toNat_lt
    simp only [List.forall_mem_cons]
    exact ⟨hchar _ (by omega),hchar _ (by omega),hchar _ (by omega),.inr rfl,
      fun c hc => nomatch hc⟩
  | case4 a b c rest ih =>
    have ha := a.toNat_lt
    have hb := b.toNat_lt
    have hc := c.toNat_lt
    simp only [List.forall_mem_cons]
    exact ⟨hchar _ (by omega),hchar _ (by omega),hchar _ (by omega),hchar _ (by omega),ih⟩

theorem toBase64_free (h : isBase64Char c = false) (hc : c ≠ 61) (b : List UInt8) :
    c ∉ toBase64 b := fun hmem => by
  rcases toBase64_armored b c hmem with harmored | heq
  · exact nomatch harmored.symm.trans h
  · exact hc heq

theorem length_toBase64 (b : List UInt8) : b.length ≤ (toBase64 b).length := by
  fun_induction toBase64 b with
  | case1 => exact Nat.le_refl 0
  | case2 a => exact Nat.le_add_left 1 3
  | case3 a b => exact Nat.le_add_left 2 2
  | case4 a b c rest ih =>
    simp only [List.length_cons]
    omega

theorem length_le_byteLength (s : JsString) : s.length ≤ byteLength s := by
  have hpoint : ∀ p,(unitsOf p).length ≤ (encode p).length := fun p => by
    rw [unitsOf_length,encode]
    split
    · split
      · exact Nat.le_refl 1
      split
      · exact Nat.le_succ 1
      · exact Nat.le_add_left 1 2
    · split
      · omega
      split
      · omega
      · exact Nat.le_add_left 2 2
  have hpoints : ∀ ps,(units ps).length ≤ (bytes ps).length := fun ps => by
    induction ps with
    | nil => exact Nat.le_refl 0
    | cons p ps ih =>
      rw [units_cons,bytes_cons,List.length_append,List.length_append]
      exact Nat.add_le_add (hpoint p) ih
  have := hpoints (pointsOf s)
  rwa [units_pointsOf] at this

variable {k : String} {h : Header} {headers : List Header}
  {pieces : List (JsString × JsString)}

def fieldPieces (k : String) (text : JsString) : List (JsString × JsString) :=
  [(js k,text),(47 :: js k,[])]

theorem spell_field (k : String) (text : JsString) : spell (fieldPieces k text) = field k text := by
  simp [fieldPieces,spell,field,closing]

theorem spelled_field (hk : Name (js k)) (htext : 60 ∉ text) : Spelled (fieldPieces k text) := by
  intro piece hpiece
  rcases List.mem_pair.mp hpiece with rfl | rfl
  · exact ⟨hk,htext⟩
  · exact ⟨hk.closing,List.not_mem_nil⟩

theorem spelled_append {left right : List (JsString × JsString)} (hleft : Spelled left)
    (hright : Spelled right) : Spelled (left ++ right) := fun piece hpiece =>
  (List.mem_append.mp hpiece).elim (hleft piece) (hright piece)

def linePieces (method url : JsString) : List (JsString × JsString) :=
  fieldPieces "METHOD" method ++ fieldPieces "URI" url ++ fieldPieces "VERSION" (js "HTTP/1.1")

theorem spell_line (f : JsString → JsString) (method url : JsString) :
    spell (linePieces (f method) (f url)) = line f method url := by
  simp only [linePieces,spell_append,spell_field,line]

def itemPieces (f : JsString → JsString) (h : Header) : List (JsString × JsString) :=
  (js "item",[]) :: (fieldPieces "NAME" (f h.1) ++ fieldPieces "VALUE" (f h.2) ++
    [(47 :: js "item",[])])

theorem spell_item (f : JsString → JsString) (h : Header) :
    spell (itemPieces f h) = item f h := by
  rw [itemPieces,spell_cons,spell_append,spell_append,spell_field,spell_field,item]
  simp only [List.append_assoc]
  rfl

theorem spell_items (f : JsString → JsString) (headers : List Header) :
    spell (headers.flatMap (itemPieces f)) = headers.flatMap (item f) := by
  induction headers with
  | nil => rfl
  | cons h headers ih => rw [List.flatMap_cons,List.flatMap_cons,spell_append,spell_item,ih]

theorem escape_free (s : JsString) : 60 ∉ xmlEscape s := by
  intro hmem
  obtain ⟨c,_,hc⟩ := List.mem_flatMap.mp hmem
  split at hc
  · exact absurd hc (by decide)
  split at hc
  · exact absurd hc (by decide)
  split at hc
  · exact absurd hc (by decide)
  · rename_i _ hlt _
    exact hlt (List.mem_singleton.mp hc).symm

theorem spelled_item (h : Header) : Spelled (itemPieces xmlEscape h) := by
  refine List.forall_mem_cons.mpr ⟨⟨by decide,List.not_mem_nil⟩,?_⟩
  refine spelled_append (spelled_append (spelled_field (by decide) (escape_free _))
    (spelled_field (by decide) (escape_free _))) fun piece hpiece => ?_
  rw [List.mem_singleton.mp hpiece]
  exact ⟨by decide,List.not_mem_nil⟩

theorem spelled_items (headers : List Header) :
    Spelled (headers.flatMap (itemPieces xmlEscape)) := fun piece hpiece => by
  obtain ⟨h,_,hmem⟩ := List.mem_flatMap.mp hpiece
  exact spelled_item h piece hmem

def itemNames : List JsString :=
  [js "item",js "NAME",47 :: js "NAME",js "VALUE",47 :: js "VALUE",47 :: js "item"]

theorem items_names (f : JsString → JsString) (headers : List Header) (hname : name ∉ itemNames) :
    name ∉ (headers.flatMap (itemPieces f)).map Prod.fst := by
  intro hmem
  obtain ⟨piece,hpiece,rfl⟩ := List.mem_map.mp hmem
  obtain ⟨h,_,hpiece⟩ := List.mem_flatMap.mp hpiece
  exact hname (List.mem_map_of_mem (f := Prod.fst) hpiece)

theorem element_field (pieces : List (JsString × JsString)) (hk : Name (js k)) (hpieces : Spelled pieces)
    (habsent : js k ∉ pieces.map Prod.fst) (hopen : index text (tag (js k)) = none)
    (hclose : index text (closing (js k)) = none) (post : JsString) (required : Bool) :
    element (spell pieces ++ (field k text ++ post)) (js k) required = xmlUnescape text := by
  rw [field,List.append_assoc,List.append_assoc]
  exact (element_eq hk (index_spell_none (js k) hk hpieces habsent) _ required).trans
    (inside_eq hk hopen hclose post)

def lineNames : List JsString :=
  [js "METHOD",47 :: js "METHOD",js "URI",47 :: js "URI",js "VERSION",47 :: js "VERSION"]

theorem spelled_line (hmethod : 60 ∉ method) (hurl : 60 ∉ url) :
    Spelled (linePieces method url) :=
  spelled_append (spelled_append (spelled_field (by decide) hmethod)
    (spelled_field (by decide) hurl)) (spelled_field (by decide) (by decide))

def headPieces (method url : JsString) : List (JsString × JsString) :=
  (js "REQUEST",[]) :: (js "REQUEST_LINE",[]) :: (linePieces method url ++
    [(47 :: js "REQUEST_LINE",[])])

theorem spelled_head (hmethod : 60 ∉ method) (hurl : 60 ∉ url) :
    Spelled (headPieces method url) := by
  refine List.forall_mem_cons.mpr ⟨⟨by decide,List.not_mem_nil⟩,?_⟩
  refine List.forall_mem_cons.mpr ⟨⟨by decide,List.not_mem_nil⟩,?_⟩
  refine spelled_append (spelled_line hmethod hurl) fun piece hpiece => ?_
  rw [List.mem_singleton.mp hpiece]
  exact ⟨by decide,List.not_mem_nil⟩

def headNames : List JsString :=
  js "REQUEST" :: js "REQUEST_LINE" :: (lineNames ++ [47 :: js "REQUEST_LINE"])

theorem head_names (method url : JsString) :
    (headPieces method url).map Prod.fst = headNames := rfl

theorem spell_head (method url : JsString) :
    spell (headPieces (xmlEscape method) (xmlEscape url)) =
      js "<REQUEST>" ++ field "REQUEST_LINE" (line xmlEscape method url) := by
  rw [headPieces,spell_cons,spell_cons,spell_append,spell_line,field]
  simp only [List.append_assoc]
  rfl

def bodyPieces (r : Request) : List (JsString × JsString) :=
  headPieces (xmlEscape r.method) (xmlEscape r.url) ++ ((js "HEADER_FIELDS",[]) ::
    (r.headers.flatMap (itemPieces xmlEscape) ++ [(47 :: js "HEADER_FIELDS",[])]))

theorem spell_body (r : Request) : spell (bodyPieces r) =
    js "<REQUEST>" ++ field "REQUEST_LINE" (line xmlEscape r.method r.url) ++
      field "HEADER_FIELDS" (r.headers.flatMap (item xmlEscape)) := by
  rw [bodyPieces,spell_append,spell_head,spell_cons,spell_append,spell_items]
  simp only [field,List.append_assoc]
  rfl

theorem spelled_body (r : Request) : Spelled (bodyPieces r) := by
  refine spelled_append (spelled_head (escape_free _) (escape_free _)) ?_
  refine List.forall_mem_cons.mpr ⟨⟨by decide,List.not_mem_nil⟩,?_⟩
  refine spelled_append (spelled_items r.headers) fun piece hpiece => ?_
  rw [List.mem_singleton.mp hpiece]
  exact ⟨by decide,List.not_mem_nil⟩

theorem element_line (r : Request) : element (document r) (js "REQUEST_LINE") =
    xmlUnescape (line xmlEscape r.method r.url) := by
  have hspelled := spelled_line (escape_free r.method) (escape_free r.url)
  have hopen := index_spell_none (js "REQUEST_LINE") (by decide) hspelled (by
    change _ ∉ lineNames
    decide)
  have hclose := index_spell_none (47 :: js "REQUEST_LINE") (by decide) hspelled (by
    change _ ∉ lineNames
    decide)
  rw [spell_line] at hopen hclose
  rw [document,List.append_assoc,List.append_assoc,List.append_assoc]
  exact element_field [(js "REQUEST",[])] (by decide)
    (List.forall_mem_singleton.mpr ⟨by decide,List.not_mem_nil⟩) (by decide) hopen hclose _ _

theorem element_headers (r : Request) : element (document r) (js "HEADER_FIELDS") =
    xmlUnescape (r.headers.flatMap (item xmlEscape)) := by
  have hopen := index_spell_none (js "HEADER_FIELDS") (by decide)
    (spelled_items r.headers) (items_names _ _ (by decide))
  have hclose := index_spell_none (47 :: js "HEADER_FIELDS") (by decide)
    (spelled_items r.headers) (items_names _ _ (by decide))
  rw [spell_items] at hopen hclose
  rw [document,← spell_head,List.append_assoc,List.append_assoc]
  exact element_field _ (by decide) (spelled_head (escape_free _) (escape_free _))
    (by rw [head_names]; decide) hopen hclose _ _

theorem element_body (r : Request) : element (document r) (js "MESSAGE_BODY") false =
    .ok (toBase64 r.body) := by
  have hopen : 60 ∉ toBase64 r.body := toBase64_free rfl (by decide) _
  have hplain : 38 ∉ toBase64 r.body := toBase64_free rfl (by decide) _
  have habsent : js "MESSAGE_BODY" ∉ (bodyPieces r).map Prod.fst := by
    rw [bodyPieces,List.map_append,List.map_cons,List.map_append,head_names]
    intro hmem
    rcases List.mem_append.mp hmem with hmem | hmem
    · exact absurd hmem (by decide)
    rcases List.mem_cons.mp hmem with hmem | hmem
    · exact absurd hmem (by decide)
    rcases List.mem_append.mp hmem with hmem | hmem
    · exact items_names _ _ (by decide) hmem
    · exact absurd hmem (by decide)
  rw [document,← spell_body,List.append_assoc]
  exact (element_field _ (by decide) (spelled_body r) habsent (index_unmarked hopen)
    (index_unmarked hopen) _ _).trans (xmlUnescape_self (noEntity_unmarked hplain))

theorem messageBody_document (engine : Engine) (r : Request) (hsize : r.body.length ≤ maxXmlBytes) :
    messageBody engine (document r) =
      if engine.exhausts (toBase64 r.body) then .error .callStack else .ok r.body := by
  have hfilter : (toBase64 r.body).filter (fun c => !(c = 10 || c = 13)) = toBase64 r.body := by
    refine List.filter_eq_self.mpr fun c hc => ?_
    have h10 : c ≠ 10 := fun h => toBase64_free (c := 10) rfl (by decide) _ (h ▸ hc)
    have h13 : c ≠ 13 := fun h => toBase64_free (c := 13) rfl (by decide) _ (h ▸ hc)
    simp [h10,h13]
  obtain ⟨hvalid,hbytes⟩ := fromBase64_toBase64 r.body
  rw [messageBody,element_body]
  change (if engine.exhausts (List.filter _ _) = true then _ else _) = _
  rw [hfilter,hvalid,hbytes]
  congr 1
  rw [if_neg (by decide),if_neg (Nat.not_lt.mpr hsize)]

end OpenSteamgate.Protocols.Tunnel
