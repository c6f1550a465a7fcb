import OpenSteamgate.Protocols.RequestReading

namespace OpenSteamgate.Protocols.Tunnel

open Marked Wtf8

variable {s t u v w a pre post rest name text method url : JsString} {c : UInt16} {i j point : Nat}
  {k : String} {h : Header} {headers done : List Header}

theorem reference_append {radix : Nat} {isDigit : UInt16 → Bool} (hend : isDigit 59 = false)
    (h : reference radix isDigit s = some (point,rest)) :
    59 ∈ s ∧ reference radix isDigit (s ++ t) = some (point,rest ++ t) := by
  rw [reference] at h
  split at h
  · rename_i digit digits after htake hdrop
    obtain ⟨rfl,rfl⟩ := Prod.mk.inj (Option.some.inj h)
    have hs := (List.takeWhile_append_dropWhile (p := isDigit) (l := s)).symm
    have hdigits : ∀ x ∈ digit :: digits,isDigit x = true := fun x hx =>
      List.mem_takeWhile_imp (htake ▸ hx)
    rw [htake,hdrop] at hs
    refine ⟨hs ▸ List.mem_append_right _ (List.mem_cons_self ..),?_⟩
    have htake' : (s ++ t).takeWhile isDigit = digit :: digits := by
      rw [hs,List.append_assoc,List.takeWhile_append_of_pos hdigits,List.cons_append,
        List.cons_append,List.takeWhile_cons_of_neg (by rw [hend]; exact Bool.false_ne_true),List.append_nil]
    have hdrop' : (s ++ t).dropWhile isDigit = 59 :: (after ++ t) := by
      rw [hs,List.append_assoc,List.dropWhile_append_of_pos hdigits,List.cons_append,
        List.dropWhile_cons_of_neg (by rw [hend]; exact Bool.false_ne_true)]
    rw [reference,htake',hdrop']
    rfl
  · cases h

theorem named_unique : ∀ e ∈ named,∀ d ∈ named,e.1 <+: d.1 → e = d := by decide

theorem named_head : ∀ e ∈ named,59 ∈ e.1 ∧ ¬[35] <+: e.1 ∧ e.1 ≠ [] := by decide

theorem find_named_append {e : JsString × Nat}
    (h : named.find? (fun e => e.1.isPrefixOf s) = some e) :
    e.1 <+: s ∧ named.find? (fun e => e.1.isPrefixOf (s ++ t)) = some e := by
  have hpre : e.1 <+: s := List.isPrefixOf_iff_prefix.mp
    (List.find?_some (p := fun e : JsString × Nat => e.1.isPrefixOf s) h)
  refine ⟨hpre,?_⟩
  cases hfound : named.find? (fun e => e.1.isPrefixOf (s ++ t)) with
  | none =>
    have := List.find?_eq_none.mp hfound e (List.mem_of_find?_eq_some h)
    exact absurd (List.isPrefixOf_iff_prefix.mpr (hpre.trans (List.prefix_append s t))) this
  | some d =>
    have hd : d.1 <+: s ++ t := List.isPrefixOf_iff_prefix.mp
      (List.find?_some (p := fun e : JsString × Nat => e.1.isPrefixOf (s ++ t)) hfound)
    have he := List.mem_of_find?_eq_some h
    have hmem := List.mem_of_find?_eq_some hfound
    rcases List.prefix_or_prefix_of_prefix hd (hpre.trans (List.prefix_append s t)) with hle | hle
    · rw [named_unique d hmem e he hle]
    · rw [named_unique e he d hmem hle]

theorem find_named_none (hfirst : s.head? = some 35)  :
    named.find? (fun e => e.1.isPrefixOf s) = none := by
  refine List.find?_eq_none.mpr fun e he hpre => ?_
  obtain ⟨_,hhead,hne⟩ := named_head e he
  have hpre := List.isPrefixOf_iff_prefix.mp hpre
  cases hname : e.1 with
  | nil => exact hne hname
  | cons x xs =>
    rw [hname] at hpre hhead
    obtain ⟨y,hy⟩ := hpre
    rw [← hy] at hfirst
    rw [← Option.some.inj hfirst] at hhead
    exact hhead ⟨xs,rfl⟩

theorem numeric_decimal {d : UInt16} (hd : d ≠ 120) (s : JsString) :
    numeric (35 :: d :: s) = reference 10 isDecimal (d :: s) := by
  rw [numeric.eq_def]
  split
  · rename_i heq
    exact absurd (List.cons.inj (List.cons.inj heq).2).1 hd
  · rename_i heq
    rw [(List.cons.inj heq).2]
  · rename_i hno
    exact absurd rfl (hno _)

theorem numeric_append (h : numeric s = some (point,rest)) :
    s.head? = some 35 ∧ 59 ∈ s ∧ numeric (s ++ t) = some (point,rest ++ t) := by
  rw [numeric.eq_def] at h
  split at h
  · obtain ⟨hmark,happend⟩ := reference_append (t := t) rfl h
    exact ⟨rfl,List.mem_cons_of_mem _ (List.mem_cons_of_mem _ hmark),happend⟩
  · rename_i digits hno
    obtain ⟨hmark,happend⟩ := reference_append (t := t) rfl h
    cases digits with
    | nil => exact absurd hmark List.not_mem_nil
    | cons d digits =>
      have hd : d ≠ 120 := fun hd => hno digits (hd ▸ rfl)
      exact ⟨rfl,List.mem_cons_of_mem _ hmark,(numeric_decimal hd (digits ++ t)).trans happend⟩
  · cases h

theorem entity_append (h : entity s = some (point,rest)) :
    59 ∈ s ∧ entity (s ++ t) = some (point,rest ++ t) := by
  have hnamed : ∀ {s} {e : JsString × Nat},(named.find? fun e => e.1.isPrefixOf s) = some e →
      entity (38 :: s) = some (e.2,s.drop e.1.length) := by
    intro s e he
    rw [entity,he]
  have hnumeric : ∀ {s},(named.find? fun e => e.1.isPrefixOf s) = none → entity (38 :: s) = numeric s := by
    intro s hnone
    rw [entity,hnone]
  rw [entity.eq_def] at h
  split at h
  · rename_i after
    split at h
    · rename_i e he
      obtain ⟨rfl,rfl⟩ := Prod.mk.inj (Option.some.inj h)
      obtain ⟨hpre,hfound⟩ := find_named_append (t := t) he
      obtain ⟨hmark,_⟩ := named_head e (List.mem_of_find?_eq_some he)
      refine ⟨List.mem_cons_of_mem _ (hpre.subset hmark),?_⟩
      rw [List.cons_append,hnamed hfound]
      change some (e.2,(after ++ t).drop e.1.length) = _
      rw [List.drop_append_of_le_length hpre.length_le]
    · obtain ⟨hhead,hmark,happend⟩ := numeric_append (t := t) h
      have hhead' : (after ++ t).head? = some 35 := by
        rw [List.head?_append,hhead]
        rfl
      refine ⟨List.mem_cons_of_mem _ hmark,?_⟩
      rw [List.cons_append,hnumeric (find_named_none hhead')]
      exact happend
  · cases h

theorem noEntity_unended (h : 59 ∉ s) : NoEntity s := fun t ht => by
  cases hentity : entity t with
  | none => rfl
  | some r => exact absurd (ht.subset (entity_append (t := []) hentity).1) h

theorem NoEntity.take (h : NoEntity (s ++ t)) : NoEntity s := fun u hu => by
  obtain ⟨v,rfl⟩ := hu
  cases hentity : entity u with
  | none => rfl
  | some r =>
    have hsuffix : u ++ t <:+ v ++ u ++ t := ⟨v,by rw [List.append_assoc]⟩
    exact nomatch (h _ hsuffix).symm.trans (entity_append hentity).2

theorem NoEntity.drop (h : NoEntity (s ++ t)) : NoEntity t := fun u hu =>
  h u (hu.trans (List.suffix_append s t))

theorem map_append (x : Except TunnelError JsString) (s t : JsString) :
    (x.map (s ++ ·)).map (t ++ ·) = x.map (t ++ s ++ ·) := by
  cases x with
  | error e => rfl
  | ok a => exact congrArg Except.ok (List.append_assoc t s a).symm

theorem unescape_field (hk : 38 ∉ js k) (text rest : JsString) :
    xmlUnescape (field k (xmlEscape text) ++ rest) =
      (xmlUnescape rest).map (field k text ++ ·) := by
  have hmark : ∀ name : JsString,38 ∉ name → 38 ∉ tag name := fun name hname hmem => by
    rcases List.mem_cons.mp hmem with hmem | hmem
    · exact absurd hmem (by decide)
    rcases List.mem_append.mp hmem with hmem | hmem
    · exact hname hmem
    · exact absurd (List.mem_singleton.mp hmem) (by decide)
  have hclosing : 38 ∉ closing (js k) := hmark _ fun hmem => by
    rcases List.mem_cons.mp hmem with hmem | hmem
    · exact absurd hmem (by decide)
    · exact hk hmem
  rw [field,List.append_assoc,List.append_assoc,xmlUnescape_append (hmark _ hk),
    xmlUnescape_escape,xmlUnescape_append hclosing,map_append,map_append,field,List.append_assoc]

theorem unescape_line (method url : JsString) :
    xmlUnescape (line xmlEscape method url) = .ok (line id method url) := by
  have hline : line xmlEscape method url = field "METHOD" (xmlEscape method) ++
      (field "URI" (xmlEscape url) ++ (field "VERSION" (xmlEscape (js "HTTP/1.1")) ++ [])) := by
    rw [line,List.append_assoc,List.append_nil]
    rfl
  rw [hline,unescape_field (by decide),unescape_field (by decide),unescape_field (by decide),
    xmlUnescape_nil,line,List.append_assoc,← List.append_nil (field "VERSION" _)]
  rfl

theorem unescape_item (h : Header) (rest : JsString) :
    xmlUnescape (item xmlEscape h ++ rest) = (xmlUnescape rest).map (item id h ++ ·) := by
  rw [item,List.append_assoc,List.append_assoc,List.append_assoc,
    xmlUnescape_append (by decide),unescape_field (by decide),unescape_field (by decide),
    xmlUnescape_append (by decide),map_append,map_append,map_append]
  simp only [item,List.append_assoc,id_eq]

theorem unescape_items (headers : List Header) :
    xmlUnescape (headers.flatMap (item xmlEscape)) = .ok (headers.flatMap (item id)) := by
  induction headers with
  | nil => exact xmlUnescape_nil
  | cons h headers ih =>
    rw [List.flatMap_cons,unescape_item,ih]
    rfl

theorem index_raw (ht : Name t) (hname : Name name) (hne : name ≠ t)
    (hu : index u (tag name) = none) : index (tag t ++ u) (tag name) = none := by
  have hpiece := index_piece hname ht List.not_mem_nil hne u
  rw [List.append_nil] at hpiece
  exact hpiece.trans (congrArg (Option.map _) hu)

theorem element_iff (pieces : List (JsString × JsString)) (hk : Name (js k))
    (hpieces : Spelled pieces) (habsent : js k ∉ pieces.map Prod.fst) (u post : JsString) :
    element (spell pieces ++ (field k u ++ post)) (js k) = .ok u ↔ Clean (js k) u := by
  rw [field,List.append_assoc,List.append_assoc,element_eq hk (index_spell_none (js k) hk hpieces habsent)]
  exact inside_iff hk u post

def ReadableVersion (url : JsString) : Prop :=
  index url (js "<VERSION>") = none ∨ ∃ i,index url (js "<VERSION>") = some i ∧
    js "HTTP/1.1</VERSION>" <+: url.drop (i + 9)

structure ReadablePath (url : JsString) : Prop where
  clean : Clean (js "URI") url
  version : ReadableVersion url

theorem inside_opened (hopen : index rest (tag name) = some i)
    (hclose : index rest (closing name) = some j) (hlt : i < j) :
    inside name rest = .error (.malformed name) := by
  rw [inside,hclose,hopen]
  exact if_pos (decide_eq_true hlt)

theorem index_before (name : JsString) (h : index u (tag name) = some i) : u = u.take i ++ (tag name ++
    u.drop (i + (tag name).length)) ∧ index (u.take i) (tag name) = none := by
  obtain ⟨hfits,⟨w,hw⟩,hfirst⟩ := index_eq_some.mp h
  have hdrop : u.drop (i + (tag name).length) = w := by
    rw [← List.drop_drop,← hw,List.drop_left]
  refine ⟨?_,index_eq_none.mpr fun j hj hpre => ?_⟩
  · rw [hdrop,hw,List.take_append_drop]
  · rw [List.length_take] at hj
    have hpos : 0 < (tag name).length := Nat.succ_pos _
    exact hfirst j (by omega) (hpre.trans ((List.take_prefix i u).drop j))

theorem index_path (hmethod : 60 ∉ method) (hu : index u (js "<VERSION>") = none) :
    index (field "METHOD" method ++ (tag (js "URI") ++ u)) (js "<VERSION>") = none := by
  rw [← spell_field]
  have hname : Name (js "VERSION") := by decide
  have hraw := index_raw (t := js "URI") (by decide) hname (by decide) hu
  exact (index_spell (by decide) (spelled_field (by decide) hmethod)
    (by change js "VERSION" ∉ [js "METHOD",47 :: js "METHOD"]; decide) _).trans
      (congrArg (Option.map _) hraw)

theorem inside_version (hw : NoEntity w) :
    inside (js "VERSION") (w ++ (closing (js "URI") ++ field "VERSION" (js "HTTP/1.1"))) =
      .ok (js "HTTP/1.1") ↔ js "HTTP/1.1</VERSION>" <+: w := by
  have hname : Name (js "VERSION") := by decide
  constructor
  · intro h
    cases hclose : index w (closing (js "VERSION")) with
    | none =>
      have hclosed : index (w ++ (closing (js "URI") ++ field "VERSION" (js "HTTP/1.1")))
          (closing (js "VERSION")) = some (w.length + 23) :=
        index_append_mark hname.closing.tail hclose _
      have hopen : ∃ i,i < w.length + 23 ∧ index (w ++ (closing (js "URI") ++
          field "VERSION" (js "HTTP/1.1"))) (tag (js "VERSION")) = some i := by
        cases hopen : index w (tag (js "VERSION")) with
        | some i =>
          exact ⟨i,Nat.lt_add_right 23 (index_lt (List.cons_ne_nil 60 _) hopen),index_append_some hopen _⟩
        | none =>
          refine ⟨w.length + 6,Nat.add_lt_add_left (by decide) _,?_⟩
          exact index_append_mark hname.tail hopen _
      obtain ⟨i,hlt,hopen⟩ := hopen
      rw [inside_opened hopen hclosed hlt] at h
      cases h
    | some j =>
      have hle := (index_lt (List.cons_ne_nil 60 _) hclose).le
      rw [inside,index_append_some hclose] at h
      change (if _ then _ else _) = _ at h
      split at h
      · cases h
      rw [List.take_append_of_le_length hle,
        xmlUnescape_self (NoEntity.take (t := w.drop j) (by rwa [List.take_append_drop]))] at h
      have htake := Except.ok.inj h
      obtain ⟨v,hv⟩ := (index_eq_some.mp hclose).2.1
      exact ⟨v,by rw [← List.take_append_drop j w,htake,← hv]; rfl⟩
  · rintro ⟨v,rfl⟩
    exact (inside_iff hname (js "HTTP/1.1") _).mpr ⟨by decide,by decide,noEntity_unmarked (by decide)⟩

theorem version_iff (hmethod : 60 ∉ method) (hurl : NoEntity url) :
    element (line id method url) (js "VERSION") = .ok (js "HTTP/1.1") ↔ ReadableVersion url := by
  have hname : Name (js "VERSION") := by decide
  rw [ReadableVersion]
  cases hfirst : index url (js "<VERSION>") with
  | none =>
    have hpre : index (field "METHOD" method ++ (tag (js "URI") ++ (url ++ closing (js "URI"))))
        (tag (js "VERSION")) = none :=
      index_path hmethod ((index_append_mark hname.tail hfirst _).trans rfl)
    have hline : line id method url = field "METHOD" method ++ (tag (js "URI") ++
        (url ++ closing (js "URI"))) ++ (tag (js "VERSION") ++ (js "HTTP/1.1" ++
          (closing (js "VERSION") ++ []))) := by
      simp only [line,field,List.append_assoc,List.append_nil,id_eq]
    rw [hline,element_eq hname hpre]
    refine iff_of_true ?_ (.inl rfl)
    exact (inside_iff hname (js "HTTP/1.1") _).mpr
      ⟨by decide,by decide,noEntity_unmarked (by decide)⟩
  | some i =>
    obtain ⟨hsplit,hbefore⟩ := index_before (js "VERSION") hfirst
    have hpre : index (field "METHOD" method ++ (tag (js "URI") ++ url.take i))
        (tag (js "VERSION")) = none := index_path hmethod hbefore
    have hline : line id method url = field "METHOD" method ++ (tag (js "URI") ++ url.take i) ++
        (tag (js "VERSION") ++ (url.drop (i + 9) ++ (closing (js "URI") ++
          field "VERSION" (js "HTTP/1.1")))) := by
      conv_lhs => rw [hsplit]
      simp only [line,field,List.append_assoc,id_eq]
      rfl
    have hrest : NoEntity (url.drop (i + 9)) := by
      rw [← List.take_append_drop (i + 9) url] at hurl
      exact hurl.drop
    rw [hline,element_eq hname hpre,inside_version hrest]
    constructor
    · exact fun h => .inr ⟨i,rfl,h⟩
    · rintro (h | ⟨j,hj,h⟩)
      · cases h
      · rw [Option.some.inj hj]
        exact h

theorem method_free (h : isMethod method) : 60 ∉ method ∧ 38 ∉ method := by
  have hall : ∀ c ∈ method,65 ≤ c := fun c hc => by
    simp only [isMethod,Bool.and_eq_true,List.all_eq_true,decide_eq_true_eq] at h
    exact (h.2 c hc).1
  exact ⟨fun hc => absurd (hall 60 hc) (by decide),fun hc => absurd (hall 38 hc) (by decide)⟩

theorem method_read (h : isMethod method) :
    element (line id method url) (js "METHOD") = .ok method := by
  obtain ⟨hmark,hplain⟩ := method_free h
  rw [line,List.append_assoc]
  exact (element_iff [] (by decide) (fun piece hpiece => by cases hpiece)
    List.not_mem_nil method _).mpr (clean_plain hmark hplain)

theorem path_iff (h : isMethod method) :
    element (line id method url) (js "URI") = .ok url ↔ Clean (js "URI") url := by
  rw [line,List.append_assoc,← spell_field]
  exact element_iff _ (by decide) (spelled_field (by decide) (method_free h).1)
    (by change js "URI" ∉ [js "METHOD",47 :: js "METHOD"]; decide) url _

theorem requestLine_iff (engine : Engine) (b : List UInt8) (hpath : isPath url) :
    requestLine engine (document ⟨method,url,headers,b⟩) = .ok (method,url) ↔
      isMethod method ∧ ReadablePath url := by
  have hdocument : requestLine engine (document ⟨method,url,headers,b⟩) = (do
      let found ← element (line id method url) (js "METHOD")
      let path ← element (line id method url) (js "URI")
      let version ← element (line id method url) (js "VERSION")
      if !isMethod (engine.toUpper found) || !isPath path || version ≠ js "HTTP/1.1" then
        .error .invalidRequestLine
      else .ok (engine.toUpper found,path)) := by
    rw [requestLine,element_line,unescape_line]
    rfl
  rw [hdocument]
  constructor
  · intro h
    obtain ⟨found,_,h⟩ := bind_eq_ok h
    obtain ⟨path,hread,h⟩ := bind_eq_ok h
    obtain ⟨version,hversion,h⟩ := bind_eq_ok h
    split at h
    · exact nomatch h
    rename_i hchecks
    obtain ⟨hfound,rfl⟩ := ok_pair h
    simp only [Bool.or_eq_true,Bool.not_eq_true',decide_eq_true_eq,not_or,Bool.not_eq_false,
      not_not] at hchecks
    obtain ⟨⟨hmethod,_⟩,rfl⟩ := hchecks
    rw [hfound] at hmethod
    have hclean := (path_iff hmethod).mp hread
    exact ⟨hmethod,hclean,(version_iff (method_free hmethod).1 hclean.plain).mp hversion⟩
  · rintro ⟨hmethod,hclean,hversion⟩
    have hchecks : ¬(!isMethod method || !isPath url || js "HTTP/1.1" ≠ js "HTTP/1.1") = true := by
      rw [hmethod,hpath]
      decide
    rw [method_read hmethod,(path_iff hmethod).mpr hclean,
      (version_iff (method_free hmethod).1 hclean.plain).mpr hversion]
    change (if (!isMethod (engine.toUpper method) || !isPath url || _) = true then _ else _) = _
    rw [engine.letters method hmethod]
    exact if_neg hchecks

structure ReadableValue (value : JsString) : Prop where
  clean : Clean (js "VALUE") value
  item : index value (js "</item>") = none

theorem token_free (h : isToken name) : 60 ∉ name ∧ 59 ∉ name := by
  simp only [isToken,Bool.and_eq_true,List.all_eq_true] at h
  exact ⟨fun hc => absurd (h.2 60 hc) (by decide),fun hc => absurd (h.2 59 hc) (by decide)⟩

theorem name_read (h : isToken name) (rest : JsString) :
    element (field "NAME" name ++ rest) (js "NAME") = .ok name := by
  obtain ⟨hmark,hplain⟩ := token_free h
  exact (element_iff [] (by decide) (fun piece hpiece => nomatch hpiece)
    List.not_mem_nil name rest).mpr
      ⟨index_unmarked hmark,index_unmarked hmark,noEntity_unended hplain⟩

theorem header_ok {row : JsString} (h : header row = .ok (name,u)) :
    element row (js "NAME") = .ok name ∧ element row (js "VALUE") = .ok u := by
  obtain ⟨found,hfound,h⟩ := bind_eq_ok h
  obtain ⟨value,hvalue,h⟩ := bind_eq_ok h
  split at h
  · exact nomatch h
  · obtain ⟨rfl,rfl⟩ := ok_pair h
    exact ⟨hfound,hvalue⟩

theorem header_iff (hname : isToken name) (hvalue : hasNewline u = false) :
    header (field "NAME" name ++ field "VALUE" u) = .ok (name,u) ↔ Clean (js "VALUE") u := by
  have hvalue_iff : element (field "NAME" name ++ field "VALUE" u) (js "VALUE") = .ok u ↔
      Clean (js "VALUE") u := by
    rw [← spell_field "NAME",← List.append_nil (field "VALUE" u)]
    exact element_iff _ (by decide) (spelled_field (by decide) (token_free hname).1)
      (by change js "VALUE" ∉ [js "NAME",47 :: js "NAME"]; decide) u []
  constructor
  · exact fun h => hvalue_iff.mp (header_ok h).2
  · intro h
    rw [header,name_read hname,hvalue_iff.mpr h]
    change (if (!isToken name || hasNewline u) = true then _ else _) = _
    rw [hname,hvalue]
    rfl

theorem header_cut (hname : isToken name) (hi : i < u.length) :
    header (field "NAME" name ++ (tag (js "VALUE") ++ u.take i)) ≠ .ok (name,u) := by
  intro h
  have hvalue := (header_ok h).2
  rw [← spell_field] at hvalue
  rw [element_eq (by decide) (index_spell_none (js "VALUE") (by decide)
    (spelled_field (by decide) (token_free hname).1)
    (by change js "VALUE" ∉ [js "NAME",47 :: js "NAME"]; decide))] at hvalue
  have hle := inside_length hvalue
  rw [List.length_take] at hle
  omega

theorem rows_none (h : index s (js "<item>") = none) : rows done s = .ok done := by
  rw [rows]
  split
  · rfl
  · rename_i hsome
    cases h.symm.trans hsome

theorem rows_some (h : index s (js "<item>") = some i)
    (hend : index (s.drop (i + 6)) (js "</item>") = some j) :
    rows done s = (do
      let found ← header ((s.drop (i + 6)).take j)
      if 256 < (done ++ [found]).length then .error .tooManyHeaders
      else rows (done ++ [found]) ((s.drop (i + 6)).drop (j + 7))) := by
  rw [rows]
  split
  · rename_i hnone
    cases h.symm.trans hnone
  · rename_i hsome
    obtain rfl := Option.some.inj (h.symm.trans hsome)
    rw [hend]

theorem rows_prefix {found : List Header} (h : rows done s = .ok found) : done <+: found := by
  fun_induction rows done s with
  | case1 done s hnone =>
    rw [← Except.ok.inj h]
  | case2 done s i hsome hnone => exact nomatch h
  | case3 done s i hsome j hend ih =>
    obtain ⟨first,_,h⟩ := bind_eq_ok h
    change (if 256 < (done ++ [first]).length then _ else _) = _ at h
    split at h
    · exact nomatch h
    · exact (List.prefix_append done [first]).trans (ih first h)

theorem rows_first {first : Header} (h : (header s >>= fun found =>
    if 256 < (done ++ [found]).length then .error .tooManyHeaders
    else rows (done ++ [found]) rest) = .ok (done ++ first :: headers)) :
    header s = .ok first ∧ rows (done ++ [first]) rest = .ok (done ++ first :: headers) := by
  obtain ⟨found,hfound,h⟩ := bind_eq_ok h
  split at h
  · exact nomatch h
  have hpre := rows_prefix h
  have heq : found = first :=
    (List.cons_prefix_cons.mp ((List.prefix_append_right_inj done).mp hpre)).1
  subst heq
  exact ⟨hfound,h⟩

theorem index_row (hname : isToken name) (v : JsString) :
    index (field "NAME" name ++ (tag (js "VALUE") ++ v)) (js "</item>") =
      (index v (js "</item>")).map ((field "NAME" name ++ tag (js "VALUE")).length + ·) := by
  have hitem : Name (47 :: js "item") := by decide
  have hspelled : Spelled (fieldPieces "NAME" name ++ [(js "VALUE",[])]) :=
    spelled_append (spelled_field (by decide) (token_free hname).1)
      (List.forall_mem_singleton.mpr ⟨by decide,List.not_mem_nil⟩)
  have hspell : spell (fieldPieces "NAME" name ++ [(js "VALUE",[])]) =
      field "NAME" name ++ tag (js "VALUE") := by
    rw [spell_append,spell_field]
    rfl
  have hindex := index_spell hitem hspelled
    (by change 47 :: js "item" ∉ [js "NAME",47 :: js "NAME",js "VALUE"]; decide) v
  rw [hspell,List.append_assoc] at hindex
  exact hindex

theorem items_start (name u : JsString) (headers : List Header) :
    index (((name,u) :: headers).flatMap (item id)) (js "<item>") = some 0 := by
  simp only [List.flatMap_cons,item,List.append_assoc]
  exact index_self _ _

theorem items_drop (name u : JsString) (headers : List Header) :
    (((name,u) :: headers).flatMap (item id)).drop (0 + 6) =
      field "NAME" name ++ (tag (js "VALUE") ++ (u ++ (closing (js "VALUE") ++
        (js "</item>" ++ headers.flatMap (item id))))) := by
  simp only [List.flatMap_cons,item,field,List.append_assoc,id_eq]
  rfl

theorem rows_cut (hname : isToken name) (hitem : index u (js "</item>") = some i) :
    rows done (((name,u) :: headers).flatMap (item id)) ≠ .ok (done ++ (name,u) :: headers) := by
  have hlt := index_lt (List.cons_ne_nil 60 _) hitem
  have hend : index ((((name,u) :: headers).flatMap (item id)).drop (0 + 6)) (js "</item>") =
      some ((field "NAME" name ++ tag (js "VALUE")).length + i) := by
    rw [items_drop,index_row hname,index_append_some hitem]
    rfl
  intro h
  rw [rows_some (items_start name u headers) hend,items_drop] at h
  have hcut := (rows_first h).1
  rw [← List.append_assoc (field "NAME" name),List.take_length_add_append,
    List.take_append_of_le_length hlt.le,List.append_assoc] at hcut
  exact header_cut hname hlt hcut

theorem rows_whole (hname : isToken name) (hitem : index u (js "</item>") = none) :
    rows done (((name,u) :: headers).flatMap (item id)) =
      (header (field "NAME" name ++ field "VALUE" u) >>= fun found =>
        if 256 < (done ++ [found]).length then .error .tooManyHeaders
        else rows (done ++ [found]) (headers.flatMap (item id))) := by
  have hitemName : Name (47 :: js "item") := by decide
  have hafter : index (closing (js "VALUE") ++ (js "</item>" ++ headers.flatMap (item id)))
      (js "</item>") = some 8 := index_tag hitemName (by decide) _
  have hvalueEnd : index (u ++ (closing (js "VALUE") ++ (js "</item>" ++
      headers.flatMap (item id)))) (js "</item>") = some (u.length + 8) :=
    (index_append_mark hitemName.tail hitem _).trans (congrArg (Option.map _) hafter)
  have hend : index ((((name,u) :: headers).flatMap (item id)).drop (0 + 6)) (js "</item>") =
      some ((field "NAME" name ++ field "VALUE" u).length) := by
    rw [items_drop,index_row hname,hvalueEnd]
    simp only [field,List.length_append,Option.map_some,Nat.add_assoc]
    rfl
  have hrow : (((name,u) :: headers).flatMap (item id)).drop (0 + 6) =
      field "NAME" name ++ field "VALUE" u ++ (js "</item>" ++ headers.flatMap (item id)) := by
    rw [items_drop]
    simp only [field,List.append_assoc]
  rw [rows_some (items_start name u headers) hend,hrow,List.take_left,← List.drop_drop,List.drop_left]
  rfl

theorem rows_iff (hnames : ∀ h ∈ headers,isToken h.1) (hvalues : ∀ h ∈ headers,hasNewline h.2 = false)
    (hcount : done.length + headers.length ≤ 256) :
    rows done (headers.flatMap (item id)) = .ok (done ++ headers) ↔
      ∀ h ∈ headers,ReadableValue h.2 := by
  induction headers generalizing done with
  | nil =>
    rw [List.append_nil]
    exact iff_of_true (rows_none rfl) fun h hh => nomatch hh
  | cons h headers ih =>
    obtain ⟨name,value⟩ := h
    obtain ⟨hname,hnames⟩ := List.forall_mem_cons.mp hnames
    obtain ⟨hvalue,hvalues⟩ := List.forall_mem_cons.mp hvalues
    rw [List.length_cons] at hcount
    have hone : (done ++ [(name,value)]).length = done.length + 1 := List.length_append
    cases hitem : index value (js "</item>") with
    | some i =>
      refine iff_of_false (rows_cut hname hitem) fun h => ?_
      exact nomatch (h (name,value) (List.mem_cons_self ..)).item.symm.trans hitem
    | none =>
      have hnext := @ih (done ++ [(name,value)]) hnames hvalues (by omega)
      rw [List.append_assoc,List.singleton_append] at hnext
      rw [rows_whole hname hitem]
      constructor
      · intro h
        obtain ⟨hfirst,hrest⟩ := rows_first h
        exact List.forall_mem_cons.mpr ⟨⟨(header_iff hname hvalue).mp hfirst,hitem⟩,hnext.mp hrest⟩
      · intro h
        obtain ⟨hfirst,hrest⟩ := List.forall_mem_cons.mp h
        rw [(header_iff hname hvalue).mpr hfirst.clean]
        change (if 256 < (done ++ [(name,value)]).length then _ else _) = _
        rw [if_neg (by omega),hnext.mpr hrest]

structure Readable (engine : Engine) (r : Request) : Prop where
  size : byteLength (document r) ≤ maxXmlBytes
  body : engine.exhausts (toBase64 r.body) = false
  method : isMethod r.method
  path : ReadablePath r.url
  values : ∀ h ∈ r.headers,ReadableValue h.2

theorem body_length (r : Request) : r.body.length ≤ byteLength (document r) := by
  refine (length_toBase64 r.body).trans (le_trans ?_ (length_le_byteLength (document r)))
  simp only [document,field,List.length_append]
  omega

theorem document_root (r : Request) :
    ((js "<REQUEST>").isPrefixOf (document r) && (js "</REQUEST>").isSuffixOf (document r)) =
      true := by
  have hbegins : js "<REQUEST>" <+: document r := by
    rw [document,List.append_assoc,List.append_assoc,List.append_assoc]
    exact List.prefix_append _ _
  have hsuffix : js "</REQUEST>" <:+ document r := List.suffix_append _ _
  rw [List.isPrefixOf_iff_prefix.mpr hbegins,List.isSuffixOf_iff_suffix.mpr hsuffix]
  rfl

theorem parse_eq (engine : Engine) (r : Request) (hsize : byteLength (document r) ≤ maxXmlBytes) :
    parseAdtHttpRequest engine (document r) = (do
      let (method,url) ← requestLine engine (document r)
      let headers ← rows [] (r.headers.flatMap (item id))
      let body ← (if engine.exhausts (toBase64 r.body) then .error .callStack else .ok r.body)
      .ok {method := method,url := url,headers := headers,body := body}) := by
  have hbody := messageBody_document engine r ((body_length r).trans hsize)
  rw [parseAdtHttpRequest,if_neg (Nat.not_lt.mpr hsize),document_root,element_headers,unescape_items,hbody]
  change (if (!true) = true then _ else _) = _
  rw [if_neg (by decide)]
  rfl

theorem parse_size {engine : Engine} {r found : Request}
    (h : parseAdtHttpRequest engine (document r) = .ok found) :
    byteLength (document r) ≤ maxXmlBytes := by
  rw [parseAdtHttpRequest] at h
  split at h
  · exact nomatch h
  · rename_i hsize
    exact Nat.not_lt.mp hsize

theorem parse_parts {engine : Engine} {r : Request}
    (h : parseAdtHttpRequest engine (document r) = .ok r) :
    requestLine engine (document r) = .ok (r.method,r.url) ∧
      rows [] (r.headers.flatMap (item id)) = .ok r.headers ∧
      engine.exhausts (toBase64 r.body) = false := by
  rw [parse_eq engine r (parse_size h)] at h
  obtain ⟨⟨method,url⟩,hline,h⟩ := bind_eq_ok h
  obtain ⟨headers,hrows,h⟩ := bind_eq_ok h
  obtain ⟨body,hbody,h⟩ := bind_eq_ok h
  split at hbody
  · cases hbody
  · rename_i hfits
    have heq := Except.ok.inj h
    refine ⟨?_,?_,Bool.not_eq_true _ ▸ hfits⟩
    · rw [hline,← heq]
    · rw [hrows,← heq]

theorem request_exact (engine : Engine) (r : Request) (hpath : isPath r.url)
    (hnames : ∀ h ∈ r.headers,isToken h.1) (hvalues : ∀ h ∈ r.headers,hasNewline h.2 = false)
    (hcount : r.headers.length ≤ 256) :
    parseAdtHttpRequest engine (document r) = .ok r ↔ Readable engine r := by
  have hline : requestLine engine (document r) = .ok (r.method,r.url) ↔
      isMethod r.method ∧ ReadablePath r.url := requestLine_iff engine r.body hpath
  have hrows : rows [] (r.headers.flatMap (item id)) = .ok r.headers ↔
      ∀ h ∈ r.headers,ReadableValue h.2 :=
    rows_iff hnames hvalues (by rwa [List.length_nil,Nat.zero_add])
  constructor
  · intro h
    obtain ⟨hread,hfound,hfits⟩ := parse_parts h
    obtain ⟨hmethod,hurl⟩ := hline.mp hread
    exact ⟨parse_size h,hfits,hmethod,hurl,hrows.mp hfound⟩
  · rintro ⟨hsize,hfits,hmethod,hurl,hread⟩
    rw [parse_eq engine r hsize,hline.mpr ⟨hmethod,hurl⟩,hrows.mpr hread,hfits]
    rfl

def asciiUpper (s : JsString) : JsString :=
  s.map fun c => if 97 ≤ c && c ≤ 122 then c - 32 else c

def asciiEngine : Engine where
  toUpper := asciiUpper
  exhausts := fun s => 4000000 < s.length
  letters := fun s h => by
    simp only [isMethod,Bool.and_eq_true,List.all_eq_true,decide_eq_true_eq] at h
    refine (List.map_congr_left fun c hc => ?_).trans (List.map_id s)
    have hle := (h.2 c hc).2
    rw [if_neg,id_eq]
    intro hlower
    simp only [Bool.and_eq_true,decide_eq_true_eq] at hlower
    exact absurd (UInt16.le_trans hlower.1 hle) (by decide)

def requestWith (value : JsString) : Request := ⟨js "GET",js "/",[(js "a",value)],[]⟩

theorem clean_word (hmark : 60 ∉ u) (hplain : 38 ∉ u) : ReadableValue u :=
  ⟨clean_plain hmark hplain,index_unmarked hmark⟩

set_option maxRecDepth 10000 in
theorem request_exact_sample :
    parseAdtHttpRequest asciiEngine (document (requestWith (js "b"))) =
      .ok (requestWith (js "b")) := by
  refine (request_exact asciiEngine (requestWith (js "b")) (by decide) (by decide) (by decide)
    (by decide)).mpr ⟨by decide,by decide,by decide,⟨clean_plain (by decide) (by decide),.inl (by decide)⟩,?_⟩
  exact List.forall_mem_singleton.mpr (clean_word (by decide) (by decide))

theorem reference_read_twice :
    parseAdtHttpRequest asciiEngine (document (requestWith (js "&lt;"))) ≠
      .ok (requestWith (js "&lt;")) := by
  intro h
  have hrows : rows [] ([(js "a",js "&lt;")].flatMap (item id)) = .ok [(js "a",js "&lt;")] :=
    (parse_parts h).2.1
  have hread := (rows_iff (by decide) (by decide) (by decide)).mp hrows (js "a",js "&lt;")
    (List.mem_singleton_self _)
  exact absurd (hread.clean.plain _ (List.suffix_refl _)) (by decide)

end OpenSteamgate.Protocols.Tunnel
