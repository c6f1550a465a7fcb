import OpenSteamgate.Gateway.Documents

namespace OpenSteamgate.Gateway.Json

open JsonText

variable {xs raw rest rest' t t' : Text} {ss ss' : List Text} {P P' : Prop}

section strings

theorem body_plain {c : Char} (hslash : c ≠ '\\') (h : Body raw (c :: xs))
    (htext : raw ++ '"' :: rest = c :: t) :
    ' ' ≤ c ∧ ∃ raw',Body raw' xs ∧ raw' ++ '"' :: rest = t := by
  generalize htexts : c :: xs = s at h
  cases h with
  | nil => cases htexts
  | plain d hd h =>
    obtain ⟨rfl,rfl⟩ := List.cons.inj htexts
    rw [JsonText.plain,Bool.and_eq_true,Bool.and_eq_true] at hd
    exact ⟨of_decide_eq_true hd.1.1,_,h,(List.cons.inj htext).2⟩
  | escape | unit | pair => exact absurd (List.cons.inj htext).1.symm hslash

theorem body_escape {e c : Char} (he : simpleEscape e = some c) (h : Body raw (c :: xs))
    (htext : raw ++ '"' :: rest = '\\' :: e :: t) : ∃ raw',Body raw' xs ∧ raw' ++ '"' :: rest = t := by
  have hletter : e ≠ 'u' := by
    rintro rfl
    have hnone : simpleEscape 'u' = none := by decide
    rw [hnone] at he
    cases he
  generalize htexts : c :: xs = s at h
  cases h with
  | nil => cases htexts
  | plain d hd =>
    obtain ⟨rfl,-⟩ := List.cons.inj htext
    exact absurd hd (by decide)
  | escape e' d _ h =>
    obtain ⟨-,rfl⟩ := List.cons.inj htexts
    exact ⟨_,h,(List.cons.inj (List.cons.inj htext).2).2⟩
  | unit | pair => exact absurd (List.cons.inj (List.cons.inj htext).2).1.symm hletter

theorem body_end (h : Body raw []) (htext : raw ++ '"' :: rest = '"' :: t) : rest = t := by
  cases h
  exact (List.cons.inj htext).2

theorem escape_read (h : Body raw xs) (htext : raw ++ '"' :: rest = escape xs ++ '"' :: rest') :
    Escapable xs ∧ rest = rest' := by
  induction xs using Escapable.induct generalizing raw with
  | case1 cs ih =>
    rw [escape_break] at htext
    obtain ⟨raw₁,h₁,htext₁⟩ := body_escape (e := 'r') rfl h htext
    obtain ⟨raw₂,h₂,htext₂⟩ := body_escape (e := 'n') rfl h₁ htext₁
    rw [Escapable]
    exact ih h₂ htext₂
  | case2 c cs hbreak ih =>
    rw [escape_cons (unbroken hbreak)] at htext
    have hstep : (' ' ≤ c ∨ c = '\n' ∨ c = '\t') ∧ Escapable cs ∧ rest = rest' := by
      rcases escaped_cases c with ⟨e,he,hsimple,hc⟩ | ⟨he,hslash,-⟩
      · rw [he] at htext
        obtain ⟨raw₁,h₁,htext₁⟩ := body_escape hsimple h htext
        exact ⟨hc,ih h₁ htext₁⟩
      · rw [he] at htext
        obtain ⟨hle,raw₁,h₁,htext₁⟩ := body_plain hslash h htext
        exact ⟨.inl hle,ih h₁ htext₁⟩
    rw [Escapable]
    · exact ⟨⟨hstep.1,hstep.2.1⟩,hstep.2.2⟩
    · exact hbreak
  | case3 =>
    rw [Escapable]
    exact ⟨trivial,body_end h htext⟩

def Demands (t : Text) (ss : List Text) (P : Prop) : Prop :=
  ∀ rest more,Scans (t ++ rest) (ss ++ more) → P ∧ Scans rest more

theorem demands_transparent (h : Transparent t ss) : Demands t ss True := by
  intro rest more hscans
  obtain ⟨more',heq,hmore⟩ := (h _ _).mp hscans
  exact ⟨trivial,List.append_cancel_left heq ▸ hmore⟩

theorem demands_append (h : Demands t ss P) (h' : Demands t' ss' P') :
    Demands (t ++ t') (ss ++ ss') (P ∧ P') := by
  intro rest more hscans
  rw [List.append_assoc,List.append_assoc] at hscans
  obtain ⟨hp,hscans⟩ := h _ _ hscans
  obtain ⟨hp',hscans⟩ := h' _ _ hscans
  exact ⟨⟨hp,hp'⟩,hscans⟩

theorem demands_mono (h : Demands t ss P) (hp : P → P') : Demands t ss P' := fun rest more hscans =>
  ⟨hp (h rest more hscans).1,(h rest more hscans).2⟩

theorem demands_cons {c : Char} (hc : c ≠ '"') (h : Demands t ss P) : Demands (c :: t) ss P :=
  fun rest more hscans => h rest more ((scans_skip hc).mp hscans)

theorem demands_after (h : Demands t ss P) {c : Char} (hc : c ≠ '"') : Demands (t ++ [c]) ss P := by
  have happend := demands_append h (demands_cons hc (demands_transparent transparent_nil))
  rw [List.append_nil] at happend
  exact demands_mono happend fun hp => hp.1

theorem demands_braced (h : Demands t ss P) : Demands (braced t) ss P :=
  demands_cons (by decide) (demands_after h (by decide))

theorem demands_escaped (xs : Text) : Demands (quoted (escape xs)) [xs] (Escapable xs) := by
  intro rest more hscans
  have htext : quoted (escape xs) ++ rest = '"' :: (escape xs ++ '"' :: rest) := by simp [quoted]
  rw [htext] at hscans
  obtain ⟨raw,s,rest',ss',heq,hbody,hss,hrest⟩ := scans_quote hscans
  obtain ⟨rfl,rfl⟩ := List.cons.inj hss
  obtain ⟨hescapable,rfl⟩ := escape_read hbody heq.symm
  exact ⟨hescapable,hrest⟩

theorem demands_raw (xs : Text) : Demands (quoted xs) [xs] (AllPlain xs) := by
  intro rest more hscans
  have htext : quoted xs ++ rest = '"' :: (xs ++ '"' :: rest) := by simp [quoted]
  rw [htext] at hscans
  exact raw_plain hscans

theorem demands_member {name : Text} (hname : AllPlain name) (h : Demands t ss P) :
    Demands (JsonText.member name t) (name :: ss) P := by
  have hbefore := demands_transparent (transparent_string (body_self hname))
  have happend := demands_append hbefore (demands_cons (c := ':') (by decide) h)
  have htext : JsonText.member name t = '"' :: (name ++ ['"']) ++ ':' :: t := by simp [JsonText.member]
  rw [htext]
  exact demands_mono happend fun hp => hp.2

theorem demands_flat {α : Type} {l : List α} {text : α → Text} {known : α → List Text} {ok : α → Prop}
    (h : ∀ x ∈ l,Demands (text x) (known x) (ok x)) :
    Demands (l.flatMap fun x => ',' :: text x) (l.flatMap known) (∀ x ∈ l,ok x) := by
  induction l with
  | nil => exact demands_mono (demands_transparent transparent_nil) fun _ => List.forall_mem_nil _
  | cons x l ih =>
    have hx := demands_cons (c := ',') (by decide) (h x (List.mem_cons_self ..))
    have happend := demands_append hx (ih fun y hy => h y (List.mem_cons_of_mem _ hy))
    rw [List.flatMap_cons,List.flatMap_cons]
    exact demands_mono happend fun hp => List.forall_mem_cons.mpr hp

end strings

section entities

variable {R : Type} {service : Service} {tree : R → EntitySet → JsonText.Value}
  {inner : R → EntitySet → Text} {row : Record R} {set : EntitySet}
  {inlined : List (Text × Text × JsonText.Value)} {nav : Nav} {shaped clean : R → EntitySet → Prop}

theorem stringsUnder_eq (ms : List (Text × JsonText.Value)) :
    stringsUnder ms = ms.flatMap fun m => m.1 :: strings m.2 := by
  induction ms with
  | nil => rfl
  | cons m ms ih =>
    rw [stringsUnder,List.flatMap_cons,ih]
    rfl

theorem stringsOf_eq (vs : List JsonText.Value) : stringsOf vs = vs.flatMap strings := by
  induction vs with
  | nil => rfl
  | cons v vs ih => rw [stringsOf,List.flatMap_cons,ih]

theorem demands_value {f : Field} {type : EdmType} (h : Typed f type) :
    Demands (valueText f type) (strings (valueTree f type)) (type = .string ∨ type = .other → Escapable f.move) := by
  by_cases htext : type = .string ∨ type = .other
  · have hescaped := demands_escaped f.move
    rcases htext with rfl | rfl
    · exact demands_mono hescaped fun hp _ => hp
    · exact demands_mono hescaped fun hp _ => hp
  · have hreads := value_reads h fun hor => absurd hor htext
    exact demands_mono (demands_transparent (reads_transparent hreads)) fun _ hor => absurd hor htext

theorem demands_deferred (xs : Text) (nav : Nav) :
    Demands (deferred xs nav) (strings (deferredTree xs nav)) (AllPlain xs) := by
  have hname : AllPlain "uri".toList := allPlain_of rfl
  have hdeferred : AllPlain "__deferred".toList := allPlain_of rfl
  have hlink := demands_braced (demands_member hname (demands_raw (xs ++ '/' :: nav.name)))
  exact demands_mono (demands_braced (demands_member hdeferred hlink)) fun hp =>
    (allPlain_append.mp hp).1

theorem demands_listed {rows : List R} {text : R → Text} {value : R → JsonText.Value} {ok : R → Prop}
    (h : ∀ r ∈ rows,Demands (text r) (strings (value r)) (ok r)) :
    Demands ('[' :: (listed (rows.map text) ++ [']'])) (strings (.array (rows.map value)))
      (∀ r ∈ rows,ok r) := by
  refine demands_cons (by decide) (demands_after ?_ (by decide))
  rw [strings,stringsOf_eq,List.flatMap_map]
  cases rows with
  | nil => exact demands_mono (demands_transparent transparent_nil) fun _ => List.forall_mem_nil _
  | cons r rows =>
    have hrest := demands_flat fun x hx => h x (List.mem_cons_of_mem _ hx)
    rw [List.map_cons,listed,List.flatMap_map,List.flatMap_cons]
    exact demands_mono (demands_append (h r (List.mem_cons_self ..)) hrest) fun hp =>
      List.forall_mem_cons.mpr hp

theorem demands_results {rows : List R} {text : R → Text} {value : R → JsonText.Value} {ok : R → Prop}
    (h : ∀ r ∈ rows,Demands (text r) (strings (value r)) (ok r)) :
    Demands (results (rows.map text)) (stringsUnder [resultsTree (rows.map value)]) (∀ r ∈ rows,ok r) := by
  have hname : AllPlain "results".toList := allPlain_of rfl
  have hmember := demands_member hname (demands_listed h)
  rw [stringsUnder_eq,List.flatMap_cons,List.flatMap_nil,List.append_nil]
  exact hmember

theorem demands_nested (hinner : ∀ r target,shaped r target →
    Demands (inner r target) (strings (tree r target)) (clean r target)) (hne : ∀ r target,inner r target ≠ [])
    (hshaped : EachNested service shaped row nav) :
    (nest service row nav = .nothing ∧ nestedText service inner row nav = []) ∨
      ∃ v,nestTree service tree row nav = some v ∧ nestedText service inner row nav ≠ [] ∧
        nest service row nav ≠ .nothing ∧
        Demands (nestedText service inner row nav) (strings v) (EachNested service clean row nav) := by
  rw [EachNested] at hshaped
  unfold EachNested
  rw [nestTree,nestedText]
  cases hnest : nest service row nav with
  | nothing => exact .inl ⟨rfl,rfl⟩
  | structured r target =>
    rw [hnest] at hshaped
    exact .inr ⟨_,rfl,hne r target,by rintro ⟨⟩,hinner r target hshaped⟩
  | table rows target =>
    rw [hnest] at hshaped
    have hnonempty : ∀ x ∈ rows.map (inner · target),x ≠ [] := by
      intro x hx
      obtain ⟨r,_,rfl⟩ := List.mem_map.mp hx
      exact hne r target
    have hresults := demands_braced (demands_results fun r hr => hinner r target (hshaped r hr))
    refine .inr ⟨_,rfl,?_,by rintro ⟨⟩,?_⟩
    · dsimp only
      rw [nested_table hnonempty]
      exact List.cons_ne_nil _ _
    · dsimp only
      rw [nested_table hnonempty]
      exact hresults

def NavClean (service : Service) (clean : R → EntitySet → Prop) (row : Record R) (set : EntitySet)
    (inlined : List (Text × Text × JsonText.Value)) (nav : Nav) : Prop :=
  inlined.lookup nav.name = none → (nest service row nav = .nothing → AllPlain (Json.uri service row set)) ∧
    EachNested service clean row nav

theorem demands_nav (hinner : ∀ r target,shaped r target →
    Demands (inner r target) (strings (tree r target)) (clean r target)) (hne : ∀ r target,inner r target ≠ [])
    (hshaped : Shaped service shaped row set) (hinlined : ∀ x ∈ inlined,Document x.2.1 x.2.2)
    (hnav : nav ∈ set.navs) :
    Demands (linkText service inner row set (inlined.map fun x => (x.1,x.2.1)) nav)
      (strings (navTree service tree row set inlined nav)) (NavClean service clean row set inlined nav) := by
  rw [linkText,navTree,lookup_texts]
  unfold NavClean
  cases hlookup : inlined.lookup nav.name with
  | some json =>
    obtain ⟨l₁,l₂,hsplit,-⟩ := List.lookup_eq_some_iff.mp hlookup
    have hdocument := hinlined (nav.name,json)
      (by rw [hsplit]; exact List.mem_append_right _ (List.mem_cons_self ..))
    refine demands_mono (demands_transparent (document_transparent hdocument)) fun _ hnone => ?_
    cases hnone
  | none =>
    rcases demands_nested hinner hne (hshaped.nested nav hnav) with
      ⟨hnothing,htext⟩ | ⟨v,htree,hnonempty,hsome,hdemands⟩
    · have htree : nestTree service tree row nav = none := by rw [nestTree,hnothing]
      have hlink := demands_deferred (uri service row set) nav
      simp only [Option.map_none,htext,htree,if_true,Option.getD_none]
      refine demands_mono hlink fun hp _ => ⟨fun _ => hp,?_⟩
      rw [EachNested,hnothing]
      trivial
    · simp only [Option.map_none,htree,if_neg hnonempty,Option.getD_some]
      exact demands_mono hdemands fun hp _ => ⟨fun hno => absurd hno hsome,hp⟩

theorem demands_metadata (htype : AllPlain ys) : Demands
    (braced (member "id" (quoted (escape xs)) ++ ',' :: member "uri" (quoted (escape xs)) ++
      ',' :: member "type" (quoted ys) ++ media set (escape xs)))
    (strings (.object (("id".toList,.string xs) :: ("uri".toList,.string xs) :: ("type".toList,.string ys) ::
      mediaTree set xs))) (Escapable xs) := by
  intro rest more hscans
  have hname : AllPlain "id".toList := allPlain_of rfl
  have hfirst := demands_cons (c := '{') (by decide) (demands_member hname (demands_escaped xs))
  -- the first string decides about the text that the others repeat
  have hescapable : Escapable xs := by
    refine (hfirst (',' :: member "uri" (quoted (escape xs)) ++ ',' :: member "type" (quoted ys) ++
      media set (escape xs) ++ '}' :: rest) (stringsUnder (("uri".toList,.string xs) ::
      ("type".toList,.string ys) :: mediaTree set xs) ++ more) ?_).1
    have htext : ∀ a b c d : Text,braced (a ++ b ++ c ++ d) ++ rest = '{' :: a ++ (b ++ c ++ d ++ '}' :: rest) := by
      intro a b c d
      simp [braced]
    rw [htext] at hscans
    exact hscans
  have hreads := reads_transparent (@uri_members _ _ set hescapable htype)
  exact ⟨hescapable,(demands_transparent hreads rest more hscans).2⟩

theorem demands_entity (hspace : AllPlain service.nameSpace) (hinner : ∀ r target,shaped r target →
    Demands (inner r target) (strings (tree r target)) (clean r target)) (hne : ∀ r target,inner r target ≠ [])
    (hshaped : Shaped service shaped row set) (hinlined : ∀ x ∈ inlined,Document x.2.1 x.2.2) :
    Demands (entityText service inner row set (inlined.map fun x => (x.1,x.2.1)))
      (strings (entityTree service tree row set inlined)) (Clean service clean row set inlined) := by
  have htype : AllPlain (service.nameSpace ++ '.' :: set.entityType) :=
    allPlain_append.mpr ⟨hspace,List.forall_mem_cons.mpr ⟨rfl,hshaped.entityType⟩⟩
  have hname : AllPlain "__metadata".toList := allPlain_of rfl
  have hmeta := demands_member hname (@demands_metadata (uri service row set) set _ htype)
  have hfields := demands_flat fun x (hx : x ∈ row.fields set) =>
    demands_member (hshaped.properties _ (mem_fields.mp hx).1)
      (demands_value (hshaped.typed _ (mem_fields.mp hx).1 x.2 (mem_fields.mp hx).2))
  have hnavs := demands_flat fun nav hnav => demands_member (hshaped.navs nav hnav)
    (demands_nav hinner hne hshaped hinlined hnav)
  have hall := demands_braced (demands_append hmeta (demands_append hfields hnavs))
  rw [entityText,document,entityTree,strings,stringsUnder,stringsUnder_eq,List.flatMap_append,List.flatMap_append,
    List.flatMap_map,List.flatMap_map,List.flatMap_map,List.flatMap_map]
  refine demands_mono hall fun hp => ⟨hp.1,fun p hp' f hf => ?_,fun nav hnav hnone hnothing => ?_,
    fun nav hnav hnone => (hp.2.2 nav hnav hnone).2⟩
  · exact hp.2.1 (p,f) (mem_fields.mpr ⟨hp',hf⟩)
  · exact (hp.2.2 nav hnav hnone).1 hnothing

theorem demands_deep (hspace : AllPlain service.nameSpace) (n : Nat) (row : Deep n) (set : EntitySet)
    (hshaped : DeepShaped service n row set) :
    Demands (deepText service n row set) (strings (deepTree service n row set)) (DeepClean service n row set) := by
  induction n generalizing set with
  | zero => exact row.elim
  | succ n ih =>
    have hne : ∀ r target,deepText service n r target ≠ [] := by
      intro r target
      cases n with
      | zero => exact r.elim
      | succ n => exact entityText_ne service (deepText service n) r target []
    rw [deepText,deepTree]
    exact @demands_entity _ _ _ _ _ _ [] _ _ hspace (fun r target => ih r target) hne hshaped
      (List.forall_mem_nil _)

end entities

section responses

variable {n : Nat} {service : Service} {row : Row n} {set : EntitySet} {v : JsonText.Value}
  {inlined : List (Text × Text × JsonText.Value)} {inlinecount code message : Text}

abbrev RowShaped (service : Service) (row : Row n) (set : EntitySet) : Prop :=
  Shaped service (DeepShaped service n) row set

abbrev RowClean (service : Service) (row : Row n) (set : EntitySet)
    (inlined : List (Text × Text × JsonText.Value)) : Prop :=
  Clean service (DeepClean service n) row set inlined

def rowTree (service : Service) (row : Row n) (set : EntitySet)
    (inlined : List (Text × Text × JsonText.Value)) : JsonText.Value :=
  entityTree service (deepTree service n) row set inlined

def errorTree (code message : Text) : JsonText.Value :=
  .object [("error".toList,.object [("code".toList,.string code),("message".toList,
    .object [("lang".toList,.string "en".toList),("value".toList,.string message)])])]

theorem document_iff (hdemands : Demands t (strings v) P) (hreads : P → Reads t v) : Document t v ↔ P := by
  constructor
  · intro h
    refine (hdemands [] [] ?_).1
    rw [List.append_nil,List.append_nil]
    exact document_scans h
  · exact fun hp => document_of (hreads hp)

theorem row_reads (hspace : AllPlain service.nameSpace) (hshaped : RowShaped service row set)
    (hinlined : ∀ x ∈ inlined,Document x.2.1 x.2.2) (hclean : RowClean service row set inlined) :
    Reads (rowText service row set (inlined.map fun x => (x.1,x.2.1))) (rowTree service row set inlined) :=
  entityText_reads hspace (fun r target => deepText_reads hspace n r target) hshaped hclean hinlined

theorem row_demands (hspace : AllPlain service.nameSpace) (hshaped : RowShaped service row set)
    (hinlined : ∀ x ∈ inlined,Document x.2.1 x.2.2) :
    Demands (rowText service row set (inlined.map fun x => (x.1,x.2.1)))
      (strings (rowTree service row set inlined)) (RowClean service row set inlined) := by
  refine demands_entity hspace (fun r target => demands_deep hspace n r target) (fun r target => ?_)
    hshaped hinlined
  cases n with
  | zero => exact r.elim
  | succ n => exact entityText_ne service (deepText service n) r target []

theorem demands_named (name : String) (hname : AllPlain name.toList) (h : Demands t ss P) :
    Demands (braced (member name t)) (name.toList :: ss) P :=
  demands_braced (demands_member hname h)

theorem demands_feed {rows : List (Row n)} (hspace : AllPlain service.nameSpace)
    (hshaped : ∀ row ∈ rows,RowShaped service row set) (hcount : AllPlain inlinecount) :
    Demands (feedText service rows set inlinecount)
      (strings (feedTree (rows.map (rowTree service · set [])) inlinecount))
      (∀ row ∈ rows,RowClean service row set []) := by
  have hne : ∀ x ∈ rows.map fun row => rowText service row set [],x ≠ [] := by
    intro x hx
    obtain ⟨row,_,rfl⟩ := List.mem_map.mp hx
    exact entityText_ne service (deepText service n) row set []
  have hrow : ∀ row ∈ rows,Demands (rowText service row set []) (strings (rowTree service row set []))
      (RowClean service row set []) := fun row hrow =>
    @row_demands _ _ _ _ [] hspace (hshaped row hrow) (List.forall_mem_nil _)
  have hresults := demands_results hrow
  have hd : AllPlain "d".toList := allPlain_of rfl
  have hname : AllPlain "__count".toList := allPlain_of rfl
  rw [feedText,feedOf_eq hne,feedTree,strings,stringsUnder,stringsUnder,List.append_nil]
  split
  · rw [List.append_nil]
    exact demands_named "d" hd (demands_braced hresults)
  · have hmember := demands_cons (c := ',') (by decide)
      (demands_member hname (demands_transparent (transparent_string (body_self hcount))))
    have hsame : ∀ m : Text × JsonText.Value,strings (.object [m,("__count".toList,.string inlinecount)]) =
        stringsUnder [m] ++ ["__count".toList,inlinecount] := by
      intro m
      rw [strings,stringsUnder_eq,stringsUnder_eq]
      simp [strings]
    have hall := demands_named "d" hd (demands_braced (demands_append hresults hmember))
    rw [hsame]
    exact demands_mono hall fun hp => hp.1

theorem feed_reads {rows : List (Row n)} (hspace : AllPlain service.nameSpace)
    (hshaped : ∀ row ∈ rows,RowShaped service row set) (hcount : AllPlain inlinecount)
    (hclean : ∀ row ∈ rows,RowClean service row set []) :
    Reads (feedText service rows set inlinecount) (feedTree (rows.map (rowTree service · set [])) inlinecount) := by
  have hall : ∀ x ∈ rows.map fun row => (rowText service row set [],rowTree service row set []),
      Reads x.1 x.2 ∧ x.1 ≠ [] := by
    intro x hx
    obtain ⟨row,hrow,rfl⟩ := List.mem_map.mp hx
    exact ⟨@row_reads _ _ _ _ [] hspace (hshaped row hrow) (List.forall_mem_nil _) (hclean row hrow),
      entityText_ne service (deepText service n) row set []⟩
  have hreads := feedOf_reads (fun x hx => (hall x hx).1) (fun x hx => (hall x hx).2) hcount
  rw [List.map_map,List.map_map] at hreads
  exact hreads

theorem error_reads (hcode : Escapable code) (hmessage : Escapable message) :
    Reads (error code message) (errorTree code message) := by
  have hlang : Reads (quoted "en".toList) (.string "en".toList) := .string (body_literal rfl)
  have hinner := members_more (@body_literal "lang".toList rfl) (document_of hlang)
    (members_one (@body_literal "value".toList rfl) (document_of (.string (escape_body hmessage))))
  have houter := members_more (@body_literal "code".toList rfl)
    (document_of (.string (escape_body hcode)))
    (members_one (@body_literal "message".toList rfl) (document_of (.object hinner)))
  exact .object (members_one (@body_literal "error".toList rfl) (document_of (.object houter)))

theorem error_demands : Demands (error code message) (strings (errorTree code message))
    (Escapable code ∧ Escapable message) := by
  have hlang := demands_transparent (transparent_string (@body_literal "en".toList rfl))
  have hname : ∀ name ∈ ["lang","value","code","message","error"],AllPlain name.toList := by
    simp [AllPlain,JsonText.plain]
  have hinner := demands_append (demands_member (hname "lang" (by decide)) hlang)
    (demands_cons (c := ',') (by decide) (demands_member (hname "value" (by decide)) (demands_escaped message)))
  have houter := demands_append (demands_member (hname "code" (by decide)) (demands_escaped code))
    (demands_cons (c := ',') (by decide) (demands_member (hname "message" (by decide)) (demands_braced hinner)))
  exact demands_mono (demands_named "error" (hname "error" (by decide)) (demands_braced houter))
    fun hp => ⟨hp.1,hp.2.2⟩

theorem responses_exact (hspace : AllPlain service.nameSpace) :
    (∀ (row : Row n) (inlined : List (Text × Text × JsonText.Value)) (text : Text),RowShaped service row set →
      (∀ x ∈ inlined,Document x.2.1 x.2.2) →
      (entity service row set (inlined.map fun x => (x.1,x.2.1)) = .ok text →
        (Document text (rowTree service row set inlined) ↔ RowClean service row set inlined)) ∧
      (entry service row set (inlined.map fun x => (x.1,x.2.1)) = .ok text →
        (Document text (.object [("d".toList,rowTree service row set inlined)]) ↔
          RowClean service row set inlined))) ∧
    (∀ (rows : List (Row n)) (inlinecount text : Text),(∀ row ∈ rows,RowShaped service row set) →
      AllPlain inlinecount → feed service rows set inlinecount = .ok text →
        (Document text (feedTree (rows.map (rowTree service · set [])) inlinecount) ↔
          ∀ row ∈ rows,RowClean service row set [])) ∧
    ∀ code message,Document (error code message) (errorTree code message) ↔
      Escapable code ∧ Escapable message := by
  have hd : AllPlain "d".toList := allPlain_of rfl
  refine ⟨fun row inlined text hshaped hinlined => ⟨fun h => ?_,fun h => ?_⟩,
    fun rows inlinecount text hshaped hcount h => ?_,fun code message => ?_⟩
  · rw [entity_returned h]
    exact document_iff (row_demands hspace hshaped hinlined) (row_reads hspace hshaped hinlined)
  · obtain ⟨inner,hinner,h⟩ := bind_eq_ok h
    rw [← Except.ok.inj h,entity_returned hinner]
    have hdemands := demands_named "d" hd (row_demands hspace hshaped hinlined)
    refine document_iff (P := RowClean service row set inlined) ?_ fun hclean => ?_
    · rw [strings,stringsUnder,stringsUnder,List.append_nil]
      exact hdemands
    · exact .object (members_one (body_self hd) (document_of (row_reads hspace hshaped hinlined hclean)))
  · rw [feed_returned h]
    exact document_iff (demands_feed hspace hshaped hcount) (feed_reads hspace hshaped hcount)
  · exact document_iff error_demands fun hp => error_reads hp.1 hp.2

def keyedSet : EntitySet where
  name := "Set".toList
  entityType := "Type".toList
  properties := [{name := "Id".toList,fieldname := "ID".toList,edmType := .string,isKey := true}]
  navs := [{name := "Items".toList,targetSet := "Items".toList}]

def keyedService : Service := ⟨[],"NS".toList,"http://h".toList⟩

def keyedRow (key : Text) : Row 0 := [("ID".toList,.field (.character key))]

theorem keyedRow_shaped (key : Text) : RowShaped keyedService (keyedRow key) keyedSet where
  entityType := allPlain_of rfl
  properties := fun p hp => by
    obtain rfl := List.mem_singleton.mp hp
    exact allPlain_of rfl
  navs := fun nav hnav => by
    obtain rfl := List.mem_singleton.mp hnav
    exact allPlain_of rfl
  typed := by
    intro p hp f hf
    obtain rfl := List.mem_singleton.mp hp
    trivial
  nested := by
    intro nav hnav
    obtain rfl := List.mem_singleton.mp hnav
    trivial

theorem keyedRow_returned (key : Text) : entity keyedService (keyedRow key) keyedSet [] =
    .ok (rowText keyedService (keyedRow key) keyedSet []) := rfl

theorem raw_characters : (∃ text,entry keyedService (keyedRow [Char.ofNat 1]) keyedSet [] = .ok text ∧
      ∀ v,¬Document text v) ∧
    ∃ text,entity keyedService (keyedRow "a\\b".toList) keyedSet [] = .ok text ∧
      ¬Document text (rowTree keyedService (keyedRow "a\\b".toList) keyedSet []) := by
  refine ⟨⟨braced (member "d" (rowText keyedService (keyedRow [Char.ofNat 1]) keyedSet [])),rfl,fun v h => ?_⟩,
    _,keyedRow_returned _,fun h => ?_⟩
  · have hmem : Char.ofNat 1 ∈ braced (member "d" (rowText keyedService (keyedRow [Char.ofNat 1]) keyedSet [])) := by
      decide
    exact absurd (document_ordinary h _ hmem) (by decide)
  · have hspace : AllPlain keyedService.nameSpace := allPlain_of rfl
    have hclean := ((@row_demands _ _ _ _ [] hspace (keyedRow_shaped _) (List.forall_mem_nil _)) [] []
      (by rw [List.append_nil,List.append_nil]; exact document_scans h)).1
    have hplain := hclean.links _ (List.mem_singleton_self _) rfl rfl
    exact absurd (hplain '\\' (by decide)) (by decide)

theorem quotes_carried : ∃ text,entry keyedService (keyedRow "it's".toList) keyedSet [] = .ok text ∧
    Document text (.object [("d".toList,rowTree keyedService (keyedRow "it's".toList) keyedSet [])]) := by
  have hspace : AllPlain keyedService.nameSpace := allPlain_of rfl
  refine ⟨_,rfl,((responses_exact hspace).1 (keyedRow "it's".toList) [] _ (keyedRow_shaped _)
    (List.forall_mem_nil _)).2 rfl |>.mpr ?_⟩
  refine ⟨escapable_of (ordinary_literal rfl),fun p hp f hf _ => ?_,fun nav hnav _ _ => ?_,fun nav hnav _ => ?_⟩
  · obtain rfl := List.mem_singleton.mp hp
    obtain rfl := Option.some.inj hf
    exact escapable_of (ordinary_literal rfl)
  · exact allPlain_of rfl
  · obtain rfl := List.mem_singleton.mp hnav
    trivial

end responses

end OpenSteamgate.Gateway.Json
