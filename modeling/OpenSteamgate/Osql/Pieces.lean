import OpenSteamgate.Library.Outcome
import OpenSteamgate.Osql.Writes

namespace OpenSteamgate.Osql

open Lexeme

inductive Hole
  | lit (value : Value Text) (type : IRType)
  | param (name : Text) (value : Value Text) (type : IRType) (isNull : Bool)

inductive Piece
  | text (s : Text)
  | ident (name : Text)
  | hole (node : Hole)
  | empty

def Hole.bound (n : Nat) : Hole → Param
  | .lit value type => ⟨'p' :: Nat.toDigits 10 n,value,type.seam,value == .null⟩
  | .param name value type isNull => ⟨name,value,type.seam,isNull⟩

section trees

variable (dialect : Dialect)

def separated (sep : Text) : List (List Piece) → List Piece
  | [] => []
  | [ps] => ps
  | ps :: qs :: rest => ps ++ .text sep :: separated sep (qs :: rest)

def binPieces (op : Op) (type : IRType) (l r : List Piece) : List Piece :=
  if op = .div then
    if type.abap = .I then .text ['('] :: l ++ .text " / ".toList :: r ++ [.text [')']]
    else .text "((".toList :: l ++ .text ") * 1.0 / (".toList :: r ++ [.text "))".toList]
  else .text ['('] :: l ++ .text (' ' :: op.code ++ [' ']) :: r ++ [.text [')']]

def likePieces (e p : List Piece) (esc : Option (List Piece)) (neg : Bool) : List Piece :=
  .text ['('] :: e ++ .text ((if neg then " NOT".toList else []) ++ " LIKE ".toList) :: p ++
    (match esc with
      | some esc => .text " ESCAPE ".toList :: esc
      | none => if dialect = .postgres then [.text " ESCAPE ".toList,.empty] else []) ++
    [.text [')']]

mutual

def piecesOf : GoIR → List Piece
  | .col name source _ =>
    match source with
    | none => [.ident name]
    | some source => [.ident source,.text ['.'],.ident name]
  | .lit value type =>
    match jsNumber value with
    | some s => [.text s]
    | none => [.hole (.lit value type)]
  | .param name value type isNull => [.hole (.param name value type isNull)]
  | .bin op left right type => binPieces op type (piecesOf left) (piecesOf right)
  | .isnull expr => .text ['('] :: piecesOf expr ++ [.text " IS NULL)".toList]
  | .not expr => .text "(NOT ".toList :: piecesOf expr ++ [.text [')']]
  | .like expr pattern escape negated =>
    likePieces dialect (piecesOf expr) (piecesOf pattern) (optionPieces escape) negated
  | .inList expr values negated =>
    .text ['('] :: piecesOf expr ++
      .text ((if negated then " NOT".toList else []) ++ " IN (".toList) ::
      separated ", ".toList (listPieces values) ++ [.text "))".toList]

def optionPieces : Option GoIR → Option (List Piece)
  | none => none
  | some e => some (piecesOf e)

def listPieces : List GoIR → List (List Piece)
  | [] => []
  | e :: es => piecesOf e :: listPieces es

end

end trees

section rendering

variable (casing : Casing) (dialect : Dialect)

def renderPiece : Piece → List Param → Except Refused (Text × List Param)
  | .text s,params => .ok (s,params)
  | .ident name,params => .ok (quote name,params)
  | .hole node,params => do
    let param := node.bound params.length
    let sql ← placeholder casing dialect (params.length + 1) param.type
    .ok (sql,params ++ [param])
  | .empty,params => .ok (['\'','\''],params)

@[grind =] def render : List Piece → List Param → Except Refused (Text × List Param)
  | [],params => .ok ([],params)
  | p :: ps,params => do
    let (s,params) ← renderPiece casing dialect p params
    let (t,params) ← render ps params
    .ok (s ++ t,params)

end rendering

variable {casing : Casing} {dialect : Dialect} {ps qs : List Piece} {params params' params'' : List Param}
  {s t : Text}

def Renders (casing : Casing) (dialect : Dialect) (ps : List Piece) (params : List Param) (s : Text)
    (params' : List Param) : Prop :=
  render casing dialect ps params = .ok (s,params')

namespace Renders

theorem nil : Renders casing dialect [] params [] params := rfl

theorem append (h : Renders casing dialect ps params s params')
    (h' : Renders casing dialect qs params' t params'') :
    Renders casing dialect (ps ++ qs) params (s ++ t) params'' := by
  induction ps generalizing params s with
  | nil =>
    cases h
    exact h'
  | cons p ps ih =>
    obtain ⟨⟨u,params₁⟩,hp,hrest⟩ := bind_eq_ok h
    obtain ⟨⟨v,params₂⟩,hps,hret⟩ := bind_eq_ok hrest
    cases hret
    have hall := ih hps
    rw [Renders] at hall ⊢
    rw [List.cons_append,render,hp]
    change (render casing dialect (ps ++ qs) params₁ >>= _) = _
    rw [hall,List.append_assoc]
    rfl

theorem text (u : Text) (h : Renders casing dialect ps params s params') :
    Renders casing dialect (.text u :: ps) params (u ++ s) params' := by
  rw [Renders,render]
  change (render casing dialect ps params >>= _) = _
  rw [h]
  rfl

theorem ident (name : Text) (h : Renders casing dialect ps params s params') :
    Renders casing dialect (.ident name :: ps) params (quote name ++ s) params' := by
  rw [Renders,render]
  change (render casing dialect ps params >>= _) = _
  rw [h]
  rfl

theorem words (u : Text) : Renders casing dialect [.text u] params u params := by
  have h : Renders casing dialect [.text u] params (u ++ []) params := nil.text u
  rwa [List.append_nil] at h

theorem hole {node : Hole}
    (h : placeholder casing dialect (params.length + 1) (node.bound params.length).type = .ok s) :
    Renders casing dialect [.hole node] params s (params ++ [node.bound params.length]) := by
  rw [Renders,render,renderPiece,h]
  exact congrArg (fun s => Except.ok (s,_)) (List.append_nil s)

theorem between (u v : Text) (h : Renders casing dialect ps params s params') :
    Renders casing dialect (.text u :: ps ++ [.text v]) params (u ++ s ++ v) params' :=
  (text u h).append (words v)

end Renders

inductive RendersAll (casing : Casing) (dialect : Dialect) :
    List (List Piece) → List Param → List Text → List Param → Prop
  | nil (params : List Param) : RendersAll casing dialect [] params [] params
  | cons {ps : List Piece} {pss : List (List Piece)} {params params' params'' : List Param}
      {s : Text} {ss : List Text} : Renders casing dialect ps params s params' →
      RendersAll casing dialect pss params' ss params'' →
      RendersAll casing dialect (ps :: pss) params (s :: ss) params''

theorem RendersAll.separated {pss : List (List Piece)} {ss : List Text} (sep : Text)
    (h : RendersAll casing dialect pss params ss params') :
    Renders casing dialect (separated sep pss) params (sep.intercalate ss) params' := by
  induction h with
  | nil => exact .nil
  | cons hp hps ih =>
    cases hps with
    | nil => simpa [Osql.separated] using hp
    | cons hq hqs =>
      rw [Osql.separated,List.intercalate_cons_cons]
      have hall := hp.append (ih.text sep)
      rwa [← List.append_assoc] at hall

theorem renders_bindParam {node : Hole} {name : Text} {value : Value Text} {type : IRType}
    {isNull : Bool} (hnode : node.bound params.length = ⟨name,value,type.seam,isNull⟩)
    (h : bindParam casing dialect name value type isNull params = .ok (s,params')) :
    Renders casing dialect [.hole node] params s params' := by
  obtain ⟨sql,hsql,hret⟩ := bind_eq_ok h
  cases hret
  rw [← hnode]
  refine .hole ?_
  rw [hnode,← hsql,List.length_append]
  rfl

theorem renders_bin {op : Op} {type : IRType} {l r : Text}
    (hl : Renders casing dialect ps params l params') (hr : Renders casing dialect qs params' r params'')
    (h : binText dialect op type l r = .ok s) :
    Renders casing dialect (binPieces op type ps qs) params s params'' := by
  have hall (u v w : Text) := ((hl.text u).append (hr.between v w))
  unfold binText at h
  unfold binPieces
  split at h
  · next hop =>
    rw [if_pos hop]
    split at h
    · cases h
    split at h
    · next ht =>
      cases h
      rw [if_pos ht]
      simpa using hall ['('] " / ".toList [')']
    · next ht =>
      cases h
      rw [if_neg ht]
      simpa using hall "((".toList ") * 1.0 / (".toList "))".toList
  · next hop =>
    cases h
    rw [if_neg hop]
    simpa using hall ['('] (' ' :: op.code ++ [' ']) [')']

def RendersOption (casing : Casing) (dialect : Dialect) : Option (List Piece) → List Param →
    Option Text → List Param → Prop
  | some es,params,some esc,params' => Renders casing dialect es params esc params'
  | none,params,none,params' => params' = params
  | _,_,_,_ => False

theorem renders_like {e p : Text} {esc : Option Text} {es : Option (List Piece)} {neg : Bool}
    {params₁ : List Param} (he : Renders casing dialect ps params e params₁)
    (hp : Renders casing dialect qs params₁ p params')
    (hesc : RendersOption casing dialect es params' esc params'') :
    Renders casing dialect (likePieces dialect ps qs es neg) params (likeText dialect e p esc neg)
      params'' := by
  have hhead := (he.text ['(']).append (hp.text ((if neg then " NOT".toList else []) ++ " LIKE ".toList))
  unfold likePieces likeText
  cases es with
  | some es =>
    cases esc with
    | none => exact hesc.elim
    | some esc =>
      have hall := hhead.append (hesc.between " ESCAPE ".toList [')'])
      by_cases hd : dialect = .postgres
      · simpa [hd] using hall
      · simpa [hd] using hall
  | none =>
    cases esc with
    | some esc => exact hesc.elim
    | none =>
      obtain rfl := hesc
      by_cases hd : dialect = .postgres
      · have hempty : Renders casing dialect
            [.text " ESCAPE ".toList,.empty,.text [')']] params'' " ESCAPE '')".toList params'' := rfl
        simpa [hd] using hhead.append hempty
      · simpa [hd] using hhead.append (.words [')'])

mutual

theorem lower_renders (e : GoIR) (params : List Param) {s : Text} {params' : List Param}
    (h : lower casing dialect e params = .ok (s,params')) :
    Renders casing dialect (piecesOf dialect e) params s params' := by
  cases e with
  | col name source type =>
    unfold lower at h
    cases h
    cases source with
    | none => exact congrArg (fun s => Except.ok (s,params)) (List.append_nil (quote name))
    | some source =>
      have hname : Renders casing dialect [.ident name] params (quote name ++ []) params :=
        Renders.nil.ident name
      rw [List.append_nil] at hname
      exact (hname.text ['.']).ident source
  | lit value type =>
    rw [lower] at h
    cases hn : jsNumber value with
    | some n =>
      have hpieces : piecesOf dialect (.lit value type) = [.text n] := by simp [piecesOf,hn]
      simp only [hn] at h
      cases h
      rw [hpieces]
      exact .words s
    | none =>
      have hpieces : piecesOf dialect (.lit value type) = [.hole (.lit value type)] := by
        simp [piecesOf,hn]
      simp only [hn] at h
      rw [hpieces]
      exact renders_bindParam rfl h
  | param name value type isNull =>
    rw [lower] at h
    exact renders_bindParam rfl h
  | bin op left right type =>
    rw [lower] at h
    obtain ⟨⟨l,params₁⟩,hl,h⟩ := bind_eq_ok h
    obtain ⟨⟨r,params₂⟩,hr,h⟩ := bind_eq_ok h
    obtain ⟨sql,hsql,hret⟩ := bind_eq_ok h
    cases hret
    exact renders_bin (lower_renders left params hl) (lower_renders right params₁ hr) hsql
  | isnull expr =>
    rw [lower] at h
    obtain ⟨⟨x,params₁⟩,hx,hret⟩ := bind_eq_ok h
    cases hret
    exact (lower_renders expr params hx).between ['('] " IS NULL)".toList
  | not expr =>
    rw [lower] at h
    obtain ⟨⟨x,params₁⟩,hx,hret⟩ := bind_eq_ok h
    cases hret
    exact (lower_renders expr params hx).between "(NOT ".toList [')']
  | like expr pattern escape negated =>
    rw [lower] at h
    obtain ⟨⟨x,params₁⟩,hx,h⟩ := bind_eq_ok h
    obtain ⟨⟨p,params₂⟩,hp,h⟩ := bind_eq_ok h
    obtain ⟨⟨esc,params₃⟩,hesc,hret⟩ := bind_eq_ok h
    cases hret
    exact renders_like (lower_renders expr params hx) (lower_renders pattern params₁ hp)
      (lowerOption_renders escape params₂ hesc)
  | inList expr list negated =>
    rw [lower] at h
    obtain ⟨⟨x,params₁⟩,hx,h⟩ := bind_eq_ok h
    obtain ⟨⟨vals,params₂⟩,hvals,hret⟩ := bind_eq_ok h
    cases hret
    have hall := ((lower_renders expr params hx).text ['(']).append
      (((lowerList_renders list params₁ hvals).separated ", ".toList).between
        ((if negated then " NOT".toList else []) ++ " IN (".toList) "))".toList)
    simpa [piecesOf] using hall

theorem lowerOption_renders (e : Option GoIR) (params : List Param) {esc : Option Text}
    {params' : List Param} (h : lowerOption casing dialect e params = .ok (esc,params')) :
    RendersOption casing dialect (optionPieces dialect e) params esc params' := by
  cases e with
  | none =>
    rw [lowerOption] at h
    cases h
    rfl
  | some e =>
    rw [lowerOption] at h
    obtain ⟨⟨x,params₁⟩,hx,hret⟩ := bind_eq_ok h
    cases hret
    exact lower_renders e params hx

theorem lowerList_renders (es : List GoIR) (params : List Param) {ss : List Text}
    {params' : List Param} (h : lowerList casing dialect es params = .ok (ss,params')) :
    RendersAll casing dialect (listPieces dialect es) params ss params' := by
  cases es with
  | nil =>
    rw [lowerList] at h
    cases h
    exact .nil params
  | cons e es =>
    rw [lowerList] at h
    obtain ⟨⟨x,params₁⟩,hx,h⟩ := bind_eq_ok h
    obtain ⟨⟨xs,params₂⟩,hxs,hret⟩ := bind_eq_ok h
    cases hret
    exact .cons (lower_renders e params hx) (lowerList_renders es params₁ hxs)

end

section values

variable (f : Text → Text)

mutual

def revalue : GoIR → GoIR
  | .col name source type => .col name source type
  | .lit value type => .lit (value.map f) type
  | .param name value type isNull => .param name (value.map f) type isNull
  | .bin op left right type => .bin op (revalue left) (revalue right) type
  | .isnull expr => .isnull (revalue expr)
  | .not expr => .not (revalue expr)
  | .like expr pattern escape negated =>
    .like (revalue expr) (revalue pattern) (revalueOption escape) negated
  | .inList expr values negated => .inList (revalue expr) (revalueList values) negated

def revalueOption : Option GoIR → Option GoIR
  | none => none
  | some e => some (revalue e)

def revalueList : List GoIR → List GoIR
  | [] => []
  | e :: es => revalue e :: revalueList es

end

def Param.revalue (p : Param) : Param := {p with value := p.value.map f}

theorem jsNumber_map (v : Value Text) : jsNumber (v.map f) = jsNumber v := by
  cases v <;> rfl

theorem isNull_map (v : Value Text) : (v.map f == .null) = (v == .null) := by
  cases v <;> rfl

theorem bind_of_ok {ε α β : Type} {m : Except ε α} {g : α → Except ε β} {a : α} {r : Except ε β}
    (h : m = .ok a) (h' : g a = r) : m >>= g = r := by
  rw [h]
  exact h'

theorem bindParam_revalue {name : Text} {value : Value Text} {type : IRType} {isNull : Bool}
    (h : bindParam casing dialect name value type isNull params = .ok (s,params')) :
    bindParam casing dialect name (value.map f) type isNull (params.map (Param.revalue f)) =
      .ok (s,params'.map (Param.revalue f)) := by
  obtain ⟨sql,hsql,hret⟩ := bind_eq_ok h
  cases hret
  refine bind_of_ok (a := s) ?_ (by simp [Param.revalue])
  rw [← hsql,List.length_append,List.length_append,List.length_map]
  rfl

mutual

theorem lower_revalue (e : GoIR) (params : List Param) {s : Text} {params' : List Param}
    (h : lower casing dialect e params = .ok (s,params')) :
    lower casing dialect (revalue f e) (params.map (Param.revalue f)) =
      .ok (s,params'.map (Param.revalue f)) := by
  cases e with
  | col name source type =>
    unfold lower at h
    cases h
    rw [revalue]
    unfold lower
    rfl
  | lit value type =>
    rw [lower] at h
    rw [revalue,lower,jsNumber_map,isNull_map,List.length_map]
    split at h
    · cases h
      rfl
    · exact bindParam_revalue f h
  | param name value type isNull =>
    rw [lower] at h
    rw [revalue,lower]
    exact bindParam_revalue f h
  | bin op left right type =>
    rw [lower] at h
    obtain ⟨⟨l,params₁⟩,hl,h⟩ := bind_eq_ok h
    obtain ⟨⟨r,params₂⟩,hr,h⟩ := bind_eq_ok h
    obtain ⟨sql,hsql,hret⟩ := bind_eq_ok h
    cases hret
    rw [revalue,lower]
    refine bind_of_ok (lower_revalue left params hl) ?_
    refine bind_of_ok (lower_revalue right params₁ hr) ?_
    exact bind_of_ok hsql rfl
  | isnull expr =>
    rw [lower] at h
    obtain ⟨⟨x,params₁⟩,hx,hret⟩ := bind_eq_ok h
    cases hret
    rw [revalue,lower]
    exact bind_of_ok (lower_revalue expr params hx) rfl
  | not expr =>
    rw [lower] at h
    obtain ⟨⟨x,params₁⟩,hx,hret⟩ := bind_eq_ok h
    cases hret
    rw [revalue,lower]
    exact bind_of_ok (lower_revalue expr params hx) rfl
  | like expr pattern escape negated =>
    rw [lower] at h
    obtain ⟨⟨x,params₁⟩,hx,h⟩ := bind_eq_ok h
    obtain ⟨⟨p,params₂⟩,hp,h⟩ := bind_eq_ok h
    obtain ⟨⟨esc,params₃⟩,hesc,hret⟩ := bind_eq_ok h
    cases hret
    rw [revalue,lower]
    refine bind_of_ok (lower_revalue expr params hx) ?_
    refine bind_of_ok (lower_revalue pattern params₁ hp) ?_
    exact bind_of_ok (lowerOption_revalue escape params₂ hesc) rfl
  | inList expr list negated =>
    rw [lower] at h
    obtain ⟨⟨x,params₁⟩,hx,h⟩ := bind_eq_ok h
    obtain ⟨⟨vals,params₂⟩,hvals,hret⟩ := bind_eq_ok h
    cases hret
    rw [revalue,lower]
    refine bind_of_ok (lower_revalue expr params hx) ?_
    exact bind_of_ok (lowerList_revalue list params₁ hvals) rfl

theorem lowerOption_revalue (e : Option GoIR) (params : List Param) {esc : Option Text}
    {params' : List Param} (h : lowerOption casing dialect e params = .ok (esc,params')) :
    lowerOption casing dialect (revalueOption f e) (params.map (Param.revalue f)) =
      .ok (esc,params'.map (Param.revalue f)) := by
  cases e with
  | none =>
    rw [lowerOption] at h
    cases h
    rw [revalueOption,lowerOption]
  | some e =>
    rw [lowerOption] at h
    obtain ⟨⟨x,params₁⟩,hx,hret⟩ := bind_eq_ok h
    cases hret
    rw [revalueOption,lowerOption]
    exact bind_of_ok (lower_revalue e params hx) rfl

theorem lowerList_revalue (es : List GoIR) (params : List Param) {ss : List Text}
    {params' : List Param} (h : lowerList casing dialect es params = .ok (ss,params')) :
    lowerList casing dialect (revalueList f es) (params.map (Param.revalue f)) =
      .ok (ss,params'.map (Param.revalue f)) := by
  cases es with
  | nil =>
    rw [lowerList] at h
    cases h
    rw [revalueList,lowerList]
  | cons e es =>
    rw [lowerList] at h
    obtain ⟨⟨x,params₁⟩,hx,h⟩ := bind_eq_ok h
    obtain ⟨⟨xs,params₂⟩,hxs,hret⟩ := bind_eq_ok h
    cases hret
    rw [revalueList,lowerList]
    refine bind_of_ok (lower_revalue e params hx) ?_
    exact bind_of_ok (lowerList_revalue es params₁ hxs) rfl

end

end values

end OpenSteamgate.Osql
