import OpenSteamgate.Osql.Alignment

namespace OpenSteamgate.Osql

section pieces

def itemPieces (item : Text × GoIR) : List Piece :=
  piecesOf .sqlite item.2 ++ [.text " AS ".toList,.ident item.1]

def itemsPieces (list : List (Text × GoIR)) : List Piece :=
  separated ", ".toList (list.map itemPieces)

def selPieces : IRRel → List Piece
  | .scan table => [.text "SELECT * FROM ".toList,.ident table]
  | .filter (.scan table) pred =>
    .text "SELECT * FROM ".toList :: .ident table :: .text " WHERE ".toList :: piecesOf .sqlite pred
  | .project (.filter (.scan table) pred) list =>
    .text "SELECT ".toList :: itemsPieces list ++
      .text " FROM ".toList :: .ident table :: .text " WHERE ".toList :: piecesOf .sqlite pred
  | .project (.scan table) list =>
    .text "SELECT ".toList :: itemsPieces list ++ [.text " FROM ".toList,.ident table]
  | _ => []

def colsPieces (list : List Text) : List Piece :=
  .text ['('] :: separated ", ".toList (list.map fun c => [.ident c]) ++ [.text [')']]

def rowPieces (row : List GoIR) : List Piece :=
  .text ['('] :: separated ", ".toList (row.map (piecesOf .sqlite)) ++ [.text [')']]

def rowsPieces (rows : List (List GoIR)) : List Piece := separated ", ".toList (rows.map rowPieces)

def wherePieces : Option GoIR → List Piece
  | none => []
  | some pred => .text " WHERE ".toList :: piecesOf .sqlite pred

def setPieces (s : IRSet) : List Piece := .ident s.col :: .text " = ".toList :: piecesOf .sqlite s.expr

def actionPieces (columns key : List Text) : List Piece :=
  let rest := columns.filter fun c => !key.contains c
  if rest = [] then [.text "DO NOTHING".toList]
  else .text "DO UPDATE SET ".toList ::
    separated ", ".toList (rest.map fun c => [.ident c,.text " = excluded.".toList,.ident c])

def fillPieces (s : IRSet) : List Piece := .text ", ".toList :: piecesOf .sqlite s.expr

def derivedPieces (source : IRRel) : List Piece :=
  .text "SELECT * FROM (".toList :: selPieces source ++ [.text ") WHERE true".toList]

def sourcePieces (source : IRRel) (fill : List IRSet) : List Piece :=
  if fill = [] then derivedPieces source
  else .text "SELECT ".toList :: .ident ['q'] :: .text ".*".toList ::
    (fill.map fillPieces).flatten ++ .text " FROM (".toList :: selPieces source ++
    [.text ") AS ".toList,.ident ['q'],.text " WHERE true".toList]

def headPieces (table : Text) (columns : List Text) : List Piece :=
  .text "INSERT INTO ".toList :: .ident table :: .text [' '] :: colsPieces columns

def writePieces (w : IRWrite) : List Piece :=
  match w.write with
  | .insert =>
    let skip := w.onDuplicate = "ignore" ∨ w.onDuplicate = "raise"
    headPieces w.table w.columns ++
      (match w.source with
        | some source =>
          .text [' '] :: if skip then derivedPieces source else selPieces source
        | none => .text " VALUES ".toList :: rowsPieces w.rows) ++
      if skip then [.text " ON CONFLICT DO NOTHING".toList] else []
  | .update =>
    .text "UPDATE ".toList :: .ident w.table :: .text " SET ".toList ::
      separated ", ".toList (w.set.map setPieces) ++ wherePieces w.pred
  | .delete => .text "DELETE FROM ".toList :: .ident w.table :: wherePieces w.pred
  | .upsert =>
    headPieces w.table (w.columns ++ w.fill.map IRSet.col) ++
      (match w.source with
        | some source => .text [' '] :: sourcePieces source w.fill
        | none => .text " VALUES ".toList :: rowsPieces (w.rows.map (· ++ w.fill.map IRSet.expr))) ++
      .text " ON CONFLICT ".toList :: colsPieces w.key ++ .text [' '] :: actionPieces w.columns w.key
  | .other _ => []

end pieces

section rendering

variable {casing : Casing} {params params' : List Param} {s : Text}

theorem lower_of_expr {e : GoIR} {r : Text × List Param} (h : expr casing e params = .ok r) :
    lower casing .sqlite e params = .ok r := by
  unfold expr at h
  split at h
  · next hr => exact hr.trans (congrArg Except.ok (Except.ok.inj h))
  · cases h

theorem expr_renders {e : GoIR} (h : expr casing e params = .ok (s,params')) :
    Renders casing .sqlite (piecesOf .sqlite e) params s params' :=
  lower_renders e params (lower_of_expr h)

theorem exprs_renders {α : Type} {e : α → GoIR} {place : α → Text → Text} {placed : α → List Piece}
    (hplace : ∀ x params s params',
      Renders casing .sqlite (piecesOf .sqlite (e x)) params s params' →
      Renders casing .sqlite (placed x) params (place x s) params')
    {list : List α} {ss : List Text} (h : exprs casing e place list params = .ok (ss,params')) :
    RendersAll casing .sqlite (list.map placed) params ss params' := by
  induction list generalizing params ss with
  | nil =>
    cases h
    exact .nil _
  | cons x xs ih =>
    obtain ⟨⟨t,params₁⟩,ht,hmore⟩ := bind_eq_ok h
    obtain ⟨⟨ts,params₂⟩,hts,hret⟩ := bind_eq_ok hmore
    cases hret
    exact .cons (hplace x _ _ _ (expr_renders ht)) (ih hts)

theorem items_renders {list : List (Text × GoIR)} (h : items casing list params = .ok (s,params')) :
    Renders casing .sqlite (itemsPieces list) params s params' := by
  obtain ⟨⟨parts,params₁⟩,hparts,hret⟩ := bind_eq_ok h
  cases hret
  refine (exprs_renders ?_ hparts).separated ", ".toList
  intro x params s params' hx
  have hname : Renders casing .sqlite [.text " AS ".toList,.ident x.1] params'
      (" AS ".toList ++ (quote x.1 ++ [])) params' := (Renders.nil.ident x.1).text _
  rw [List.append_nil] at hname
  have hall := hx.append hname
  rwa [← List.append_assoc] at hall

theorem table_renders (u table : Text) :
    Renders casing .sqlite [.text u,.ident table] params (u ++ quote table) params := by
  have h : Renders casing .sqlite [.text u,.ident table] params (u ++ (quote table ++ [])) params :=
    (Renders.nil.ident table).text u
  rwa [List.append_nil] at h

theorem filtered_renders (u table : Text) {pred : GoIR} {p : Text}
    (h : expr casing pred params = .ok (p,params')) :
    Renders casing .sqlite
      (.text u :: .ident table :: .text " WHERE ".toList :: piecesOf .sqlite pred) params
      (u ++ quote table ++ " WHERE ".toList ++ p) params' := by
  have hall := (table_renders u table).append ((expr_renders h).text " WHERE ".toList)
  rwa [← List.append_assoc] at hall

theorem sel_renders {r : IRRel} (h : sel casing r params = .ok (s,params')) :
    Renders casing .sqlite (selPieces r) params s params' := by
  unfold sel at h
  split at h
  · cases h
    exact table_renders _ _
  · obtain ⟨⟨p,params₁⟩,hp,hret⟩ := bind_eq_ok h
    cases hret
    exact filtered_renders _ _ hp
  · next params table pred list =>
    obtain ⟨⟨its,params₁⟩,hits,hmore⟩ := bind_eq_ok h
    obtain ⟨⟨p,params₂⟩,hp,hret⟩ := bind_eq_ok hmore
    cases hret
    have hall := ((items_renders hits).text "SELECT ".toList).append
      (filtered_renders " FROM ".toList table hp)
    simp only [← List.append_assoc] at hall
    exact hall
  · next params table list =>
    obtain ⟨⟨its,params₁⟩,hits,hret⟩ := bind_eq_ok h
    cases hret
    have hall := ((items_renders hits).text "SELECT ".toList).append
      (table_renders " FROM ".toList table)
    simp only [← List.append_assoc] at hall
    exact hall
  · cases h

theorem names_renders (list : List Text) :
    RendersAll casing .sqlite (list.map fun c => [.ident c]) params (list.map quote) params := by
  induction list with
  | nil => exact .nil _
  | cons c list ih =>
    have hc : Renders casing .sqlite [.ident c] params (quote c ++ []) params := Renders.nil.ident c
    rw [List.append_nil] at hc
    exact .cons hc ih

theorem cols_renders (list : List Text) :
    Renders casing .sqlite (colsPieces list) params (cols list) params :=
  ((names_renders list).separated ", ".toList).between ['('] [')']

theorem rowValues_renders {row : List GoIR} (h : rowValues casing row params = .ok (s,params')) :
    Renders casing .sqlite (rowPieces row) params s params' := by
  obtain ⟨⟨vs,params₁⟩,hvs,hret⟩ := bind_eq_ok h
  cases hret
  exact ((exprs_renders (fun _ _ _ _ hx => hx) hvs).separated ", ".toList).between ['('] [')']

theorem rowsValues_renders {rows : List (List GoIR)} {ss : List Text}
    (h : rowsValues casing rows params = .ok (ss,params')) :
    RendersAll casing .sqlite (rows.map rowPieces) params ss params' := by
  induction rows generalizing params ss with
  | nil =>
    cases h
    exact .nil _
  | cons row rows ih =>
    obtain ⟨⟨t,params₁⟩,ht,hmore⟩ := bind_eq_ok (m := rowValues casing row params) h
    obtain ⟨⟨ts,params₂⟩,hts,hret⟩ := bind_eq_ok hmore
    cases hret
    exact .cons (rowValues_renders ht) (ih hts)

theorem rowsText_renders {rows : List (List GoIR)} (h : rowsText casing rows params = .ok (s,params')) :
    Renders casing .sqlite (rowsPieces rows) params s params' := by
  obtain ⟨⟨parts,params₁⟩,hparts,hret⟩ := bind_eq_ok h
  cases hret
  exact (rowsValues_renders hparts).separated ", ".toList

theorem whereText_renders {pred : Option GoIR} (h : whereText casing pred params = .ok (s,params')) :
    Renders casing .sqlite (wherePieces pred) params s params' := by
  cases pred with
  | none =>
    cases h
    exact .nil
  | some pred =>
    obtain ⟨⟨p,params₁⟩,hp,hret⟩ := bind_eq_ok h
    cases hret
    exact (expr_renders hp).text " WHERE ".toList

theorem excluded_renders (list : List Text) :
    RendersAll casing .sqlite
      (list.map fun c => [.ident c,.text " = excluded.".toList,.ident c]) params
      (list.map fun c => quote c ++ " = excluded.".toList ++ quote c) params := by
  induction list with
  | nil => exact .nil _
  | cons c list ih =>
    have hc : Renders casing .sqlite [.ident c,.text " = excluded.".toList,.ident c] params
        (quote c ++ (" = excluded.".toList ++ quote c)) params := (table_renders _ c).ident c
    rw [← List.append_assoc] at hc
    exact .cons hc ih

theorem upsertAction_renders (columns key : List Text) :
    Renders casing .sqlite (actionPieces columns key) params (upsertAction columns key) params := by
  unfold actionPieces upsertAction
  dsimp only
  by_cases hrest : (columns.filter fun c => !key.contains c) = []
  · rw [if_pos hrest,if_pos (by rw [hrest]; rfl)]
    exact .words "DO NOTHING".toList
  · rw [if_neg hrest,if_neg (by rwa [List.map_eq_nil_iff])]
    exact ((excluded_renders _).separated ", ".toList).text "DO UPDATE SET ".toList

theorem derived_renders {source : IRRel} (h : sel casing source params = .ok (s,params')) :
    Renders casing .sqlite (derivedPieces source) params
      ("SELECT * FROM (".toList ++ s ++ ") WHERE true".toList) params' :=
  (sel_renders h).between "SELECT * FROM (".toList ") WHERE true".toList

theorem fills_renders {fill : List IRSet} {vs : List Text}
    (h : exprs casing IRSet.expr (fun _ s => ", ".toList ++ s) fill params = .ok (vs,params')) :
    Renders casing .sqlite (fill.map fillPieces).flatten params vs.flatten params' := by
  induction fill generalizing params vs with
  | nil =>
    cases h
    exact .nil
  | cons x xs ih =>
    obtain ⟨⟨t,params₁⟩,ht,hmore⟩ := bind_eq_ok h
    obtain ⟨⟨ts,params₂⟩,hts,hret⟩ := bind_eq_ok hmore
    cases hret
    exact ((expr_renders ht).text ", ".toList).append (ih hts)

theorem upsertSource_renders {source : IRRel} {fill : List IRSet}
    (h : upsertSource casing source fill params = .ok (s,params')) :
    Renders casing .sqlite (sourcePieces source fill) params s params' := by
  unfold upsertSource at h
  unfold sourcePieces
  split at h
  · next hfill =>
    obtain ⟨⟨t,params₁⟩,ht,hret⟩ := bind_eq_ok h
    cases hret
    rw [if_pos hfill]
    exact derived_renders ht
  · next hfill =>
    obtain ⟨⟨vs,params₁⟩,hvs,hmore⟩ := bind_eq_ok h
    obtain ⟨⟨t,params₂⟩,ht,hret⟩ := bind_eq_ok hmore
    cases hret
    rw [if_neg hfill]
    have hq : Renders casing .sqlite [.text "SELECT ".toList,.ident ['q'],.text ".*".toList] params
        "SELECT \"q\".*".toList params := rfl
    have htail : Renders casing .sqlite
        [.text ") AS ".toList,.ident ['q'],.text " WHERE true".toList] params'
        ") AS \"q\" WHERE true".toList params' := rfl
    have hall := (hq.append (fills_renders hvs)).append
      (((sel_renders ht).text " FROM (".toList).append htail)
    simp only [← List.append_assoc] at hall
    exact hall

theorem head_renders (table : Text) (columns : List Text) :
    Renders casing .sqlite (headPieces table columns) params
      ("INSERT INTO ".toList ++ quote table ++ ' ' :: cols columns) params :=
  (table_renders "INSERT INTO ".toList table).append ((cols_renders columns).text [' '])

theorem lowerWrite_renders {w : IRWrite} (h : write casing w params = .ok (s,params')) :
    Renders casing .sqlite (writePieces w) params s params' := by
  unfold write at h
  unfold writePieces
  cases hw : w.write with
  | insert =>
    rw [hw] at h
    have htail (params : List Param) : Renders casing .sqlite
        (if w.onDuplicate = "ignore" ∨ w.onDuplicate = "raise" then
          [.text " ON CONFLICT DO NOTHING".toList] else []) params
        (if w.onDuplicate = "ignore" ∨ w.onDuplicate = "raise" then
          " ON CONFLICT DO NOTHING".toList else []) params := by
      split
      · exact .words _
      · exact .nil
    cases hsource : w.source with
    | some source =>
      rw [hsource] at h
      obtain ⟨⟨t,params₁⟩,ht,hret⟩ := bind_eq_ok h
      cases hret
      have hfrom : Renders casing .sqlite
          (if w.onDuplicate = "ignore" ∨ w.onDuplicate = "raise" then derivedPieces source
            else selPieces source) params
          (if w.onDuplicate = "ignore" ∨ w.onDuplicate = "raise" then
            "SELECT * FROM (".toList ++ t ++ ") WHERE true".toList else t) params' := by
        split
        · exact derived_renders ht
        · exact sel_renders ht
      exact ((head_renders w.table w.columns).append (hfrom.text [' '])).append (htail _)
    | none =>
      rw [hsource] at h
      obtain ⟨⟨t,params₁⟩,ht,hret⟩ := bind_eq_ok h
      cases hret
      have hall := ((head_renders w.table w.columns).append
        ((rowsText_renders ht).text " VALUES ".toList)).append (htail _)
      simp only [← List.append_assoc] at hall
      exact hall
  | update =>
    rw [hw] at h
    obtain ⟨⟨set,params₁⟩,hset,hmore⟩ := bind_eq_ok h
    obtain ⟨⟨pred,params₂⟩,hpred,hret⟩ := bind_eq_ok hmore
    cases hret
    have hsets : RendersAll casing .sqlite (w.set.map setPieces) params set params₁ := by
      refine exprs_renders ?_ hset
      intro x params s params' hx
      have hall := (hx.text " = ".toList).ident x.col
      rwa [← List.append_assoc] at hall
    have hall := ((table_renders "UPDATE ".toList w.table).append
      ((hsets.separated ", ".toList).text " SET ".toList)).append (whereText_renders hpred)
    simp only [← List.append_assoc] at hall
    exact hall
  | delete =>
    rw [hw] at h
    obtain ⟨⟨pred,params₂⟩,hpred,hret⟩ := bind_eq_ok h
    cases hret
    exact (table_renders "DELETE FROM ".toList w.table).append (whereText_renders hpred)
  | upsert =>
    rw [hw] at h
    have htail (params : List Param) : Renders casing .sqlite
        (.text " ON CONFLICT ".toList :: colsPieces w.key ++
          .text [' '] :: actionPieces w.columns w.key) params
        (" ON CONFLICT ".toList ++ cols w.key ++ ([' '] ++ upsertAction w.columns w.key)) params :=
      ((cols_renders w.key).text _).append ((upsertAction_renders w.columns w.key).text [' '])
    cases hsource : w.source with
    | some source =>
      rw [hsource] at h
      obtain ⟨⟨t,params₁⟩,ht,hret⟩ := bind_eq_ok h
      cases hret
      have hall := ((head_renders w.table (w.columns ++ w.fill.map IRSet.col)).append
        ((upsertSource_renders ht).text [' '])).append (htail _)
      simpa only [List.append_assoc,List.cons_append,List.nil_append] using hall
    | none =>
      rw [hsource] at h
      obtain ⟨⟨t,params₁⟩,ht,hret⟩ := bind_eq_ok h
      cases hret
      have hall := ((head_renders w.table (w.columns ++ w.fill.map IRSet.col)).append
        ((rowsText_renders ht).text " VALUES ".toList)).append (htail _)
      simpa only [List.append_assoc,List.cons_append,List.nil_append] using hall
  | other name =>
    rw [hw] at h
    cases h

end rendering

section apart

variable {α : Type} {u : Text}

theorem apart_map {f : α → List Piece} (h : ∀ x,Apart (f x)) (list : List α) :
    Apart (separated ", ".toList (list.map f)) := by
  refine .separated (by decide) fun ps hps => ?_
  obtain ⟨x,-,rfl⟩ := List.mem_map.mp hps
  exact h x

theorem apart_table (hu : Plain u) (table : Text) {ps : List Piece} (hps : StopsAt ps)
    (h : Apart ps) : Apart (.text u :: .ident table :: ps) :=
  ⟨hu,hps,h⟩

theorem apart_items (list : List (Text × GoIR)) : Apart (itemsPieces list) := by
  refine apart_map (f := itemPieces) (fun item => ?_) list
  exact (apart_pieces item.2).words (u := " AS ".toList) (by decide) ⟨trivial,trivial⟩

theorem apart_sel (r : IRRel) : Apart (selPieces r) := by
  unfold selPieces
  split
  · exact apart_table (by decide) _ trivial trivial
  · exact apart_table (by decide) _ ⟨by decide,by decide⟩ ⟨by decide,apart_pieces _⟩
  · next list =>
    exact ⟨by decide,(apart_items list).words (by decide)
      ⟨⟨by decide,by decide⟩,by decide,apart_pieces _⟩⟩
  · next list => exact ⟨by decide,(apart_items list).words (by decide) ⟨trivial,trivial⟩⟩
  · trivial

theorem apart_cols (list : List Text) : Apart (colsPieces list) :=
  (apart_map (f := fun c => [.ident c]) (fun _ => ⟨trivial,trivial⟩) list).between (by decide)
    (by decide)

theorem apart_rows (rows : List (List GoIR)) : Apart (rowsPieces rows) :=
  apart_map (fun row => (apart_map apart_pieces row).between (by decide) (by decide)) rows

theorem apart_where (pred : Option GoIR) : StopsAt (wherePieces pred) ∧ Apart (wherePieces pred) := by
  cases pred with
  | none => exact ⟨trivial,trivial⟩
  | some pred => exact ⟨⟨by decide,by decide⟩,by decide,apart_pieces pred⟩

theorem apart_action (columns key : List Text) : Apart (actionPieces columns key) := by
  unfold actionPieces
  dsimp only
  split
  · exact ⟨by decide,trivial⟩
  · exact ⟨by decide,apart_map (f := fun c => [.ident c,.text " = excluded.".toList,.ident c])
      (fun c => ⟨⟨by decide,by decide⟩,by decide,trivial,trivial⟩) _⟩

theorem apart_derived (source : IRRel) : Apart (derivedPieces source) :=
  (apart_sel source).between (by decide) (by decide)

theorem apart_fill (fill : List IRSet) :
    StopsAt (fill.map fillPieces).flatten ∧ Apart (fill.map fillPieces).flatten := by
  induction fill with
  | nil => exact ⟨trivial,trivial⟩
  | cons x xs ih =>
    exact ⟨⟨by decide,by decide⟩,by decide,(apart_pieces x.expr).append ih.1 ih.2⟩

theorem apart_source (source : IRRel) (fill : List IRSet) : Apart (sourcePieces source fill) := by
  unfold sourcePieces
  split
  · exact apart_derived source
  · have hfrom : Apart (.text " FROM (".toList :: (selPieces source ++
        [.text ") AS ".toList,.ident ['q'],.text " WHERE true".toList])) :=
      ⟨by decide,(apart_sel source).words (by decide)
        ⟨⟨by decide,by decide⟩,by decide,trivial⟩⟩
    have hstop : StopsAt (.text " FROM (".toList :: (selPieces source ++
        [.text ") AS ".toList,.ident ['q'],.text " WHERE true".toList])) :=
      ⟨by decide,by decide⟩
    rw [List.append_assoc]
    exact ⟨by decide,⟨by decide,by decide⟩,by decide,(apart_fill fill).2.append hstop hfrom⟩

theorem apart_head (table : Text) (columns : List Text) : Apart (headPieces table columns) :=
  apart_table (by decide) table ⟨by decide,by decide⟩ ⟨by decide,apart_cols columns⟩

theorem apart_write (w : IRWrite) : Apart (writePieces w) := by
  unfold writePieces
  cases w.write with
  | insert =>
    have htail : StopsAt (if w.onDuplicate = "ignore" ∨ w.onDuplicate = "raise" then
          [.text " ON CONFLICT DO NOTHING".toList] else []) ∧
        Apart (if w.onDuplicate = "ignore" ∨ w.onDuplicate = "raise" then
          [.text " ON CONFLICT DO NOTHING".toList] else []) := by
      split
      · exact ⟨⟨by decide,by decide⟩,by decide,trivial⟩
      · exact ⟨trivial,trivial⟩
    refine Apart.append ?_ htail.1 htail.2
    cases w.source with
    | some source =>
      refine (apart_head _ _).words (by decide) ?_
      split
      · exact apart_derived source
      · exact apart_sel source
    | none => exact (apart_head _ _).words (by decide) (apart_rows w.rows)
  | update =>
    have hset : Apart (separated ", ".toList (w.set.map setPieces)) :=
      apart_map (f := setPieces)
        (fun s => ⟨⟨by decide,by decide⟩,by decide,apart_pieces s.expr⟩) w.set
    exact apart_table (by decide) _ ⟨by decide,by decide⟩
      ⟨by decide,hset.append (apart_where w.pred).1 (apart_where w.pred).2⟩
  | delete => exact apart_table (by decide) _ (apart_where w.pred).1 (apart_where w.pred).2
  | upsert =>
    dsimp only
    have htail : Apart (colsPieces w.key ++ .text [' '] :: actionPieces w.columns w.key) :=
      (apart_cols w.key).words (by decide) (apart_action w.columns w.key)
    rw [List.append_assoc]
    refine Apart.words (u := " ON CONFLICT ".toList) ?_ (by decide) htail
    cases w.source with
    | some source =>
      exact (apart_head _ _).words (u := [' ']) (by decide) (apart_source source w.fill)
    | none => exact (apart_head _ _).words (u := " VALUES ".toList) (by decide) (apart_rows _)
  | other name => trivial

end apart

section values

variable {casing : Casing} {params params' : List Param} {s : Text} (f : Text → Text)

def IRRel.revalue : IRRel → IRRel
  | .scan table => .scan table
  | .filter input pred => .filter (IRRel.revalue input) (Osql.revalue f pred)
  | .project input items =>
    .project (IRRel.revalue input) (items.map fun item => (item.1,Osql.revalue f item.2))
  | .other rel => .other rel

def IRSet.revalue (s : IRSet) : IRSet := {s with expr := Osql.revalue f s.expr}

def IRWrite.revalue (w : IRWrite) : IRWrite :=
  {w with
    rows := w.rows.map (·.map (Osql.revalue f))
    source := w.source.map (IRRel.revalue f)
    set := w.set.map (IRSet.revalue f)
    pred := w.pred.map (Osql.revalue f)
    fill := w.fill.map (IRSet.revalue f)}

theorem expr_revalue {e : GoIR} (h : expr casing e params = .ok (s,params')) :
    expr casing (revalue f e) (params.map (Param.revalue f)) =
      .ok (s,params'.map (Param.revalue f)) := by
  rw [expr,lower_revalue f e params (lower_of_expr h)]

theorem exprs_revalue {α : Type} {e : α → GoIR} {place : α → Text → Text} {g : α → α}
    (he : ∀ x,e (g x) = revalue f (e x)) (hplace : ∀ x,place (g x) = place x) {list : List α}
    {ss : List Text} (h : exprs casing e place list params = .ok (ss,params')) :
    exprs casing e place (list.map g) (params.map (Param.revalue f)) =
      .ok (ss,params'.map (Param.revalue f)) := by
  induction list generalizing params ss with
  | nil =>
    cases h
    rfl
  | cons x xs ih =>
    obtain ⟨⟨t,params₁⟩,ht,hmore⟩ := bind_eq_ok h
    obtain ⟨⟨ts,params₂⟩,hts,hret⟩ := bind_eq_ok hmore
    cases hret
    rw [List.map_cons,exprs,he,hplace]
    exact bind_of_ok (expr_revalue f ht) (bind_of_ok (ih hts) rfl)

theorem items_revalue {list : List (Text × GoIR)} (h : items casing list params = .ok (s,params')) :
    items casing (list.map fun item => (item.1,revalue f item.2)) (params.map (Param.revalue f)) =
      .ok (s,params'.map (Param.revalue f)) := by
  obtain ⟨⟨parts,params₁⟩,hparts,hret⟩ := bind_eq_ok h
  cases hret
  have hitems := exprs_revalue f (g := fun item => (item.1,revalue f item.2)) (fun _ => rfl)
    (fun _ => rfl) hparts
  exact bind_of_ok hitems rfl

theorem sel_revalue {r : IRRel} (h : sel casing r params = .ok (s,params')) :
    sel casing (r.revalue f) (params.map (Param.revalue f)) =
      .ok (s,params'.map (Param.revalue f)) := by
  unfold sel at h
  split at h
  · cases h
    rfl
  · obtain ⟨⟨p,params₁⟩,hp,hret⟩ := bind_eq_ok h
    cases hret
    exact bind_of_ok (expr_revalue f hp) rfl
  · obtain ⟨⟨its,params₁⟩,hits,hmore⟩ := bind_eq_ok h
    obtain ⟨⟨p,params₂⟩,hp,hret⟩ := bind_eq_ok hmore
    cases hret
    exact bind_of_ok (items_revalue f hits) (bind_of_ok (expr_revalue f hp) rfl)
  · obtain ⟨⟨its,params₁⟩,hits,hret⟩ := bind_eq_ok h
    cases hret
    exact bind_of_ok (items_revalue f hits) rfl
  · cases h

theorem rowsValues_revalue {rows : List (List GoIR)} {ss : List Text}
    (h : rowsValues casing rows params = .ok (ss,params')) :
    rowsValues casing (rows.map (·.map (revalue f))) (params.map (Param.revalue f)) =
      .ok (ss,params'.map (Param.revalue f)) := by
  induction rows generalizing params ss with
  | nil =>
    cases h
    rfl
  | cons row rows ih =>
    obtain ⟨⟨t,params₁⟩,ht,hmore⟩ := bind_eq_ok (m := rowValues casing row params) h
    obtain ⟨⟨ts,params₂⟩,hts,hret⟩ := bind_eq_ok hmore
    cases hret
    obtain ⟨⟨vs,params₃⟩,hvs,hret⟩ := bind_eq_ok ht
    cases hret
    rw [List.map_cons,rowsValues,rowValues]
    have hrow := exprs_revalue f (e := id) (g := revalue f) (fun _ => rfl) (fun _ => rfl) hvs
    exact bind_of_ok (bind_of_ok hrow rfl) (bind_of_ok (ih hts) rfl)

theorem rowsText_revalue {rows : List (List GoIR)}
    (h : rowsText casing rows params = .ok (s,params')) :
    rowsText casing (rows.map (·.map (revalue f))) (params.map (Param.revalue f)) =
      .ok (s,params'.map (Param.revalue f)) := by
  obtain ⟨⟨parts,params₁⟩,hparts,hret⟩ := bind_eq_ok h
  cases hret
  exact bind_of_ok (rowsValues_revalue f hparts) rfl

theorem whereText_revalue {pred : Option GoIR}
    (h : whereText casing pred params = .ok (s,params')) :
    whereText casing (pred.map (revalue f)) (params.map (Param.revalue f)) =
      .ok (s,params'.map (Param.revalue f)) := by
  cases pred with
  | none =>
    cases h
    rfl
  | some pred =>
    obtain ⟨⟨p,params₁⟩,hp,hret⟩ := bind_eq_ok h
    cases hret
    exact bind_of_ok (expr_revalue f hp) rfl

theorem upsertSource_revalue {source : IRRel} {fill : List IRSet}
    (h : upsertSource casing source fill params = .ok (s,params')) :
    upsertSource casing (source.revalue f) (fill.map (IRSet.revalue f))
      (params.map (Param.revalue f)) = .ok (s,params'.map (Param.revalue f)) := by
  unfold upsertSource at h ⊢
  split at h
  · next hfill =>
    obtain ⟨⟨t,params₁⟩,ht,hret⟩ := bind_eq_ok h
    cases hret
    rw [if_pos (by rw [hfill]; rfl)]
    exact bind_of_ok (sel_revalue f ht) rfl
  · next hfill =>
    obtain ⟨⟨vs,params₁⟩,hvs,hmore⟩ := bind_eq_ok h
    obtain ⟨⟨t,params₂⟩,ht,hret⟩ := bind_eq_ok hmore
    cases hret
    rw [if_neg (by rwa [List.map_eq_nil_iff])]
    have hfills := exprs_revalue f (e := IRSet.expr) (g := IRSet.revalue f) (fun _ => rfl)
      (fun _ => rfl) hvs
    exact bind_of_ok hfills (bind_of_ok (sel_revalue f ht) rfl)

theorem write_revalue {w : IRWrite} (h : write casing w params = .ok (s,params')) :
    write casing (w.revalue f) (params.map (Param.revalue f)) =
      .ok (s,params'.map (Param.revalue f)) := by
  obtain ⟨kind,table,columns,rows,source,onDuplicate,expected,set,pred,key,fill⟩ := w
  have hcols : (fill.map (IRSet.revalue f)).map IRSet.col = fill.map IRSet.col := by
    rw [List.map_map]
    rfl
  have hexprs : (fill.map (IRSet.revalue f)).map IRSet.expr = (fill.map IRSet.expr).map (revalue f) := by
    rw [List.map_map,List.map_map]
    rfl
  cases kind with
  | insert =>
    cases source with
    | some source =>
      obtain ⟨⟨t,params₁⟩,ht,hret⟩ := bind_eq_ok h
      cases hret
      exact bind_of_ok (sel_revalue f ht) rfl
    | none =>
      obtain ⟨⟨t,params₁⟩,ht,hret⟩ := bind_eq_ok h
      cases hret
      exact bind_of_ok (rowsText_revalue f ht) rfl
  | update =>
    obtain ⟨⟨set',params₁⟩,hset,hmore⟩ := bind_eq_ok h
    obtain ⟨⟨pred',params₂⟩,hpred,hret⟩ := bind_eq_ok hmore
    cases hret
    have hsets := exprs_revalue f (e := IRSet.expr) (g := IRSet.revalue f) (fun _ => rfl)
      (fun _ => rfl) hset
    exact bind_of_ok hsets (bind_of_ok (whereText_revalue f hpred) rfl)
  | delete =>
    obtain ⟨⟨pred',params₂⟩,hpred,hret⟩ := bind_eq_ok h
    cases hret
    exact bind_of_ok (whereText_revalue f hpred) rfl
  | upsert =>
    cases source with
    | some source =>
      obtain ⟨⟨t,params₁⟩,ht,hret⟩ := bind_eq_ok h
      cases hret
      refine bind_of_ok (upsertSource_revalue f ht) ?_
      dsimp only [IRWrite.revalue]
      rw [hcols]
    | none =>
      obtain ⟨⟨t,params₁⟩,ht,hret⟩ := bind_eq_ok h
      cases hret
      have hrows := rowsText_revalue f ht
      rw [List.map_map] at hrows
      unfold write
      dsimp only [IRWrite.revalue,Option.map]
      rw [hcols,hexprs,List.map_map]
      refine bind_of_ok (Eq.trans ?_ hrows) rfl
      congr 2
      funext row
      exact List.map_append.symm
  | other name => cases h

end values

def Mark.isHole : Mark → Bool
  | .hole _ => true
  | _ => false

structure Faithful (casing : Casing) (dialect : Dialect) (ps : List Piece) (sql : Text)
    (params : List Param) : Prop where
  rendered : render casing dialect ps [] = .ok (sql,params)
  bound : params = bounds 0 ps
  scanned : scan sql = marks dialect 0 ps
  count : (scan sql).countP Mark.isHole = params.length

theorem count_marks (dialect : Dialect) (n : Nat) (ps : List Piece) :
    (marks dialect n ps).countP Mark.isHole = (bounds n ps).length := by
  induction ps generalizing n with
  | nil => rfl
  | cons p ps ih =>
    cases p with
    | text s => exact ih n
    | ident name => exact (List.countP_cons_of_neg Bool.false_ne_true).trans (ih n)
    | hole node => exact (List.countP_cons_of_pos rfl).trans (congrArg (· + 1) (ih (n + 1)))
    | empty => exact (List.countP_cons_of_neg Bool.false_ne_true).trans (ih n)

theorem faithful_of_renders {casing : Casing} {dialect : Dialect} {ps : List Piece} {sql : Text}
    {params : List Param} (ha : Apart ps) (h : Renders casing dialect ps [] sql params) :
    Faithful casing dialect ps sql params := by
  have hbound : params = bounds 0 ps := renders_bounds h
  have hend : Stops [] := by simp [Stops]
  have hscan := scan_renders ha h hend
  rw [List.append_nil,scan,List.append_nil] at hscan
  refine ⟨h,hbound,hscan,?_⟩
  rw [hscan,hbound]
  exact count_marks dialect 0 ps

theorem rendered_faithful (casing : Casing) :
    (∀ pred sql params, lowerPredicate casing pred = .ok (sql,params) →
      Faithful casing .sqlite (piecesOf .sqlite pred) sql params ∧
      ∀ f, lowerPredicate casing (revalue f pred) = .ok (sql,params.map (Param.revalue f))) ∧
    (∀ name dialect, dialectOf name = .ok dialect → ∀ pred sql params,
      lowerPredicateIn casing pred name = .ok (sql,params) →
      Faithful casing dialect (piecesOf dialect pred) sql params ∧
      ∀ f, lowerPredicateIn casing (revalue f pred) name = .ok (sql,params.map (Param.revalue f))) ∧
    ∀ w sql params, lowerWrite casing w = .ok (sql,params) →
      Faithful casing .sqlite (writePieces w) sql params ∧
      ∀ f, lowerWrite casing (w.revalue f) = .ok (sql,params.map (Param.revalue f)) := by
  refine ⟨?_,?_,?_⟩
  · intro pred sql params h
    exact ⟨faithful_of_renders (apart_pieces pred) (lower_renders pred [] h),
      fun f => lower_revalue f pred [] h⟩
  · intro name dialect hname pred sql params h
    unfold lowerPredicateIn at h ⊢
    rw [hname] at h ⊢
    exact ⟨faithful_of_renders (apart_pieces pred) (lower_renders pred [] h),
      fun f => lower_revalue f pred [] h⟩
  · intro w sql params h
    exact ⟨faithful_of_renders (apart_write w) (lowerWrite_renders h),fun f => write_revalue f h⟩

theorem rendered_faithful_quotes :
    ∃ sql sql' sql'',
      scan sql = [.ident ['a','"'],.ident ['N'],.hole none] ∧
      scan sql' = [.ident ['a','"'],.ident ['N'],.hole (some 1)] ∧
      scan sql'' = [.ident ['T'],.ident ['a','"'],.hole none,.hole none] := by
  let casing : Casing := ⟨fun s => s.map Char.toUpper,fun _ _ => rfl⟩
  let value : GoIR := .lit (.text ['\'','?']) tStr
  let next : GoIR :=
    .bin .plus (.col ['N'] none {abap := .I}) (.lit (.double 0x3FF0000000000000) {abap := .I})
      {abap := .I}
  let pred : GoIR :=
    .bin .and (.bin .gt (.col ['a','"'] none tStr) next tBool) (.isnull value) tBool
  obtain ⟨hpred,hpredIn,hwrite⟩ := rendered_faithful casing
  exact ⟨_,_,_,(hpred pred _ _ rfl).1.scanned,
    (hpredIn "postgres" .postgres rfl pred _ _ rfl).1.scanned,
    (hwrite {write := .insert,table := ['T'],columns := [['a','"']],rows := [[value],[value]]} _ _
      rfl).1.scanned⟩

end OpenSteamgate.Osql
