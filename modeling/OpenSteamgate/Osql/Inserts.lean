import OpenSteamgate.Library.Outcome
import OpenSteamgate.Osql.Writes
import OpenSteamgate.Arith.Fields

namespace OpenSteamgate.Osql

open Lexeme

section keyed

variable {Row κ : Type} [DecidableEq κ] (key : Row → κ)

def insertOne (t : List Row) (r : Row) : List Row :=
  if key r ∈ t.map key then t else t ++ [r]

def insertInOrder : List Row → List Row → List Row :=
  List.foldl (insertOne key)

theorem insertInOrder_append (t rows rest : List Row) :
    insertInOrder key t (rows ++ rest) = insertInOrder key (insertInOrder key t rows) rest :=
  List.foldl_append

@[grind =] def firsts : List κ → List Row → List Row
  | _,[] => []
  | seen,r :: rows => if key r ∈ seen then firsts seen rows else r :: firsts (seen ++ [key r]) rows

theorem insertInOrder_eq (t rows : List Row) :
    insertInOrder key t rows = t ++ firsts key (t.map key) rows := by
  induction rows generalizing t with
  | nil => exact (List.append_nil t).symm
  | cons r rows ih =>
    have hstep : insertInOrder key t (r :: rows) = insertInOrder key (insertOne key t r) rows := rfl
    rw [hstep,ih,insertOne,firsts]
    split
    · rfl
    · rw [List.map_append,List.map_singleton,List.append_assoc,List.singleton_append]

theorem firsts_sublist (seen : List κ) (rows : List Row) : (firsts key seen rows).Sublist rows := by
  induction rows generalizing seen with
  | nil => exact .slnil
  | cons r rows ih =>
    rw [firsts]
    split
    · exact (ih seen).cons r
    · exact (ih _).cons_cons r

theorem find_firsts (seen : List κ) (rows : List Row) (k : κ) :
    (firsts key seen rows).find? (fun r => key r = k) =
      if k ∈ seen then none else rows.find? fun r => key r = k := by
  induction rows generalizing seen with
  | nil => simp [firsts]
  | cons r rows ih =>
    rw [firsts,List.find?_cons]
    by_cases hk : key r = k
    · subst hk
      split
      · next hs => rw [ih,if_pos hs]
      · simp
    · split
      · simp [hk,ih]
      · rw [List.find?_cons]
        simp [hk,ih,Ne.symm hk]

theorem firsts_nodup (seen : List κ) (rows : List Row) :
    ((firsts key seen rows).map key).Nodup ∧ ∀ r ∈ firsts key seen rows, key r ∉ seen := by
  induction rows generalizing seen with
  | nil => simp [firsts]
  | cons r rows ih =>
    rw [firsts]
    split
    · exact ih seen
    · next hr =>
      obtain ⟨hnodup,hfresh⟩ := ih (seen ++ [key r])
      refine ⟨List.nodup_cons.mpr ⟨?_,hnodup⟩,?_⟩
      · intro hmem
        obtain ⟨x,hx,hk⟩ := List.mem_map.mp hmem
        exact hfresh x hx (by simp [hk])
      · intro x hx
        rcases List.mem_cons.mp hx with rfl | hx
        · exact hr
        · exact fun hs => hfresh x hx (List.mem_append_left _ hs)

end keyed

inductive GoValue
  | int32 (n : Int32)
  | int64 (n : Int64)
  | int (n : Int)
  | string (s : Text)
  | bytes (b : List UInt8)
  | other (type : String)

structure WriteCol where
  name : Text
  type : IRType

structure WriteSpec where
  table : Text
  cols : List WriteCol
  key : List Text

inductive WriteFault
  | tooLong (at_ s : Text) (len : Nat)
  | wrongType (at_ : Text) (v : GoValue) (seam : Text)
  | packed (e : Packed.Fault)
  | rowWidth (table : Text)
  | notOneRow (table : Text)
  | lowering (table : Text) (e : WriteError)
  | database (op : String)
  | duplicate (table : Text)
  | keysExist (table : Text) (missing all : Int)

def dbC (s : Text) : Text := trimRight s

def xToHex (b : List UInt8) : Text :=
  b.flatMap fun x => [Nat.digitChar (x.toNat / 16),Nat.digitChar (x.toNat % 16)].map Char.toUpper

def dbXHex (b : List UInt8) (n : Nat) : Text := xToHex ((b ++ List.replicate n 0).take n)

def dbXString (b : List UInt8) : Text := xToHex b

def bindValue (v : GoValue) (t : IRType) (at_ : Text) : Except WriteFault GoIR :=
  if t.abap = .I ∨ t.abap = .other "INT8".toList then
    match v with
    | .int32 n => .ok (.lit (.int n.toInt) t)
    | .int64 n => .ok (.lit (.int n.toInt) t)
    | .int n => .ok (.lit (.int n) t)
    | v => .error (.wrongType at_ v t.seam)
  else if t.abap = .C then
    match v with
    | .string s =>
      if 0 < t.len ∧ t.len < strlen (dbC s) then .error (.tooLong at_ (dbC s) t.len)
      else .ok (.lit (.text (dbC s)) t)
    | v => .error (.wrongType at_ v t.seam)
  else if t.abap = .STRING then
    match v with
    | .string s => .ok (.lit (.text s) t)
    | v => .error (.wrongType at_ v t.seam)
  else if t.abap = .X then
    match v with
    | .bytes b => .ok (.lit (.text (dbXHex b t.len)) t)
    | v => .error (.wrongType at_ v t.seam)
  else if t.abap = .other "XSTRING".toList then
    match v with
    | .bytes b => .ok (.lit (.text (dbXString b)) t)
    | v => .error (.wrongType at_ v t.seam)
  else if t.abap = .P then
    match v with
    | .string s => do
      let p ← (Packed.fmtP s t.dec).mapError .packed
      .ok (.lit (.text p) t)
    | v => .error (.wrongType at_ v t.seam)
  else .error (.wrongType at_ v t.seam)

namespace WriteSpec

variable (w : WriteSpec)

def bind : List WriteCol → List GoValue → Except WriteFault (List GoIR)
  | c :: cs,v :: vs => do
    let x ← bindValue v c.type (w.table ++ '-' :: c.name)
    let xs ← bind cs vs
    .ok (x :: xs)
  | _,_ => .ok []

def row (vs : List GoValue) : Except WriteFault (List GoIR) :=
  if vs.length ≠ w.cols.length then .error (.rowWidth w.table) else w.bind w.cols vs

def rows : List (List GoValue) → Except WriteFault (List (List GoIR))
  | [] => .ok []
  | vs :: rest => do
    let x ← w.row vs
    let xs ← rows rest
    .ok (x :: xs)

def names : List Text := w.cols.map WriteCol.name

end WriteSpec

inductive DbError
  | coded (code : Int) (op : String)
  | other (op : String)

def duplicateKey : DbError → Bool
  | .coded code _ => code == 1555 || code == 2067
  | .other _ => false

def DbError.op : DbError → String
  | .coded _ op => op
  | .other op => op

abbrev Driver (Db : Type) := Text → List (Value Text) → Db → Db × Except DbError Int

def values (params : List Param) : List (Value Text) := params.map Param.value

structure Sy where
  subrc : Int32
  dbcnt : Int32

section inserting

variable (casing : Casing) {Db : Type} (driver : Driver Db)

def exec (st : IRWrite) (db : Db) : Db × Except WriteFault (Int × Bool) :=
  match lowerWrite casing st with
  | .error e => (db,.error (.lowering st.table e))
  | .ok (text,params) =>
    match driver text (values params) db with
    | (db,.ok n) => (db,.ok (n,false))
    | (db,.error e) => (db,if duplicateKey e then .ok (0,true) else .error (.database e.op))

def insertParams : Nat := 256

def insertChunk (columns : Nat) : {n : Nat // 0 < n} :=
  ⟨max 1 (insertParams / max 1 columns),by omega⟩

variable (w : WriteSpec)

def insertWrite (rows : List (List GoIR)) (onDuplicate : String) : IRWrite :=
  {write := .insert,table := w.table,columns := w.names,rows := rows,onDuplicate := onDuplicate,
    expected := if onDuplicate = "raise" then rows.length else 0}

def insertParts (chunk : {n : Nat // 0 < n}) (onDuplicate : String) :
    List (List GoValue) → Int → Db → Db × Except WriteFault Int
  | [],written,db => (db,.ok written)
  | r :: rest,written,db =>
    let part := (r :: rest).take chunk
    match w.rows part with
    | .error e => (db,.error e)
    | .ok bound =>
      match exec casing driver (insertWrite w bound onDuplicate) db with
      | (db,.error e) => (db,.error e)
      | (db,.ok (n,dup)) =>
        if dup then (db,.error (.duplicate w.table))
        else insertParts chunk onDuplicate ((r :: rest).drop chunk) (written + n) db
  termination_by rows => rows.length
  decreasing_by
    have := chunk.2
    simp only [List.length_drop,List.length_cons]
    omega

def insertRowsBy (chunk : {n : Nat // 0 < n}) (rows : List (List GoValue)) (onDuplicate : String)
    (sy : Sy) (db : Db) : Db × Sy × Except WriteFault Unit :=
  if rows = [] then (db,⟨0,0⟩,.ok ())
  else if onDuplicate = "error" then
    match rows with
    | [r] =>
      match w.row r with
      | .error e => (db,sy,.error e)
      | .ok bound =>
        match exec casing driver (insertWrite w [bound] "error") db with
        | (db,.error e) => (db,sy,.error e)
        | (db,.ok (n,dup)) => (db,if dup then ⟨4,0⟩ else ⟨0,Int32.ofInt n⟩,.ok ())
    | _ => (db,sy,.error (.notOneRow w.table))
  else
    match insertParts casing driver w chunk onDuplicate rows 0 db with
    | (db,.error e) => (db,sy,.error e)
    | (db,.ok written) =>
      if written < rows.length then
        if onDuplicate = "raise" then
          (db,sy,.error (.keysExist w.table (rows.length - written) rows.length))
        else (db,⟨4,Int32.ofInt written⟩,.ok ())
      else (db,⟨0,Int32.ofInt written⟩,.ok ())

def insertRows (rows : List (List GoValue)) (onDuplicate : String) (sy : Sy) (db : Db) :
    Db × Sy × Except WriteFault Unit :=
  insertRowsBy casing driver w (insertChunk w.cols.length) rows onDuplicate sy db

structure InsertsInOrder {Row κ : Type} [DecidableEq κ] (key : Row → κ) (kept : List GoIR → Row)
    (driver : Driver (List Row)) : Prop where
  skips : ∀ {rows : List (List GoIR)} {onDuplicate : String} {text : Text} {params : List Param}
    (t : List Row), rows ≠ [] → (∀ row ∈ rows, ∃ vs, w.row vs = .ok row) →
    onDuplicate = "ignore" ∨ onDuplicate = "raise" →
    lowerWrite casing (insertWrite w rows onDuplicate) = .ok (text,params) →
    driver text (values params) t =
      (insertInOrder key t (rows.map kept),
        .ok ((insertInOrder key t (rows.map kept)).length - t.length))

end inserting

section literals

variable (casing : Casing)

theorem expr_lit (v : Value Text) (t : IRType) (params : List Param) :
    ∃ r, expr casing (.lit v t) params = .ok r := by
  unfold expr
  rw [lower]
  cases hn : jsNumber v with
  | some s => exact ⟨_,rfl⟩
  | none => exact ⟨_,rfl⟩

theorem exprs_lit {row : List GoIR} (h : ∀ e ∈ row, ∃ v t, e = IR.lit v t)
    (place : GoIR → Text → Text) (params : List Param) :
    ∃ r, exprs casing id place row params = .ok r := by
  induction row generalizing params with
  | nil => exact ⟨_,rfl⟩
  | cons e row ih =>
    obtain ⟨⟨v,t,rfl⟩,hrow⟩ := List.forall_mem_cons.mp h
    obtain ⟨⟨s,params'⟩,hs⟩ := expr_lit casing v t params
    obtain ⟨⟨ss,params''⟩,hss⟩ := ih hrow params'
    refine ⟨(place (.lit v t) s :: ss,params''),?_⟩
    rw [exprs,id_eq,hs]
    change (exprs casing id place row params' >>= _) = _
    rw [hss]
    rfl

theorem rowsValues_lit {rows : List (List GoIR)} (h : ∀ row ∈ rows, ∀ e ∈ row, ∃ v t, e = IR.lit v t)
    (params : List Param) : ∃ r, rowsValues casing rows params = .ok r := by
  induction rows generalizing params with
  | nil => exact ⟨_,rfl⟩
  | cons row rows ih =>
    obtain ⟨hrow,hrows⟩ := List.forall_mem_cons.mp h
    obtain ⟨⟨vs,params'⟩,hvs⟩ := exprs_lit casing hrow (fun _ s => s) params
    obtain ⟨⟨ss,params''⟩,hss⟩ := ih hrows params'
    refine ⟨(('(' :: commas vs ++ [')']) :: ss,params''),?_⟩
    rw [rowsValues,rowValues,hvs]
    change (rowsValues casing rows params' >>= _) = _
    rw [hss]
    rfl

end literals

theorem bindValue_lit {v : GoValue} {t : IRType} {at_ : Text} {e : GoIR}
    (h : bindValue v t at_ = .ok e) : ∃ x t, e = IR.lit x t := by
  have hp (p : Except WriteFault Text) (h : (p >>= fun p => .ok (IR.lit (.text p) t)) = .ok e) :
      ∃ x t, e = IR.lit x t := by
    cases p with
    | error f => cases h
    | ok p =>
      cases h
      exact ⟨_,_,rfl⟩
  unfold bindValue at h
  split at h
  · split at h <;> cases h <;> exact ⟨_,_,rfl⟩
  split at h
  · split at h
    · split at h <;> cases h
      exact ⟨_,_,rfl⟩
    · cases h
  split at h
  · split at h <;> cases h
    exact ⟨_,_,rfl⟩
  split at h
  · split at h <;> cases h
    exact ⟨_,_,rfl⟩
  split at h
  · split at h <;> cases h
    exact ⟨_,_,rfl⟩
  split at h
  · split at h
    · exact hp _ h
    · cases h
  · cases h

namespace WriteSpec

variable {w : WriteSpec}

theorem bind_lit {cs : List WriteCol} {vs : List GoValue} {row : List GoIR}
    (h : w.bind cs vs = .ok row) : ∀ e ∈ row, ∃ x t, e = IR.lit x t := by
  induction cs generalizing vs row with
  | nil =>
    cases h
    simp
  | cons c cs ih =>
    cases vs with
    | nil =>
      cases h
      simp
    | cons v vs =>
      rw [bind] at h
      obtain ⟨x,hx,h⟩ := bind_eq_ok h
      obtain ⟨xs,hxs,h⟩ := bind_eq_ok h
      cases h
      exact List.forall_mem_cons.mpr ⟨bindValue_lit hx,ih hxs⟩

theorem row_lit {vs : List GoValue} {row : List GoIR} (h : w.row vs = .ok row) :
    ∀ e ∈ row, ∃ x t, e = IR.lit x t := by
  unfold WriteSpec.row at h
  split at h
  · cases h
  · exact bind_lit h

theorem rows_append {xs ys : List (List GoValue)} {bound : List (List GoIR)}
    (h : w.rows (xs ++ ys) = .ok bound) :
    ∃ a b, w.rows xs = .ok a ∧ w.rows ys = .ok b ∧ bound = a ++ b := by
  induction xs generalizing bound with
  | nil => exact ⟨[],bound,rfl,h,rfl⟩
  | cons x xs ih =>
    rw [List.cons_append,rows] at h
    obtain ⟨r,hr,h⟩ := bind_eq_ok h
    obtain ⟨rs,hrs,h⟩ := bind_eq_ok h
    obtain ⟨a,b,ha,hb,rfl⟩ := ih hrs
    cases h
    refine ⟨r :: a,b,?_,hb,rfl⟩
    rw [rows,hr,ha]
    rfl

theorem rows_length {rows : List (List GoValue)} {bound : List (List GoIR)}
    (h : w.rows rows = .ok bound) : bound.length = rows.length := by
  induction rows generalizing bound with
  | nil =>
    cases h
    rfl
  | cons x xs ih =>
    rw [WriteSpec.rows] at h
    obtain ⟨r,hr,h⟩ := bind_eq_ok h
    obtain ⟨rs,hrs,h⟩ := bind_eq_ok h
    cases h
    rw [List.length_cons,List.length_cons,ih hrs]

theorem mem_rows {rows : List (List GoValue)} {bound : List (List GoIR)}
    (h : w.rows rows = .ok bound) : ∀ row ∈ bound, ∃ vs, w.row vs = .ok row := by
  induction rows generalizing bound with
  | nil =>
    cases h
    simp
  | cons x xs ih =>
    rw [WriteSpec.rows] at h
    obtain ⟨r,hr,h⟩ := bind_eq_ok h
    obtain ⟨rs,hrs,h⟩ := bind_eq_ok h
    cases h
    exact List.forall_mem_cons.mpr ⟨⟨x,hr⟩,ih hrs⟩

end WriteSpec

theorem lowerWrite_bound (casing : Casing) {w : WriteSpec} {bound : List (List GoIR)}
    (h : ∀ row ∈ bound, ∃ vs, w.row vs = .ok row) (onDuplicate : String) :
    ∃ r, lowerWrite casing (insertWrite w bound onDuplicate) = .ok r := by
  have hlit : ∀ row ∈ bound, ∀ e ∈ row, ∃ v t, e = IR.lit v t := by
    intro row hrow
    obtain ⟨vs,hvs⟩ := h row hrow
    exact WriteSpec.row_lit hvs
  obtain ⟨⟨parts,params⟩,hr⟩ := rowsValues_lit casing hlit []
  unfold lowerWrite write insertWrite rowsText
  rw [hr]
  exact ⟨_,rfl⟩

section runs

variable {casing : Casing} {w : WriteSpec} {Row κ : Type} [DecidableEq κ] {key : Row → κ}
  {kept : List GoIR → Row} {driver : Driver (List Row)}
  (h : InsertsInOrder casing w key kept driver)
include h

theorem exec_bound {bound : List (List GoIR)} {onDuplicate : String} (t : List Row)
    (hne : bound ≠ []) (hb : ∀ row ∈ bound, ∃ vs, w.row vs = .ok row)
    (hd : onDuplicate = "ignore" ∨ onDuplicate = "raise") :
    exec casing driver (insertWrite w bound onDuplicate) t =
      (insertInOrder key t (bound.map kept),
        .ok ((insertInOrder key t (bound.map kept)).length - t.length,false)) := by
  obtain ⟨⟨text,params⟩,hr⟩ := lowerWrite_bound casing hb onDuplicate
  rw [exec,hr]
  dsimp only
  rw [h.skips t hne hb hd hr]

theorem insertParts_eq (chunk : {n : Nat // 0 < n}) {onDuplicate : String}
    (hd : onDuplicate = "ignore" ∨ onDuplicate = "raise") {rows : List (List GoValue)}
    {bound : List (List GoIR)} (hb : w.rows rows = .ok bound) (written : Int) (t : List Row) :
    insertParts casing driver w chunk onDuplicate rows written t =
      (insertInOrder key t (bound.map kept),
        .ok (written + ((insertInOrder key t (bound.map kept)).length - t.length))) := by
  induction hlen : rows.length using Nat.strong_induction_on generalizing rows bound written t with
  | _ len ih =>
  cases rows with
  | nil =>
    cases hb
    rw [insertParts]
    simp [insertInOrder]
  | cons r rest =>
    have hsplit := List.take_append_drop chunk.1 (r :: rest)
    rw [← hsplit] at hb
    obtain ⟨a,b,ha,hrest,rfl⟩ := WriteSpec.rows_append hb
    have hane : a ≠ [] := by
      intro hnil
      have := WriteSpec.rows_length ha
      have := chunk.2
      simp only [hnil,List.length_nil,List.length_take,List.length_cons] at *
      omega
    have hshort : ((r :: rest).drop chunk.1).length < len := by
      have := chunk.2
      simp only [List.length_drop,List.length_cons] at *
      omega
    rw [insertParts,ha]
    dsimp only
    rw [exec_bound h t hane (WriteSpec.mem_rows ha) hd]
    dsimp only
    have hparts := ih _ hshort hrest (written + ((insertInOrder key t (a.map kept)).length - t.length))
      (insertInOrder key t (a.map kept)) rfl
    rw [if_neg Bool.false_ne_true,hparts,List.map_append,insertInOrder_append]
    congr 2
    omega

theorem insertRowsBy_eq (chunk : {n : Nat // 0 < n}) {onDuplicate : String}
    (hd : onDuplicate = "ignore" ∨ onDuplicate = "raise") {rows : List (List GoValue)}
    {bound : List (List GoIR)} (hb : w.rows rows = .ok bound) (sy : Sy) {t new : List Row}
    (hnew : firsts key (t.map key) (bound.map kept) = new) :
    insertRowsBy casing driver w chunk rows onDuplicate sy t =
      (t ++ new,
        if new.length = rows.length then (⟨0,Int32.ofInt rows.length⟩,.ok ())
        else if onDuplicate = "ignore" then (⟨4,Int32.ofInt new.length⟩,.ok ())
        else (sy,.error (.keysExist w.table (rows.length - new.length) rows.length))) := by
  have hall : new.length ≤ rows.length := by
    rw [← hnew,← WriteSpec.rows_length hb,← List.length_map kept]
    exact (firsts_sublist ..).length_le
  unfold insertRowsBy
  split
  · next hnil =>
    subst hnil
    cases hb
    subst hnew
    simp [firsts]
  · have hcount : (0 : Int) + (((t ++ new).length : Int) - t.length) = new.length := by
      rw [List.length_append]
      omega
    rw [if_neg (by rcases hd with rfl | rfl <;> decide),insertParts_eq h chunk hd hb,
      insertInOrder_eq,hnew,hcount]
    dsimp only
    split
    · next hlt =>
      have hshort : new.length ≠ rows.length := by omega
      rw [if_neg hshort]
      rcases hd with rfl | rfl
      · rfl
      · rfl
    · next hge =>
      have hlen : new.length = rows.length := by omega
      rw [if_pos hlen,hlen]

theorem insert_from_table {onDuplicate : String}
    (hd : onDuplicate = "ignore" ∨ onDuplicate = "raise") {rows : List (List GoValue)}
    {bound : List (List GoIR)} (hb : w.rows rows = .ok bound) (sy : Sy) (t : List Row) :
    ∃ new,
      insertRows casing driver w rows onDuplicate sy t =
        (t ++ new,
          if new.length = rows.length then (⟨0,Int32.ofInt rows.length⟩,.ok ())
          else if onDuplicate = "ignore" then (⟨4,Int32.ofInt new.length⟩,.ok ())
          else (sy,.error (.keysExist w.table (rows.length - new.length) rows.length))) ∧
      new.Sublist (bound.map kept) ∧
      (∀ k, new.find? (fun r => key r = k) =
        if k ∈ t.map key then none else (bound.map kept).find? fun r => key r = k) ∧
      (new.map key).Nodup ∧
      (∀ r ∈ new, key r ∉ t.map key) ∧
      (∀ chunk, insertRowsBy casing driver w chunk rows onDuplicate sy t =
        insertRows casing driver w rows onDuplicate sy t) ∧
      (rows ≠ [] → exec casing driver (insertWrite w bound onDuplicate) t =
        (t ++ new,.ok ((new.length : Int),false))) := by
  refine ⟨firsts key (t.map key) (bound.map kept),insertRowsBy_eq h _ hd hb sy rfl,
    firsts_sublist ..,fun k => find_firsts ..,(firsts_nodup ..).1,(firsts_nodup ..).2,?_,?_⟩
  · intro chunk
    rw [insertRows,insertRowsBy_eq h chunk hd hb sy rfl,insertRowsBy_eq h _ hd hb sy rfl]
  · intro hne
    have hbne : bound ≠ [] := by
      rintro rfl
      exact hne (List.length_eq_zero_iff.mp (WriteSpec.rows_length hb).symm)
    rw [exec_bound h t hbne (WriteSpec.mem_rows hb) hd,insertInOrder_eq,List.length_append]
    simp

end runs

def wordsSpec : WriteSpec :=
  {table := "WORDS".toList,cols := [⟨"WORD".toList,tStr⟩],key := ["WORD".toList]}

def wordsDriver : Driver (List (Value Text)) := fun _ vals t =>
  (insertInOrder id t vals,.ok ((insertInOrder id t vals).length - t.length))

def wordOf : List GoIR → Value Text
  | [.lit v _] => v
  | _ => .null

theorem row_wordsSpec {vs : List GoValue} {row : List GoIR} (h : wordsSpec.row vs = .ok row) :
    ∃ s, row = [.lit (.text s) tStr] := by
  unfold WriteSpec.row at h
  split at h
  · cases h
  · next hlen =>
    obtain ⟨v,rfl⟩ := List.length_eq_one_iff.mp (not_not.mp hlen)
    cases v <;> cases h
    exact ⟨_,rfl⟩

theorem rowsValues_words (casing : Casing) {rows : List (List GoIR)}
    (h : ∀ row ∈ rows, ∃ s, row = [IR.lit (.text s) tStr]) {params params' : List Param}
    {parts : List Text} (hr : rowsValues casing rows params = .ok (parts,params')) :
    values params' = values params ++ rows.map wordOf := by
  induction rows generalizing params parts with
  | nil =>
    cases hr
    exact (List.append_nil _).symm
  | cons row rows ih =>
    obtain ⟨⟨s,rfl⟩,hrows⟩ := List.forall_mem_cons.mp h
    obtain ⟨⟨vs,params₁⟩,hvs,hrest⟩ := bind_eq_ok hr
    obtain ⟨⟨ss,params₂⟩,hss,hret⟩ := bind_eq_ok hrest
    cases hvs
    cases hret
    rw [ih hrows hss]
    simp [values,wordOf]

theorem wordsDriver_inOrder (casing : Casing) :
    InsertsInOrder casing wordsSpec id wordOf wordsDriver where
  skips {rows onDuplicate text params} t _ hb hd hw := by
    obtain ⟨⟨s,params'⟩,hr,hw⟩ := bind_eq_ok hw
    obtain ⟨⟨parts,params''⟩,hparts,hr⟩ := bind_eq_ok hr
    cases hr
    cases hw
    have hrows : ∀ row ∈ rows, ∃ s, row = [IR.lit (.text s) tStr] := by
      intro row hrow
      obtain ⟨vs,hvs⟩ := hb row hrow
      exact row_wordsSpec hvs
    have hvals := rowsValues_words casing hrows hparts
    rw [wordsDriver,hvals]
    rfl

theorem insert_from_table_words :
    insertRowsBy ⟨fun s => s.map Char.toUpper,fun _ _ => rfl⟩ wordsDriver wordsSpec ⟨2,by decide⟩
        [[.string ['a']],[.string ['b']],[.string ['a']],[.string ['c']]] "ignore" ⟨0,7⟩ [.text ['b']] =
      ([.text ['b'],.text ['a'],.text ['c']],⟨4,2⟩,.ok ()) := by
  let row (s : Text) : List GoIR := [.lit (.text s) tStr]
  have hb : wordsSpec.rows [[.string ['a']],[.string ['b']],[.string ['a']],[.string ['c']]] =
      .ok [row ['a'],row ['b'],row ['a'],row ['c']] := rfl
  obtain ⟨new,hrows,-,-,-,-,hparts,hone⟩ :=
    insert_from_table (wordsDriver_inOrder ⟨fun s => s.map Char.toUpper,fun _ _ => rfl⟩) (.inl rfl)
      hb ⟨0,7⟩ [.text ['b']]
  have hnew : [.text ['b']] ++ new = [.text ['b'],.text ['a'],.text ['c']] :=
    (congrArg Prod.fst (hone (by simp))).symm
  obtain rfl : new = [.text ['a'],.text ['c']] := List.append_cancel_left hnew
  exact (hparts _).trans hrows

end OpenSteamgate.Osql
