import Mathlib.Data.Char
import Mathlib.Data.List.Lex
import OpenSteamgate.Library.Sorting
import OpenSteamgate.Rules.Conditions
import OpenSteamgate.Rules.Values

namespace OpenSteamgate.Rules.Evaluation

open Sorting (sortBy Apart Comparing)
open Decimal (intText)

inductive Offset
  | literal (value : Text)
  | param (name : Text)

inductive Rhs
  | literal (value : Text)
  | param (name : Text)
  | window (back : Bool) (offset : Offset)
  | field (aliased column : Text) (type : DdicType)
  | range (name : Text) (exclusionsIgnored emptyIsNone : Bool)

structure Cmp where
  aliased : Text
  column : Text
  type : DdicType
  rhs : Rhs

inductive Raised
  | value (thrown : Thrown)
  | typeError
  | noOffset (offset : Offset)
  | badOffset (text : Text)
  | noValue (rhs : Rhs)
  | operator (op : Operator)

instance : MonadLift (Except Thrown) (Except Raised) := ⟨Except.mapError Raised.value⟩

structure RangeRow where
  excludes : Bool
  equal : Bool
  low : Text
  high : Option Text

structure Params where
  values : Text → Option Text
  selections : Text → Option (List RangeRow)
  range : Option (List RangeRow)

structure ModelParam where
  name : Text
  is_selopt : Bool
  default : Option Text
  default_rows : List RangeRow

structure Schema where
  fields : Text → DdicType
  keys : List Text

structure Condition where
  count : ℕ
  leaves : Fin count → Leaf Cmp
  tree : Tree count

inductive Piece
  | text (value : Text)
  | count
  | aggregate
  | field (aliased column : Text)

structure Clause where
  table : Text
  aliased : Text
  condition : Condition
  parts : List Piece

inductive Aggregate
  | count
  | sum (type : DdicType) (column : Text)
  | min (type : DdicType) (column : Text)
  | max (type : DdicType) (column : Text)

structure Threshold where
  op : Operator
  value : ℤ
  canonical_value : Option Text
  inner : Bool
  stale : Bool

inductive RuleKind
  | limit (aggregate : Aggregate) (threshold : Threshold)
  | require
  | any
  | forbid

structure Model where
  params : List ModelParam
  ddic : Text → Schema
  table : Text
  aliased : Text
  range : Option Text
  when : Option Condition
  kind : RuleKind
  clauses : List Clause
  parts : List Piece

structure Runtime where
  toLowerCase : Text → Text
  safeInteger : Text → Option ℤ

abbrev Row := Text → Option Text

-- a row as it is read, by its columns
abbrev View := Text → Except Thrown Text

structure At where
  table : Text
  row : View

abbrev Context := Text → Option At

def initialValue (type : DdicType) : Text :=
  match type.builtIn with
  | .DATS => List.replicate 8 '0'
  | .TIMS => List.replicate 6 '0'
  | .NUMC => List.replicate (type.length.getD 1) '0'
  | .INT1 | .INT2 | .INT4 | .INT8 => ['0']
  | .DEC | .CURR | .QUAN =>
    if 0 < type.decimals.getD 0 then '0' :: '.' :: List.replicate (type.decimals.getD 0) '0' else ['0']
  | .other => []

def render (type : DdicType) (value : Text) : Except Thrown Text :=
  match kindOf type with
  | .char => .ok (withoutBlanks value)
  | .int => (bigInt value).map intText
  | .dec => (scaled value (type.decimals.getD 0)).map fun n => formatDecimal n (type.decimals.getD 0)
  | .digits => .ok value

def valueOf (schema : Schema) (row : Row) : View := fun column =>
  canonical (schema.fields column) ((row column).getD (initialValue (schema.fields column)))

def test : Operator → ℤ → Except Raised Bool
  | .eq,c => .ok (c = 0)
  | .ne,c => .ok (c ≠ 0)
  | .lt,c => .ok (c < 0)
  | .gt,c => .ok (0 < c)
  | .le,c => .ok (c ≤ 0)
  | .ge,c => .ok (0 ≤ c)
  | op,_ => .error (.operator op)

def meets (type : DdicType) (value : Text) (r : RangeRow) : Except Raised Bool := do
  let low ← compareValues type value type r.low
  if r.equal then return low = 0
  else if low < 0 then return false
  else match r.high with
    | none => .error .typeError
    | some high => return (← compareValues type value type high) ≤ 0

def inSelection (rows : List RangeRow) (type : DdicType) (value : Text) : Except Raised Bool := do
  if rows.isEmpty then return true
  else
    let included := rows.filter (!·.excludes)
    if ← (if included.isEmpty then pure true else included.anyM (meets type value)) then
      return !(← rows.anyM fun r => if r.excludes then meets type value r else pure false)
    else return false

def holdsRange (params : Params) (op : Operator) (type : DdicType) (name : Text)
    (exclusionsIgnored emptyIsNone : Bool) (value : Text) : Except Raised Bool := do
  let given := (params.selections name).getD []
  let rows := if exclusionsIgnored then given.filter (!·.excludes) else given
  let inside ← if rows.isEmpty && emptyIsNone then pure false else inSelection rows type value
  return if op = .isIn then inside else !inside

variable {n : ℕ} {β σ : Type}

mutual

def holdsTree (leaves : Fin n → Leaf β) (holds : Comparison β → Except Raised Bool) :
    Tree n → Except Raised Bool
  | .cmp index =>
    match (leaves index).constant with
    | some constant => .ok constant
    | none => holds (leaves index).cmp
  | .and items => everyHolds leaves holds items
  | .or items => someHolds leaves holds items
  | .not item => (holdsTree leaves holds item).map (!·)

def everyHolds (leaves : Fin n → Leaf β) (holds : Comparison β → Except Raised Bool) :
    List (Tree n) → Except Raised Bool
  | [] => .ok true
  | item :: items => do
    if ← holdsTree leaves holds item then everyHolds leaves holds items else return false

def someHolds (leaves : Fin n → Leaf β) (holds : Comparison β → Except Raised Bool) :
    List (Tree n) → Except Raised Bool
  | [] => .ok false
  | item :: items => do
    if ← holdsTree leaves holds item then return true else someHolds leaves holds items

end

theorem holdsTree_ok {leaves : Fin n → Leaf β} {holds : Comparison β → Except Raised Bool}
    {truth : Comparison β → Bool} (h : ∀ index,holds (leaves index).cmp = .ok (truth (leaves index).cmp))
    (tree : Tree n) : holdsTree leaves holds tree = .ok (Rules.holdsTree leaves truth tree) := by
  induction tree using Tree.induct with
  | cmp index =>
    rw [holdsTree,Rules.holdsTree,truthOf]
    cases (leaves index).constant with
    | some constant => rfl
    | none => exact h index
  | and items ih =>
    rw [holdsTree,Rules.holdsTree]
    induction items with
    | nil => rfl
    | cons item items ihs =>
      rw [everyHolds,Rules.everyHolds,ih item List.mem_cons_self]
      cases Rules.holdsTree leaves truth item with
      | true => exact ihs fun x hx => ih x (List.mem_cons_of_mem _ hx)
      | false => rfl
  | or items ih =>
    rw [holdsTree,Rules.holdsTree]
    induction items with
    | nil => rfl
    | cons item items ihs =>
      rw [someHolds,Rules.someHolds,ih item List.mem_cons_self]
      cases Rules.holdsTree leaves truth item with
      | true => rfl
      | false => exact ihs fun x hx => ih x (List.mem_cons_of_mem _ hx)
  | not item ih =>
    rw [holdsTree,Rules.holdsTree,ih]
    rfl

def compareKeys (schema : Schema) : List Text → View → View → Except Thrown ℤ
  | [],_,_ => .ok 0
  | key :: keys,x,y => do
    let a ← x key
    let b ← y key
    let c ← compareValues (schema.fields key) a (schema.fields key) b
    if c ≠ 0 then return c else compareKeys schema keys x y

section evaluation

variable (rt : Runtime) (model : Model)

def lower (rows : List (Text × List Row)) (table : Text) : List Row :=
  rows.foldl (fun found e => if rt.toLowerCase e.1 = table then e.2 else found) []

def ordered (rows : List (Text × List Row)) (table : Text) : Except Thrown (List View) :=
  sortBy (compareKeys (model.ddic table) (model.ddic table).keys)
    ((lower rt rows table).map (valueOf (model.ddic table)))

def withDefaults (params : Params) : Params where
  values name := params.values name <|> ((model.params.filter fun p =>
    !p.is_selopt && p.default.isSome && p.name = name).getLast?.bind ModelParam.default)
  selections name := params.selections name <|> ((model.params.filter fun p =>
    p.is_selopt && p.name = name).getLast?.map ModelParam.default_rows)
  range := params.range

variable (params : Params) (override : ℕ → Option Bool)
  (ordered : Text → Except Thrown (List View))

def rhsValue : Rhs → Except Raised (Option Text)
  | .literal value => .ok (some value)
  | .param name => .ok (params.values name)
  | .window back offset => do
    let given := match offset with
      | .literal value => some value
      | .param name => params.values name
    match given with
    | none => .error (.noOffset offset)
    | some text =>
      match rt.safeInteger text with
      | none => .error (.badOffset text)
      | some days =>
        if days < 0 then .error (.badOffset text)
        else return (params.values ['d','a','t','e']).bind fun date =>
          shiftDate date (if back then -days else days)
  | _ => .ok none

def at? (context : Context) (aliased : Text) : Except Raised At :=
  match context aliased with
  | some found => .ok found
  | none => .error .typeError

def holdsIn (context : Context) (c : Comparison Cmp) : Except Raised Bool := do
  let left ← at? context c.rest.aliased
  let a ← left.row c.rest.column
  match c.rest.rhs with
  | .range name exclusionsIgnored emptyIsNone =>
    holdsRange params c.op c.rest.type name exclusionsIgnored emptyIsNone a
  | .field aliased column type => do
    let right ← at? context aliased
    let b ← right.row column
    test c.op (← compareValues c.rest.type a type b)
  | rhs => do
    match ← rhsValue rt params rhs with
    | none => .error (.noValue rhs)
    | some b => test c.op (← compareValues c.rest.type a c.rest.type b)

def conditionHolds (condition : Condition) (context : Context) : Except Raised Bool :=
  holdsTree condition.leaves (holdsIn rt params context) condition.tree

def Context.set (context : Context) (aliased : Text) (found : At) : Context := fun name =>
  if name = aliased then some found else context name

def matching (clause : Clause) (c : ℕ) (context : Context) : Except Raised (List View) :=
  match override c with
  | some true => .ok [valueOf (model.ddic clause.table) fun _ => none]
  | some false => .ok []
  | none => do
    (← ordered clause.table).filterM fun row =>
      conditionHolds rt params clause.condition (context.set clause.aliased ⟨clause.table,row⟩)

def alertOf (count : Text) (aggregate : Except Raised Text) (parts : List Piece) (context : Context) :
    Except Raised Text := do
  let texts ← parts.mapM fun part => show Except Raised Text from
    match part with
    | .text value => .ok value
    | .count => .ok count
    | .aggregate => aggregate
    | .field aliased column => do
      let found ← at? context aliased
      render ((model.ddic found.table).fields column) (← found.row column)
  return texts.flatten

def plainAlert (parts : List Piece) (context : Context) : Except Raised Text :=
  alertOf model ['u','n','d','e','f','i','n','e','d'] (.error .typeError) parts context

def each (visit : σ → Context → Except Raised σ) (start : σ) : Except Raised σ := do
  (← ordered model.table).foldlM (fun s o => do
    let inside ← match model.range with
      | none => pure true
      | some field => do
        inSelection (params.range.getD []) ((model.ddic model.table).fields field) (← o field)
    let context := Context.set (fun _ => none) model.aliased ⟨model.table,o⟩
    let holds ← if inside then
        match model.when with
        | none => pure true
        | some condition => conditionHolds rt params condition context
      else pure false
    if holds then visit s context else return s) start

-- the alerts so far, the last count and the last aggregate
structure Totals where
  alerts : List Text
  last : ℕ
  lastAggregate : Option Text

def aggregated (threshold : Threshold) (type : DdicType) (value : Text) (context : Context) (s : Totals) :
    Except Raised Totals := do
  let limit := threshold.canonical_value.getD (intText threshold.value)
  if ← test threshold.op (← compareValues type value type limit) then
    let text ← alertOf model ['u','n','d','e','f','i','n','e','d'] (render type value) model.parts context
    return {s with alerts := s.alerts ++ [text]}
  else return s

def extreme (better : ℤ → Bool) (type : DdicType) (column : Text) (first : View) (rest : List View) :
    Except Thrown Text := do
  rest.foldlM (fun value row => do
    let candidate ← row column
    return if better (← compareValues type candidate type value) then candidate else value)
    (← first column)

def limitVisit (aggregate : Aggregate) (threshold : Threshold) (s : Totals) (context : Context) :
    Except Raised Totals := do
  match model.clauses with
  | [] => .error .typeError
  | clause :: _ => do
    let found ← matching rt model params override ordered clause 0 context
    let missed := found.isEmpty && threshold.inner
    let kept := found.isEmpty && threshold.stale
    match aggregate with
    | .count =>
      if missed then return s
      else
        let count := if kept then s.last else found.length
        if ← test threshold.op ((count : ℤ) - threshold.value).sign then
          let text ← alertOf model (Nat.toDigits 10 count) (.error .typeError) model.parts context
          return ⟨s.alerts ++ [text],count,s.lastAggregate⟩
        else return ⟨s.alerts,count,s.lastAggregate⟩
    | .sum type column =>
      if missed then return s
      else
        let value ← if kept then pure (s.lastAggregate.getD (initialValue type)) else do
          let total ← found.foldlM (fun acc row => do
            return acc + (← scaled (← row column) (type.decimals.getD 0))) (0 : ℤ)
          pure (formatDecimal total (type.decimals.getD 0))
        aggregated model threshold type value context {s with lastAggregate := some value}
    | .min type column =>
      match found with
      | [] => return s
      | first :: rest =>
        aggregated model threshold type (← extreme (· < 0) type column first rest) context s
    | .max type column =>
      match found with
      | [] => return s
      | first :: rest =>
        aggregated model threshold type (← extreme (0 < ·) type column first rest) context s

def walk : List Clause → ℕ → Context → List Text → Except Raised (List Text)
  | [],_,context,alerts => do return alerts ++ [← plainAlert model model.parts context]
  | clause :: clauses,c,context,alerts => do
    (← matching rt model params override ordered clause c context).foldlM (fun alerts row =>
      walk clauses (c + 1) (context.set clause.aliased ⟨clause.table,row⟩) alerts) alerts

def alertsOf : Except Raised (List Text) :=
  match model.kind with
  | .limit aggregate threshold => do
    return (← each rt model params ordered
      (limitVisit rt model params override ordered aggregate threshold) ⟨[],0,none⟩).alerts
  | .require =>
    each rt model params ordered (fun alerts context =>
      match model.clauses with
      | [] => .error .typeError
      | clause :: _ => do
        if (← matching rt model params override ordered clause 0 context).isEmpty then
          return alerts ++ [← plainAlert model model.parts context]
        else return alerts) []
  | .any =>
    model.clauses.zipIdx.foldlM (fun alerts clause => each rt model params ordered (fun alerts context => do
      (← matching rt model params override ordered clause.1 clause.2 context).foldlM (fun alerts row => do
        return alerts ++ [← plainAlert model clause.1.parts
          (context.set clause.1.aliased ⟨clause.1.table,row⟩)]) alerts) alerts) []
  | .forbid => each rt model params ordered (fun alerts context =>
      walk rt model params override ordered model.clauses 0 context alerts) []

end evaluation

def evaluate (rt : Runtime) (model : Model) (rows : List (Text × List Row)) (params : Params)
    (override : ℕ → Option Bool) : Except Raised (List Text) :=
  alertsOf rt model (withDefaults model params) override (ordered rt model rows)

def SameValues (schema : Schema) (x y : Row) : Prop := ∀ column,valueOf schema x column = valueOf schema y column

def Relisted (schema : Schema) (rows rows' : List Row) : Prop :=
  ∃ respelled,List.Forall₂ (SameValues schema) rows respelled ∧ respelled.Perm rows'

def DistinctKeys (schema : Schema) (rows : List Row) : Prop :=
  rows.Pairwise fun x y => Apart (compareKeys schema schema.keys) (valueOf schema x) (valueOf schema y)

theorem compareValues_rank (type : DdicType) : ∃ (α : Type) (_ : LinearOrder α) (rank : Text → Except Thrown α),
    ∀ a b,compareValues type a type b = rank a >>= fun x => (rank b).map fun y => sign x y := by
  have hsign (f : Text → Text) : ∃ (α : Type) (_ : LinearOrder α) (rank : Text → Except Thrown α),
      ∀ a b,Except.ok (sign (codeUnits (f a)) (codeUnits (f b))) =
        rank a >>= fun x => (rank b).map fun y => sign x y :=
    ⟨List ℕ,inferInstance,fun text => .ok (codeUnits (f text)),fun a b =>
      congrArg Except.ok (by unfold sign; congr)⟩
  unfold compareValues
  cases kindOf type with
  | int => exact ⟨ℤ,inferInstance,bigInt,fun _ _ => rfl⟩
  | dec => exact ⟨ℤ,inferInstance,fun text => scaled text (max (type.decimals.getD 0) (type.decimals.getD 0)),
      fun _ _ => rfl⟩
  | digits =>
    by_cases hnumc : type.builtIn = .NUMC
    · simp only [hnumc,and_self,if_true]
      exact hsign (padStart (max (type.length.getD 0) (type.length.getD 0)))
    · simp only [hnumc,and_false,if_false]
      exact hsign withoutBlanks
  | char => exact hsign withoutBlanks

theorem compareKeys_cons (schema : Schema) (key : Text) (keys : List Text) :
    ∃ (α : Type) (_ : LinearOrder α) (read : View → Except Thrown α),∀ x y c,
      compareKeys schema (key :: keys) x y = .ok c ↔ ∃ u v,read x = .ok u ∧ read y = .ok v ∧
        (u < v ∧ c = -1 ∨ v < u ∧ c = 1 ∨ u = v ∧ compareKeys schema keys x y = .ok c) := by
  obtain ⟨α,order,rank,hrank⟩ := compareValues_rank (schema.fields key)
  refine ⟨α,order,fun x => x key >>= rank,fun x y c => ?_⟩
  rw [compareKeys]
  simp only [hrank]
  cases x key with
  | error e => exact ⟨nofun,fun ⟨_,_,h,_⟩ => nomatch h⟩
  | ok a =>
    cases y key with
    | error e => exact ⟨nofun,fun ⟨_,_,_,h,_⟩ => nomatch h⟩
    | ok b =>
      change (((rank a >>= fun x => (rank b).map fun y => sign x y) >>= fun c => if c ≠ 0 then pure c else
        compareKeys schema keys x y) = .ok c ↔ ∃ u v,rank a = .ok u ∧ rank b = .ok v ∧ _)
      cases rank a with
      | error e => exact ⟨nofun,fun ⟨_,_,h,_⟩ => nomatch h⟩
      | ok u =>
        cases rank b with
        | error e => exact ⟨nofun,fun ⟨_,_,_,h,_⟩ => nomatch h⟩
        | ok v =>
          change (if sign u v ≠ 0 then pure (sign u v) else compareKeys schema keys x y) = .ok c ↔ _
          have hcases : ((if sign u v ≠ 0 then pure (sign u v) else compareKeys schema keys x y) = .ok c) ↔
              (u < v ∧ c = -1 ∨ v < u ∧ c = 1 ∨ u = v ∧ compareKeys schema keys x y = .ok c) := by
            rcases lt_trichotomy u v with h | rfl | h
            · simp [sign,h,h.not_gt,h.ne,pure,Except.pure,eq_comm]
            · simp [sign]
            · simp [sign,h,h.not_gt,h.ne',pure,Except.pure,eq_comm]
          rw [hcases]
          constructor
          · exact fun h => ⟨u,v,rfl,rfl,h⟩
          · rintro ⟨_,_,⟨⟩,⟨⟩,h⟩
            exact h

theorem compareKeys_comparing (schema : Schema) (keys : List Text) : Comparing (compareKeys schema keys) := by
  induction keys with
  | nil =>
    refine ⟨fun x y c h => ?_,fun x y z ⟨c,hc,hneg⟩ => ?_⟩
    · obtain rfl := Except.ok.inj h
      rfl
    · obtain rfl := Except.ok.inj hc
      exact absurd hneg (lt_irrefl 0)
  | cons key keys ih =>
    obtain ⟨α,order,read,hcons⟩ := compareKeys_cons schema key keys
    constructor
    · intro x y c h
      obtain ⟨u,v,hu,hv,h⟩ := (hcons x y c).mp h
      refine (hcons y x (-c)).mpr ⟨v,u,hv,hu,?_⟩
      rcases h with ⟨hlt,rfl⟩ | ⟨hlt,rfl⟩ | ⟨rfl,h⟩
      · exact .inr (.inl ⟨hlt,rfl⟩)
      · exact .inl ⟨hlt,rfl⟩
      · exact .inr (.inr ⟨rfl,ih.swap x y c h⟩)
    · rintro x y z ⟨c,hc,hneg⟩ ⟨d,hd,hneg'⟩
      obtain ⟨u,v,hu,hv,hc⟩ := (hcons x y c).mp hc
      obtain ⟨v',w,hv',hw,hd⟩ := (hcons y z d).mp hd
      obtain rfl := Except.ok.inj (hv.symm.trans hv')
      have hless (h : u < w) : Sorting.Before (compareKeys schema (key :: keys)) x z :=
        ⟨-1,(hcons x z (-1)).mpr ⟨u,w,hu,hw,.inl ⟨h,rfl⟩⟩,by decide⟩
      rcases hc with ⟨hlt,rfl⟩ | ⟨_,rfl⟩ | ⟨rfl,hc⟩
      · rcases hd with ⟨hlt',rfl⟩ | ⟨_,rfl⟩ | ⟨rfl,_⟩
        · exact hless (hlt.trans hlt')
        · exact absurd hneg' (by decide)
        · exact hless hlt
      · exact absurd hneg (by decide)
      · rcases hd with ⟨hlt,rfl⟩ | ⟨_,rfl⟩ | ⟨rfl,hd⟩
        · exact hless hlt
        · exact absurd hneg' (by decide)
        · obtain ⟨e,he,hneg⟩ := ih.trans x y z ⟨c,hc,hneg⟩ ⟨d,hd,hneg'⟩
          exact ⟨e,(hcons x z e).mpr ⟨_,_,hu,hw,.inr (.inr ⟨rfl,he⟩)⟩,hneg⟩

theorem relisted_views {schema : Schema} {rows rows' : List Row} (h : Relisted schema rows rows') :
    (rows.map (valueOf schema)).Perm (rows'.map (valueOf schema)) := by
  obtain ⟨respelled,hsame,hperm⟩ := h
  have heq : rows.map (valueOf schema) = respelled.map (valueOf schema) := by
    clear hperm
    induction hsame with
    | nil => rfl
    | cons hrow _ ih => rw [List.map_cons,List.map_cons,funext hrow,ih]
  rw [heq]
  exact hperm.map _

section relisting

variable {rt : Runtime} {model : Model} {rows rows' : List (Text × List Row)} {list list' : List Row}
  {table : Text}

theorem relisted_ordered (h : Relisted (model.ddic table) list list')
    (hkeys : DistinctKeys (model.ddic table) list) :
    sortBy (compareKeys (model.ddic table) (model.ddic table).keys) (list.map (valueOf (model.ddic table))) =
      sortBy (compareKeys (model.ddic table) (model.ddic table).keys)
        (list'.map (valueOf (model.ddic table))) :=
  Sorting.sortBy_perm (compareKeys_comparing _ _) (List.pairwise_map.mpr hkeys) (relisted_views h)

theorem lower_relisted (table : Text)
    (h : List.Forall₂ (fun e e' => rt.toLowerCase e.1 = rt.toLowerCase e'.1 ∧
      Relisted (model.ddic (rt.toLowerCase e.1)) e.2 e'.2) rows rows')
    (hkeys : ∀ e ∈ rows,DistinctKeys (model.ddic (rt.toLowerCase e.1)) e.2) :
    Relisted (model.ddic table) (lower rt rows table) (lower rt rows' table) ∧
      DistinctKeys (model.ddic table) (lower rt rows table) := by
  have hfold {found found' : List Row} (hfound : Relisted (model.ddic table) found found' ∧
      DistinctKeys (model.ddic table) found) : Relisted (model.ddic table)
        (rows.foldl (fun found e => if rt.toLowerCase e.1 = table then e.2 else found) found)
        (rows'.foldl (fun found e => if rt.toLowerCase e.1 = table then e.2 else found) found') ∧
      DistinctKeys (model.ddic table)
        (rows.foldl (fun found e => if rt.toLowerCase e.1 = table then e.2 else found) found) := by
    induction h generalizing found found' with
    | nil => exact hfound
    | @cons e e' rows rows' he _ ih =>
      have hkeys' := fun e he => hkeys e (List.mem_cons_of_mem _ he)
      rw [List.foldl_cons,List.foldl_cons,← he.1]
      by_cases htable : rt.toLowerCase e.1 = table
      · rw [if_pos htable,if_pos htable]
        exact ih hkeys' (htable ▸ ⟨he.2,hkeys e List.mem_cons_self⟩)
      · rw [if_neg htable,if_neg htable]
        exact ih hkeys' hfound
  exact hfold ⟨⟨[],.nil,.refl _⟩,.nil⟩

theorem alerts_relisted (rt : Runtime) (model : Model) (params : Params) (override : ℕ → Option Bool)
    (rows rows' : List (Text × List Row))
    (h : List.Forall₂ (fun e e' => rt.toLowerCase e.1 = rt.toLowerCase e'.1 ∧
      Relisted (model.ddic (rt.toLowerCase e.1)) e.2 e'.2) rows rows')
    (hkeys : ∀ e ∈ rows,DistinctKeys (model.ddic (rt.toLowerCase e.1)) e.2) :
    evaluate rt model rows params override = evaluate rt model rows' params override := by
  have hordered : ordered rt model rows = ordered rt model rows' := by
    funext table
    obtain ⟨hrelisted,hdistinct⟩ := lower_relisted table h hkeys
    exact relisted_ordered hrelisted hdistinct
  rw [evaluate,hordered,evaluate]

def spelled (value : String) : Row := fun _ => some value.toList

def sampleRuntime : Runtime := ⟨fun text => text.map Char.toLower,fun _ => none⟩

def sampleModel : Model where
  params := []
  ddic _ := ⟨fun _ => {builtIn := .INT4},[['k']]⟩
  table := ['t']
  aliased := ['a']
  range := none
  when := none
  kind := .forbid
  clauses := []
  parts := [.field ['a'] ['k']]

theorem alerts_relisted_swapped :
    evaluate sampleRuntime sampleModel [(['t'],[spelled "2",spelled "1"])] ⟨fun _ => none,fun _ => none,none⟩
        (fun _ => none) = evaluate sampleRuntime sampleModel [(['T'],[spelled "01",spelled "2"])]
        ⟨fun _ => none,fun _ => none,none⟩ (fun _ => none) := by
  have hlist : Relisted (sampleModel.ddic ['t']) [spelled "2",spelled "1"] [spelled "01",spelled "2"] :=
    ⟨[spelled "2",spelled "01"],.cons (fun _ => rfl) (.cons (fun _ => rfl) .nil),.swap _ _ _⟩
  refine alerts_relisted _ _ _ _ _ _ (.cons ⟨rfl,hlist⟩ .nil) fun e he => ?_
  rw [List.mem_singleton.mp he]
  refine List.pairwise_pair.mpr ⟨1,rfl,?_⟩
  decide

end relisting

end OpenSteamgate.Rules.Evaluation
