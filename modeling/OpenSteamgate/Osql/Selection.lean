import OpenSteamgate.Library.Outcome
import OpenSteamgate.Osql.Meaning
import OpenSteamgate.Osql.Ranges

namespace OpenSteamgate.Osql

open Lexeme Wildcard

variable {casing : Casing} {column : Text} {t : IRType} {kind : Text} {lowLen : Nat}
  {rows rows' : List RangeRow} {row : RangeRow} {items : List CpItem} {s : Text}
  {less : Text → Text → Prop} {v : Value Text} {e e' pred : GoIR} {p q : Prop}

section Like

def meets : Option Char → Char → Prop
  | none,_ => True
  | some c,d => c = d

def likeSymbol (c : Char) : CpItem :=
  if c = '%' then .run else if c = '_' then .one none else .one (some c)

def likeRead (escape : Option Char) : Text → Option (List CpItem)
  | [] => some []
  | [c] => if some c = escape then none else some [likeSymbol c]
  | c :: d :: cs =>
    if some c = escape then (likeRead escape cs).map (.one (some d) :: ·)
    else (likeRead escape (d :: cs)).map (likeSymbol c :: ·)

def LikeMatches (escape : Option Char) (pattern s : Text) : Prop :=
  ∃ items,likeRead escape pattern = some items ∧ Matches meets items s

def escapeOf (escape : Bool) : Option Char := if escape then some '#' else none

theorem likeRead_cons {escape : Option Char} {c : Char} (h : some c ≠ escape) (cs : Text) :
    likeRead escape (c :: cs) = (likeRead escape cs).map (likeSymbol c :: ·) := by
  cases cs with
  | nil => exact if_neg h
  | cons d ds => rw [likeRead,if_neg h]

theorem likeRead_item {escape : Bool} {i : CpItem}
    (h : escape = false → isLit '%' i = false ∧ isLit '_' i = false) (rest : Text) :
    likeRead (escapeOf escape) (likeItem escape i ++ rest) =
      (likeRead (escapeOf escape) rest).map (i :: ·) := by
  cases i with
  | run =>
    refine likeRead_cons ?_ rest
    cases escape <;> decide
  | one c =>
    cases c with
    | none =>
      refine likeRead_cons ?_ rest
      cases escape <;> decide
    | some c =>
      cases escape with
      | false =>
        obtain ⟨hrun,hany⟩ := h rfl
        have hrun : c ≠ '%' := by
          rintro rfl
          exact absurd hrun (by decide)
        have hany : c ≠ '_' := by
          rintro rfl
          exact absurd hany (by decide)
        have hread := @likeRead_cons none c (by simp) rest
        rw [likeSymbol,if_neg hrun,if_neg hany] at hread
        exact hread
      | true =>
        rw [likeItem]
        split
        · rw [List.cons_append,List.singleton_append,escapeOf,if_pos rfl,likeRead,if_pos rfl]
        · rename_i hplain
          have hplain : c ≠ '%' ∧ c ≠ '_' ∧ c ≠ '#' := by simpa [and_assoc] using hplain
          have hescape : some c ≠ some '#' := fun h => hplain.2.2 (Option.some.inj h)
          have hread := likeRead_cons hescape rest
          rw [likeSymbol,if_neg hplain.1,if_neg hplain.2.1] at hread
          exact hread

theorem likeRead_pattern (items : List CpItem) :
    likeRead (escapeOf (likePattern items).2) (likePattern items).1 = some items := by
  have hflat (escape : Bool) (items : List CpItem)
      (h : escape = false → needsEscape items = false) :
      likeRead (escapeOf escape) (items.flatMap (likeItem escape)) = some items := by
    induction items with
    | nil => rfl
    | cons i items ih =>
      have hnone (hescape : escape = false) :
          (isLit '%' i || isLit '_' i) = false ∧ needsEscape items = false := by
        have hall := h hescape
        rw [needsEscape,List.any_cons,Bool.or_eq_false_iff] at hall
        exact hall
      rw [List.flatMap_cons,likeRead_item fun hescape => Bool.or_eq_false_iff.mp (hnone hescape).1,
        ih fun hescape => (hnone hescape).2]
      rfl
  exact hflat _ items id

theorem likeMatches_pattern :
    LikeMatches (escapeOf (likePattern items).2) (likePattern items).1 s ↔ Matches meets items s := by
  constructor
  · rintro ⟨_,hread,hmatch⟩
    rw [likeRead_pattern] at hread
    rwa [Option.some.inj hread]
  · exact fun hmatch => ⟨items,likeRead_pattern items,hmatch⟩

theorem matches_runs (hne : items ≠ []) (h : ∀ i ∈ items,i = .run) : Matches meets items s := by
  have hnil (items : List CpItem) (h : ∀ i ∈ items,i = .run) : Matches meets items [] := by
    induction items with
    | nil => exact .nil
    | cons i items ih =>
      obtain ⟨rfl,hrest⟩ := List.forall_mem_cons.mp h
      exact .stop (ih hrest)
  cases items with
  | nil => exact (hne rfl).elim
  | cons i items =>
    obtain ⟨rfl,hrest⟩ := List.forall_mem_cons.mp h
    induction s with
    | nil => exact .stop (hnil items hrest)
    | cons c s ih => exact .more ih

theorem matches_literals (h : ∀ i ∈ items,CpItem.wild i = false) :
    Matches meets items s ↔ s = items.flatMap literalOf := by
  induction items generalizing s with
  | nil =>
    constructor
    · rintro ⟨⟩
      rfl
    · rintro rfl
      exact .nil
  | cons i items ih =>
    obtain ⟨hi,hrest⟩ := List.forall_mem_cons.mp h
    cases i with
    | run => cases hi
    | one c =>
      cases c with
      | none => cases hi
      | some c =>
        rw [List.flatMap_cons]
        constructor
        · intro hmatch
          cases hmatch with
          | one hmeets hs =>
            rw [(ih hrest).mp hs,← (show c = _ from hmeets)]
            rfl
        · rintro rfl
          exact .one rfl ((ih hrest).mpr rfl)

end Like

section Truths

open Classical in
noncomputable def Truth.of (p : Prop) : Truth := if p then .yes else .no

theorem Truth.of_eq_yes : Truth.of p = .yes ↔ p := by
  rw [Truth.of]
  split
  · exact iff_of_true rfl ‹p›
  · exact iff_of_false (by simp) ‹¬p›

theorem Truth.not_of : (Truth.of p).not = Truth.of ¬p := by
  by_cases hp : p
  · simp [Truth.of,Truth.not,hp]
  · simp [Truth.of,Truth.not,hp]

theorem Truth.and_of : (Truth.of p).and (Truth.of q) = Truth.of (p ∧ q) := by
  by_cases hp : p
  · by_cases hq : q <;> simp [Truth.of,Truth.and,hp,hq]
  · by_cases hq : q <;> simp [Truth.of,Truth.and,hp,hq]

theorem Truth.or_of : (Truth.of p).or (Truth.of q) = Truth.of (p ∨ q) := by
  by_cases hp : p
  · by_cases hq : q <;> simp [Truth.of,Truth.or,hp,hq]
  · by_cases hq : q <;> simp [Truth.of,Truth.or,hp,hq]

def before (less : Text → Text → Prop) : Value Text → Value Text → Prop
  | .int a,.int b => a < b
  | .text a,.text b => less a b
  | _,_ => False

def relates (less : Text → Text → Prop) : Op → Value Text → Value Text → Prop
  | .eq,u,w => u = w
  | .ne,u,w => u ≠ w
  | .lt,u,w => before less u w
  | .gt,u,w => before less w u
  | .le,u,w => ¬before less w u
  | .ge,u,w => ¬before less u w
  | _,_,_ => False

def escapeChar : Option GoIR → Option Char
  | some (.lit (.text [c]) _) => some c
  | _ => none

def Says (less : Text → Text → Prop) (v : Value Text) : GoIR → Prop
  | .bin op (.col _ _ _) (.lit w _) _ => relates less op v w
  | .bin op (.lit u _) (.lit w _) _ => relates less op u w
  | .like (.col _ _ _) (.lit (.text pattern) _) escape _ =>
    ∃ s,v = .text s ∧ LikeMatches (escapeChar escape) pattern s
  | _ => False

noncomputable def verdict (less : Text → Text → Prop) (v : Value Text) (e : GoIR) : Truth :=
  e.truth fun e => Truth.of (Says less v e)

end Truths

section Rows

def CpMatches (v : Value Text) (t : IRType) (lowLen : Nat) (row : RangeRow) : Prop :=
  ∃ s,v = .text s ∧ Matches meets (cpItems (cpSource t row lowLen)) s

def Between (less : Text → Text → Prop) (v low high : Value Text) : Prop :=
  relates less .ge v low ∧ relates less .le v high

def Satisfies (less : Text → Text → Prop) (v : Value Text) (t : IRType) (kind : Text)
    (lowLen : Nat) (row : RangeRow) : Prop :=
  match compareOption row.option with
  | some op => ∃ low,boundValue row.low t kind = .ok low ∧ relates less op v low
  | none =>
    if row.option = "BT".toList then ∃ low high,boundValue row.low t kind = .ok low ∧
      boundValue row.high t kind = .ok high ∧ Between less v low high
    else if row.option = "NB".toList then ∃ low high,boundValue row.low t kind = .ok low ∧
      boundValue row.high t kind = .ok high ∧ ¬Between less v low high
    else if row.option = "CP".toList then CpMatches v t lowLen row
    else if row.option = "NP".toList then ¬CpMatches v t lowLen row
    else False

def FitsType (v : Value Text) (t : IRType) : Prop :=
  if t.abap = .I then ∃ n,v = .int n else ∃ s,v = .text s

def Means (less : Text → Text → Prop) (v : Value Text) (e : GoIR) (p : Prop) : Prop :=
  verdict less v e = Truth.of p

theorem Means.iff (h : Means less v e p) (hpq : p ↔ q) : Means less v e q := by
  rwa [← propext hpq]

theorem Means.not (h : Means less v e p) : Means less v (.not e) ¬p := by
  rw [Means,verdict,IR.truth]
  change (verdict less v e).not = _
  rw [h,Truth.not_of]

theorem Means.and (h : Means less v e p) (h' : Means less v e' q) :
    Means less v (.bin .and e e' tBool) (p ∧ q) := by
  rw [Means,verdict,IR.truth]
  change (verdict less v e).and (verdict less v e') = _
  rw [h,h',Truth.and_of]

theorem Means.or (h : Means less v e p) (h' : Means less v e' q) :
    Means less v (.bin .or e e' tBool) (p ∨ q) := by
  rw [Means,verdict,IR.truth]
  change (verdict less v e).or (verdict less v e') = _
  rw [h,h',Truth.or_of]

theorem means_true : Means less v irTrue True :=
  congrArg Truth.of (propext (iff_of_true (show Value.int 1 = .int 1 from rfl) trivial))

theorem means_false : Means less v irFalse False :=
  congrArg Truth.of (propext (iff_of_false (show ¬(Value.int 1 = .int 0) by decide) id))

theorem compareOption_op {option : Text} {op : Op} (h : compareOption option = some op) :
    op ≠ .and ∧ op ≠ .or := by
  unfold compareOption at h
  split_ifs at h <;> (obtain rfl := Option.some.inj h; decide)

theorem means_compare {op : Op} {w : Value Text} (hop : op ≠ .and ∧ op ≠ .or) :
    Means less v (.bin op (.col column none t) (.lit w t) tBool) (relates less op v w) := by
  rw [Means,verdict]
  cases op with
  | and => exact (hop.1 rfl).elim
  | or => exact (hop.2 rfl).elim
  | _ => rfl

theorem bound_ok {value : Value Text} (h : bound value t kind = .ok e) :
    ∃ w,boundValue value t kind = .ok w ∧ e = .lit w t := by
  rw [bound] at h
  cases hvalue : boundValue value t kind with
  | error _ =>
    rw [hvalue] at h
    cases h
  | ok w =>
    rw [hvalue] at h
    exact ⟨w,rfl,(Except.ok.inj h).symm⟩

theorem means_items {negated : Bool} (hs : v = .text s) :
    Means less v (itemsCondition (.col column none t) t negated items)
      (if negated then ¬Matches meets items s else Matches meets items s) := by
  subst hs
  unfold itemsCondition
  split
  · rename_i hruns
    have hmatch : Matches meets items s :=
      matches_runs hruns.1 fun i hi => of_decide_eq_true (List.all_eq_true.mp hruns.2 i hi)
    cases negated with
    | false => exact (means_true).iff (iff_of_true trivial hmatch)
    | true => exact (means_false).iff (iff_of_false id fun h => h hmatch)
  · split
    · rename_i hliterals
      have hliterals : ∀ i ∈ items,CpItem.wild i = false := by simpa using hliterals
      cases negated with
      | false =>
        refine (means_compare (by decide)).iff ?_
        rw [if_neg Bool.false_ne_true,matches_literals hliterals]
        exact ⟨fun h => Value.text.inj h,congrArg _⟩
      | true =>
        refine (means_compare (by decide)).iff ?_
        rw [if_pos rfl,matches_literals hliterals]
        exact not_congr ⟨fun h => Value.text.inj h,congrArg _⟩
    · have hlike : Means less (.text s) (.like (.col column none t)
          (.lit (.text (likePattern items).1) tStr)
          (if (likePattern items).2 then some (.lit (.text ['#']) tStr) else none) false)
          (Matches meets items s) := by
        refine congrArg Truth.of (propext ?_)
        rw [← likeMatches_pattern]
        have hescape : escapeChar (if (likePattern items).2 then some (.lit (.text ['#']) tStr)
            else none) = escapeOf (likePattern items).2 := by
          cases (likePattern items).2 <;> rfl
        rw [Says,hescape]
        constructor
        · rintro ⟨_,hs,hmatch⟩
          rwa [Value.text.inj hs]
        · exact fun hmatch => ⟨s,rfl,hmatch⟩
      cases negated with
      | false => exact hlike
      | true => exact hlike.not

theorem patternCondition_ok (h : patternCondition (.col column none t) t row lowLen = .ok e) :
    (t.abap = .C ∨ t.abap = .STRING) ∧
      e = itemsCondition (.col column none t) t (row.option = "NP".toList)
        (cpItems (cpSource t row lowLen)) := by
  unfold patternCondition at h
  simp only at h
  split at h
  · cases h
  · rename_i htype
    have htype : t.abap = .C ∨ t.abap = .STRING := by
      by_contra hno
      exact htype (not_or.mp hno)
    split at h
    · cases h
    split at h
    · cases h
    split at h
    · cases h
    split at h
    · cases h
    split at h
    · cases h
    · exact ⟨htype,(Except.ok.inj h).symm⟩

theorem means_between {low high : Value Text} :
    Means less v (.bin .and (.bin .ge (.col column none t) (.lit low t) tBool)
      (.bin .le (.col column none t) (.lit high t) tBool) tBool) (Between less v low high) :=
  (means_compare (by decide)).and (means_compare (by decide))

theorem means_pattern (h : patternCondition (.col column none t) t row lowLen = .ok e)
    (hv : FitsType v t) : Means less v e (if row.option = "NP".toList then
      ¬CpMatches v t lowLen row else CpMatches v t lowLen row) := by
  obtain ⟨htype,rfl⟩ := patternCondition_ok h
  have htext : t.abap ≠ .I := by
    rcases htype with htype | htype <;> rw [htype] <;> decide
  rw [FitsType,if_neg htext] at hv
  obtain ⟨s,rfl⟩ := hv
  have hmatch : Matches meets (cpItems (cpSource t row lowLen)) s ↔
      CpMatches (.text s) t lowLen row := by
    constructor
    · exact fun h => ⟨s,rfl,h⟩
    · rintro ⟨_,hs,h⟩
      rwa [Value.text.inj hs]
  refine (means_items rfl).iff ?_
  by_cases hnegated : row.option = "NP".toList
  · rw [if_pos hnegated,if_pos (decide_eq_true hnegated),hmatch]
  · rw [if_neg hnegated,if_neg (by simpa using hnegated),hmatch]

theorem means_row (h : rowCondition (.col column none t) t kind lowLen row = .ok e)
    (hv : FitsType v t) : Means less v e (Satisfies less v t kind lowLen row) := by
  unfold rowCondition at h
  unfold Satisfies
  cases hop : compareOption row.option with
  | some op =>
    rw [hop] at h
    obtain ⟨low,hlow,h⟩ := bind_eq_ok h
    obtain ⟨w,hw,rfl⟩ := bound_ok hlow
    obtain rfl := Except.ok.inj h
    refine (means_compare (compareOption_op hop)).iff ?_
    constructor
    · exact fun h => ⟨w,hw,h⟩
    · rintro ⟨_,hw',h⟩
      rwa [Except.ok.inj (hw.symm.trans hw')]
  | none =>
    rw [hop] at h
    simp only at h ⊢
    split at h
    · rename_i hoption
      obtain ⟨low,hlow,h⟩ := bind_eq_ok h
      obtain ⟨high,hhigh,h⟩ := bind_eq_ok h
      obtain ⟨w,hw,rfl⟩ := bound_ok hlow
      obtain ⟨u,hu,rfl⟩ := bound_ok hhigh
      obtain rfl := Except.ok.inj h
      have hvalues (P : Value Text → Value Text → Prop) :
          P w u ↔ ∃ low high,boundValue row.low t kind = .ok low ∧
            boundValue row.high t kind = .ok high ∧ P low high := by
        constructor
        · exact fun h => ⟨w,u,hw,hu,h⟩
        · rintro ⟨_,_,hw',hu',h⟩
          rwa [Except.ok.inj (hw.symm.trans hw'),Except.ok.inj (hu.symm.trans hu')]
      by_cases hbt : row.option = "BT".toList
      · rw [if_pos hbt,if_pos hbt]
        exact (means_between).iff (hvalues _)
      · have hnb : row.option = "NB".toList := hoption.resolve_left hbt
        rw [if_neg hbt,if_neg hbt,if_pos hnb]
        exact means_between.not.iff (hvalues fun low high => ¬Between less v low high)
    · rename_i hoption
      obtain ⟨hbt,hnb⟩ := not_or.mp hoption
      rw [if_neg hbt,if_neg hnb]
      split at h
      · rename_i hpattern
        refine (means_pattern h hv).iff ?_
        by_cases hnp : row.option = "NP".toList
        · rw [if_pos hnp,if_neg (by rw [hnp]; decide),if_pos hnp]
        · rw [if_neg hnp,if_pos (hpattern.resolve_right hnp)]
      · cases h

theorem means_or {es : List GoIR} {ps : List RangeRow} {P : RangeRow → Prop}
    (h : List.Forall₂ (fun r e => Means less v e (P r)) ps es) (hne : ps ≠ []) :
    Means less v (irOr es) (∃ r ∈ ps,P r) := by
  have hfold {ps : List RangeRow} {es : List GoIR} {e : GoIR} {p : Prop}
      (he : Means less v e p) (h : List.Forall₂ (fun r e => Means less v e (P r)) ps es) :
      Means less v (es.foldl (fun out p => .bin .or out p tBool) e) (p ∨ ∃ r ∈ ps,P r) := by
    induction h generalizing e p with
    | nil => exact he.iff (by simp)
    | cons hr _ ih => exact (ih (he.or hr)).iff (by simp [or_assoc])
  cases h with
  | nil => exact (hne rfl).elim
  | cons hr hrest => exact (hfold hr hrest).iff (by simp)

theorem mapM_forall₂ {f : RangeRow → Except RangesError GoIR} {ps : List RangeRow} {es : List GoIR}
    (h : ps.mapM f = .ok es) : List.Forall₂ (fun r e => f r = .ok e) ps es := by
  induction ps generalizing es with
  | nil =>
    obtain rfl := Except.ok.inj h
    exact .nil
  | cons p ps ih =>
    rw [List.mapM_cons] at h
    obtain ⟨e,he,h⟩ := bind_eq_ok h
    obtain ⟨rest,hrest,h⟩ := bind_eq_ok h
    obtain rfl := Except.ok.inj h
    exact .cons he (ih hrest)

theorem means_combine {is xs : List RangeRow} {ies xes : List GoIR} {P : RangeRow → Prop}
    (hi : List.Forall₂ (fun r e => Means less v e (P r)) is ies)
    (hx : List.Forall₂ (fun r e => Means less v e (P r)) xs xes) (hne : is ≠ [] ∨ xs ≠ []) :
    Means less v (combine ies xes) (((∃ r ∈ is,P r) ∨ is = []) ∧ ¬∃ r ∈ xs,P r) := by
  cases hi with
  | nil =>
    cases hx with
    | nil => exact (hne.elim (· rfl) (· rfl)).elim
    | cons hr hrest =>
      exact (means_or (.cons hr hrest) (List.cons_ne_nil _ _)).not.iff (by simp)
  | cons hr hrest =>
    have hor := means_or (.cons hr hrest) (List.cons_ne_nil _ _)
    cases hx with
    | nil => exact hor.iff (by simp)
    | cons hr' hrest' =>
      exact (hor.and (means_or (.cons hr' hrest') (List.cons_ne_nil _ _)).not).iff (by simp)

def Selects (less : Text → Text → Prop) (v : Value Text) (t : IRType) (kind : Text) (lowLen : Nat)
    (rows : List RangeRow) : Prop :=
  ((∃ r ∈ rows,included r ∧ Satisfies less v t kind lowLen r) ∨ ∀ r ∈ rows,¬included r) ∧
    ¬∃ r ∈ rows,excluded r ∧ Satisfies less v t kind lowLen r

theorem rangesPredicate_ok
    (h : rangesPredicate casing column t rows kind lowLen = .ok pred) :
    rows = [] ∧ pred = irTrue ∨ rows ≠ [] ∧ (∀ r ∈ rows,included r ∨ excluded r) ∧
      ∃ ies xes,(rows.filter included).mapM
          (rowCondition (.col (casing.toUpper column) none t) t kind lowLen) = .ok ies ∧
        (rows.filter excluded).mapM
          (rowCondition (.col (casing.toUpper column) none t) t kind lowLen) = .ok xes ∧
        pred = combine ies xes := by
  unfold rangesPredicate at h
  simp only at h
  split at h
  · exact .inl ⟨‹_›,(Except.ok.inj h).symm⟩
  · rename_i hne
    split at h
    · cases h
    · rename_i hnone
      obtain ⟨ies,hies,h⟩ := bind_eq_ok h
      obtain ⟨xes,hxes,h⟩ := bind_eq_ok h
      refine .inr ⟨hne,fun r hr => ?_,ies,xes,hies,hxes,(Except.ok.inj h).symm⟩
      have hsign := List.find?_eq_none.mp hnone r hr
      by_contra hno
      obtain ⟨hi,hx⟩ := not_or.mp hno
      exact hsign (by simp [hi,hx])

theorem means_ranges (h : rangesPredicate casing column t rows kind lowLen = .ok pred)
    (hv : FitsType v t) : Means less v pred (Selects less v t kind lowLen rows) := by
  rcases rangesPredicate_ok h with ⟨rfl,rfl⟩ | ⟨hne,hsigns,ies,xes,hies,hxes,rfl⟩
  · exact means_true.iff (by simp [Selects])
  · have hmeans {ps : List RangeRow} {es : List GoIR} (h : ps.mapM
        (rowCondition (.col (casing.toUpper column) none t) t kind lowLen) = .ok es) :
        List.Forall₂ (fun r e => Means less v e (Satisfies less v t kind lowLen r)) ps es :=
      (mapM_forall₂ h).imp fun _ _ hrow => means_row hrow hv
    refine (means_combine (hmeans hies) (hmeans hxes) ?_).iff ?_
    · obtain ⟨r,hr⟩ := List.exists_mem_of_ne_nil rows hne
      rcases hsigns r hr with hi | hx
      · exact .inl (List.ne_nil_of_mem (List.mem_filter.mpr ⟨hr,hi⟩))
      · exact .inr (List.ne_nil_of_mem (List.mem_filter.mpr ⟨hr,hx⟩))
    · simp only [Selects,List.mem_filter,and_assoc,List.filter_eq_nil_iff]

theorem selects_perm (h : rows.Perm rows') :
    Selects less v t kind lowLen rows ↔ Selects less v t kind lowLen rows' := by
  simp only [Selects,h.mem_iff]

theorem mapM_rows {f : RangeRow → Except RangesError GoIR} {ps : List RangeRow} {es : List GoIR}
    (h : ps.mapM f = .ok es) : ∀ r ∈ ps,∃ e,f r = .ok e := by
  have hall := mapM_forall₂ h
  clear h
  induction hall with
  | nil => exact fun _ hmem => absurd hmem List.not_mem_nil
  | cons hrow _ ih => exact List.forall_mem_cons.mpr ⟨⟨_,hrow⟩,ih⟩

theorem mapM_exists {f : RangeRow → Except RangesError GoIR} {ps : List RangeRow}
    (h : ∀ r ∈ ps,∃ e,f r = .ok e) : ∃ es,ps.mapM f = .ok es := by
  induction ps with
  | nil => exact ⟨[],rfl⟩
  | cons p ps ih =>
    obtain ⟨⟨e,he⟩,hps⟩ := List.forall_mem_cons.mp h
    obtain ⟨es,hes⟩ := ih hps
    refine ⟨e :: es,?_⟩
    rw [List.mapM_cons,he,hes]
    rfl

theorem rangesPredicate_perm (hperm : rows.Perm rows')
    (h : rangesPredicate casing column t rows kind lowLen = .ok pred) :
    ∃ pred',rangesPredicate casing column t rows' kind lowLen = .ok pred' := by
  rcases rangesPredicate_ok h with ⟨rfl,_⟩ | ⟨hne,hsigns,ies,xes,hies,hxes,_⟩
  · obtain rfl := hperm.nil_eq
    exact ⟨pred,h⟩
  · have hne' : rows' ≠ [] := fun hnil => hne (List.perm_nil.mp (hnil ▸ hperm))
    have hnone : rows'.find? (fun r => !included r && !excluded r) = none := by
      refine List.find?_eq_none.mpr fun r hr => ?_
      rcases hsigns r (hperm.mem_iff.mpr hr) with hsign | hsign <;> simp [hsign]
    have hfilter {p : RangeRow → Bool} {es : List GoIR} (hes : (rows.filter p).mapM
        (rowCondition (.col (casing.toUpper column) none t) t kind lowLen) = .ok es) :
        ∃ es',(rows'.filter p).mapM
          (rowCondition (.col (casing.toUpper column) none t) t kind lowLen) = .ok es' :=
      mapM_exists fun r hr => mapM_rows hes r ((hperm.filter p).mem_iff.mpr hr)
    obtain ⟨ies',hies'⟩ := hfilter hies
    obtain ⟨xes',hxes'⟩ := hfilter hxes
    refine ⟨combine ies' xes',?_⟩
    unfold rangesPredicate
    simp only [if_neg hne',hnone,hies',hxes']
    rfl

end Rows

end OpenSteamgate.Osql
