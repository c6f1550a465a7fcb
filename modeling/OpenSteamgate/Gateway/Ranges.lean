import Mathlib.Data.List.Nodup
import Mathlib.Order.Lattice
import Mathlib.Tactic.Ring
import Mathlib.Tactic.Linarith
import OpenSteamgate.Gateway.Filter

namespace OpenSteamgate.Gateway.Filter

inductive Condition
  | cmp (property op value : String)
  | fn (property op value : String)
  | not (c : Condition)
  | or (l r : Condition)
  | and (l r : Condition)

inductive Represents (nodes : List Node) : Nat → Condition → Prop
  | cmp {id : Nat} {node : Node} : nodeAt nodes id = some node → node.kind = .cmp →
      Represents nodes id (.cmp node.property node.op node.value)
  | fn {id : Nat} {node : Node} : nodeAt nodes id = some node → node.kind = .fn →
      Represents nodes id (.fn node.property node.op node.value)
  | not {id : Nat} {node : Node} {c : Condition} : nodeAt nodes id = some node →
      node.kind = .not → node.left < id → Represents nodes node.left c →
      Represents nodes id (.not c)
  | or {id : Nat} {node : Node} {l r : Condition} : nodeAt nodes id = some node →
      node.kind = .or → node.left < id → node.right < id → Represents nodes node.left l →
      Represents nodes node.right r → Represents nodes id (.or l r)
  | and {id : Nat} {node : Node} {l r : Condition} : nodeAt nodes id = some node →
      node.kind = .and → node.left < id → node.right < id → Represents nodes node.left l →
      Represents nodes node.right r → Represents nodes id (.and l r)

def Condition.kind : Condition → NodeKind
  | .cmp .. => .cmp
  | .fn .. => .fn
  | .not _ => .not
  | .or .. => .or
  | .and .. => .and

theorem Represents.kind_eq {nodes : List Node} {id : Nat} {c : Condition} {node : Node} (h : Represents nodes id c)
    (hat : nodeAt nodes id = some node) : node.kind = c.kind := by
  cases h with
  | cmp hat' hkind | fn hat' hkind | not hat' hkind | or hat' hkind | and hat' hkind =>
      rw [Option.some.inj (hat.symm.trans hat'),hkind]; rfl

theorem Represents.unique {nodes : List Node} {id : Nat} {c d : Condition} (hc : Represents nodes id c) (hd : Represents nodes id d) : c = d := by
  induction hc generalizing d with
  | @cmp id node hat hkind =>
    have hd' := (hd.kind_eq hat).symm.trans hkind
    cases hd with
    | cmp hat' => rw [Option.some.inj (hat.symm.trans hat')]
    | _ => exact nomatch hd'
  | @fn id node hat hkind =>
    have hd' := (hd.kind_eq hat).symm.trans hkind
    cases hd with
    | fn hat' => rw [Option.some.inj (hat.symm.trans hat')]
    | _ => exact nomatch hd'
  | @not id node c hat hkind hlt hc ih =>
    have hd' := (hd.kind_eq hat).symm.trans hkind
    cases hd with
    | not hat' _ _ hd =>
      obtain rfl := Option.some.inj (hat.symm.trans hat')
      rw [ih hd]
    | _ => exact nomatch hd'
  | @or id node l r hat hkind hl hr hcl hcr ihl ihr =>
    have hd' := (hd.kind_eq hat).symm.trans hkind
    cases hd with
    | or hat' _ _ _ hdl hdr =>
      obtain rfl := Option.some.inj (hat.symm.trans hat')
      rw [ihl hdl,ihr hdr]
    | _ => exact nomatch hd'
  | @and id node l r hat hkind hl hr hcl hcr ihl ihr =>
    have hd' := (hd.kind_eq hat).symm.trans hkind
    cases hd with
    | and hat' _ _ _ hdl hdr =>
      obtain rfl := Option.some.inj (hat.symm.trans hat')
      rw [ihl hdl,ihr hdr]
    | _ => exact nomatch hd'

@[grind =] def groupsOf : Condition → Option (List Group)
  | .cmp p op v => (comparisonOption op v).map fun o => [⟨p,[o]⟩]
  | .fn p op v => (functionOption op v).map fun o => [⟨p,[o]⟩]
  | .not (.cmp p op v) =>
    if op = "eq" then some [⟨p,[{sign := .E,option := .EQ,low := v}]⟩] else none
  | .not _ => none
  | .or l r => (groupsOf l).bind fun left => (groupsOf r).bind fun right => orGroups left right
  | .and l r => (groupsOf l).bind fun left => (groupsOf r).bind fun right => mergeAnd left right

variable {nodes : List Node} {c : Condition} {id n : Nat}

theorem nodeAt_pos {node : Node} (h : nodeAt nodes id = some node) : 0 < id := by
  rw [nodeAt] at h
  split at h
  · exact nomatch h
  · omega

theorem orGroups_single {left right groups : List Group} (h : orGroups left right = some groups) :
    left.length = 1 := by
  unfold orGroups at h
  split at h
  · rfl
  · exact nomatch h

theorem toGroups_eq (h : Represents nodes id c) (hn : id ≤ n) :
    toGroups nodes n id = groupsOf c := by
  induction h generalizing n with
  | @cmp id node hat hkind | @fn id node hat hkind =>
    obtain ⟨n,rfl⟩ := Nat.exists_eq_add_one.mpr (Nat.lt_of_lt_of_le (nodeAt_pos hat) hn)
    rw [toGroups,hat,groupsOf]
    simp only [Option.bind_eq_bind,Option.bind_some,hkind]
    exact Option.map_eq_bind.symm
  | @not id node c hat hkind hlt hc ih =>
    obtain ⟨n,rfl⟩ := Nat.exists_eq_add_one.mpr (Nat.lt_of_lt_of_le (nodeAt_pos hat) hn)
    rw [toGroups,hat]
    simp only [Option.bind_eq_bind,Option.bind_some,hkind]
    cases hc with
    | @cmp _ child hat' hkind' =>
      rw [hat',Option.bind_some,groupsOf]
      by_cases hop : child.op = "eq"
      · rw [if_pos hop,if_neg (by simp [hkind',hop])]
        rfl
      · rw [if_neg hop,if_pos (.inr hop)]
    | fn hat' hkind' | not hat' hkind' | or hat' hkind' | and hat' hkind' =>
        rw [hat',Option.bind_some,groupsOf,if_pos (by simp [hkind'])]; exact nofun
  | @or id node l r hat hkind hl hr hcl hcr ihl ihr =>
    obtain ⟨n,rfl⟩ := Nat.exists_eq_add_one.mpr (Nat.lt_of_lt_of_le (nodeAt_pos hat) hn)
    rw [toGroups,hat,groupsOf]
    simp only [Option.bind_eq_bind,Option.bind_some,hkind,ihl (n := n) (by omega),ihr (n := n) (by omega)]
    refine Option.bind_congr fun left _ => ?_
    split
    · rename_i hlen
      cases hright : groupsOf r with
      | none => rfl
      | some right =>
        cases hor : orGroups left right with
        | none => exact hor.symm
        | some groups => exact (hlen (orGroups_single hor)).elim
    · rfl
  | @and id node l r hat hkind hl hr hcl hcr ihl ihr =>
    obtain ⟨n,rfl⟩ := Nat.exists_eq_add_one.mpr (Nat.lt_of_lt_of_le (nodeAt_pos hat) hn)
    rw [toGroups,hat,groupsOf]
    simp only [Option.bind_eq_bind,Option.bind_some,hkind,ihl (n := n) (by omega),ihr (n := n) (by omega)]

inductive Covers : List Char → List Char → Prop
  | nil : Covers [] []
  | skip {p t : List Char} : Covers p t → Covers ('*' :: p) t
  | star {p t : List Char} {c : Char} : Covers ('*' :: p) t → Covers ('*' :: p) (c :: t)
  | any {p t : List Char} {c : Char} : Covers p t → Covers ('+' :: p) (c :: t)
  | escaped {p t : List Char} {c : Char} : Covers p t → Covers ('#' :: c :: p) (c :: t)
  | literal {p t : List Char} {c : Char} : c ≠ '*' → c ≠ '+' → c ≠ '#' → Covers p t →
      Covers (c :: p) (c :: t)

theorem covers_nil {t : List Char} : Covers [] t ↔ t = [] := by
  constructor
  · intro h
    cases h
    rfl
  · rintro rfl
    exact .nil

theorem covers_star {p t : List Char} : Covers ('*' :: p) t ↔ ∃ s,s <:+ t ∧ Covers p s := by
  constructor
  · intro h
    generalize hq : '*' :: p = q at h
    induction h with
    | nil => exact nomatch hq
    | skip h =>
      obtain rfl := (List.cons.inj hq).2
      exact ⟨_,List.suffix_rfl,h⟩
    | star _ ih =>
      obtain ⟨s,hs,h⟩ := ih hq
      exact ⟨s,hs.trans (List.suffix_cons _ _),h⟩
    | any => exact absurd (List.cons.inj hq).1 (by decide)
    | escaped => exact absurd (List.cons.inj hq).1 (by decide)
    | literal hne => exact absurd (List.cons.inj hq).1.symm hne
  · rintro ⟨s,⟨u,rfl⟩,h⟩
    induction u with
    | nil => exact .skip h
    | cons c u ih => exact .star ih

theorem covers_escaped {c : Char} {q t : List Char} :
    Covers ('#' :: c :: q) t ↔ ∃ t',t = c :: t' ∧ Covers q t' := by
  constructor
  · intro h
    cases h with
    | escaped h => exact ⟨_,rfl,h⟩
    | literal _ _ hne => exact (hne rfl).elim
  · rintro ⟨t',rfl,h⟩
    exact .escaped h

theorem covers_literal {c : Char} {q t : List Char} (hc : ¬(c = '*' ∨ c = '+' ∨ c = '#')) :
    Covers (c :: q) t ↔ ∃ t',t = c :: t' ∧ Covers q t' := by
  constructor
  · intro h
    cases h with
    | skip | star | any | escaped => exact (hc (by decide)).elim
    | literal _ _ _ h => exact ⟨_,rfl,h⟩
  · rintro ⟨t',rfl,h⟩
    exact .literal (fun h => hc (.inl h)) (fun h => hc (.inr (.inl h)))
      (fun h => hc (.inr (.inr h))) h

theorem covers_escape_cons {c : Char} {v p t : List Char} :
    Covers (escape (c :: v) ++ p) t ↔ ∃ t',t = c :: t' ∧ Covers (escape v ++ p) t' := by
  rw [escape,List.flatMap_cons,List.append_assoc]
  split
  · exact covers_escaped
  · exact covers_literal ‹_›

theorem covers_escape {v p t : List Char} :
    Covers (escape v ++ p) t ↔ ∃ s,t = v ++ s ∧ Covers p s := by
  induction v generalizing t with
  | nil => exact ⟨fun h => ⟨t,rfl,h⟩,fun ⟨s,hs,h⟩ => hs ▸ h⟩
  | cons c v ih =>
    rw [covers_escape_cons]
    constructor
    · rintro ⟨t',rfl,h⟩
      obtain ⟨s,rfl,hs⟩ := ih.mp h
      exact ⟨s,rfl,hs⟩
    · rintro ⟨s,rfl,hs⟩
      exact ⟨v ++ s,rfl,ih.mpr ⟨s,rfl,hs⟩⟩

theorem covers_any (t : List Char) : Covers ['*'] t :=
  (covers_star).mpr ⟨[],List.nil_suffix,.nil⟩

theorem covers_startswith {v t : List Char} : Covers (escape v ++ ['*']) t ↔ v <+: t := by
  rw [covers_escape]
  exact ⟨fun ⟨s,hs,_⟩ => ⟨s,hs.symm⟩,fun ⟨s,hs⟩ => ⟨s,hs.symm,covers_any s⟩⟩

theorem covers_endswith {v t : List Char} : Covers ('*' :: escape v) t ↔ v <:+ t := by
  rw [covers_star]
  constructor
  · rintro ⟨s,hs,h⟩
    rw [← List.append_nil (escape v)] at h
    obtain ⟨u,rfl,hu⟩ := (covers_escape).mp h
    rwa [(covers_nil).mp hu,List.append_nil] at hs
  · intro h
    refine ⟨v,h,?_⟩
    have hv : Covers (escape v ++ []) v := (covers_escape).mpr ⟨[],(List.append_nil v).symm,.nil⟩
    rwa [List.append_nil] at hv

theorem covers_contains {v t : List Char} : Covers ('*' :: escape v ++ ['*']) t ↔ v <:+: t := by
  rw [List.cons_append,covers_star]
  constructor
  · rintro ⟨s,hs,h⟩
    exact ((covers_startswith).mp h).isInfix.trans hs.isInfix
  · rintro ⟨a,b,rfl⟩
    exact ⟨v ++ b,⟨a,(List.append_assoc a v b).symm⟩,(covers_startswith).mpr (List.prefix_append v b)⟩

structure Domain where
  Value : String → Type
  order : ∀ p, LinearOrder (Value p)
  literal : ∀ p, String → Value p
  text : ∀ p, Value p → String

namespace Domain

variable (D : Domain)

instance (p : String) : LinearOrder (D.Value p) := D.order p

def compares (p op : String) (value : String) (v : D.Value p) : Prop :=
  if op = "eq" then v = D.literal p value
  else if op = "ne" then v ≠ D.literal p value
  else if op = "gt" then D.literal p value < v
  else if op = "ge" then D.literal p value ≤ v
  else if op = "lt" then v < D.literal p value
  else if op = "le" then v ≤ D.literal p value
  else False

def applies (p op : String) (value : String) (v : D.Value p) : Prop :=
  if op = "startswith" then value.toList <+: (D.text p v).toList
  else if op = "endswith" then value.toList <:+ (D.text p v).toList
  else if op = "substringof" then value.toList <:+: (D.text p v).toList
  else False

def meets (p : String) (o : SelectOption) (v : D.Value p) : Prop :=
  match o.option with
  | .EQ => v = D.literal p o.low
  | .GT => D.literal p o.low < v
  | .GE => D.literal p o.low ≤ v
  | .LT => v < D.literal p o.low
  | .LE => v ≤ D.literal p o.low
  | .BT => D.literal p o.low ≤ v ∧ v ≤ D.literal p o.high
  | .CP => Covers o.low.toList (D.text p v).toList

def inRange (p : String) (rows : List SelectOption) (v : D.Value p) : Prop :=
  ((∃ o ∈ rows, o.sign = .I ∧ D.meets p o v) ∨ ∀ o ∈ rows, o.sign ≠ .I) ∧
    ∀ o ∈ rows, o.sign = .E → ¬D.meets p o v

def holds (assign : ∀ p, D.Value p) : Condition → Prop
  | .cmp p op value => D.compares p op value (assign p)
  | .fn p op value => D.applies p op value (assign p)
  | .not c => ¬holds assign c
  | .or l r => holds assign l ∨ holds assign r
  | .and l r => holds assign l ∧ holds assign r

end Domain

section Merging

variable (D : Domain) {p : String} {o : SelectOption} {rows rows' R : List SelectOption}
  {v : D.Value p}

def inclusive (rows : List SelectOption) : Nat := rows.countP (·.sign = .I)

def Domain.admits (p : String) (v : D.Value p) (o : SelectOption) : Prop :=
  if o.sign = .I then D.meets p o v else ¬D.meets p o v

theorem sign_cases (o : SelectOption) : o.sign = .I ∨ o.sign = .E := by
  cases o.sign
  · exact .inl rfl
  · exact .inr rfl

theorem ne_inclusive : o.sign ≠ .I ↔ o.sign = .E := by
  cases o.sign
  · simp
  · simp

theorem inclusive_append (as bs : List SelectOption) :
    inclusive (as ++ bs) = inclusive as + inclusive bs := List.countP_append

theorem inclusive_cons (o : SelectOption) (rows : List SelectOption) :
    inclusive (o :: rows) = inclusive rows + if o.sign = .I then 1 else 0 := by
  simp [inclusive,List.countP_cons]

theorem inclusive_eq_zero : inclusive rows = 0 ↔ ∀ o ∈ rows,o.sign ≠ .I := by
  simp [inclusive,List.countP_eq_zero]

theorem inclusive_pos : 0 < inclusive rows ↔ ∃ o ∈ rows,o.sign = .I := by
  simp [inclusive,List.countP_pos_iff]

theorem inRange_iff_admits (h : inclusive rows ≤ 1) :
    D.inRange p rows v ↔ ∀ o ∈ rows,D.admits p v o := by
  rcases Nat.eq_zero_or_pos (inclusive rows) with hzero | hpos
  · have hnone := (inclusive_eq_zero).mp hzero
    refine ⟨fun hin o ho => ?_,fun hall => ⟨.inr hnone,fun o ho hE => ?_⟩⟩
    · rw [Domain.admits,if_neg (hnone o ho)]
      exact hin.2 o ho ((ne_inclusive).mp (hnone o ho))
    · have hadmits := hall o ho
      rwa [Domain.admits,if_neg (hnone o ho)] at hadmits
  · obtain ⟨o,ho,hI⟩ := (inclusive_pos).mp hpos
    obtain ⟨as,bs,rfl⟩ := List.append_of_mem ho
    rw [inclusive_append,inclusive_cons,if_pos hI] at h
    have has := (inclusive_eq_zero).mp (by omega : inclusive as = 0)
    have hbs := (inclusive_eq_zero).mp (by omega : inclusive bs = 0)
    have honly {x : SelectOption} (hx : x ∈ as ++ o :: bs) (hxI : x.sign = .I) : x = o := by
      rcases List.mem_append.mp hx with hx | hx
      · exact (has x hx hxI).elim
      · rcases List.mem_cons.mp hx with rfl | hx
        · rfl
        · exact (hbs x hx hxI).elim
    constructor
    · rintro ⟨hsome,hnot⟩ x hx
      rcases sign_cases x with hxI | hxE
      · obtain ⟨y,hy,hyI,hmeets⟩ := hsome.resolve_right fun hno => hno o ho hI
        rw [Domain.admits,if_pos hxI,honly hx hxI,← honly hy hyI]
        exact hmeets
      · rw [Domain.admits,if_neg ((ne_inclusive).mpr hxE)]
        exact hnot x hx hxE
    · intro hall
      have hadmits := hall o ho
      rw [Domain.admits,if_pos hI] at hadmits
      refine ⟨.inl ⟨o,ho,hI,hadmits⟩,fun x hx hxE => ?_⟩
      have hx' := hall x hx
      rwa [Domain.admits,if_neg ((ne_inclusive).mpr hxE)] at hx'

theorem inRange_exclude (hE : o.sign = .E) :
    D.inRange p (rows ++ [o]) v ↔ D.inRange p rows v ∧ D.admits p v o := by
  have hI : o.sign ≠ .I := (ne_inclusive).mpr hE
  have hsome : (∃ x ∈ rows ++ [o],x.sign = .I ∧ D.meets p x v) ↔
      ∃ x ∈ rows,x.sign = .I ∧ D.meets p x v := by
    constructor
    · rintro ⟨x,hx,hxI,hmeets⟩
      rcases List.mem_append.mp hx with hx | hx
      · exact ⟨x,hx,hxI,hmeets⟩
      · exact (hI (List.mem_singleton.mp hx ▸ hxI)).elim
    · rintro ⟨x,hx,hx'⟩
      exact ⟨x,List.mem_append_left _ hx,hx'⟩
  rw [Domain.inRange,Domain.inRange,Domain.admits,if_neg hI,hsome,List.forall_mem_append,
    List.forall_mem_append,List.forall_mem_singleton,List.forall_mem_singleton,
    and_iff_left hI,imp_iff_right hE,and_assoc]

theorem foldBound_spec (h : foldBound o rows = some rows') :
    ∃ as row row' bs,rows = as ++ row :: bs ∧ rows' = as ++ row' :: bs ∧ row.sign = .I ∧
      row'.sign = .I ∧
      ∀ (D : Domain) p (v : D.Value p),D.meets p row' v ↔ D.meets p row v ∧ D.meets p o v := by
  induction rows generalizing rows' with
  | nil => exact nomatch h
  | cons row rows ih =>
    rw [foldBound] at h
    split at h
    · obtain ⟨hI,hGE,hLE⟩ := ‹_ ∧ _›
      refine ⟨[],row,_,rows,rfl,(Option.some.inj h).symm,hI,hI,fun D p v => ?_⟩
      rw [Domain.meets,Domain.meets,Domain.meets,hGE,hLE]
    · split at h
      · obtain ⟨hI,hLE,hGE⟩ := ‹row.sign = _ ∧ row.option = .LE ∧ _›
        refine ⟨[],row,_,rows,rfl,(Option.some.inj h).symm,hI,hI,fun D p v => ?_⟩
        rw [Domain.meets,Domain.meets,Domain.meets,hGE,hLE]
        exact and_comm
      · obtain ⟨rows'',hrows,rfl⟩ := Option.map_eq_some_iff.mp h
        obtain ⟨as,a,b,bs,rfl,rfl,ha,hb,hmeets⟩ := ih hrows
        exact ⟨row :: as,a,b,bs,rfl,rfl,ha,hb,hmeets⟩

theorem mergeOption_inclusive (h : mergeOption rows o = some rows') (hone : inclusive rows ≤ 1) :
    inclusive rows' ≤ 1 := by
  rw [mergeOption] at h
  split at h
  · obtain rfl := Option.some.inj h
    rw [inclusive_append,inclusive_cons,if_neg ((ne_inclusive).mpr ‹_›)]
    exact hone
  · cases hfold : foldBound o rows with
    | some folded =>
      obtain ⟨as,a,b,bs,rfl,rfl,ha,hb,_⟩ := foldBound_spec hfold
      rw [hfold] at h
      obtain rfl := Option.some.inj h
      rw [inclusive_append,inclusive_cons,if_pos ha] at hone
      rwa [inclusive_append,inclusive_cons,if_pos hb]
    | none =>
      rw [hfold] at h
      have h : (if rows.any (·.sign = .I) then none else some (rows ++ [o])) = some rows' := h
      split at h
      · exact nomatch h
      · rename_i hno
        obtain rfl := Option.some.inj h
        have hzero : inclusive rows = 0 := by
          rw [inclusive_eq_zero]
          simpa using hno
        rw [inclusive_append,inclusive_cons,hzero]
        split
        · exact Nat.le_refl 1
        · exact Nat.zero_le 1

theorem mergeOption_range (h : mergeOption rows o = some rows')
    (hone : o.sign = .I → inclusive rows ≤ 1) :
    D.inRange p rows' v ↔ D.inRange p rows v ∧ D.admits p v o := by
  rcases sign_cases o with hI | hE
  · have hrows := hone hI
    have hrows' := mergeOption_inclusive h hrows
    rw [inRange_iff_admits D hrows,inRange_iff_admits D hrows']
    rw [mergeOption,if_neg (by rw [hI]; decide)] at h
    cases hfold : foldBound o rows with
    | some folded =>
      obtain ⟨as,a,b,bs,rfl,rfl,ha,hb,hmeets⟩ := foldBound_spec hfold
      rw [hfold] at h
      obtain rfl := Option.some.inj h
      simp only [List.forall_mem_append,List.forall_mem_cons,Domain.admits,ha,hb,hI,if_true,hmeets]
      tauto
    | none =>
      rw [hfold] at h
      have h : (if rows.any (·.sign = .I) then none else some (rows ++ [o])) = some rows' := h
      split at h
      · exact nomatch h
      · obtain rfl := Option.some.inj h
        rw [List.forall_mem_append,List.forall_mem_singleton]
  · rw [mergeOption,if_pos hE] at h
    obtain rfl := Option.some.inj h
    exact inRange_exclude D hE

theorem foldlM_inclusive (h : R.foldlM mergeOption rows = some rows')
    (hone : inclusive rows ≤ 1) : inclusive rows' ≤ 1 := by
  induction R generalizing rows with
  | nil => exact Option.some.inj h ▸ hone
  | cons o R ih =>
    rw [List.foldlM_cons] at h
    obtain ⟨next,hnext,h⟩ := Option.bind_eq_some_iff.mp h
    exact ih h (mergeOption_inclusive hnext hone)

theorem foldlM_admits (h : R.foldlM mergeOption rows = some rows')
    (hone : 0 < inclusive R → inclusive rows ≤ 1) :
    D.inRange p rows' v ↔ D.inRange p rows v ∧ ∀ o ∈ R,D.admits p v o := by
  induction R generalizing rows with
  | nil =>
    obtain rfl := Option.some.inj h
    simp
  | cons o R ih =>
    rw [List.foldlM_cons] at h
    obtain ⟨next,hnext,h⟩ := Option.bind_eq_some_iff.mp h
    rw [inclusive_cons] at hone
    rw [ih h fun hR => mergeOption_inclusive hnext (hone (by omega)),
      mergeOption_range D hnext fun hI => hone (by rw [if_pos hI]; omega),List.forall_mem_cons,and_assoc]

theorem foldlM_range (h : R.foldlM mergeOption rows = some rows')
    (hone : 0 < inclusive R → inclusive rows ≤ 1 ∧ inclusive R ≤ 1) :
    D.inRange p rows' v ↔ D.inRange p rows v ∧ D.inRange p R v := by
  have hR : inclusive R ≤ 1 := by
    rcases Nat.eq_zero_or_pos (inclusive R) with hzero | hpos
    · omega
    · exact (hone hpos).2
  rw [foldlM_admits D h fun hpos => (hone hpos).1,inRange_iff_admits D hR]

end Merging

section Groups

namespace Condition

def mentions (p : String) : Condition → Prop
  | .cmp q _ _ => q = p
  | .fn q _ _ => q = p
  | .not c => mentions p c
  | .or l r => mentions p l ∨ mentions p r
  | .and l r => mentions p l ∨ mentions p r

def includes (p : String) : Condition → Prop
  | .cmp q op _ => q = p ∧ op ≠ "ne"
  | .fn q _ _ => q = p
  | .not _ => False
  | .or l r => includes p l ∨ includes p r
  | .and l r => includes p l ∨ includes p r

def alternates (p : String) : Condition → Prop
  | .cmp _ _ _ => False
  | .fn _ _ _ => False
  | .not _ => False
  | .or l r => mentions p l ∨ mentions p r
  | .and l r => alternates p l ∨ alternates p r

def Apart : Condition → Prop
  | .cmp _ _ _ => True
  | .fn _ _ _ => True
  | .not _ => True
  | .or l r => Apart l ∧ Apart r
  | .and l r => Apart l ∧ Apart r ∧
      ∀ p, mentions p l → includes p r → ¬alternates p l ∧ ¬alternates p r

end Condition

open Condition

structure Fits (c : Condition) (groups : List Group) : Prop where
  nodup : (groups.map Group.property).Nodup
  nonempty : ∀ g ∈ groups, g.options ≠ []
  mentioned : ∀ g ∈ groups, c.mentions g.property
  included : ∀ g ∈ groups, 0 < inclusive g.options → c.includes g.property
  single : ∀ g ∈ groups, ¬c.alternates g.property → inclusive g.options ≤ 1

def Domain.within (D : Domain) (assign : ∀ p, D.Value p) (groups : List Group) : Prop :=
  ∀ g ∈ groups, D.inRange g.property g.options (assign g.property)

variable {c l r : Condition} {groups groups' left right : List Group} {g : Group}

theorem mergeGroup_cases (h : mergeGroup groups g = some groups') :
    (∀ x ∈ groups,x.property ≠ g.property) ∧ groups' = groups ++ [g] ∨
    ∃ as x bs options,groups = as ++ x :: bs ∧ x.property = g.property ∧
      g.options.foldlM mergeOption x.options = some options ∧
      groups' = as ++ {x with options} :: bs := by
  induction groups generalizing groups' with
  | nil => exact .inl ⟨List.forall_mem_nil _,(Option.some.inj h).symm⟩
  | cons x groups ih =>
    rw [mergeGroup] at h
    split at h
    · obtain ⟨options,hoptions,rfl⟩ := Option.map_eq_some_iff.mp h
      exact .inr ⟨[],x,groups,options,rfl,‹_›,hoptions,rfl⟩
    · obtain ⟨next,hnext,rfl⟩ := Option.map_eq_some_iff.mp h
      rcases ih hnext with ⟨hnone,rfl⟩ | ⟨as,y,bs,options,rfl,hy,hoptions,rfl⟩
      · exact .inl ⟨List.forall_mem_cons.mpr ⟨‹_›,hnone⟩,rfl⟩
      · exact .inr ⟨x :: as,y,bs,options,rfl,hy,hoptions,rfl⟩

theorem mergeGroup_properties (h : mergeGroup groups g = some groups') {p : String}
    (hp : p ∈ groups'.map Group.property) : p ∈ groups.map Group.property ∨ p = g.property := by
  rcases mergeGroup_cases h with ⟨_,rfl⟩ | ⟨as,x,bs,options,rfl,hx,_,rfl⟩
  · rw [List.map_append,List.mem_append] at hp
    exact hp.imp id List.mem_singleton.mp
  · rw [List.map_append,List.map_cons] at hp
    rw [List.map_append,List.map_cons]
    exact .inl hp

theorem foldlM_included {R rows rows' : List SelectOption}
    (h : R.foldlM mergeOption rows = some rows') (hpos : 0 < inclusive rows') :
    0 < inclusive rows ∨ 0 < inclusive R := by
  induction R generalizing rows with
  | nil => exact .inl (Option.some.inj h ▸ hpos)
  | cons o R ih =>
    rw [List.foldlM_cons] at h
    obtain ⟨next,hnext,h⟩ := Option.bind_eq_some_iff.mp h
    rw [inclusive_cons]
    rcases sign_cases o with hI | hE
    · rw [if_pos hI]
      exact .inr (Nat.succ_pos _)
    · rw [mergeOption,if_pos hE] at hnext
      obtain rfl := Option.some.inj hnext
      rcases ih h with hrows | hR
      · rw [inclusive_append,inclusive_cons,if_neg (ne_inclusive.mpr hE)] at hrows
        exact .inl hrows
      · exact .inr (Nat.lt_add_right _ hR)

theorem foldlM_nonempty {R rows rows' : List SelectOption}
    (h : R.foldlM mergeOption rows = some rows') (hne : rows ≠ []) : rows' ≠ [] := by
  induction R generalizing rows with
  | nil => exact Option.some.inj h ▸ hne
  | cons o R ih =>
    rw [List.foldlM_cons] at h
    obtain ⟨next,hnext,h⟩ := Option.bind_eq_some_iff.mp h
    refine ih h ?_
    rw [mergeOption] at hnext
    split at hnext
    · exact Option.some.inj hnext ▸ List.append_ne_nil_of_left_ne_nil hne _
    · cases hfold : foldBound o rows with
      | some folded =>
        obtain ⟨as,a,b,bs,_,rfl,_⟩ := foldBound_spec hfold
        rw [hfold] at hnext
        exact Option.some.inj hnext ▸ List.append_ne_nil_of_right_ne_nil _ (List.cons_ne_nil _ _)
      | none =>
        rw [hfold] at hnext
        have hnext : (if rows.any (·.sign = .I) then none else some (rows ++ [o])) = some next :=
          hnext
        split at hnext
        · exact nomatch hnext
        · exact Option.some.inj hnext ▸ List.append_ne_nil_of_left_ne_nil hne _

theorem mergeGroup_fits (h : mergeGroup groups g = some groups') (hfits : Fits c groups)
    (hne : g.options ≠ []) (hmention : c.mentions g.property) (hinclude : 0 < inclusive g.options → c.includes g.property)
    (hsingle : ¬c.alternates g.property → inclusive g.options ≤ 1) : Fits c groups' := by
  rcases mergeGroup_cases h with ⟨hnone,rfl⟩ | ⟨as,x,bs,options,rfl,hx,hoptions,rfl⟩
  · constructor
    · rw [List.map_append,List.map_cons,List.map_nil,List.nodup_append]
      refine ⟨hfits.nodup,List.nodup_singleton _,fun p hp q hq hpq => ?_⟩
      obtain ⟨x,hx,rfl⟩ := List.mem_map.mp hp
      exact hnone x hx (hpq.trans (List.mem_singleton.mp hq))
    · exact List.forall_mem_append.mpr ⟨hfits.nonempty,List.forall_mem_singleton.mpr hne⟩
    · exact List.forall_mem_append.mpr ⟨hfits.mentioned,List.forall_mem_singleton.mpr hmention⟩
    · exact List.forall_mem_append.mpr ⟨hfits.included,List.forall_mem_singleton.mpr hinclude⟩
    · exact List.forall_mem_append.mpr ⟨hfits.single,List.forall_mem_singleton.mpr hsingle⟩
  · obtain ⟨hnodup,hnonempty,hmentioned,hincluded,hsingled⟩ := hfits
    rw [List.forall_mem_append,List.forall_mem_cons] at hnonempty hmentioned hincluded hsingled
    constructor
    · rw [List.map_append,List.map_cons] at hnodup ⊢
      exact hnodup
    · exact List.forall_mem_append.mpr ⟨hnonempty.1,List.forall_mem_cons.mpr
        ⟨foldlM_nonempty hoptions hnonempty.2.1,hnonempty.2.2⟩⟩
    · exact List.forall_mem_append.mpr ⟨hmentioned.1,List.forall_mem_cons.mpr hmentioned.2⟩
    · refine List.forall_mem_append.mpr ⟨hincluded.1,List.forall_mem_cons.mpr
        ⟨fun hpos => ?_,hincluded.2.2⟩⟩
      rcases foldlM_included hoptions hpos with hpos | hpos
      · exact hincluded.2.1 hpos
      · exact hx ▸ hinclude hpos
    · exact List.forall_mem_append.mpr ⟨hsingled.1,List.forall_mem_cons.mpr
        ⟨fun hno => foldlM_inclusive hoptions (hsingled.2.1 hno),hsingled.2.2⟩⟩

theorem mergeGroup_within (D : Domain) (assign : ∀ p,D.Value p)
    (h : mergeGroup groups g = some groups')
    (hone : ∀ x ∈ groups,x.property = g.property → 0 < inclusive g.options →
      inclusive x.options ≤ 1 ∧ inclusive g.options ≤ 1) :
    D.within assign groups' ↔
      D.within assign groups ∧ D.inRange g.property g.options (assign g.property) := by
  rcases mergeGroup_cases h with ⟨hnone,rfl⟩ | ⟨as,x,bs,options,rfl,hx,hoptions,rfl⟩
  · rw [Domain.within,Domain.within,List.forall_mem_append,List.forall_mem_singleton]
  · have hrange := foldlM_range D (p := x.property) (v := assign x.property) hoptions
      (hone x (List.mem_append_right as List.mem_cons_self) hx)
    rw [Domain.within,Domain.within,List.forall_mem_append,List.forall_mem_append,
      List.forall_mem_cons,List.forall_mem_cons,hrange,← hx]
    tauto

theorem mergeAnd_spec (h : mergeAnd groups right = some groups') (hfits : Fits c groups)
    (hright : Fits r right) (hmention : ∀ p,r.mentions p → c.mentions p)
    (hinclude : ∀ p,r.includes p → c.includes p)
    (halternate : ∀ p,¬c.alternates p → ¬r.alternates p) :
    Fits c groups' ∧ ((∀ g ∈ right,0 < inclusive g.options →
        g.property ∈ groups.map Group.property → ¬c.alternates g.property) →
      ∀ (D : Domain) (assign : ∀ p,D.Value p),
        D.within assign groups' ↔ D.within assign groups ∧ D.within assign right) := by
  induction right generalizing groups with
  | nil =>
    obtain rfl := Option.some.inj h
    exact ⟨hfits,fun _ D assign => ⟨fun hin => ⟨hin,List.forall_mem_nil _⟩,And.left⟩⟩
  | cons g right ih =>
    rw [mergeAnd,List.foldlM_cons] at h
    obtain ⟨next,hnext,h⟩ := Option.bind_eq_some_iff.mp h
    obtain ⟨hnodup,hnonempty,hmentioned,hincluded,hsingle⟩ := hright
    rw [List.map_cons,List.nodup_cons] at hnodup
    rw [List.forall_mem_cons] at hnonempty hmentioned hincluded hsingle
    have hnextFits := mergeGroup_fits hnext hfits hnonempty.1 (hmention _ hmentioned.1)
      (fun hpos => hinclude _ (hincluded.1 hpos)) (fun hno => hsingle.1 (halternate _ hno))
    obtain ⟨hfits',hwithin⟩ := ih h hnextFits
      ⟨hnodup.2,hnonempty.2,hmentioned.2,hincluded.2,hsingle.2⟩
    refine ⟨hfits',fun hsafe D assign => ?_⟩
    have hstep := mergeGroup_within D assign hnext fun x hx hprop hpos => by
      have hno := hsafe g List.mem_cons_self hpos (hprop ▸ List.mem_map_of_mem hx)
      exact ⟨hfits.single x hx (hprop ▸ hno),hsingle.1 (halternate _ hno)⟩
    have hrest := hwithin (fun x hx hpos hmem => ?_) D assign
    · rw [hrest,hstep,Domain.within,Domain.within,Domain.within,List.forall_mem_cons,and_assoc]
    · rcases mergeGroup_properties hnext hmem with hmem | heq
      · exact hsafe x (List.mem_cons_of_mem _ hx) hpos hmem
      · exact (hnodup.1 (heq ▸ List.mem_map_of_mem hx)).elim

theorem orGroups_cases (h : orGroups left right = some groups') : ∃ x y,left = [x] ∧
    right = [y] ∧ x.property = y.property ∧ (∀ o ∈ x.options ++ y.options,o.sign = .I) ∧
      groups' = [{x with options := x.options ++ y.options}] := by
  unfold orGroups at h
  split at h
  · rename_i x y
    by_cases hp : x.property = y.property
    · rw [if_neg (not_not.mpr hp)] at h
      split at h
      · exact nomatch h
      · split at h
        · exact nomatch h
        · rename_i hx hy
          refine ⟨x,y,rfl,rfl,hp,List.forall_mem_append.mpr ⟨fun o ho => ?_,fun o ho => ?_⟩,
            (Option.some.inj h).symm⟩
          · exact (sign_cases o).resolve_right fun hE =>
              hx (List.any_eq_true.mpr ⟨o,ho,decide_eq_true hE⟩)
          · exact (sign_cases o).resolve_right fun hE =>
              hy (List.any_eq_true.mpr ⟨o,ho,decide_eq_true hE⟩)
    · rw [if_pos hp] at h
      exact nomatch h
  · exact nomatch h

theorem inRange_of_inclusive {D : Domain} {p : String} {v : D.Value p} {rows : List SelectOption}
    (hne : rows ≠ []) (hI : ∀ o ∈ rows,o.sign = .I) :
    D.inRange p rows v ↔ ∃ o ∈ rows,D.meets p o v := by
  constructor
  · rintro ⟨hsome | hnone,_⟩
    · obtain ⟨o,ho,_,hmeets⟩ := hsome
      exact ⟨o,ho,hmeets⟩
    · obtain ⟨o,rest,rfl⟩ := List.exists_cons_of_ne_nil hne
      exact (hnone o List.mem_cons_self (hI o List.mem_cons_self)).elim
  · rintro ⟨o,ho,hmeets⟩
    exact ⟨.inl ⟨o,ho,hI o ho,hmeets⟩,fun x hx hE => (ne_inclusive.mpr hE (hI x hx)).elim⟩

theorem fits_singleton {p : String} {o : SelectOption} (hmention : c.mentions p)
    (hinclude : o.sign = .I → c.includes p) : Fits c [⟨p,[o]⟩] where
  nodup := List.nodup_singleton p
  nonempty := List.forall_mem_singleton.mpr (List.cons_ne_nil _ _)
  mentioned := List.forall_mem_singleton.mpr hmention
  included := List.forall_mem_singleton.mpr fun hpos => by
    obtain ⟨x,hx,hI⟩ := inclusive_pos.mp hpos
    exact hinclude (List.mem_singleton.mp hx ▸ hI)
  single := List.forall_mem_singleton.mpr fun _ => by
    rw [inclusive_cons]
    split
    · exact Nat.le_refl 1
    · exact Nat.zero_le 1

theorem within_singleton {D : Domain} {assign : ∀ p,D.Value p} {p : String} {o : SelectOption} :
    D.within assign [⟨p,[o]⟩] ↔ D.admits p (assign p) o := by
  have hone : inclusive [o] ≤ 1 := by
    rw [inclusive_cons]
    split
    · exact Nat.le_refl 1
    · exact Nat.zero_le 1
  rw [Domain.within,List.forall_mem_singleton,inRange_iff_admits D hone,List.forall_mem_singleton]

theorem comparisonOption_spec {op value : String} {o : SelectOption}
    (h : comparisonOption op value = some o) : (o.sign = .I → op ≠ "ne") ∧
      ∀ (D : Domain) p (v : D.Value p),D.admits p v o ↔ D.compares p op value v := by
  rw [comparisonOption] at h
  split_ifs at h with heq hne hgt hge hlt hle <;> obtain rfl := Option.some.inj h
  · exact ⟨fun _ => by rw [heq]; decide,
      fun D p v => by simp [Domain.admits,Domain.compares,heq,Domain.meets]⟩
  · exact ⟨(nomatch ·),
      fun D p v => by simp [Domain.admits,Domain.compares,hne,Domain.meets]⟩
  · exact ⟨fun _ => hne,fun D p v => by simp [Domain.admits,Domain.compares,hgt,Domain.meets]⟩
  · exact ⟨fun _ => hne,fun D p v => by simp [Domain.admits,Domain.compares,hge,Domain.meets]⟩
  · exact ⟨fun _ => hne,fun D p v => by simp [Domain.admits,Domain.compares,hlt,Domain.meets]⟩
  · exact ⟨fun _ => hne,fun D p v => by simp [Domain.admits,Domain.compares,hle,Domain.meets]⟩

theorem functionOption_spec {op value : String} {o : SelectOption}
    (h : functionOption op value = some o) :
      ∀ (D : Domain) p (v : D.Value p),D.admits p v o ↔ D.applies p op value v := by
  intro D p v
  simp only [functionOption] at h
  rw [Domain.applies]
  split_ifs at h ⊢ with hstarts hends hsub
  · obtain rfl := Option.some.inj h
    rw [Domain.admits,if_pos rfl]
    simp only [Domain.meets,String.toList_ofList]
    exact covers_startswith
  · obtain rfl := Option.some.inj h
    rw [Domain.admits,if_pos rfl]
    simp only [Domain.meets,String.toList_ofList]
    exact covers_endswith
  · obtain rfl := Option.some.inj h
    rw [Domain.admits,if_pos rfl]
    simp only [Domain.meets,String.toList_ofList]
    exact covers_contains

theorem groupsOf_not (h : groupsOf (.not c) = some groups) : ∃ p value, c = .cmp p "eq" value ∧
    groups = [⟨p,[{sign := .E,option := .EQ,low := value}]⟩] := by
  cases c with
  | cmp p op value =>
    rw [groupsOf] at h
    split at h
    · obtain rfl : op = "eq" := ‹_›
      exact ⟨p,value,rfl,(Option.some.inj h).symm⟩
    · exact nomatch h
  | fn => exact nomatch h
  | not => exact nomatch h
  | or => exact nomatch h
  | and => exact nomatch h

theorem Fits.and_left (h : Fits l groups) : Fits (.and l r) groups where
  nodup := h.nodup
  nonempty := h.nonempty
  mentioned g hg := .inl (h.mentioned g hg)
  included g hg hpos := .inl (h.included g hg hpos)
  single g hg hno := h.single g hg fun ha => hno (.inl ha)

theorem groupsOf_fits (h : groupsOf c = some groups) : Fits c groups := by
  induction c generalizing groups with
  | cmp p op value =>
    obtain ⟨o,ho,rfl⟩ := Option.map_eq_some_iff.mp h
    exact fits_singleton rfl fun hI => ⟨rfl,(comparisonOption_spec ho).1 hI⟩
  | fn p op value =>
    obtain ⟨o,ho,rfl⟩ := Option.map_eq_some_iff.mp h
    exact fits_singleton rfl fun _ => rfl
  | not c ih =>
    obtain ⟨p,value,rfl,rfl⟩ := groupsOf_not h
    exact fits_singleton rfl fun hI => nomatch hI
  | or l r ihl ihr =>
    obtain ⟨left,hleft,h⟩ := Option.bind_eq_some_iff.mp h
    obtain ⟨right,hright,h⟩ := Option.bind_eq_some_iff.mp h
    obtain ⟨x,y,rfl,rfl,hp,hI,rfl⟩ := orGroups_cases h
    obtain ⟨_,hnonempty,hmentioned,hincluded,_⟩ := ihl hleft
    rw [List.forall_mem_singleton] at hnonempty hmentioned hincluded
    have hpos : 0 < inclusive x.options := by
      obtain ⟨o,rest,ho⟩ := List.exists_cons_of_ne_nil hnonempty
      exact inclusive_pos.mpr ⟨o,ho ▸ List.mem_cons_self,
        hI o (List.mem_append_left _ (ho ▸ List.mem_cons_self))⟩
    exact
      { nodup := List.nodup_singleton _
        nonempty := List.forall_mem_singleton.mpr
          (List.append_ne_nil_of_left_ne_nil hnonempty _)
        mentioned := List.forall_mem_singleton.mpr (.inl hmentioned)
        included := List.forall_mem_singleton.mpr fun _ => .inl (hincluded hpos)
        single := List.forall_mem_singleton.mpr fun hno => (hno (.inl hmentioned)).elim }
  | and l r ihl ihr =>
    obtain ⟨left,hleft,h⟩ := Option.bind_eq_some_iff.mp h
    obtain ⟨right,hright,h⟩ := Option.bind_eq_some_iff.mp h
    exact (mergeAnd_spec h (ihl hleft).and_left (ihr hright) (fun _ => .inr) (fun _ => .inr)
      fun _ hno ha => hno (.inr ha)).1

theorem groupsOf_within (h : groupsOf c = some groups) (hapart : c.Apart) (D : Domain)
    (assign : ∀ p,D.Value p) : D.holds assign c ↔ D.within assign groups := by
  induction c generalizing groups with
  | cmp p op value =>
    obtain ⟨o,ho,rfl⟩ := Option.map_eq_some_iff.mp h
    rw [within_singleton,(comparisonOption_spec ho).2]
    rfl
  | fn p op value =>
    obtain ⟨o,ho,rfl⟩ := Option.map_eq_some_iff.mp h
    rw [within_singleton,functionOption_spec ho]
    rfl
  | not c ih =>
    obtain ⟨p,value,rfl,rfl⟩ := groupsOf_not h
    rw [within_singleton]
    rfl
  | or l r ihl ihr =>
    obtain ⟨left,hleft,h⟩ := Option.bind_eq_some_iff.mp h
    obtain ⟨right,hright,h⟩ := Option.bind_eq_some_iff.mp h
    obtain ⟨x,y,rfl,rfl,hp,hI,rfl⟩ := orGroups_cases h
    have hx := (groupsOf_fits hleft).nonempty x (List.mem_singleton_self x)
    have hy := (groupsOf_fits hright).nonempty y (List.mem_singleton_self y)
    have hI' := List.forall_mem_append.mp hI
    rw [Domain.holds,ihl hleft hapart.1,ihr hright hapart.2,Domain.within,Domain.within,
      Domain.within,List.forall_mem_singleton,List.forall_mem_singleton,List.forall_mem_singleton,
      inRange_of_inclusive hx hI'.1,inRange_of_inclusive hy hI'.2,
      inRange_of_inclusive (List.append_ne_nil_of_left_ne_nil hx _) hI,← hp]
    simp only [List.mem_append,or_and_right,exists_or]
  | and l r ihl ihr =>
    obtain ⟨left,hleft,h⟩ := Option.bind_eq_some_iff.mp h
    obtain ⟨right,hright,h⟩ := Option.bind_eq_some_iff.mp h
    obtain ⟨hl,hr,hno⟩ := hapart
    have hfits := groupsOf_fits hleft
    have hfits' := groupsOf_fits hright
    have hspec := (mergeAnd_spec h hfits.and_left hfits' (fun _ => .inr) (fun _ => .inr)
      fun _ hno ha => hno (.inr ha)).2
    rw [Domain.holds,ihl hleft hl,ihr hright hr]
    refine (hspec (fun g hg hpos hmem => ?_) D assign).symm
    obtain ⟨x,hx,hprop⟩ := List.mem_map.mp hmem
    obtain ⟨hleft',hright'⟩ := hno g.property (hprop ▸ hfits.mentioned x hx)
      (hfits'.included g hg hpos)
    exact fun ha => ha.elim hleft' hright'

end Groups

end OpenSteamgate.Gateway.Filter
