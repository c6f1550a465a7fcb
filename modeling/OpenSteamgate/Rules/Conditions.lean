import Mathlib.Data.List.Basic
import Mathlib.Logic.Function.Iterate

namespace OpenSteamgate.Rules

inductive Operator
  | eq | ne | lt | ge | gt | le | isIn | notIn
  deriving DecidableEq

def INVERT : Operator → Operator
  | .eq => .ne
  | .ne => .eq
  | .lt => .ge
  | .ge => .lt
  | .gt => .le
  | .le => .gt
  | .isIn => .notIn
  | .notIn => .isIn

structure Comparison (β : Type) where
  op : Operator
  rest : β
  deriving DecidableEq

structure Leaf (β : Type) where
  cmp : Comparison β
  constant : Option Bool := none

inductive Tree (n : ℕ)
  | cmp (index : Fin n)
  | and (items : List (Tree n))
  | or (items : List (Tree n))
  | not (item : Tree n)

variable {β : Type} {n : ℕ}

def inverted (c : Comparison β) : Comparison β := {c with op := INVERT c.op}

def truthOf (leaf : Leaf β) (holds : Comparison β → Bool) : Bool := leaf.constant.getD (holds leaf.cmp)

mutual

@[grind =] def holdsTree (leaves : Fin n → Leaf β) (holds : Comparison β → Bool) : Tree n → Bool
  | .cmp index => truthOf (leaves index) holds
  | .and items => everyHolds leaves holds items
  | .or items => someHolds leaves holds items
  | .not item => !holdsTree leaves holds item

@[grind =] def everyHolds (leaves : Fin n → Leaf β) (holds : Comparison β → Bool) : List (Tree n) → Bool
  | [] => true
  | item :: items => holdsTree leaves holds item && everyHolds leaves holds items

@[grind =] def someHolds (leaves : Fin n → Leaf β) (holds : Comparison β → Bool) : List (Tree n) → Bool
  | [] => false
  | item :: items => holdsTree leaves holds item || someHolds leaves holds items

end

def LIMIT : ℕ := 64

abbrev Alternative (β : Type) := List (Comparison β)

def cross (acc list : List (Alternative β)) : List (Alternative β) :=
  acc.flatMap fun a => list.map fun b => a ++ b

@[grind =] def productFrom (acc : List (Alternative β)) : List (List (Alternative β)) → List (Alternative β)
  | [] => acc
  | list :: lists => productFrom ((cross acc list).take LIMIT) lists

def product (lists : List (List (Alternative β))) : List (Alternative β) := productFrom [[]] lists

def union (lists : List (List (Alternative β))) : List (Alternative β) := lists.flatten.take LIMIT

mutual

@[grind =] def alternatives (leaves : Fin n → Leaf β) (want : Bool) : Tree n → List (Alternative β)
  | .cmp index =>
    match (leaves index).constant with
    | some constant => if constant = want then [[]] else []
    | none => [[if want then (leaves index).cmp else inverted (leaves index).cmp]]
  | .and items =>
    if want then product (alternativesOf leaves want items) else union (alternativesOf leaves want items)
  | .or items =>
    if want then union (alternativesOf leaves want items) else product (alternativesOf leaves want items)
  | .not item => alternatives leaves (!want) item

@[grind =] def alternativesOf (leaves : Fin n → Leaf β) (want : Bool) : List (Tree n) → List (List (Alternative β))
  | [] => []
  | item :: items => alternatives leaves want item :: alternativesOf leaves want items

end

mutual

@[grind =] def sensitize (leaves : Fin n → Leaf β) (target : Fin n) : Tree n → Option (List (Alternative β))
  | .cmp index => if index = target then some [[]] else none
  | .not item => sensitize leaves target item
  | .and items => sensitizeAmong leaves target true [] items
  | .or items => sensitizeAmong leaves target false [] items

@[grind =] def sensitizeAmong (leaves : Fin n → Leaf β) (target : Fin n) (want : Bool) (front : List (Tree n)) :
    List (Tree n) → Option (List (Alternative β))
  | [] => none
  | item :: items =>
    match sensitize leaves target item with
    | some inner => some (product (inner :: alternativesOf leaves want (front ++ items)))
    | none => sensitizeAmong leaves target want (front ++ [item]) items

end

mutual

@[grind =] def indices : Tree n → List (Fin n)
  | .cmp index => [index]
  | .and items => indicesOf items
  | .or items => indicesOf items
  | .not item => indices item

@[grind =] def indicesOf : List (Tree n) → List (Fin n)
  | [] => []
  | item :: items => indices item ++ indicesOf items

end

mutual

@[grind =] def notsAbove (target : Fin n) : Tree n → Option ℕ
  | .cmp index => if index = target then some 0 else none
  | .not item => (notsAbove target item).map (· + 1)
  | .and items => notsAmong target items
  | .or items => notsAmong target items

@[grind =] def notsAmong (target : Fin n) : List (Tree n) → Option ℕ
  | [] => none
  | item :: items => (notsAbove target item).or (notsAmong target items)

end

mutual

def Filled : Tree n → Prop
  | .cmp _ => True
  | .and items => items ≠ [] ∧ FilledAll items
  | .or items => items ≠ [] ∧ FilledAll items
  | .not item => Filled item

def FilledAll : List (Tree n) → Prop
  | [] => True
  | item :: items => Filled item ∧ FilledAll items

end

def ProductWhole (acc : List (Alternative β)) : List (List (Alternative β)) → Prop
  | [] => True
  | list :: lists => (cross acc list).length ≤ LIMIT ∧ ProductWhole ((cross acc list).take LIMIT) lists

def UnionWhole (lists : List (List (Alternative β))) : Prop := lists.flatten.length ≤ LIMIT

mutual

def Whole (leaves : Fin n → Leaf β) (want : Bool) : Tree n → Prop
  | .cmp _ => True
  | .and items =>
    WholeAll leaves want items ∧ if want then ProductWhole [[]] (alternativesOf leaves want items)
      else UnionWhole (alternativesOf leaves want items)
  | .or items =>
    WholeAll leaves want items ∧ if want then UnionWhole (alternativesOf leaves want items)
      else ProductWhole [[]] (alternativesOf leaves want items)
  | .not item => Whole leaves (!want) item

def WholeAll (leaves : Fin n → Leaf β) (want : Bool) : List (Tree n) → Prop
  | [] => True
  | item :: items => Whole leaves want item ∧ WholeAll leaves want items

end

def Satisfied (holds : Comparison β → Bool) (alternative : Alternative β) : Prop :=
  ∀ c ∈ alternative, holds c = true

def Consistent (leaves : Fin n → Leaf β) (holds : Comparison β → Bool) : Prop :=
  ∀ i, holds (inverted (leaves i).cmp) = !holds (leaves i).cmp

def Mentions (leaves : Fin n → Leaf β) (c : Comparison β) (i : Fin n) : Prop :=
  (leaves i).constant = none ∧ (c = (leaves i).cmp ∨ c = inverted (leaves i).cmp)

theorem Tree.induct {P : Tree n → Prop} (cmp : ∀ index,P (.cmp index))
    (and : ∀ items,(∀ x ∈ items,P x) → P (.and items)) (or : ∀ items,(∀ x ∈ items,P x) → P (.or items))
    (not : ∀ item,P item → P (.not item)) (tree : Tree n) : P tree := by
  refine Tree.rec (motive_1 := P) (motive_2 := fun items => ∀ x ∈ items,P x) cmp and or not ?_ ?_ tree
  · intro x hx
    cases hx
  · intro head tail hhead htail x hx
    rcases List.mem_cons.mp hx with rfl | hx
    · exact hhead
    · exact htail x hx

section lists

variable {acc : List (Alternative β)} {list : List (Alternative β)} {lists : List (List (Alternative β))}
  {alternative : Alternative β} {holds : Comparison β → Bool}

theorem mem_cross : alternative ∈ cross acc list ↔ ∃ a ∈ acc,∃ b ∈ list,alternative = a ++ b := by
  unfold cross
  simp only [List.mem_flatMap,List.mem_map,eq_comm]

theorem productFrom_parts (h : alternative ∈ productFrom acc lists) :
    (∃ a ∈ acc,a ⊆ alternative) ∧ ∀ list ∈ lists,∃ b ∈ list,b ⊆ alternative := by
  induction lists generalizing acc with
  | nil => exact ⟨⟨alternative,h,List.Subset.refl _⟩,by simp⟩
  | cons list lists ih =>
    obtain ⟨⟨a,ha,hsub⟩,hlists⟩ := ih h
    obtain ⟨a',ha',b,hb,rfl⟩ := (mem_cross).mp (List.mem_of_mem_take ha)
    have hsubs := List.append_subset.mp hsub
    refine ⟨⟨a',ha',hsubs.1⟩,fun l hl => ?_⟩
    rcases List.mem_cons.mp hl with rfl | hl
    · exact ⟨b,hb,hsubs.2⟩
    · exact hlists l hl

theorem productFrom_from (h : alternative ∈ productFrom acc lists) {c : Comparison β}
    (hc : c ∈ alternative) : (∃ a ∈ acc,c ∈ a) ∨ ∃ list ∈ lists,∃ b ∈ list,c ∈ b := by
  induction lists generalizing acc with
  | nil => exact .inl ⟨alternative,h,hc⟩
  | cons list lists ih =>
    rcases ih h with ⟨a,ha,hca⟩ | ⟨l,hl,b,hb,hcb⟩
    · obtain ⟨a',ha',b,hb,rfl⟩ := (mem_cross).mp (List.mem_of_mem_take ha)
      rcases List.mem_append.mp hca with hca | hcb
      · exact .inl ⟨a',ha',hca⟩
      · exact .inr ⟨list,List.mem_cons_self,b,hb,hcb⟩
    · exact .inr ⟨l,List.mem_cons_of_mem _ hl,b,hb,hcb⟩

theorem mem_product (h : alternative ∈ product lists) {list : List (Alternative β)} (hlist : list ∈ lists) :
    ∃ b ∈ list,b ⊆ alternative :=
  (productFrom_parts h).2 list hlist

theorem product_from (h : alternative ∈ product lists) {c : Comparison β} (hc : c ∈ alternative) :
    ∃ list ∈ lists,∃ b ∈ list,c ∈ b := by
  rcases productFrom_from h hc with ⟨a,ha,hca⟩ | hfrom
  · rw [List.mem_singleton.mp ha] at hca
    cases hca
  · exact hfrom

theorem cross_ne_nil (hacc : acc ≠ []) (hlist : list ≠ []) : (cross acc list).take LIMIT ≠ [] := by
  obtain ⟨a,as,rfl⟩ := List.exists_cons_of_ne_nil hacc
  obtain ⟨b,bs,rfl⟩ := List.exists_cons_of_ne_nil hlist
  exact List.cons_ne_nil _ _

theorem productFrom_ne_nil (hacc : acc ≠ []) (h : ∀ list ∈ lists,list ≠ []) :
    productFrom acc lists ≠ [] := by
  induction lists generalizing acc with
  | nil => exact hacc
  | cons list lists ih =>
    exact ih (cross_ne_nil hacc (h list List.mem_cons_self)) fun l hl => h l (List.mem_cons_of_mem _ hl)

theorem productFrom_covers (hwhole : ProductWhole acc lists) (hacc : ∃ a ∈ acc,Satisfied holds a)
    (h : ∀ list ∈ lists,∃ b ∈ list,Satisfied holds b) : ∃ a ∈ productFrom acc lists,Satisfied holds a := by
  induction lists generalizing acc with
  | nil => exact hacc
  | cons list lists ih =>
    obtain ⟨hfits,hrest⟩ := hwhole
    refine ih hrest ?_ fun l hl => h l (List.mem_cons_of_mem _ hl)
    obtain ⟨a,ha,hsa⟩ := hacc
    obtain ⟨b,hb,hsb⟩ := h list List.mem_cons_self
    refine ⟨a ++ b,?_,fun c hc => ?_⟩
    · rw [List.take_of_length_le hfits]
      exact (mem_cross).mpr ⟨a,ha,b,hb,rfl⟩
    · rcases List.mem_append.mp hc with hc | hc
      · exact hsa c hc
      · exact hsb c hc

theorem mem_union (h : alternative ∈ union lists) : ∃ list ∈ lists,alternative ∈ list :=
  List.mem_flatten.mp (List.mem_of_mem_take h)

theorem union_ne_nil (hlists : lists ≠ []) (h : ∀ list ∈ lists,list ≠ []) : union lists ≠ [] := by
  obtain ⟨list,lists,rfl⟩ := List.exists_cons_of_ne_nil hlists
  obtain ⟨a,as,rfl⟩ := List.exists_cons_of_ne_nil (h list List.mem_cons_self)
  exact List.cons_ne_nil _ _

theorem union_covers (hwhole : UnionWhole lists) {list : List (Alternative β)} (hlist : list ∈ lists)
    (h : ∃ b ∈ list,Satisfied holds b) : ∃ a ∈ union lists,Satisfied holds a := by
  obtain ⟨b,hb,hsb⟩ := h
  refine ⟨b,?_,hsb⟩
  unfold union
  rw [List.take_of_length_le hwhole]
  exact List.mem_flatten_of_mem hlist hb

end lists

section trees

variable {leaves : Fin n → Leaf β} {holds : Comparison β → Bool} {items : List (Tree n)} {want : Bool}
  {tree : Tree n} {target : Fin n} {alternative : Alternative β}

theorem everyHolds_iff : everyHolds leaves holds items = true ↔ ∀ x ∈ items,holdsTree leaves holds x = true := by
  induction items with
  | nil => simp [everyHolds]
  | cons x items ih =>
    rw [everyHolds,Bool.and_eq_true,ih,List.forall_mem_cons]

theorem someHolds_iff : someHolds leaves holds items = true ↔ ∃ x ∈ items,holdsTree leaves holds x = true := by
  induction items with
  | nil => simp [someHolds]
  | cons x items ih =>
    rw [someHolds,Bool.or_eq_true,ih,List.exists_mem_cons_iff]

theorem alternativesOf_eq : alternativesOf leaves want items = items.map (alternatives leaves want) := by
  induction items with
  | nil => rfl
  | cons x items ih => rw [alternativesOf,ih,List.map_cons]

theorem indicesOf_eq : indicesOf items = items.flatMap indices := by
  induction items with
  | nil => rfl
  | cons x items ih => rw [indicesOf,ih,List.flatMap_cons]

theorem filledAll_iff : FilledAll items ↔ ∀ x ∈ items,Filled x := by
  induction items with
  | nil => simp [FilledAll]
  | cons x items ih => rw [FilledAll,ih,List.forall_mem_cons]

theorem wholeAll_iff : WholeAll leaves want items ↔ ∀ x ∈ items,Whole leaves want x := by
  induction items with
  | nil => simp [WholeAll]
  | cons x items ih => rw [WholeAll,ih,List.forall_mem_cons]

theorem Satisfied.subset {b : Alternative β} (h : Satisfied holds alternative) (hsub : b ⊆ alternative) :
    Satisfied holds b := fun c hc => h c (hsub hc)

theorem alternatives_sound (hholds : Consistent leaves holds) (tree : Tree n) :
    ∀ (want : Bool) (alternative : Alternative β),alternative ∈ alternatives leaves want tree →
      Satisfied holds alternative → holdsTree leaves holds tree = want := by
  induction tree using Tree.induct with
  | cmp index =>
    intro want alternative h hsat
    rw [alternatives] at h
    rw [holdsTree,truthOf]
    cases hconstant : (leaves index).constant with
    | some constant =>
      rw [hconstant] at h
      by_cases heq : constant = want
      · exact heq
      · dsimp only at h
        rw [if_neg heq] at h
        cases h
    | none =>
      rw [hconstant] at h
      dsimp only at h
      have hone := hsat _ (by rw [List.mem_singleton.mp h]; exact List.mem_singleton_self _)
      cases want with
      | true => exact hone
      | false =>
        rw [if_neg Bool.false_ne_true,hholds index,Bool.not_eq_true'] at hone
        exact hone
  | and items ih =>
    intro want alternative h hsat
    rw [alternatives,alternativesOf_eq] at h
    rw [holdsTree]
    cases want with
    | true =>
      rw [everyHolds_iff]
      intro x hx
      obtain ⟨b,hb,hsub⟩ := mem_product h (List.mem_map_of_mem hx)
      exact ih x hx true b hb (hsat.subset hsub)
    | false =>
      obtain ⟨list,hlist,hmem⟩ := mem_union h
      obtain ⟨x,hx,rfl⟩ := List.mem_map.mp hlist
      have hfalse := ih x hx false alternative hmem hsat
      rw [← Bool.not_eq_true,everyHolds_iff]
      intro hall
      rw [hall x hx] at hfalse
      cases hfalse
  | or items ih =>
    intro want alternative h hsat
    rw [alternatives,alternativesOf_eq] at h
    rw [holdsTree]
    cases want with
    | true =>
      obtain ⟨list,hlist,hmem⟩ := mem_union h
      obtain ⟨x,hx,rfl⟩ := List.mem_map.mp hlist
      exact (someHolds_iff).mpr ⟨x,hx,ih x hx true alternative hmem hsat⟩
    | false =>
      rw [← Bool.not_eq_true,someHolds_iff]
      rintro ⟨x,hx,htrue⟩
      obtain ⟨b,hb,hsub⟩ := mem_product h (List.mem_map_of_mem hx)
      rw [ih x hx false b hb (hsat.subset hsub)] at htrue
      cases htrue
  | not item ih =>
    intro want alternative h hsat
    rw [holdsTree,ih (!want) alternative h hsat,Bool.not_not]

theorem alternatives_cover (hholds : Consistent leaves holds) (tree : Tree n) :
    ∀ want : Bool,Whole leaves want tree → holdsTree leaves holds tree = want →
      ∃ alternative ∈ alternatives leaves want tree,Satisfied holds alternative := by
  induction tree using Tree.induct with
  | cmp index =>
    intro want _ h
    rw [holdsTree,truthOf] at h
    rw [alternatives]
    cases hconstant : (leaves index).constant with
    | some constant =>
      rw [hconstant] at h
      refine ⟨[],?_,fun c hc => by cases hc⟩
      have heq : constant = want := h
      dsimp only
      rw [if_pos heq]
      exact List.mem_singleton_self _
    | none =>
      rw [hconstant] at h
      refine ⟨_,List.mem_singleton_self _,fun c hc => ?_⟩
      rw [List.mem_singleton.mp hc]
      cases want with
      | true => exact h
      | false =>
        rw [if_neg Bool.false_ne_true,hholds index]
        exact congrArg not h
  | and items ih =>
    intro want hwhole h
    rw [holdsTree] at h
    rw [Whole,wholeAll_iff,alternativesOf_eq] at hwhole
    rw [alternatives,alternativesOf_eq]
    cases want with
    | true =>
      refine productFrom_covers hwhole.2 ⟨[],List.mem_singleton_self _,fun c hc => by cases hc⟩ ?_
      intro list hlist
      obtain ⟨x,hx,rfl⟩ := List.mem_map.mp hlist
      exact ih x hx true (hwhole.1 x hx) ((everyHolds_iff).mp h x hx)
    | false =>
      have hsome : ∃ x ∈ items,holdsTree leaves holds x = false := by
        by_contra hnone
        have hall : everyHolds leaves holds items = true := by
          rw [everyHolds_iff]
          intro x hx
          by_contra hfalse
          exact hnone ⟨x,hx,Bool.eq_false_iff.mpr hfalse⟩
        rw [hall] at h
        cases h
      obtain ⟨x,hx,hfalse⟩ := hsome
      exact union_covers hwhole.2 (List.mem_map_of_mem hx) (ih x hx false (hwhole.1 x hx) hfalse)
  | or items ih =>
    intro want hwhole h
    rw [holdsTree] at h
    rw [Whole,wholeAll_iff,alternativesOf_eq] at hwhole
    rw [alternatives,alternativesOf_eq]
    cases want with
    | true =>
      obtain ⟨x,hx,htrue⟩ := (someHolds_iff).mp h
      exact union_covers hwhole.2 (List.mem_map_of_mem hx) (ih x hx true (hwhole.1 x hx) htrue)
    | false =>
      refine productFrom_covers hwhole.2 ⟨[],List.mem_singleton_self _,fun c hc => by cases hc⟩ ?_
      intro list hlist
      obtain ⟨x,hx,rfl⟩ := List.mem_map.mp hlist
      refine ih x hx false (hwhole.1 x hx) (Bool.eq_false_iff.mpr fun htrue => ?_)
      rw [(someHolds_iff).mpr ⟨x,hx,htrue⟩] at h
      cases h
  | not item ih =>
    intro want hwhole h
    rw [holdsTree] at h
    refine ih (!want) hwhole ?_
    rw [← h,Bool.not_not]

theorem alternatives_ne_nil (hconstant : ∀ i ∈ indices tree,(leaves i).constant = none) (h : Filled tree) :
    ∀ want : Bool,alternatives leaves want tree ≠ [] := by
  induction tree using Tree.induct with
  | cmp index =>
    intro want
    rw [alternatives,hconstant index (List.mem_singleton_self _)]
    exact List.cons_ne_nil _ _
  | and items ih =>
    intro want
    rw [indices,indicesOf_eq] at hconstant
    rw [Filled,filledAll_iff] at h
    have hitems : ∀ list ∈ items.map (alternatives leaves want),list ≠ [] := by
      intro list hlist
      obtain ⟨x,hx,rfl⟩ := List.mem_map.mp hlist
      exact ih x hx (fun i hi => hconstant i (List.mem_flatMap.mpr ⟨x,hx,hi⟩)) (h.2 x hx) want
    rw [alternatives,alternativesOf_eq]
    split
    · exact productFrom_ne_nil (List.cons_ne_nil _ _) hitems
    · exact union_ne_nil (fun hnil => h.1 (List.map_eq_nil_iff.mp hnil)) hitems
  | or items ih =>
    intro want
    rw [indices,indicesOf_eq] at hconstant
    rw [Filled,filledAll_iff] at h
    have hitems : ∀ list ∈ items.map (alternatives leaves want),list ≠ [] := by
      intro list hlist
      obtain ⟨x,hx,rfl⟩ := List.mem_map.mp hlist
      exact ih x hx (fun i hi => hconstant i (List.mem_flatMap.mpr ⟨x,hx,hi⟩)) (h.2 x hx) want
    rw [alternatives,alternativesOf_eq]
    split
    · exact union_ne_nil (fun hnil => h.1 (List.map_eq_nil_iff.mp hnil)) hitems
    · exact productFrom_ne_nil (List.cons_ne_nil _ _) hitems
  | not item ih =>
    intro want
    exact ih hconstant h (!want)

theorem alternatives_mention (tree : Tree n) : ∀ (want : Bool) (alternative : Alternative β),
    alternative ∈ alternatives leaves want tree → ∀ c ∈ alternative,∃ i ∈ indices tree,Mentions leaves c i := by
  have hitems {items : List (Tree n)} {want : Bool} {alternative : Alternative β} {c : Comparison β}
      (ih : ∀ x ∈ items,∀ (want : Bool) (alternative : Alternative β),
        alternative ∈ alternatives leaves want x → ∀ c ∈ alternative,∃ i ∈ indices x,Mentions leaves c i)
      (h : alternative ∈ product (alternativesOf leaves want items) ∨
        alternative ∈ union (alternativesOf leaves want items)) (hc : c ∈ alternative) :
      ∃ i ∈ indicesOf items,Mentions leaves c i := by
    rw [alternativesOf_eq] at h
    have hfrom : ∃ list ∈ items.map (alternatives leaves want),∃ b ∈ list,c ∈ b := by
      rcases h with h | h
      · exact product_from h hc
      · obtain ⟨list,hlist,hmem⟩ := mem_union h
        exact ⟨list,hlist,alternative,hmem,hc⟩
    obtain ⟨list,hlist,b,hb,hcb⟩ := hfrom
    obtain ⟨x,hx,rfl⟩ := List.mem_map.mp hlist
    obtain ⟨i,hi,hmention⟩ := ih x hx want b hb c hcb
    rw [indicesOf_eq]
    exact ⟨i,List.mem_flatMap.mpr ⟨x,hx,hi⟩,hmention⟩
  induction tree using Tree.induct with
  | cmp index =>
    intro want alternative h c hc
    refine ⟨index,List.mem_singleton_self _,?_⟩
    rw [alternatives] at h
    cases hconstant : (leaves index).constant with
    | some constant =>
      rw [hconstant] at h
      dsimp only at h
      split at h
      · rw [List.mem_singleton.mp h] at hc
        cases hc
      · cases h
    | none =>
      rw [hconstant] at h
      rw [List.mem_singleton.mp h] at hc
      rw [List.mem_singleton.mp hc]
      refine ⟨hconstant,?_⟩
      cases want with
      | true => exact .inl rfl
      | false => exact .inr rfl
  | and items ih =>
    intro want alternative h c hc
    rw [alternatives] at h
    refine @hitems items want alternative c ih ?_ hc
    split at h
    · exact .inl h
    · exact .inr h
  | or items ih =>
    intro want alternative h c hc
    rw [alternatives] at h
    refine @hitems items want alternative c ih ?_ hc
    split at h
    · exact .inr h
    · exact .inl h
  | not item ih => exact fun want alternative => ih (!want) alternative

theorem sensitizeAmong_some {front : List (Tree n)} {list : List (Alternative β)}
    (h : sensitizeAmong leaves target want front items = some list) :
    ∃ before item after inner,items = before ++ item :: after ∧
      (∀ x ∈ before,sensitize leaves target x = none) ∧ sensitize leaves target item = some inner ∧
      list = product (inner :: alternativesOf leaves want (front ++ before ++ after)) := by
  induction items generalizing front with
  | nil =>
    rw [sensitizeAmong] at h
    cases h
  | cons x items ih =>
    rw [sensitizeAmong] at h
    cases hx : sensitize leaves target x with
    | some inner =>
      rw [hx] at h
      refine ⟨[],x,items,inner,rfl,by simp,hx,?_⟩
      rw [List.append_nil]
      exact (Option.some.inj h).symm
    | none =>
      rw [hx] at h
      obtain ⟨before,item,after,inner,rfl,hbefore,hitem,hlist⟩ := ih h
      refine ⟨x :: before,item,after,inner,rfl,List.forall_mem_cons.mpr ⟨hx,hbefore⟩,hitem,?_⟩
      rw [hlist,List.append_assoc front [x],List.singleton_append]

theorem sensitizeAmong_none {front : List (Tree n)} :
    sensitizeAmong leaves target want front items = none ↔ ∀ x ∈ items,sensitize leaves target x = none := by
  induction items generalizing front with
  | nil => simp [sensitizeAmong]
  | cons x items ih =>
    rw [sensitizeAmong,List.forall_mem_cons]
    cases hx : sensitize leaves target x with
    | some inner => simp
    | none => simp [ih]

theorem sensitize_none (tree : Tree n) : sensitize leaves target tree = none ↔ target ∉ indices tree := by
  have hitems {items : List (Tree n)} {want : Bool}
      (ih : ∀ x ∈ items,(sensitize leaves target x = none ↔ target ∉ indices x)) :
      sensitizeAmong leaves target want [] items = none ↔ target ∉ indicesOf items := by
    rw [sensitizeAmong_none,indicesOf_eq,List.mem_flatMap]
    refine ⟨fun h ⟨x,hx,hmem⟩ => (ih x hx).mp (h x hx) hmem,fun h x hx => (ih x hx).mpr fun hmem => ?_⟩
    exact h ⟨x,hx,hmem⟩
  induction tree using Tree.induct with
  | cmp index =>
    rw [sensitize,indices,List.mem_singleton]
    by_cases h : index = target
    · rw [if_pos h]
      simp [h]
    · rw [if_neg h]
      simp [Ne.symm h]
  | and items ih => exact hitems ih
  | or items ih => exact hitems ih
  | not item ih => exact ih

theorem notsAmong_eq_none (h : ∀ x ∈ items,notsAbove target x = none) : notsAmong target items = none := by
  induction items with
  | nil => rfl
  | cons x items ih =>
    obtain ⟨hx,hitems⟩ := List.forall_mem_cons.mp h
    rw [notsAmong,hx,Option.none_or]
    exact ih hitems

theorem notsAbove_none (tree : Tree n) (h : target ∉ indices tree) : notsAbove target tree = none := by
  have hitems {items : List (Tree n)}
      (ih : ∀ x ∈ items,target ∉ indices x → notsAbove target x = none) (h : target ∉ indicesOf items) :
      notsAmong target items = none := by
    rw [indicesOf_eq] at h
    exact notsAmong_eq_none fun x hx => ih x hx fun hmem => h (List.mem_flatMap.mpr ⟨x,hx,hmem⟩)
  induction tree using Tree.induct with
  | cmp index =>
    rw [notsAbove,if_neg]
    intro heq
    exact h (heq ▸ List.mem_singleton_self _)
  | and items ih => exact hitems ih h
  | or items ih => exact hitems ih h
  | not item ih =>
    rw [notsAbove,ih h]
    rfl

theorem notsAmong_isSome (h : ∃ x ∈ items,(notsAbove target x).isSome) : (notsAmong target items).isSome := by
  induction items with
  | nil =>
    obtain ⟨x,hx,-⟩ := h
    cases hx
  | cons x items ih =>
    rw [notsAmong,Option.isSome_or,Bool.or_eq_true]
    obtain ⟨y,hy,hsome⟩ := h
    rcases List.mem_cons.mp hy with rfl | hy
    · exact .inl hsome
    · exact .inr (ih ⟨y,hy,hsome⟩)

theorem notsAbove_some (tree : Tree n) (h : target ∈ indices tree) : ∃ k,notsAbove target tree = some k := by
  have hitems {items : List (Tree n)}
      (ih : ∀ x ∈ items,target ∈ indices x → (notsAbove target x).isSome) (h : target ∈ indicesOf items) :
      (notsAmong target items).isSome := by
    rw [indicesOf_eq] at h
    obtain ⟨x,hx,hmem⟩ := List.mem_flatMap.mp h
    exact notsAmong_isSome ⟨x,hx,ih x hx hmem⟩
  refine Option.isSome_iff_exists.mp ?_
  induction tree using Tree.induct with
  | cmp index =>
    rw [notsAbove,if_pos (List.mem_singleton.mp h).symm]
    rfl
  | and items ih => exact hitems ih h
  | or items ih => exact hitems ih h
  | not item ih =>
    rw [notsAbove,Option.isSome_map]
    exact ih h

theorem notsAmong_at {before after : List (Tree n)} {item : Tree n} {k : ℕ}
    (hbefore : ∀ x ∈ before,notsAbove target x = none) (hitem : notsAbove target item = some k) :
    notsAmong target (before ++ item :: after) = some k := by
  induction before with
  | nil => rw [List.nil_append,notsAmong,hitem,Option.some_or]
  | cons x before ih =>
    obtain ⟨hx,hrest⟩ := List.forall_mem_cons.mp hbefore
    rw [List.cons_append,notsAmong,hx,Option.none_or]
    exact ih hrest

theorem everyHolds_only {before after : List (Tree n)} {item : Tree n}
    (h : ∀ x ∈ before ++ after,holdsTree leaves holds x = true) :
    everyHolds leaves holds (before ++ item :: after) = holdsTree leaves holds item := by
  rw [Bool.eq_iff_iff,everyHolds_iff]
  refine ⟨fun hall => hall item (by simp),fun hitem x hx => ?_⟩
  rcases List.mem_append.mp hx with hx | hx
  · exact h x (List.mem_append_left _ hx)
  · rcases List.mem_cons.mp hx with rfl | hx
    · exact hitem
    · exact h x (List.mem_append_right _ hx)

theorem someHolds_only {before after : List (Tree n)} {item : Tree n}
    (h : ∀ x ∈ before ++ after,holdsTree leaves holds x = false) :
    someHolds leaves holds (before ++ item :: after) = holdsTree leaves holds item := by
  rw [Bool.eq_iff_iff,someHolds_iff]
  refine ⟨fun ⟨x,hx,htrue⟩ => ?_,fun hitem => ⟨item,by simp,hitem⟩⟩
  rcases List.mem_append.mp hx with hx | hx
  · rw [h x (List.mem_append_left _ hx)] at htrue
    cases htrue
  · rcases List.mem_cons.mp hx with rfl | hx
    · exact htrue
    · rw [h x (List.mem_append_right _ hx)] at htrue
      cases htrue

structure Decides (leaves : Fin n → Leaf β) (target : Fin n) (alternative : Alternative β)
    (indices : List (Fin n)) (nots : Option ℕ) (value : (Comparison β → Bool) → Bool) : Prop where
  others : ∀ c ∈ alternative, ∃ i ∈ indices, i ≠ target ∧ Mentions leaves c i
  decides : ∃ k, nots = some k ∧ ∀ holds, Consistent leaves holds → Satisfied holds alternative →
    value holds = not^[k] (truthOf (leaves target) holds)

theorem decides_among {before after : List (Tree n)} {item : Tree n} {inner : List (Alternative β)}
    {value : (Comparison β → Bool) → Bool} (want : Bool)
    (hnodup : (indicesOf (before ++ item :: after)).Nodup)
    (hbefore : ∀ x ∈ before,sensitize leaves target x = none)
    (hitem : sensitize leaves target item = some inner)
    (ih : (indices item).Nodup → ∀ b ∈ inner,Decides leaves target b (indices item)
      (notsAbove target item) fun holds => holdsTree leaves holds item)
    (hvalue : ∀ holds,(∀ x ∈ before ++ after,holdsTree leaves holds x = want) →
      value holds = holdsTree leaves holds item)
    (h : alternative ∈ product (inner :: alternativesOf leaves want (before ++ after))) :
    Decides leaves target alternative (indicesOf (before ++ item :: after))
      (notsAmong target (before ++ item :: after)) value := by
  have hsub : List.Sublist (indices item) (indicesOf (before ++ item :: after)) := by
    rw [indicesOf_eq,List.flatMap_append,List.flatMap_cons]
    exact (List.sublist_append_left _ _).trans (List.sublist_append_right _ _)
  replace ih := ih (hnodup.sublist hsub)
  have htarget : target ∈ indices item := by
    by_contra hnot
    rw [(sensitize_none item).mpr hnot] at hitem
    cases hitem
  have hmem {i : Fin n} {x : Tree n} (hx : x ∈ before ++ item :: after) (hi : i ∈ indices x) :
      i ∈ indicesOf (before ++ item :: after) := by
    rw [indicesOf_eq]
    exact List.mem_flatMap.mpr ⟨x,hx,hi⟩
  have hapart {x : Tree n} (hx : x ∈ before ++ after) : target ∉ indices x := by
    intro hi
    rw [indicesOf_eq,List.flatMap_append,List.flatMap_cons,List.nodup_append] at hnodup
    obtain ⟨-,hright,hdisjoint⟩ := hnodup
    rcases List.mem_append.mp hx with hx | hx
    · exact hdisjoint target (List.mem_flatMap.mpr ⟨x,hx,hi⟩) target (List.mem_append_left _ htarget) rfl
    · rw [List.nodup_append] at hright
      exact hright.2.2 target htarget target (List.mem_flatMap.mpr ⟨x,hx,hi⟩) rfl
  rw [alternativesOf_eq] at h
  constructor
  · intro c hc
    obtain ⟨list,hlist,b,hb,hcb⟩ := product_from h hc
    rcases List.mem_cons.mp hlist with rfl | hlist
    · obtain ⟨i,hi,hne,hmention⟩ := (ih b hb).others c hcb
      exact ⟨i,hmem (by simp) hi,hne,hmention⟩
    · obtain ⟨x,hx,rfl⟩ := List.mem_map.mp hlist
      obtain ⟨i,hi,hmention⟩ := alternatives_mention x want b hb c hcb
      refine ⟨i,hmem ?_ hi,fun heq => hapart hx (heq ▸ hi),hmention⟩
      rcases List.mem_append.mp hx with hx | hx
      · exact List.mem_append_left _ hx
      · exact List.mem_append_right _ (List.mem_cons_of_mem _ hx)
  · obtain ⟨b,hb,hsub⟩ := mem_product h List.mem_cons_self
    obtain ⟨k,hk,hdecides⟩ := (ih b hb).decides
    refine ⟨k,notsAmong_at (fun x hx => ?_) hk,fun holds hholds hsat => ?_⟩
    · exact notsAbove_none x ((sensitize_none x).mp (hbefore x hx))
    · rw [← hdecides holds hholds (hsat.subset hsub)]
      refine hvalue holds fun x hx => ?_
      obtain ⟨b,hb,hsub⟩ := mem_product h (List.mem_cons_of_mem _ (List.mem_map_of_mem hx))
      exact alternatives_sound hholds x want b hb (hsat.subset hsub)

theorem sensitize_decides (tree : Tree n) : (indices tree).Nodup → ∀ list,
    sensitize leaves target tree = some list → ∀ alternative ∈ list,
      Decides leaves target alternative (indices tree) (notsAbove target tree)
        fun holds => holdsTree leaves holds tree := by
  induction tree using Tree.induct with
  | cmp index =>
    intro _ list hlist alternative h
    rw [sensitize] at hlist
    split at hlist
    · next heq =>
      subst heq
      rw [← Option.some.inj hlist] at h
      rw [List.mem_singleton.mp h]
      exact ⟨fun c hc => absurd hc List.not_mem_nil,⟨0,if_pos rfl,fun holds _ _ => rfl⟩⟩
    · cases hlist
  | and items ih =>
    intro hnodup list hlist alternative h
    obtain ⟨before,item,after,inner,rfl,hbefore,hitem,rfl⟩ := sensitizeAmong_some hlist
    exact decides_among true hnodup hbefore hitem (fun hnodup => ih item (by simp) hnodup inner hitem)
      (fun holds hall => everyHolds_only hall) h
  | or items ih =>
    intro hnodup list hlist alternative h
    obtain ⟨before,item,after,inner,rfl,hbefore,hitem,rfl⟩ := sensitizeAmong_some hlist
    exact decides_among false hnodup hbefore hitem (fun hnodup => ih item (by simp) hnodup inner hitem)
      (fun holds hall => someHolds_only hall) h
  | not item ih =>
    intro hnodup list hlist alternative h
    obtain ⟨hothers,k,hk,hdecides⟩ := ih hnodup list hlist alternative h
    refine ⟨hothers,⟨k + 1,?_,fun holds hholds hsat => ?_⟩⟩
    · rw [notsAbove,hk]
      rfl
    · rw [Function.iterate_succ_apply',← hdecides holds hholds hsat]
      rfl

theorem Decides.flips {alternative : Alternative β} {indices : List (Fin n)} {nots : Option ℕ}
    {value : (Comparison β → Bool) → Bool} (h : Decides leaves target alternative indices nots value)
    (hconstant : (leaves target).constant = none) {holds holds' : Comparison β → Bool}
    (hholds : Consistent leaves holds) (hholds' : Consistent leaves holds')
    (hsame : ∀ i,i ≠ target → holds' (leaves i).cmp = holds (leaves i).cmp)
    (hflip : holds' (leaves target).cmp = !holds (leaves target).cmp) (hsat : Satisfied holds alternative) :
    value holds' = !value holds := by
  obtain ⟨k,-,hdecides⟩ := h.decides
  have hsat' : Satisfied holds' alternative := by
    intro c hc
    obtain ⟨i,-,hne,-,hc'⟩ := h.others c hc
    have hheld := hsat c hc
    rcases hc' with rfl | rfl
    · rw [hsame i hne]
      exact hheld
    · rw [hholds' i,hsame i hne,← hholds i]
      exact hheld
  rw [hdecides holds hholds hsat,hdecides holds' hholds' hsat',truthOf,truthOf,hconstant]
  have hnot (b : Bool) : not^[k] (!b) = !not^[k] b := by
    rw [← Function.iterate_succ_apply,Function.iterate_succ_apply']
  exact (congrArg _ hflip).trans (hnot _)

theorem conditions_sound (leaves : Fin n → Leaf β) (tree : Tree n) (honce : (indices tree).Nodup) :
    (∀ (want : Bool) (holds : Comparison β → Bool), Consistent leaves holds →
      ∀ alternative ∈ alternatives leaves want tree, Satisfied holds alternative →
        holdsTree leaves holds tree = want) ∧
    ((∀ i ∈ indices tree, (leaves i).constant = none) → Filled tree → ∀ want : Bool,
      alternatives leaves want tree ≠ [] ∧ (Whole leaves want tree →
        ∀ holds : Comparison β → Bool, Consistent leaves holds → holdsTree leaves holds tree = want →
          ∃ alternative ∈ alternatives leaves want tree, Satisfied holds alternative)) ∧
    ∀ target ∈ indices tree, ∃ list k, sensitize leaves target tree = some list ∧
      notsAbove target tree = some k ∧ ∀ alternative ∈ list,
        (∀ c ∈ alternative, ∃ i ∈ indices tree, i ≠ target ∧ Mentions leaves c i) ∧
        ∀ holds : Comparison β → Bool, Consistent leaves holds → Satisfied holds alternative →
          holdsTree leaves holds tree = not^[k] (truthOf (leaves target) holds) ∧
          ∀ holds' : Comparison β → Bool, Consistent leaves holds' → (leaves target).constant = none →
            (∀ i, i ≠ target → holds' (leaves i).cmp = holds (leaves i).cmp) →
            holds' (leaves target).cmp = (!holds (leaves target).cmp) →
            holdsTree leaves holds' tree = !holdsTree leaves holds tree := by
  refine ⟨fun want holds hholds => alternatives_sound hholds tree want,fun hconstant hfilled want =>
    ⟨alternatives_ne_nil hconstant hfilled want,fun hwhole holds hholds =>
      alternatives_cover hholds tree want hwhole⟩,fun target htarget => ?_⟩
  obtain ⟨list,hlist⟩ : ∃ list, sensitize leaves target tree = some list := by
    refine Option.ne_none_iff_exists'.mp fun hnone => ?_
    exact (sensitize_none tree).mp hnone htarget
  obtain ⟨k,hk⟩ : ∃ k, notsAbove target tree = some k := notsAbove_some tree htarget
  refine ⟨list,k,hlist,hk,fun alternative h => ?_⟩
  have hdecides := sensitize_decides tree honce list hlist alternative h
  refine ⟨hdecides.others,fun holds hholds hsat => ⟨?_,fun holds' hholds' hconstant hsame hflip => ?_⟩⟩
  · obtain ⟨k',hk',hvalue⟩ := hdecides.decides
    rw [hk] at hk'
    cases hk'
    exact hvalue holds hholds hsat
  · exact hdecides.flips hconstant hholds hholds' hsame hflip hsat

def mixedLeaves : Fin 2 → Leaf ℕ
  | 0 => {cmp := ⟨.eq,0⟩}
  | 1 => {cmp := ⟨.ne,1⟩}

def mixed : Tree 2 := .and [.cmp 0,.not (.or [.cmp 1])]

theorem conditions_sound_mixed : holdsTree mixedLeaves (fun c => decide (c.op = .eq)) mixed = true := by
  have honce : (indices mixed).Nodup := by decide
  have hconsistent : Consistent mixedLeaves fun c => decide (c.op = .eq) := by
    unfold Consistent
    decide
  exact (conditions_sound mixedLeaves mixed honce).1 true _ hconsistent
    [⟨.eq,0⟩,⟨.eq,1⟩] (by decide) (by unfold Satisfied; decide)

end trees

end OpenSteamgate.Rules
