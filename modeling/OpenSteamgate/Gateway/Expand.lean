import Mathlib.Data.List.Nodup
import OpenSteamgate.Gateway.Documents
import OpenSteamgate.Gateway.Url

namespace OpenSteamgate.Gateway.Expand

open Json

section code

structure Model extends Service where
  toMany : Text → Text → Bool

-- the DPC as functions of the source, its keys, the navigation and the set that it leads to
structure Provider (n : Nat) where
  getEntityset : EntitySet → List (Text × Text) → Nav → EntitySet → Option (List (Row n))
  getEntity : EntitySet → List (Text × Text) → Nav → EntitySet → Option (Row n)

local instance lawfulText : LawfulBEq Text := inferInstance

def distinct (xs : List Text) : List Text := xs.foldl (fun acc x => if x ∈ acc then acc else acc ++ [x]) []

def condense (text : Text) : Text := [' '].intercalate ((text.splitOn ' ').filter (· ≠ []))

def expand_list (lv_expand : Text) : List Text :=
  distinct (((lv_expand.splitOn ',').map condense).filter (· ≠ []))

-- SPLIT AT '/' INTO lv_first lv_rest
def cutPath (path : Text) : Text × Text :=
  (path.takeWhile (· ≠ '/'),(path.dropWhile (· ≠ '/')).drop 1)

def expand_levels (it_expand : List Text) : List Text := distinct (it_expand.map fun p => (cutPath p).1)

def expand_below (it_expand : List Text) (iv_nav : Text) : List Text :=
  it_expand.filterMap fun p =>
    if (cutPath p).1 = iv_nav ∧ (cutPath p).2 ≠ [] then some (cutPath p).2 else none

-- a node is the list of its children
inductive ExpandNode
  | nil
  | cons (name : Text) (node rest : ExpandNode)

def ExpandNode.of : List (Text × ExpandNode) → ExpandNode
  | [] => .nil
  | (name,node) :: rest => .cons name node (ExpandNode.of rest)

def expand_tree_of : Nat → List Text → Option ExpandNode
  | 0,_ => none
  | fuel + 1,it_expand =>
    ((expand_levels it_expand).mapM fun lv_nav =>
      (expand_tree_of fuel (expand_below it_expand lv_nav)).map (lv_nav,·)).map ExpandNode.of

def find_nav (set : EntitySet) (name : Text) : Option Nav := set.navs.find? (·.name = name)

def find_set (service : Service) (name : Text) : Option EntitySet := service.sets.find? (·.name = name)

variable {n : Nat} (model : Model) (dpc : Provider n)

def row_keys (row : Row n) (set : EntitySet) : List (Text × Text) :=
  set.keys.filterMap fun p => (row.field p.fieldname).map fun f => (p.name,f.move)

def stripped (text : Text) : Text := (text.drop 5).take (text.length - 6)

def expand_row : Nat → EntitySet → Row n → List Text → Option (List (Text × Text))
  | 0,_,_,_ => none
  | fuel + 1,set,row,it_expand => (expand_levels it_expand).mapM fun lv_nav => do
    let nav ← find_nav set lv_nav
    let target ← find_set model.toService nav.targetSet
    let below := expand_below it_expand lv_nav
    if model.toMany set.name nav.name then
      match dpc.getEntityset set (row_keys row set) nav target with
      | none => some (nav.name,braced (member "results" "[]".toList))
      | some rows =>
        if below = [] then some (nav.name,stripped (feedText model.toService rows target []))
        else
          let entities ← rows.mapM fun r =>
            (expand_row fuel target r below).map (rowText model.toService r target)
          some (nav.name,stripped (feedOf entities []))
    else
      match dpc.getEntity set (row_keys row set) nav target with
      | none => some (nav.name,"null".toList)
      | some r => (expand_row fuel target r below).map fun navs => (nav.name,rowText model.toService r target navs)

def entities_with_expand (fuel : Nat) (set : EntitySet) (rows : List (Row n)) (it_expand : List Text) :
    Option (List Text) :=
  rows.mapM fun r => (expand_row model dpc fuel set r it_expand).map (rowText model.toService r set)

-- the body of a response with the rows that the DPC has answered
def entitySetBody (fuel : Nat) (set : EntitySet) (rows : List (Row n)) (lt_expand : List Text)
    (lv_count : Text) : Option Text :=
  if lt_expand = [] then some (feedText model.toService rows set lv_count)
  else (entities_with_expand model dpc fuel set rows lt_expand).map (feedOf · lv_count)

def entityBody (fuel : Nat) (set : EntitySet) (row : Row n) (lt_expand : List Text) : Option Text :=
  if lt_expand = [] then some (braced (member "d" (rowText model.toService row set [])))
  else (expand_row model dpc fuel set row lt_expand).map fun navs =>
    braced (member "d" (rowText model.toService row set navs))

end code

section written

variable {n : Nat} (model : Model) (dpc : Provider n)

def shell (row : Row n) (set : EntitySet) (text : Nav → Text) : Text :=
  document model.toService row set (((row.fields set).map fun x => (x.1.name,valueText x.2 x.1.edmType)) ++
    set.navs.map fun nav => (nav.name,text nav))

def link (row : Row n) (set : EntitySet) (nav : Nav) : Text := deferred (uri model.toService row set) nav

def inlined (inner : Row n → EntitySet → Text) (set : EntitySet) (row : Row n) (name : Text) : Text :=
  match find_nav set name with
  | none => []
  | some nav =>
    match find_set model.toService nav.targetSet with
    | none => []
    | some target =>
      if model.toMany set.name nav.name then
        braced (results (((dpc.getEntityset set (row_keys row set) nav target).getD []).map (inner · target)))
      else ((dpc.getEntity set (row_keys row set) nav target).map (inner · target)).getD "null".toList

def written (asked : List Text → Bool) : Nat → List Text → Row n → EntitySet → Text
  | 0,_,row,set => shell model row set (link model row set)
  | k + 1,path,row,set => shell model row set fun nav =>
    if asked (path ++ [nav.name]) then
      inlined model dpc (written asked k (path ++ [nav.name])) set row nav.name
    else link model row set nav

def among (paths : List (List Text)) (path : List Text) : Bool := paths.any (path.isPrefixOf ·)

def pathText (path : List Text) : Text := ['/'].intercalate path

def Named (name : Text) : Prop := name ≠ [] ∧ '/' ∉ name ∧ ',' ∉ name ∧ ' ' ∉ name

def Along : EntitySet → List Text → Prop
  | _,[] => True
  | set,name :: path => ∃ nav target,find_nav set name = some nav ∧
      find_set model.toService nav.targetSet = some target ∧ Along target path

def Clean (row : Row n) (set : EntitySet) : Prop := ∀ nav ∈ set.navs,row.lookup nav.name = none

structure Provider.Clean (dpc : Provider n) : Prop where
  set : ∀ {source keys nav target rows},dpc.getEntityset source keys nav target = some rows →
    ∀ r ∈ rows,Expand.Clean r target
  one : ∀ {source keys nav target r},dpc.getEntity source keys nav target = some r → Expand.Clean r target

end written

section lists

variable {xs : List Text} {x : Text}

theorem distinct_spec (xs acc : List Text) (h : acc.Nodup) :
    (xs.foldl (fun acc x => if x ∈ acc then acc else acc ++ [x]) acc).Nodup ∧
    ∀ x,x ∈ xs.foldl (fun acc x => if x ∈ acc then acc else acc ++ [x]) acc ↔ x ∈ acc ∨ x ∈ xs := by
  induction xs generalizing acc with
  | nil => exact ⟨h,fun x => by simp⟩
  | cons y ys ih =>
    rw [List.foldl_cons]
    by_cases hy : y ∈ acc
    · rw [if_pos hy]
      obtain ⟨hnodup,hmem⟩ := ih acc h
      refine ⟨hnodup,fun x => (hmem x).trans ?_⟩
      rw [List.mem_cons]
      constructor
      · tauto
      · rintro (hx | rfl | hx)
        · exact .inl hx
        · exact .inl hy
        · exact .inr hx
    · rw [if_neg hy]
      obtain ⟨hnodup,hmem⟩ := ih (acc ++ [y]) (by
        rw [List.nodup_append]
        exact ⟨h,List.nodup_singleton y,fun a ha b hb => by
          rw [List.mem_singleton.mp hb]
          rintro rfl
          exact hy ha⟩)
      refine ⟨hnodup,fun x => (hmem x).trans ?_⟩
      simp only [List.mem_append,List.mem_cons,List.not_mem_nil,or_false]
      tauto

theorem mem_distinct : x ∈ distinct xs ↔ x ∈ xs := by
  rw [distinct,(distinct_spec xs [] List.nodup_nil).2 x]
  simp

theorem nodup_distinct (xs : List Text) : (distinct xs).Nodup := (distinct_spec xs [] List.nodup_nil).1

theorem mapM_all {α β : Type} {f : α → Option β} {g : α → β} {xs : List α} (h : ∀ x ∈ xs,f x = some (g x)) :
    xs.mapM f = some (xs.map g) := by
  induction xs with
  | nil => rfl
  | cons x xs ih =>
    rw [List.mapM_cons,h x (List.mem_cons_self ..),ih fun y hy => h y (List.mem_cons_of_mem _ hy)]
    rfl

theorem lookup_map (g : Text → Text) (xs : List Text) (x : Text) :
    (xs.map fun y => (y,g y)).lookup x = if x ∈ xs then some (g x) else none := by
  induction xs with
  | nil => rfl
  | cons y ys ih =>
    rw [List.map_cons,List.lookup_cons,ih]
    by_cases hxy : x = y
    · subst hxy
      simp
    · have hbeq : (x == y) = false := by simpa using hxy
      rw [hbeq]
      simp [hxy]

end lists

section paths

variable {name : Text} {path : List Text} {paths : List (List Text)}

theorem pathText_cons (name : Text) (path : List Text) :
    pathText (name :: path) = name ++ if path = [] then [] else '/' :: pathText path := by
  cases path with
  | nil => simp [pathText]
  | cons x xs => simp [pathText,List.intercalate]

theorem cutPath_text (h : '/' ∉ name) (path : List Text) :
    cutPath (pathText (name :: path)) = (name,pathText path) := by
  have hname : ∀ c ∈ name,decide (c ≠ '/') = true := by
    intro c hc
    rw [decide_eq_true_eq]
    rintro rfl
    exact h hc
  rw [pathText_cons,cutPath,List.takeWhile_append_of_pos hname,List.dropWhile_append_of_pos hname]
  cases path with
  | nil => simp [pathText]
  | cons x xs => simp

theorem pathText_nil (h : ∀ x ∈ path,Named x) : pathText path = [] ↔ path = [] := by
  cases path with
  | nil => simp [pathText]
  | cons x xs => simp [pathText_cons,(h x (List.mem_cons_self ..)).1]

def tails (paths : List (List Text)) (name : Text) : List (List Text) :=
  paths.filterMap fun
    | [] => none
    | x :: xs => if x = name ∧ xs ≠ [] then some xs else none

theorem mem_tails : path ∈ tails paths name ↔ path ≠ [] ∧ name :: path ∈ paths := by
  rw [tails,List.mem_filterMap]
  constructor
  · rintro ⟨q,hq,heq⟩
    cases q with
    | nil => cases heq
    | cons x xs =>
      by_cases hx : x = name ∧ xs ≠ []
      · obtain rfl := Option.some.inj ((if_pos hx).symm.trans heq)
        exact ⟨hx.2,hx.1 ▸ hq⟩
      · exact absurd ((if_neg hx).symm.trans heq) nofun
  · rintro ⟨hne,hmem⟩
    exact ⟨_,hmem,if_pos ⟨rfl,hne⟩⟩

-- paths whose names are names
def AllNamed (paths : List (List Text)) : Prop := ∀ q ∈ paths,q ≠ [] ∧ ∀ x ∈ q,Named x

theorem allNamed_tails (h : AllNamed paths) (name : Text) : AllNamed (tails paths name) := by
  intro q hq
  obtain ⟨hne,hmem⟩ := (mem_tails).mp hq
  exact ⟨hne,fun x hx => (h _ hmem).2 x (List.mem_cons_of_mem _ hx)⟩

theorem mem_levels (h : AllNamed paths) :
    name ∈ expand_levels (paths.map pathText) ↔ ∃ path,name :: path ∈ paths := by
  rw [expand_levels,mem_distinct,List.map_map,List.mem_map]
  constructor
  · rintro ⟨q,hq,rfl⟩
    obtain ⟨hne,hnamed⟩ := h q hq
    obtain ⟨x,xs,rfl⟩ := List.exists_cons_of_ne_nil hne
    have hcut := cutPath_text (hnamed x (List.mem_cons_self ..)).2.1 xs
    refine ⟨xs,?_⟩
    rw [Function.comp_apply,hcut]
    exact hq
  · rintro ⟨path,hmem⟩
    refine ⟨_,hmem,?_⟩
    rw [Function.comp_apply,cutPath_text ((h _ hmem).2 name (List.mem_cons_self ..)).2.1]

theorem below_tails (h : AllNamed paths) (name : Text) :
    expand_below (paths.map pathText) name = (tails paths name).map pathText := by
  induction paths with
  | nil => rfl
  | cons q qs ih =>
    obtain ⟨hne,hnamed⟩ := h q (List.mem_cons_self ..)
    obtain ⟨x,xs,rfl⟩ := List.exists_cons_of_ne_nil hne
    have hrest := ih fun q hq => h q (List.mem_cons_of_mem _ hq)
    have hcut := cutPath_text (hnamed x (List.mem_cons_self ..)).2.1 xs
    have hnil := pathText_nil fun y hy => hnamed y (List.mem_cons_of_mem _ hy)
    have htails : tails ((x :: xs) :: qs) name =
        if x = name ∧ xs ≠ [] then xs :: tails qs name else tails qs name := by
      rw [tails,List.filterMap_cons]
      by_cases hx : x = name ∧ xs ≠ []
      · simp only [if_pos hx]
        rfl
      · simp only [if_neg hx]
        rfl
    have hbelow : expand_below (pathText (x :: xs) :: qs.map pathText) name =
        if x = name ∧ xs ≠ [] then pathText xs :: expand_below (qs.map pathText) name
        else expand_below (qs.map pathText) name := by
      rw [expand_below,List.filterMap_cons,hcut]
      simp only [ne_eq,hnil]
      by_cases hx : x = name ∧ ¬xs = []
      · simp only [if_pos hx]
        rfl
      · simp only [if_neg hx]
        rfl
    rw [List.map_cons,hbelow,htails,hrest]
    split <;> rfl

theorem among_iff : among paths path = true ↔ ∃ q ∈ paths,path <+: q := by
  simp [among]

theorem pathText_injective {p q : List Text} (hp : ∀ x ∈ p,Named x) (hq : ∀ x ∈ q,Named x)
    (h : pathText p = pathText q) : p = q := by
  induction p generalizing q with
  | nil => exact ((pathText_nil hq).mp h.symm).symm
  | cons x xs ih =>
    cases q with
    | nil => exact (pathText_nil hp).mp h
    | cons y ys =>
      have hx := cutPath_text (hp x (List.mem_cons_self ..)).2.1 xs
      have hy := cutPath_text (hq y (List.mem_cons_self ..)).2.1 ys
      rw [h,hy] at hx
      obtain ⟨rfl,hrest⟩ := Prod.mk.inj hx
      rw [ih (fun z hz => hp z (List.mem_cons_of_mem _ hz)) (fun z hz => hq z (List.mem_cons_of_mem _ hz)) hrest.symm]

end paths

section rows

variable {n : Nat} {model : Model} {dpc : Provider n} {set : EntitySet} {row : Row n}

theorem entity_shell (h : Clean row set) (navJson : List (Text × Text)) :
    rowText model.toService row set navJson =
      shell model row set fun nav => (navJson.lookup nav.name).getD (link model row set nav) := by
  have htext : ∀ nav ∈ set.navs,linkText model.toService (deepText model.toService n) row set navJson nav =
      (navJson.lookup nav.name).getD (link model row set nav) := by
    intro nav hnav
    rw [linkText]
    cases navJson.lookup nav.name with
    | some json => rfl
    | none =>
      have hnest : nestedText model.toService (deepText model.toService n) row nav = [] := by
        rw [nestedText,nest,h nav hnav]
      simp only [hnest,↓reduceIte,Option.getD_none]
      rfl
  have hnavs := List.map_congr_left fun nav hnav => congrArg (fun text => (nav.name,text)) (htext nav hnav)
  rw [rowText,entityText,shell,hnavs]

theorem shell_congr {f g : Nav → Text} (h : ∀ nav ∈ set.navs,f nav = g nav) :
    shell model row set f = shell model row set g := by
  have hnavs := List.map_congr_left fun nav hnav => congrArg (fun text => (nav.name,text)) (h nav hnav)
  rw [shell,shell,hnavs]

theorem shell_ne_nil (text : Nav → Text) : shell model row set text ≠ [] := List.cons_ne_nil _ _

theorem written_ne_nil (asked : List Text → Bool) (k : Nat) (path : List Text) :
    written model dpc asked k path row set ≠ [] := by
  cases k <;> exact shell_ne_nil _

end rows

section expanding

variable {n : Nat} {model : Model} {dpc : Provider n} {asked : List Text → Bool}

-- paths below a set, of a length that is bounded
structure Asked (model : Model) (set : EntitySet) (k : Nat) (paths : List (List Text)) : Prop where
  named : AllNamed paths
  short : ∀ q ∈ paths,q.length ≤ k
  along : ∀ q ∈ paths,Along model set q

theorem Asked.tails {set target : EntitySet} {k : Nat} {paths : List (List Text)} {name : Text} {nav : Nav}
    (h : Asked model set (k + 1) paths) (hnav : find_nav set name = some nav)
    (htarget : find_set model.toService nav.targetSet = some target) :
    Asked model target k (tails paths name) where
  named := allNamed_tails h.named name
  short q hq := Nat.le_of_succ_le_succ (h.short _ ((mem_tails).mp hq).2)
  along q hq := by
    obtain ⟨nav',target',hnav',htarget',halong⟩ := h.along _ ((mem_tails).mp hq).2
    obtain rfl := Option.some.inj (hnav.symm.trans hnav')
    obtain rfl := Option.some.inj (htarget.symm.trans htarget')
    exact halong

theorem expand_row_none (fuel : Nat) (set : EntitySet) (row : Row n) :
    expand_row model dpc (fuel + 1) set row [] = some [] := rfl

theorem expand_row_written (hdpc : dpc.Clean) (k fuel : Nat) (hfuel : k < fuel) (set : EntitySet)
    (row : Row n) (paths : List (List Text)) (path : List Text) (hrow : Clean row set)
    (h : Asked model set k paths)
    (hasked : ∀ p,p ≠ [] → (asked (path ++ p) = true ↔ ∃ q ∈ paths,p <+: q)) :
    ∃ navs,expand_row model dpc fuel set row (paths.map pathText) = some navs ∧
      rowText model.toService row set navs = written model dpc asked k path row set := by
  induction k generalizing fuel set row paths path with
  | zero =>
    obtain ⟨fuel,rfl⟩ := Nat.exists_eq_add_of_lt hfuel
    have hnil : paths = [] := by
      refine List.eq_nil_iff_forall_not_mem.mpr fun q hq => (h.named q hq).1 ?_
      exact List.length_eq_zero_iff.mp (Nat.le_zero.mp (h.short q hq))
    subst hnil
    exact ⟨[],rfl,entity_shell hrow []⟩
  | succ k ih =>
    obtain ⟨fuel,rfl⟩ : ∃ f,fuel = f + 1 := ⟨fuel - 1,by omega⟩
    have hlevel : ∀ name ∈ expand_levels (paths.map pathText),∃ nav target,
        find_nav set name = some nav ∧ find_set model.toService nav.targetSet = some target := by
      intro name hname
      obtain ⟨q,hq⟩ := (mem_levels h.named).mp hname
      obtain ⟨nav,target,hnav,htarget,-⟩ := h.along _ hq
      exact ⟨nav,target,hnav,htarget⟩
    have hbelow := below_tails h.named
    have hinner : ∀ name nav target r,find_nav set name = some nav →
        find_set model.toService nav.targetSet = some target → Clean r target →
        ∃ navs,expand_row model dpc fuel target r ((tails paths name).map pathText) = some navs ∧
          rowText model.toService r target navs =
            written model dpc asked k (path ++ [name]) r target := by
      intro name nav target r hnav htarget hr
      refine ih fuel (by omega) target r (tails paths name) (path ++ [name]) hr (h.tails hnav htarget) fun p hp => ?_
      rw [List.append_assoc,List.singleton_append,hasked _ (List.cons_ne_nil _ _)]
      constructor
      · rintro ⟨q,hq,hfront⟩
        obtain ⟨rest,rfl⟩ := hfront
        rw [List.cons_append] at hq
        exact ⟨p ++ rest,(mem_tails).mpr ⟨by simp [hp],hq⟩,List.prefix_append _ _⟩
      · rintro ⟨q,hq,hfront⟩
        exact ⟨_,((mem_tails).mp hq).2,List.cons_prefix_cons.mpr ⟨rfl,hfront⟩⟩
    have hone : ∀ name nav target r,find_nav set name = some nav →
        find_set model.toService nav.targetSet = some target → Clean r target →
        (expand_row model dpc fuel target r ((tails paths name).map pathText)).map
          (rowText model.toService r target) = some (written model dpc asked k (path ++ [name]) r target) := by
      intro name nav target r hnav htarget hr
      obtain ⟨navs,hnavs,htext⟩ := hinner name nav target r hnav htarget hr
      rw [hnavs,Option.map_some,htext]
    refine ⟨_,mapM_all (g := fun name => (name,inlined model dpc
      (written model dpc asked k (path ++ [name])) set row name)) fun name hname => ?_,?_⟩
    · obtain ⟨nav,target,hnav,htarget⟩ := hlevel name hname
      have hname' : nav.name = name := by simpa using List.find?_some hnav
      have hinlined : inlined model dpc (written model dpc asked k (path ++ [name])) set row name =
          if model.toMany set.name nav.name then
            braced (results (((dpc.getEntityset set (row_keys row set) nav target).getD []).map
              (written model dpc asked k (path ++ [name]) · target)))
          else ((dpc.getEntity set (row_keys row set) nav target).map
            (written model dpc asked k (path ++ [name]) · target)).getD "null".toList := by
        simp only [inlined,hnav,htarget]
      rw [hinlined,hnav,Option.bind_eq_bind,Option.bind_some,htarget,Option.bind_eq_bind,Option.bind_some]
      dsimp only
      rw [hbelow,hname']
      by_cases hmany : model.toMany set.name name = true
      · rw [if_pos hmany,if_pos hmany]
        cases hrows : dpc.getEntityset set (row_keys row set) nav target with
        | none => rfl
        | some rows =>
          have hall : ∀ r ∈ rows,(expand_row model dpc fuel target r ((tails paths name).map pathText)).map
              (rowText model.toService r target) = some (written model dpc asked k (path ++ [name]) r target) :=
            fun r hr => hone name nav target r hnav htarget (hdpc.set hrows r hr)
          have hstripped : stripped (feedOf (rows.map (written model dpc asked k (path ++ [name]) · target)) []) =
              braced (results (rows.map (written model dpc asked k (path ++ [name]) · target))) := by
            refine nested_table fun x hx => ?_
            obtain ⟨r,-,rfl⟩ := List.mem_map.mp hx
            exact written_ne_nil asked k (path ++ [name])
          simp only [Option.getD_some]
          by_cases hnone : (tails paths name).map pathText = []
          · rw [if_pos hnone,← hstripped,feedText]
            have hplain : ∀ r ∈ rows,rowText model.toService r target [] =
                written model dpc asked k (path ++ [name]) r target := by
              intro r hr
              have hr' := hall r hr
              obtain ⟨f,rfl⟩ : ∃ f,fuel = f + 1 := ⟨fuel - 1,by omega⟩
              rw [hnone,expand_row_none] at hr'
              exact Option.some.inj hr'
            rw [List.map_congr_left hplain]
          · rw [if_neg hnone,mapM_all hall,← hstripped]
            rfl
      · rw [if_neg hmany,if_neg hmany]
        cases hr : dpc.getEntity set (row_keys row set) nav target with
        | none => rfl
        | some r =>
          obtain ⟨navs,hnavs,htext⟩ := hinner name nav target r hnav htarget (hdpc.one hr)
          simp only [hnavs,Option.map_some,Option.getD_some,htext]
    · rw [entity_shell hrow,written]
      refine shell_congr fun nav hnav => ?_
      rw [lookup_map fun name => inlined model dpc (written model dpc asked k (path ++ [name])) set row name]
      have hiff : nav.name ∈ expand_levels (paths.map pathText) ↔ asked (path ++ [nav.name]) = true := by
        rw [mem_levels h.named,hasked _ (List.cons_ne_nil _ _)]
        constructor
        · rintro ⟨q,hq⟩
          exact ⟨_,hq,List.cons_prefix_cons.mpr ⟨rfl,List.nil_prefix⟩⟩
        · rintro ⟨q,hq,rest,rfl⟩
          exact ⟨rest,hq⟩
      by_cases hmem : nav.name ∈ expand_levels (paths.map pathText)
      · rw [if_pos hmem,if_pos (hiff.mp hmem)]
        rfl
      · rw [if_neg hmem,if_neg (mt hiff.mpr hmem)]
        rfl

end expanding

section trees

@[grind =] def ExpandNode.paths : ExpandNode → List (List Text)
  | .nil => []
  | .cons name node rest => [name] :: node.paths.map (name :: ·) ++ rest.paths

variable {paths : List (List Text)}

theorem paths_of (xs : List (Text × ExpandNode)) :
    (ExpandNode.of xs).paths = xs.flatMap fun x => [x.1] :: x.2.paths.map (x.1 :: ·) := by
  induction xs with
  | nil => rfl
  | cons x xs ih => rw [ExpandNode.of,ExpandNode.paths,List.flatMap_cons,ih]

theorem paths_ne_nil (t : ExpandNode) : [] ∉ t.paths := by
  induction t with
  | nil => nofun
  | cons name node rest _ ih => simp [ExpandNode.paths,ih]

theorem tree_paths (k fuel : Nat) (hfuel : k < fuel) (paths : List (List Text)) (h : AllNamed paths)
    (hshort : ∀ q ∈ paths,q.length ≤ k) : ∃ tree,expand_tree_of fuel (paths.map pathText) = some tree ∧
      tree.paths.Nodup ∧ ∀ p,p ∈ tree.paths ↔ p ≠ [] ∧ ∃ q ∈ paths,p <+: q := by
  induction k generalizing fuel paths with
  | zero =>
    obtain ⟨fuel,rfl⟩ := Nat.exists_eq_add_of_lt hfuel
    have hnil : paths = [] := by
      refine List.eq_nil_iff_forall_not_mem.mpr fun q hq => (h q hq).1 ?_
      exact List.length_eq_zero_iff.mp (Nat.le_zero.mp (hshort q hq))
    subst hnil
    exact ⟨.nil,rfl,List.nodup_nil,fun p => by simp [ExpandNode.paths]⟩
  | succ k ih =>
    obtain ⟨fuel,rfl⟩ : ∃ f,fuel = f + 1 := ⟨fuel - 1,by omega⟩
    have hnode : ∀ name,∃ tree,expand_tree_of fuel (expand_below (paths.map pathText) name) = some tree ∧
        tree.paths.Nodup ∧ ∀ p,p ∈ tree.paths ↔ p ≠ [] ∧ ∃ q ∈ tails paths name,p <+: q := by
      intro name
      rw [below_tails h]
      exact ih fuel (by omega) _ (allNamed_tails h name) fun q hq =>
        Nat.le_of_succ_le_succ (hshort _ (mem_tails.mp hq).2)
    choose node hnode hnodup hmem using hnode
    refine ⟨ExpandNode.of ((expand_levels (paths.map pathText)).map fun name => (name,node name)),?_,?_,fun p => ?_⟩
    · rw [expand_tree_of,mapM_all (g := fun name => (name,node name)) fun name _ => by rw [hnode]; rfl]
      rfl
    · rw [paths_of,List.flatMap_map,List.nodup_flatMap]
      refine ⟨fun name _ => List.nodup_cons.mpr ⟨?_,?_⟩,?_⟩
      · intro hin
        obtain ⟨q,hq,heq⟩ := List.mem_map.mp hin
        rw [(List.cons.inj heq).2] at hq
        exact paths_ne_nil _ hq
      · exact (hnodup name).map fun a b hab => (List.cons.inj hab).2
      · refine (nodup_distinct _).imp fun {x y} hxy => ?_
        have hhead : ∀ {z : Text} {p : List Text},p ∈ [z] :: (node z).paths.map (z :: ·) → p.head? = some z := by
          intro z p hp
          rcases List.mem_cons.mp hp with rfl | hp
          · rfl
          · obtain ⟨q,-,rfl⟩ := List.mem_map.mp hp
            rfl
        intro p hp hq
        exact hxy (Option.some.inj ((hhead hp).symm.trans (hhead hq)))
    · rw [paths_of,List.flatMap_map,List.mem_flatMap]
      constructor
      · rintro ⟨name,hname,hp⟩
        obtain ⟨rest,hrest⟩ := (mem_levels h).mp hname
        rcases List.mem_cons.mp hp with rfl | hp
        · exact ⟨List.cons_ne_nil _ _,_,hrest,List.cons_prefix_cons.mpr ⟨rfl,List.nil_prefix⟩⟩
        · obtain ⟨q,hq,rfl⟩ := List.mem_map.mp hp
          obtain ⟨-,r,hr,hfront⟩ := (hmem name q).mp hq
          exact ⟨List.cons_ne_nil _ _,_,(mem_tails.mp hr).2,List.cons_prefix_cons.mpr ⟨rfl,hfront⟩⟩
      · rintro ⟨hne,q,hq,hfront⟩
        obtain ⟨name,p,rfl⟩ := List.exists_cons_of_ne_nil hne
        obtain ⟨rest,rfl⟩ := hfront
        refine ⟨name,(mem_levels h).mpr ⟨_,hq⟩,?_⟩
        cases p with
        | nil => exact List.mem_cons_self ..
        | cons x xs =>
          refine List.mem_cons_of_mem _ (List.mem_map_of_mem ?_)
          exact (hmem name _).mpr ⟨List.cons_ne_nil _ _,_,
            mem_tails.mpr ⟨List.cons_ne_nil _ _,hq⟩,List.prefix_append _ _⟩

theorem condense_plain {text : Text} (hne : text ≠ []) (h : ' ' ∉ text) : condense text = text := by
  rw [condense,List.splitOn_eq_singleton h]
  simp [hne]

-- `$expand` lists the paths, with commas between them
def expandText (paths : List (List Text)) : Text := [','].intercalate (paths.map pathText)

theorem not_mem_pathText {c : Char} (hc : c ≠ '/') {path : List Text} (h : ∀ x ∈ path,c ∉ x) :
    c ∉ pathText path := by
  induction path with
  | nil => simp [pathText]
  | cons x xs ih =>
    have hrest := ih fun y hy => h y (List.mem_cons_of_mem _ hy)
    rw [pathText_cons,List.mem_append]
    rintro (hx | hx)
    · exact h x (List.mem_cons_self ..) hx
    · split at hx
      · cases hx
      · rcases List.mem_cons.mp hx with rfl | hx
        · exact hc rfl
        · exact hrest hx

theorem expand_list_text (h : AllNamed paths) : ∃ paths',expand_list (expandText paths) = paths'.map pathText ∧
    AllNamed paths' ∧ ∀ q,q ∈ paths' ↔ q ∈ paths := by
  have hlist : expand_list (expandText paths) = distinct (paths.map pathText) := by
    cases paths with
    | nil => decide
    | cons q qs =>
      have hcomma : ∀ l ∈ (q :: qs).map pathText,',' ∉ l := by
        intro l hl
        obtain ⟨p,hp,rfl⟩ := List.mem_map.mp hl
        exact not_mem_pathText (by decide) fun x hx => ((h p hp).2 x hx).2.2.1
      have hplain : ∀ l ∈ (q :: qs).map pathText,condense l = l := by
        intro l hl
        obtain ⟨p,hp,rfl⟩ := List.mem_map.mp hl
        refine condense_plain (mt (pathText_nil (h p hp).2).mp (h p hp).1) ?_
        exact not_mem_pathText (by decide) fun x hx => ((h p hp).2 x hx).2.2.2
      have hfull : ∀ l ∈ (q :: qs).map pathText,l ≠ [] := by
        intro l hl
        obtain ⟨p,hp,rfl⟩ := List.mem_map.mp hl
        exact mt (pathText_nil (h p hp).2).mp (h p hp).1
      rw [expand_list,expandText,List.splitOn_intercalate _ hcomma (by simp),
        List.map_congr_left hplain,List.map_id',List.filter_eq_self.mpr fun l hl => decide_eq_true (hfull l hl)]
  have himage : ∀ xs : List Text,(∀ x ∈ xs,∃ q ∈ paths,x = pathText q) →
      ∃ paths' : List (List Text),xs = paths'.map pathText ∧ ∀ q ∈ paths',q ∈ paths := by
    intro xs
    induction xs with
    | nil => exact fun _ => ⟨[],rfl,nofun⟩
    | cons x xs ih =>
      intro hxs
      obtain ⟨q,hq,rfl⟩ := hxs x (List.mem_cons_self ..)
      obtain ⟨qs,rfl,hqs⟩ := ih fun y hy => hxs y (List.mem_cons_of_mem _ hy)
      exact ⟨q :: qs,rfl,List.forall_mem_cons.mpr ⟨hq,hqs⟩⟩
  obtain ⟨paths',heq,hin⟩ := himage (distinct (paths.map pathText)) fun x hx => by
    obtain ⟨q,hq,rfl⟩ := List.mem_map.mp (mem_distinct.mp hx)
    exact ⟨q,hq,rfl⟩
  refine ⟨paths',hlist.trans heq,fun q hq => h q (hin q hq),fun q => ⟨hin q,fun hq => ?_⟩⟩
  have hmem : pathText q ∈ paths'.map pathText := by
    rw [← heq,mem_distinct]
    exact List.mem_map_of_mem hq
  obtain ⟨q',hq',htext⟩ := List.mem_map.mp hmem
  rw [← pathText_injective (h q' (hin q' hq')).2 (h q hq).2 htext]
  exact hq'

end trees

section responses

variable {n : Nat} {model : Model} {dpc : Provider n}

theorem inlined_congr {inner inner' : Row n → EntitySet → Text} (h : ∀ r target,inner r target = inner' r target)
    (set : EntitySet) (row : Row n) (name : Text) :
    inlined model dpc inner set row name = inlined model dpc inner' set row name := by
  have hinner : inner = inner' := funext fun r => funext fun target => h r target
  rw [hinner]

theorem written_congr {asked asked' : List Text → Bool} (h : ∀ p,p ≠ [] → asked p = asked' p) (k : Nat)
    (path : List Text) (row : Row n) (set : EntitySet) :
    written model dpc asked k path row set = written model dpc asked' k path row set := by
  induction k generalizing path row set with
  | zero => rfl
  | succ k ih =>
    rw [written,written]
    refine shell_congr fun nav _ => ?_
    rw [h _ (by simp)]
    split
    · exact inlined_congr (ih _) set row nav.name
    · rfl

def Existing (model : Model) (set : EntitySet) (paths : List (List Text)) : Prop :=
  ∀ q ∈ paths,q ≠ [] ∧ Along model set q ∧ ∀ x ∈ q,Named x

theorem bodies_written (hdpc : dpc.Clean) {set : EntitySet} {paths : List (List Text)}
    (h : Existing model set paths) {k fuel : Nat} (hshort : ∀ q ∈ paths,q.length ≤ k) (hfuel : k < fuel) :
    (∀ rows count,(∀ r ∈ rows,Clean r set) →
      entitySetBody model dpc fuel set rows (expand_list (expandText paths)) count =
        some (feedOf (rows.map fun r => written model dpc (among paths) k [] r set) count)) ∧
    ∀ row,Clean row set → entityBody model dpc fuel set row (expand_list (expandText paths)) =
      some (braced (member "d" (written model dpc (among paths) k [] row set))) := by
  obtain ⟨paths',hlist,hnamed,hmem⟩ := expand_list_text fun q hq => ⟨(h q hq).1,(h q hq).2.2⟩
  have hasked : Asked model set k paths' :=
    ⟨hnamed,fun q hq => hshort q ((hmem q).mp hq),fun q hq => (h q ((hmem q).mp hq)).2.1⟩
  have hrow : ∀ row : Row n,Clean row set → ∃ navs,expand_row model dpc fuel set row (paths'.map pathText) = some navs ∧
      rowText model.toService row set navs = written model dpc (among paths) k [] row set := by
    intro row hclean
    refine expand_row_written hdpc k fuel hfuel set row paths' [] hclean hasked fun p _ => ?_
    rw [List.nil_append,among_iff]
    simp only [hmem]
  have hplain : paths'.map pathText = [] → ∀ row : Row n,Clean row set →
      rowText model.toService row set [] = written model dpc (among paths) k [] row set := by
    intro hnil row hclean
    obtain ⟨navs,hnavs,htext⟩ := hrow row hclean
    obtain ⟨f,rfl⟩ : ∃ f,fuel = f + 1 := ⟨fuel - 1,by omega⟩
    rw [hnil,expand_row_none] at hnavs
    rw [← htext,Option.some.inj hnavs]
  rw [hlist]
  refine ⟨fun rows count hclean => ?_,fun row hclean => ?_⟩
  · rw [entitySetBody]
    by_cases hnil : paths'.map pathText = []
    · rw [if_pos hnil,feedText,List.map_congr_left fun r hr => hplain hnil r (hclean r hr)]
    · have hall : ∀ r ∈ rows,(expand_row model dpc fuel set r (paths'.map pathText)).map
          (rowText model.toService r set) = some (written model dpc (among paths) k [] r set) := by
        intro r hr
        obtain ⟨navs,hnavs,htext⟩ := hrow r (hclean r hr)
        rw [hnavs,Option.map_some,htext]
      rw [if_neg hnil,entities_with_expand,mapM_all hall]
      rfl
  · obtain ⟨navs,hnavs,htext⟩ := hrow row hclean
    rw [entityBody]
    by_cases hnil : paths'.map pathText = []
    · rw [if_pos hnil,hplain hnil row hclean]
    · rw [if_neg hnil,hnavs,Option.map_some,htext]

theorem exists_longest (paths : List (List Text)) : ∃ k,∀ q ∈ paths,q.length ≤ k := by
  induction paths with
  | nil => exact ⟨0,nofun⟩
  | cons p ps ih =>
    obtain ⟨k,hk⟩ := ih
    refine ⟨max p.length k,List.forall_mem_cons.mpr ⟨Nat.le_max_left ..,fun q hq => ?_⟩⟩
    exact Nat.le_trans (hk q hq) (Nat.le_max_right ..)

theorem expand_exact (model : Model) (dpc : Provider n) (hdpc : dpc.Clean) (set : EntitySet)
    (paths : List (List Text)) (h : Existing model set paths) :
    ∃ k,∀ fuel,k < fuel →
      (∀ rows count,(∀ r ∈ rows,Clean r set) →
        entitySetBody model dpc fuel set rows (expand_list (expandText paths)) count =
          some (feedOf (rows.map fun r => written model dpc (among paths) k [] r set) count)) ∧
      (∀ row,Clean row set → entityBody model dpc fuel set row (expand_list (expandText paths)) =
        some (braced (member "d" (written model dpc (among paths) k [] row set)))) ∧
      (∃ tree,expand_tree_of fuel (expand_list (expandText paths)) = some tree ∧ tree.paths.Nodup ∧
        ∀ p,p ∈ tree.paths ↔ p ≠ [] ∧ among paths p = true) ∧
      ∀ paths',Existing model set paths' → (∀ p,p ≠ [] → among paths' p = among paths p) →
        (∀ rows count,(∀ r ∈ rows,Clean r set) →
          entitySetBody model dpc fuel set rows (expand_list (expandText paths')) count =
            entitySetBody model dpc fuel set rows (expand_list (expandText paths)) count) ∧
        ∀ row,Clean row set → entityBody model dpc fuel set row (expand_list (expandText paths')) =
          entityBody model dpc fuel set row (expand_list (expandText paths)) := by
  obtain ⟨k,hshort⟩ := exists_longest paths
  refine ⟨k,fun fuel hfuel => ?_⟩
  obtain ⟨hset,hone⟩ := bodies_written hdpc h hshort hfuel
  refine ⟨hset,hone,?_,fun paths' h' hsame => ?_⟩
  · obtain ⟨listed,hlist,hnamed,hmem⟩ := expand_list_text fun q hq => ⟨(h q hq).1,(h q hq).2.2⟩
    obtain ⟨tree,htree,hnodup,hpaths⟩ := tree_paths k fuel hfuel listed hnamed fun q hq => hshort q ((hmem q).mp hq)
    refine ⟨tree,hlist ▸ htree,hnodup,fun p => ?_⟩
    rw [hpaths,among_iff]
    simp only [hmem]
  · have hshort' : ∀ q ∈ paths',q.length ≤ k := by
      intro q hq
      have hin : among paths' q = true := among_iff.mpr ⟨q,hq,List.prefix_refl q⟩
      rw [hsame q (h' q hq).1] at hin
      obtain ⟨r,hr,hfront⟩ := among_iff.mp hin
      exact Nat.le_trans hfront.length_le (hshort r hr)
    obtain ⟨hset',hone'⟩ := bodies_written hdpc h' hshort' hfuel
    refine ⟨fun rows count hclean => ?_,fun row hclean => ?_⟩
    · rw [hset rows count hclean,hset' rows count hclean]
      simp only [written_congr hsame]
    · rw [hone row hclean,hone' row hclean,written_congr hsame]

-- a set whose navigation leads back to it
def loop : EntitySet := {name := ['A'],entityType := ['A'],properties := [],navs := [⟨['N'],['A']⟩]}

def loopModel : Model := {sets := [loop],nameSpace := [],baseUrl := [],toMany := fun _ _ => true}

def loopProvider : Provider 0 := ⟨fun _ _ _ _ => some [[]],fun _ _ _ _ => none⟩

theorem expand_exact_loop : ∃ k,∀ fuel,k < fuel →
    entityBody loopModel loopProvider fuel loop [] (expand_list (expandText [[['N'],['N']]])) =
      some (braced (member "d" (written loopModel loopProvider (among [[['N'],['N']]]) k [] [] loop))) := by
  have hclean : loopProvider.Clean := by
    constructor
    · intro source keys nav target rows hrows r hr
      obtain rfl := Option.some.inj hrows
      obtain rfl := List.mem_singleton.mp hr
      exact fun _ _ => rfl
    · nofun
  have hexists : Existing loopModel loop [[['N'],['N']]] := by
    intro q hq
    obtain rfl := List.mem_singleton.mp hq
    refine ⟨by decide,⟨_,loop,rfl,rfl,_,loop,rfl,rfl,trivial⟩,fun x hx => ?_⟩
    have hx : x = ['N'] := by simpa using hx
    subst hx
    exact ⟨by decide,by decide,by decide,by decide⟩
  obtain ⟨k,hk⟩ := expand_exact loopModel loopProvider hclean loop [[['N'],['N']]] hexists
  exact ⟨k,fun fuel hfuel => (hk fuel hfuel).2.1 [] fun _ _ => rfl⟩

end responses

end OpenSteamgate.Gateway.Expand
