import OpenSteamgate.Dataset.Host

namespace OpenSteamgate.Dataset

open Disk (Inode Step Stack Descends here names path walk)

variable {d : Tree} {limits : Limits} {cfg : Config} {s : Stack Name} {p q w real named : Path}
  {n : Name} {i : Inode} {rs : List Path}

theorem find_path (h : Descends d d.top s) : find d limits (path s) = some s := by
  rw [find,Disk.walk_names h]
  rfl

theorem evalSymlinks_path (h : Descends d d.top s) : evalSymlinks d limits (path s) = some (path s) := by
  rw [evalSymlinks,find_path h]
  rfl

theorem stat_path (h : Descends d d.top s) : stat d limits (path s) = some (here d.top s) := by
  rw [stat,find_path h]
  rfl

theorem find_some (h : find d limits p = some s) :
    walk d false d.top limits.links [] (names p) = .ok s := by
  rw [find] at h
  cases hwalk : walk d false d.top limits.links [] (names p) with
  | error halt =>
    rw [hwalk] at h
    exact nomatch h
  | ok t =>
    rw [hwalk] at h
    exact congrArg Except.ok (Option.some.inj h)

theorem find_descends (h : find d limits p = some s) : Descends d d.top s :=
  Disk.walk_ok (find_some h)

theorem find_of_walk (h : walk d false d.top limits.links [] (names p) = .ok s) :
    find d limits p = some s := by
  rw [find,h]
  rfl

theorem evalSymlinks_some (h : evalSymlinks d limits p = some q) :
    ∃ s,find d limits p = some s ∧ Descends d d.top s ∧ path s = q := by
  obtain ⟨s,hs,hq⟩ := Option.map_eq_some_iff.mp h
  exact ⟨s,hs,find_descends hs,hq⟩

theorem entryPath_snoc (w : Path) (n : Name) :
    entryPath d limits (w ++ [n]) = (evalSymlinks d limits w).map fun q => q ++ [n] := by
  rw [entryPath,dirname,List.dropLast_concat,basename,List.getLast?_concat]
  rfl

theorem lstat_snoc (w : Path) (n : Name) :
    lstat d limits (w ++ [n]) = (stat d limits w).bind fun i => d.entry i n := by
  rw [lstat,List.getLast?_concat,dirname,List.dropLast_concat]

theorem find_snoc (h : find d limits (w ++ [n]) = some s) :
    ∃ t i,find d limits w = some t ∧ d.entry (here d.top t) n = some i ∧
      ((∀ target,d.node i ≠ .link target) → s = (n,i) :: t) := by
  have hwalk := find_some h
  rw [Disk.names_append] at hwalk
  obtain ⟨t,ht⟩ := Disk.walk_before hwalk
  obtain ⟨left,hleft⟩ := Disk.walk_append ht
  rw [hleft] at hwalk
  obtain ⟨i,hi,hs⟩ := Disk.walk_name hwalk
  exact ⟨t,i,find_of_walk ht,hi,hs⟩

theorem find_entry {t : Stack Name} (h : find d limits w = some t)
    (hi : d.entry (here d.top t) n = some i) (hlink : ∀ target,d.node i ≠ .link target) :
    find d limits (w ++ [n]) = some ((n,i) :: t) := by
  obtain ⟨left,hleft⟩ := Disk.walk_append (find_some h)
  refine find_of_walk ?_
  rw [Disk.names_append,hleft]
  exact Disk.walk_arrived ((Disk.advance_name hi hlink).trans rfl)

structure Admits (sb : Sandbox) (name : Text) (rs : List Path) (given : List Text) : Prop where
  roots : rs ≠ []
  nul : '\x00' ∉ name
  lexical : within (sb.datasetName name) (given.map (abs sb.cwd)) = true ∨
    within (sb.datasetName name) rs = true

inductive Found (d : Tree) (limits : Limits) (wanted real named : Path) : Prop
  | top : wanted = [] → real = [] → named = [] → Found d limits wanted real named
  | there (s t : Stack Name) (n : Name) (i : Inode) : evalSymlinks d limits wanted = some real →
      evalSymlinks d limits (dirname wanted) = some (path t) → basename wanted = [n] →
      Descends d d.top s → path s = real → Descends d d.top t → named = path t ++ [n] →
      d.entry (here d.top t) n = some i → ((∀ target,d.node i ≠ .link target) → real = named) →
      Found d limits wanted real named
  | fresh (t : Stack Name) (n : Name) : evalSymlinks d limits wanted = none →
      evalSymlinks d limits (dirname wanted) = some (path t) → basename wanted = [n] →
      Descends d d.top t → real = path t ++ [n] → named = real →
      d.entry (here d.top t) n = none → Found d limits wanted real named

theorem checked_found {o : Option Path} (h : checked real o rs = .found p q) :
    p = real ∧ q = o.getD real ∧ ∃ r ∈ rs,r <+: real := by
  rw [checked] at h
  split at h
  · exact nomatch h
  · rename_i hwithin
    obtain ⟨rfl,rfl⟩ := Place.found.inj h
    rw [Bool.not_eq_true',Bool.not_eq_false] at hwithin
    exact ⟨rfl,rfl,within_iff.mp hwithin⟩

theorem place_found {sb : Sandbox} {name : Text} {given : List Text}
    (h : sb.place limits d name rs given = .found real named) :
    Admits sb name rs given ∧ (∃ r ∈ rs,r <+: real) ∧
      Found d limits (sb.datasetName name) real named := by
  rw [Sandbox.place] at h
  split at h
  · exact nomatch h
  rename_i hroots
  split at h
  · exact nomatch h
  rename_i hnul
  dsimp only at h
  split at h
  · exact nomatch h
  rename_i hlexical
  rw [Bool.and_eq_true,Bool.not_eq_true',Bool.not_eq_true',not_and_or,Bool.not_eq_false,
    Bool.not_eq_false] at hlexical
  refine ⟨⟨hroots,hnul,hlexical⟩,?_⟩
  clear hlexical
  generalize sb.datasetName name = wanted at h ⊢
  rcases List.eq_nil_or_concat wanted with rfl | ⟨w,n,rfl⟩
  · have htop : evalSymlinks d limits [] = some [] := evalSymlinks_path (s := []) trivial
    have hentry : entryPath d limits [] = some [] := by
      rw [entryPath,dirname,List.dropLast_nil,htop]
      rfl
    rw [htop,hentry] at h
    obtain ⟨rfl,rfl,hroot⟩ := checked_found h
    exact ⟨hroot,.top rfl rfl rfl⟩
  · rw [List.concat_eq_append] at h ⊢
    have hdirname : dirname (w ++ [n]) = w := List.dropLast_concat
    have hbasename : basename (w ++ [n]) = [n] := by
      rw [basename,List.getLast?_concat]
      rfl
    split at h
    · rename_i found hreal
      obtain ⟨rfl,rfl,hroot⟩ := checked_found h
      obtain ⟨s,hfind,hs,rfl⟩ := evalSymlinks_some hreal
      obtain ⟨t,i,ht,hi,hlast⟩ := find_snoc hfind
      have hw : evalSymlinks d limits w = some (path t) := by
        rw [evalSymlinks,ht]
        rfl
      refine ⟨hroot,.there s t n i hreal (by rwa [hdirname]) hbasename hs rfl (find_descends ht)
        ?_ hi fun hlink => ?_⟩
      · rw [entryPath_snoc,hw]
        rfl
      · rw [entryPath_snoc,hw,hlast hlink]
        exact Disk.path_cons _ _
    · rename_i hnone
      split at h
      · exact nomatch h
      · rename_i hlink
        split at h
        · exact nomatch h
        · rename_i found hentry
          rw [hentry] at h
          obtain ⟨rfl,rfl,hroot⟩ := checked_found h
          rw [entryPath_snoc] at hentry
          obtain ⟨q,hq,rfl⟩ := Option.map_eq_some_iff.mp hentry
          obtain ⟨t,ht,hdescends,rfl⟩ := evalSymlinks_some hq
          refine ⟨hroot,.fresh t n hnone (by rwa [hdirname]) hbasename hdescends rfl rfl ?_⟩
          by_contra hne
          obtain ⟨i,hi⟩ := Option.ne_none_iff_exists'.mp hne
          have hnode : ∀ target,d.node i ≠ .link target := fun target htarget => by
            apply hlink
            rw [lstat_snoc,stat,ht]
            change ((d.entry (here d.top t) n).map (isLink d)).getD false = true
            rw [hi]
            change isLink d i = true
            rw [isLink,htarget]
          rw [evalSymlinks,find_entry ht hi hnode] at hnone
          exact nomatch hnone

section accepted

variable {sb : Sandbox} {name : Text} {given : List Text}

theorem place_admits (h : Admits sb name rs given) : sb.place limits d name rs given =
    match evalSymlinks d limits (sb.datasetName name) with
    | some real => checked real (entryPath d limits (sb.datasetName name)) rs
    | none =>
      if ((lstat d limits (sb.datasetName name)).map (isLink d)).getD false then .refused .dangling
      else
        match entryPath d limits (sb.datasetName name) with
        | none => .missing
        | some real => checked real (entryPath d limits (sb.datasetName name)) rs := by
  have hlexical : ¬(!within (sb.datasetName name) (given.map (abs sb.cwd)) &&
      !within (sb.datasetName name) rs) = true := by
    rw [Bool.and_eq_true,Bool.not_eq_true',Bool.not_eq_true',not_and_or,Bool.not_eq_false,
      Bool.not_eq_false]
    exact h.lexical
  rw [Sandbox.place,if_neg h.roots,if_neg h.nul]
  exact if_neg hlexical

theorem checked_held {o : Option Path} (h : ∃ r ∈ rs,r <+: real) :
    checked real o rs = .found real (o.getD real) := by
  rw [checked,within_iff.mpr h]
  rfl

theorem place_there (h : Admits sb name rs given)
    (hreal : evalSymlinks d limits (sb.datasetName name) = some real) (hheld : ∃ r ∈ rs,r <+: real) :
    sb.place limits d name rs given =
      .found real ((entryPath d limits (sb.datasetName name)).getD real) := by
  rw [place_admits h,hreal]
  exact checked_held hheld

theorem place_fresh (h : Admits sb name rs given)
    (hnone : evalSymlinks d limits (sb.datasetName name) = none)
    (hlstat : lstat d limits (sb.datasetName name) = none)
    (hentry : entryPath d limits (sb.datasetName name) = some real) (hheld : ∃ r ∈ rs,r <+: real) :
    sb.place limits d name rs given = .found real real := by
  rw [place_admits h,hnone,hlstat,hentry]
  exact checked_held hheld

end accepted

end OpenSteamgate.Dataset
