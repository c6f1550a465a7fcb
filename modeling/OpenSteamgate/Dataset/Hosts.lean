import OpenSteamgate.Dataset.Decisions

namespace OpenSteamgate.Dataset

open Disk (Inode Step Stack Descends here names path walk)

variable {d₀ d : Tree} {limits : Limits} {cfg : Config} {s t u more : Stack Name}
  {p r real named wanted : Path} {n : Name} {i new : Inode} {rs : List Path} {name : Text}
  {mode : Mode} {sb : Sandbox}

namespace Sandbox

def remove (sb : Sandbox) (limits : Limits) (d : Tree) (rs : List Path) : Place → Option (List Change)
  | .refused _ | .missing => none
  | .found _ named =>
    match sb.beneath named rs with
    | none => none
    | some (root,rel) => rootRemove d limits root rel

end Sandbox

namespace Host

def remove (limits : Limits) (d : Tree) (rs : List Path) : Place → Option (List Change)
  | .refused _ | .missing => none
  | .found _ named =>
    match parentBeneath limits d named rs with
    | .moved _ => none
    | .found dir base _ => unlinkIn d dir base
    | .undefined => unlinkPath limits d named

end Host

def EmptyBelow (d : Tree) (limits : Limits) (rs : List Path) (p : Path) : Prop :=
  (∃ i ∈ lstat d limits p,d.node i = .dir []) ∧ ∃ r ∈ rs,r <+: p ∧ r ≠ p

theorem sandbox_delete : (roots limits cfg d₀ []).delete limits ⟨d,d,d,d⟩ name =
    (roots limits cfg d₀ []).remove limits d (roots limits cfg d₀ []).write
      ((roots limits cfg d₀ []).place limits d name (roots limits cfg d₀ []).write
        (roots limits cfg d₀ []).givenWrite) := rfl

theorem host_delete {name : List Nat} (h : SameName (roots limits cfg d₀ []) name
      (roots limits cfg d₀ []).write (roots limits cfg d₀ []).givenWrite) :
    Host.delete limits cfg (Host.load limits cfg d₀) d name =
      Host.remove limits d (roots limits cfg d₀ []).write
        ((roots limits cfg d₀ []).place limits d (goText name) (roots limits cfg d₀ []).write
          (roots limits cfg d₀ []).givenWrite) := by
  rw [← place_eq h]
  change _ = Host.remove limits d _ (Host.place limits cfg (Host.load limits cfg d₀) d name
    (roots limits cfg d₀ []).write cfg.write)
  rw [← load_write]
  rfl

section removal

theorem unlinkPath_below (ht : Descends d d.top t) (n : Name) :
    Host.unlinkPath limits d (path t ++ [n]) = Host.unlinkIn d (here d.top t) n := by
  have hdirname : dirname (path t ++ [n]) = path t := List.dropLast_concat
  rw [Host.unlinkPath,List.getLast?_concat,hdirname,stat_path ht]

theorem unlinkIn_entry (hi : d.entry i n = some new) : Host.unlinkIn d i n =
    if isDir d new then none else some [.unlink i n] := by
  rw [Host.unlinkIn,hi]

theorem rootRemove_below (h : Descends d i more) : rootRemove d limits i (names (path more ++ [n])) =
    match d.entry (here i more) n with
    | some j =>
      match d.node j with
      | .dir (_ :: _) => none
      | .dir [] | .file _ | .link _ => some [.unlink (here i more) n]
    | none => none := by
  have hnames : names (path more ++ [n]) = names (path more) ++ [.name n] := Disk.names_append _ _
  have hadvance := @Disk.advance_names _ _ d true i [] more (by rwa [List.append_nil])
  rw [List.append_nil] at hadvance
  rw [rootRemove,hnames,List.getLast?_concat,List.dropLast_concat]
  dsimp only
  rewrite [Disk.walk_arrived hadvance]
  rfl

theorem rootRemove_nil (d : Tree) (limits : Limits) (i : Inode) : rootRemove d limits i (names []) = none :=
  rfl

theorem removal_alike (h : Descends d i more) (hentry : d.entry (here i more) n = some new) :
    rootRemove d limits i (names (path more ++ [n])) = Host.unlinkIn d (here i more) n ↔
      d.node new ≠ .dir [] := by
  rw [rootRemove_below h,hentry,unlinkIn_entry hentry,isDir]
  dsimp only
  cases hnode : d.node new with
  | file content => exact iff_of_true rfl (by rintro ⟨⟩)
  | link target => exact iff_of_true rfl (by rintro ⟨⟩)
  | dir entries =>
    cases entries with
    | cons e entries => exact iff_of_true rfl (by rintro ⟨⟩)
    | nil => exact iff_of_false (by rintro ⟨⟩) (not_not_intro rfl)

end removal

theorem fresh_not_path (hu : Descends d d.top u) (ht : Descends d d.top t)
    (hentry : d.entry (here d.top t) n = none) : path u ≠ path t ++ [n] := by
  intro h
  cases u with
  | nil => exact absurd (congrArg List.length h) (by rw [List.length_append]; exact nofun)
  | cons e u =>
    obtain ⟨m,j⟩ := e
    rw [Disk.path_cons] at h
    obtain ⟨hpath,hname⟩ := List.append_inj' h rfl
    obtain rfl := List.singleton_inj.mp hname
    obtain rfl := Disk.descends_unique hu.2.2 ht hpath
    rw [hu.1] at hentry
    exact nomatch hentry

section held

theorem remove_root (hkept : Held sb limits d rs (path u)) (hu : Descends d d.top u) (hout : Outermost (path u) rs (path u)) :
    sb.remove limits d rs (.found real (path u)) = none := by
  rw [Sandbox.remove]
  by_cases hdir : isDir d (here d.top u) = true
  · have hbeneath := beneath_open (p := []) (by rwa [List.append_nil]) hu hdir (by rwa [List.append_nil])
    rw [List.append_nil] at hbeneath
    rw [hbeneath]
    exact rootRemove_nil _ _ _
  · rw [beneath_closed hkept hu hdir hout]

theorem remove_fresh (hkept : Held sb limits d rs (path t ++ [n])) (ht : Descends d d.top t)
    (hentry : d.entry (here d.top t) n = none)
    (hheld : ∃ r ∈ rs,r <+: path t ++ [n]) :
    sb.remove limits d rs (.found real (path t ++ [n])) =
      Host.remove limits d rs (.found real (path t ++ [n])) := by
  obtain ⟨r,hout⟩ := exists_outermost hheld
  obtain ⟨u,hu,rfl⟩ := (hkept r hout).1
  have hne := fresh_not_path hu ht hentry
  have habove : path u <+: path t := (List.prefix_concat_iff.mp hout.holds).resolve_left hne
  obtain ⟨more,rfl⟩ := Disk.descends_prefix ht hu habove
  obtain ⟨hmore,-⟩ := Disk.descends_append.mp ht
  have hhost : Host.remove limits d rs (.found real (path (more ++ u) ++ [n])) = none := by
    rw [Host.remove,parentBeneath_path ht hout]
    by_cases hlast : isDir d (here d.top (more ++ u)) = true
    · rw [if_pos hlast]
      change Host.unlinkIn d _ n = none
      rw [Host.unlinkIn,hentry]
    · rw [if_neg hlast]
  rw [hhost,Sandbox.remove]
  by_cases hdir : isDir d (here d.top u) = true
  · have hsplit : path (more ++ u) ++ [n] = path u ++ (path more ++ [n]) := by
      rw [Disk.path_append,List.append_assoc]
    rw [hsplit,beneath_open (hsplit ▸ hkept) hu hdir (hsplit ▸ hout)]
    dsimp only
    rw [rootRemove_below hmore,← Disk.here_append,hentry]
  · rw [beneath_closed hkept hu hdir hout]

theorem remove_there (hkept : Held sb limits d rs (path t ++ [n])) (ht : Descends d d.top t)
    (hentry : d.entry (here d.top t) n = some i)
    (hreal : (∀ target,d.node i ≠ .link target) → real = path t ++ [n]) (hheld : ∃ r ∈ rs,r <+: real) :
    sb.remove limits d rs (.found real (path t ++ [n])) =
      Host.remove limits d rs (.found real (path t ++ [n])) ↔
        (∃ r ∈ rs,r <+: path t ++ [n]) ∧ ¬FileRoot d limits rs (path t ++ [n]) ∧
          ¬EmptyBelow d limits rs (path t ++ [n]) := by
  have hlstat : lstat d limits (path t ++ [n]) = some i := by
    rw [lstat_snoc,stat_path ht]
    exact hentry
  by_cases hnamed : ∃ r ∈ rs,r <+: path t ++ [n]
  · rw [and_iff_right hnamed]
    obtain ⟨r,hout⟩ := exists_outermost hnamed
    obtain ⟨u,hu,rfl⟩ := (hkept r hout).1
    by_cases heq : path u = path t ++ [n]
    · have hempty : ¬EmptyBelow d limits rs (path u) := by
        rintro ⟨-,r,hr,hholds,hne⟩
        rw [← heq] at hout
        exact hne (hholds.eq_of_length_le (hout.least r hr hholds).length_le)
      rw [← heq] at hkept hout hlstat ⊢
      rw [remove_root hkept hu hout,fileRoot_iff hu hout,and_iff_left hempty,not_not,
        Host.remove,parentBeneath_root hout]
      dsimp only
      have hsame : here d.top u = i := by
        rw [lstat_path hu] at hlstat
        exact Option.some.inj hlstat
      rw [heq,unlinkPath_below ht,unlinkIn_entry hentry,hsame]
      by_cases hdir : isDir d i = true
      · rw [if_pos hdir]
        exact iff_of_true rfl hdir
      · rw [if_neg hdir]
        exact iff_of_false (by rintro ⟨⟩) hdir
    · have habove : path u <+: path t := (List.prefix_concat_iff.mp hout.holds).resolve_left heq
      obtain ⟨more,rfl⟩ := Disk.descends_prefix ht hu habove
      obtain ⟨hmore,-⟩ := Disk.descends_append.mp ht
      have hlast := isDir_of_entry hentry
      have hdir : isDir d (here d.top u) = true := by
        by_cases hempty : more = []
        · rwa [hempty,List.nil_append] at hlast
        · exact isDir_above hmore hempty
      have hsplit : path (more ++ u) ++ [n] = path u ++ (path more ++ [n]) := by
        rw [Disk.path_append,List.append_assoc]
      have hempty : EmptyBelow d limits rs (path (more ++ u) ++ [n]) ↔ d.node i = .dir [] := by
        rw [EmptyBelow,hlstat]
        constructor
        · rintro ⟨⟨j,hj,hnode⟩,-⟩
          exact Option.some.inj hj ▸ hnode
        · exact fun hnode => ⟨⟨i,rfl,hnode⟩,path u,hout.mem,hout.holds,heq⟩
      have hbeneath : sb.beneath (path (more ++ u) ++ [n]) rs =
          some (here d.top u,names (path more ++ [n])) := by
        rw [hsplit]
        exact beneath_open (hsplit ▸ hkept) hu hdir (hsplit ▸ hout)
      rw [hempty,and_iff_right (not_fileRoot hout heq),Sandbox.remove,Host.remove,
        parentBeneath_path ht hout,if_pos hlast,hbeneath]
      dsimp only
      rw [Disk.here_append] at hentry ⊢
      exact removal_alike hmore hentry
  · refine iff_of_false (fun hsame => ?_) fun h => hnamed h.1
    have hnone : ∀ r ∈ rs,¬r <+: path t ++ [n] := fun r hr hholds => hnamed ⟨r,hr,hholds⟩
    have hdir : ¬isDir d i = true := by
      intro hdir
      rw [isDir] at hdir
      have hlink : ∀ target,d.node i ≠ .link target := fun target htarget => by
        rw [htarget] at hdir
        cases hdir
      exact hnamed (hreal hlink ▸ hheld)
    rw [Sandbox.remove,beneath_none hnone,Host.remove,Host.parentBeneath,
      host_outermost_none_iff.mpr hnone] at hsame
    change none = Host.unlinkPath limits d _ at hsame
    rw [unlinkPath_below ht,unlinkIn_entry hentry,if_neg hdir] at hsame
    cases hsame

end held

section roots

theorem roots_stack (h : r ∈ (roots limits cfg d₀ []).read) : ∃ u,Descends d₀ d₀.top u ∧ path u = r := by
  change r ∈ (cfg.read ++ cfg.write).filterMap _ at h
  obtain ⟨text,-,hreal⟩ := List.mem_filterMap.mp h
  obtain ⟨u,-,hu,hpath⟩ := evalSymlinks_some hreal
  exact ⟨u,hu,hpath⟩

theorem write_read (h : r ∈ (roots limits cfg d₀ []).write) : r ∈ (roots limits cfg d₀ []).read := by
  change r ∈ cfg.write.filterMap _ at h
  change r ∈ (cfg.read ++ cfg.write).filterMap _
  rw [List.filterMap_append]
  exact List.mem_append_right _ h

theorem rootsFor_read (h : r ∈ (roots limits cfg d₀ []).rootsFor mode) :
    r ∈ (roots limits cfg d₀ []).read := by
  rw [Sandbox.rootsFor] at h
  split at h
  · exact h
  · exact write_read h

-- the outermost root around the path is what it was when the roots were resolved
def Standing (limits : Limits) (d₀ d : Tree) (rs : List Path) (o : Option Path) : Prop :=
  ∀ p ∈ o,∀ r,Outermost p rs r →
    evalSymlinks d limits r = some r ∧ openRoot d limits r = openRoot d₀ limits r

theorem Standing.held {o : Option Path} (h : Standing limits d₀ d rs o) (hp : p ∈ o)
    (hrs : ∀ r ∈ rs,r ∈ (roots limits cfg d₀ []).read) : Held (roots limits cfg d₀ []) limits d rs p := by
  intro r hout
  obtain ⟨hreal,hsame⟩ := h p hp r hout
  obtain ⟨u,-,hu,hpath⟩ := evalSymlinks_some hreal
  refine ⟨⟨u,hu,hpath⟩,(handles_lookup (hrs r hout.mem)).trans hsame.symm,fun hnone q hq hholds => ?_⟩
  obtain ⟨v,hv,rfl⟩ := roots_stack (hrs r hout.mem)
  obtain ⟨w,hw,rfl⟩ := roots_stack (hrs q hq)
  obtain ⟨more,rfl⟩ := Disk.descends_prefix hw hv hholds
  rw [handles_lookup (hrs _ hout.mem),openRoot_path hv] at hnone
  have hempty : more = [] := by
    by_contra hmore
    rw [if_pos (isDir_above (Disk.descends_append.mp hw).1 hmore)] at hnone
    exact nomatch hnone
  subst hempty
  rwa [handles_lookup (hrs _ hq),List.nil_append,openRoot_path hv]

end roots

def OpensAlike (d : Tree) (limits : Limits) (rs : List Path) (wanted : Path) : Prop :=
  (∀ real ∈ evalSymlinks d limits wanted,¬FileRoot d limits rs real) ∧
  ∀ dir ∈ evalSymlinks d limits (dirname wanted),¬ThroughFile d limits rs dir

def DeletesAlike (d : Tree) (limits : Limits) (rs : List Path) (wanted : Path) : Prop :=
  ∀ real ∈ evalSymlinks d limits wanted,(∃ r ∈ rs,r <+: real) →
    ∀ named ∈ entryPath d limits wanted,(∃ r ∈ rs,r <+: named) ∧
      (FileRoot d limits rs named → named = []) ∧ ¬EmptyBelow d limits rs named

theorem stat_of_evalSymlinks (h : evalSymlinks d limits p = some real) :
    ∃ s,Descends d d.top s ∧ path s = real ∧ stat d limits p = some (here d.top s) := by
  obtain ⟨s,hs,hdescends,hpath⟩ := evalSymlinks_some h
  refine ⟨s,hdescends,hpath,?_⟩
  rw [stat,hs]
  rfl

theorem not_through_dirname (hreal : evalSymlinks d limits wanted = some real)
    (hdir : evalSymlinks d limits (dirname wanted) = some p) : ¬ThroughFile d limits rs p := by
  rintro ⟨⟨i,hi,hfile⟩,r,-,hr,hne⟩
  rcases List.eq_nil_or_concat wanted with rfl | ⟨w,n,rfl⟩
  · have htop : evalSymlinks d limits [] = some [] := evalSymlinks_path (s := []) trivial
    obtain rfl := Option.some.inj (htop.symm.trans hdir)
    exact hne (List.prefix_nil.mp hr)
  · rw [List.concat_eq_append] at hreal hdir
    have hdirname : dirname (w ++ [n]) = w := List.dropLast_concat
    obtain ⟨s,hfind,-,-⟩ := evalSymlinks_some hreal
    obtain ⟨t,j,ht,hj,-⟩ := find_snoc hfind
    rw [hdirname,evalSymlinks,ht] at hdir
    obtain rfl := Option.some.inj hdir
    rw [stat_path (find_descends ht)] at hi
    obtain rfl := Option.some.inj hi
    rw [isDir_of_entry hj] at hfile
    cases hfile

theorem through_fresh (h : ThroughFile d limits rs p) (hdir : evalSymlinks d limits (dirname wanted) = some p) :
    evalSymlinks d limits wanted = none ∧ lstat d limits wanted = none ∧
      ∃ n,basename wanted = [n] ∧ entryPath d limits wanted = some (p ++ [n]) := by
  have hnone : evalSymlinks d limits wanted = none := by
    cases hreal : evalSymlinks d limits wanted with
    | none => rfl
    | some real => exact absurd h (not_through_dirname hreal hdir)
  rcases List.eq_nil_or_concat wanted with rfl | ⟨w,n,rfl⟩
  · have htop : evalSymlinks d limits [] = some [] := evalSymlinks_path (s := []) trivial
    rw [htop] at hnone
    cases hnone
  · rw [List.concat_eq_append] at hnone hdir ⊢
    have hdirname : dirname (w ++ [n]) = w := List.dropLast_concat
    have hbasename : basename (w ++ [n]) = [n] := by
      rw [basename,List.getLast?_concat]
      rfl
    rw [hdirname] at hdir
    obtain ⟨t,ht,rfl,hstat⟩ := stat_of_evalSymlinks hdir
    obtain ⟨⟨i,hi,hfile⟩,-⟩ := h
    rw [stat_path ht] at hi
    obtain rfl := Option.some.inj hi
    refine ⟨hnone,?_,n,hbasename,?_⟩
    · rw [lstat_snoc,hstat]
      change d.entry (here d.top t) n = none
      by_contra hne
      obtain ⟨j,hj⟩ := Option.ne_none_iff_exists'.mp hne
      rw [isDir_of_entry hj] at hfile
      cases hfile
    · rw [entryPath_snoc,hdir]
      rfl

section placed

variable {given : List Text}

theorem opensAlike_unplaced (h : ∀ real named,sb.place limits d name rs given ≠ .found real named)
    (hadmits : Admits sb name rs given) : OpensAlike d limits rs (sb.datasetName name) := by
  refine ⟨fun real hreal hfile => ?_,fun dir hdir hthrough => ?_⟩
  · exact h _ _ (place_there hadmits hreal ⟨real,hfile.1,List.prefix_rfl⟩)
  · obtain ⟨hnone,hlstat,n,-,hentry⟩ := through_fresh hthrough hdir
    obtain ⟨-,r,hr,hholds,-⟩ := hthrough
    exact h _ _ (place_fresh hadmits hnone hlstat hentry ⟨r,hr,hholds.trans (List.prefix_append _ _)⟩)

theorem deletesAlike_unplaced (h : ∀ real named,sb.place limits d name rs given ≠ .found real named)
    (hadmits : Admits sb name rs given) : DeletesAlike d limits rs (sb.datasetName name) :=
  fun _ hreal hheld => absurd (place_there hadmits hreal hheld) (h _ _)

theorem stat_fresh (ht : Descends d d.top t) (hentry : d.entry (here d.top t) n = none) :
    stat d limits (path t ++ [n]) = none := by
  rw [stat]
  cases hfind : find d limits (path t ++ [n]) with
  | none => rfl
  | some s =>
    obtain ⟨u,i,hu,hi,-⟩ := find_snoc hfind
    obtain rfl := Option.some.inj ((find_path ht).symm.trans hu)
    cases hentry.symm.trans hi

theorem opensAlike_placed (hfound : Found d limits wanted real named) :
    OpensAlike d limits rs wanted ↔
      ¬FileRoot d limits rs real ∧ ¬ThroughFile d limits rs (dirname real) := by
  rw [OpensAlike]
  cases hfound with
  | top hwanted hreal hnamed =>
    have htop : evalSymlinks d limits [] = some [] := evalSymlinks_path (s := []) trivial
    rw [hwanted,hreal,dirname,List.dropLast_nil,htop]
    simp only [Option.mem_some_iff,forall_eq']
  | there s t n i hreal hdir hbase hs hpath ht hnamed hi hlink =>
    subst hpath
    rw [hreal,hdir]
    simp only [Option.mem_some_iff,forall_eq']
    exact and_congr_right fun _ => iff_of_true (not_through_dirname hreal hdir) (not_through hs)
  | fresh t n hnone hdir hbase ht hreal hnamed hentry =>
    have hdirname : dirname (path t ++ [n]) = path t := List.dropLast_concat
    have hroot : ¬FileRoot d limits rs real := by
      rintro ⟨-,⟨i,hi,-⟩,-⟩
      rw [hreal,stat_fresh ht hentry] at hi
      cases hi
    have hmissing : ∀ p ∈ (none : Option Path),¬FileRoot d limits rs p := by
      rintro p ⟨⟩
    rw [hnone,hdir,and_iff_right hroot,and_iff_right hmissing,hreal,hdirname]
    simp only [Option.mem_some_iff,forall_eq']

theorem Found.real_mem (h : Found d limits wanted real named) :
    real ∈ (evalSymlinks d limits wanted).or (entryPath d limits wanted) := by
  cases h with
  | top hwanted hreal hnamed =>
    have htop : evalSymlinks d limits [] = some [] := evalSymlinks_path (s := []) trivial
    rw [hwanted,hreal,htop]
    rfl
  | there s t n i hreal =>
    rw [hreal]
    rfl
  | fresh t n hnone hdir hbase ht hreal =>
    rw [hnone,entryPath,hdir,hbase,hreal]
    rfl

theorem Found.named_mem (h : Found d limits wanted real named) : named ∈ entryPath d limits wanted := by
  cases h with
  | top hwanted hreal hnamed =>
    rw [hwanted,hnamed]
    exact entryPath_path (s := []) trivial
  | there s t n i hreal hdir hbase hs hpath ht hnamed =>
    rw [entryPath,hdir,hbase,hnamed]
    rfl
  | fresh t n hnone hdir hbase ht hreal hnamed =>
    rw [entryPath,hdir,hbase,hnamed,hreal]
    rfl

theorem open_alike_iff (hkept : Admits sb name rs given →
      ∀ real ∈ (evalSymlinks d limits (sb.datasetName name)).or
        (entryPath d limits (sb.datasetName name)),Held sb limits d rs real) : Alike
    (sb.reach limits d mode new rs (sb.place limits d name rs given))
    (Host.reach limits d mode new rs (sb.place limits d name rs given)) ↔
      (Admits sb name rs given → OpensAlike d limits rs (sb.datasetName name)) := by
  cases hplace : sb.place limits d name rs given with
  | refused why =>
    exact iff_of_true (alike_of_eq rfl) (opensAlike_unplaced (by rw [hplace]; exact nofun))
  | missing =>
    exact iff_of_true (alike_of_eq rfl) (opensAlike_unplaced (by rw [hplace]; exact nofun))
  | found real named =>
    obtain ⟨hadmits,hheld,hfound⟩ := place_found hplace
    rw [reach_alike (hkept hadmits real hfound.real_mem) hfound.stands hheld,opensAlike_placed hfound]
    exact (imp_iff_right hadmits).symm

theorem delete_alike_iff (hkept : Admits sb name rs given →
      ∀ named ∈ entryPath d limits (sb.datasetName name),Held sb limits d rs named) :
    sb.remove limits d rs (sb.place limits d name rs given) =
      Host.remove limits d rs (sb.place limits d name rs given) ↔
        (Admits sb name rs given → DeletesAlike d limits rs (sb.datasetName name)) := by
  cases hplace : sb.place limits d name rs given with
  | refused why =>
    exact iff_of_true rfl (deletesAlike_unplaced (by rw [hplace]; rintro _ _ ⟨⟩))
  | missing =>
    exact iff_of_true rfl (deletesAlike_unplaced (by rw [hplace]; rintro _ _ ⟨⟩))
  | found real named =>
    obtain ⟨hadmits,hheld,hfound⟩ := place_found hplace
    have hnamedHeld := hkept hadmits named hfound.named_mem
    rw [imp_iff_right hadmits,DeletesAlike]
    cases hfound with
    | top hwanted hreal hnamed =>
      subst hreal hnamed
      have htop : evalSymlinks d limits [] = some [] := evalSymlinks_path (s := []) trivial
      obtain ⟨r,hr,hholds⟩ := hheld
      obtain rfl := List.prefix_nil.mp hholds
      have hout : Outermost (path (α := Name) []) rs (path (α := Name) []) :=
        ⟨hr,List.prefix_rfl,fun q _ _ => List.nil_prefix⟩
      have hhost : Host.remove limits d rs (.found [] []) = none := by
        rw [Host.remove]
        rw [show Host.parentBeneath limits d [] rs = .undefined from parentBeneath_root hout]
        rfl
      have hgo : sb.remove limits d rs (.found [] []) = none :=
        remove_root (u := []) hnamedHeld trivial hout
      rw [hgo,hhost,hwanted,htop]
      refine iff_of_true rfl fun real hreal hheld named hnamed => ?_
      obtain rfl : [] = named := by
        have hentry : entryPath d limits [] = some [] := entryPath_path (s := []) trivial
        exact Option.some.inj (hentry.symm.trans hnamed)
      refine ⟨⟨[],hr,List.prefix_rfl⟩,fun _ => rfl,?_⟩
      rintro ⟨-,r,-,hholds,hne⟩
      exact hne (List.prefix_nil.mp hholds)
    | there s t n i hreal hdir hbase hs hpath ht hnamed hi hlink =>
      subst hnamed
      have hentry : entryPath d limits (sb.datasetName name) = some (path t ++ [n]) := by
        rw [entryPath,hdir,hbase]
        rfl
      rw [remove_there hnamedHeld ht hi hlink hheld,hreal,hentry]
      simp only [Option.mem_some_iff,forall_eq',imp_iff_right hheld]
      have hsnoc : ¬path t ++ [n] = [] := by simp
      simp only [hsnoc,imp_false]
    | fresh t n hnone hdir hbase ht hreal hnamed hentry =>
      subst hnamed hreal
      rw [hnone]
      exact iff_of_true (remove_fresh hnamedHeld ht hentry hheld) (by rintro _ ⟨⟩)

end placed

-- the name is one path to both hosts and leads through a root that stands
def Settled (limits : Limits) (cfg : Config) (d₀ d : Tree) (name : List Nat) (rs : List Path)
    (given : List Text) (o : Option Path) : Prop :=
  let sb := roots limits cfg d₀ []
  Admits sb (goText name) rs given →
    sb.datasetName (nodeText name) = sb.datasetName (goText name) ∧ Standing limits d₀ d rs o

def segment (text : Text) (h : Proper text) : Name := ⟨text,h⟩

def detour : Tree where
  top := 0
  node
    | 0 => .dir [(segment ['w'] (by decide),1),(segment ['o'] (by decide),4)]
    | 1 => .dir [(segment ['f'] (by decide),2),(segment ['x'] (by decide),3)]
    | 3 => .link ⟨true,[.name (segment ['o'] (by decide))]⟩
    | 4 => .dir [(segment ['l'] (by decide),5)]
    | 5 => .link ⟨true,[.name (segment ['w'] (by decide)),.name (segment ['f'] (by decide))]⟩
    | _ => .file []

def renewed : Tree where
  top := 0
  node
    | 0 => .dir [(segment ['w'] (by decide),1),(segment ['n'] (by decide),3)]
    | 1 => .dir [(segment ['\xc3','\xa9'] (by decide),2)]
    | 3 => .dir []
    | _ => .file []

theorem standing_one {limits : Limits} {d₀ d : Tree} {r : Path} {o : Option Path}
    (hreal : evalSymlinks d limits r = some r) (hsame : openRoot d limits r = openRoot d₀ limits r) :
    Standing limits d₀ d [r] o := by
  intro p _ q hout
  obtain rfl := List.mem_singleton.mp hout.mem
  exact ⟨hreal,hsame⟩

theorem hosts_alike (limits : Limits) (cfg : Config) (d₀ d : Tree) (name : List Nat) (mode : Mode)
    (new : Inode) (fold : Text → Text) :
    let sb := roots limits cfg d₀ []
    let wanted := sb.datasetName (goText name)
    let real := (evalSymlinks d limits wanted).or (entryPath d limits wanted)
    (Settled limits cfg d₀ d name (sb.rootsFor mode) (sb.givenFor mode) real →
      (Alike (sb.open limits fold ⟨d,d,d,d⟩ (goText name) mode new)
          (Host.open limits cfg (Host.load limits cfg d₀) d name mode new) ↔
        (Admits sb (goText name) (sb.rootsFor mode) (sb.givenFor mode) →
          OpensAlike d limits (sb.rootsFor mode) wanted))) ∧
    (Settled limits cfg d₀ d name sb.write sb.givenWrite (entryPath d limits wanted) →
      (sb.delete limits ⟨d,d,d,d⟩ (goText name) =
          Host.delete limits cfg (Host.load limits cfg d₀) d name ↔
        (Admits sb (goText name) sb.write sb.givenWrite →
          DeletesAlike d limits sb.write wanted))) := by
  intro sb wanted real
  refine ⟨fun h => ?_,fun h => ?_⟩
  · rw [sandbox_open,host_open mode fun hadmits => (h hadmits).1]
    exact open_alike_iff fun hadmits p hp => (h hadmits).2.held hp fun r => rootsFor_read
  · rw [sandbox_delete,host_delete fun hadmits => (h hadmits).1]
    exact delete_alike_iff fun hadmits p hp => (h hadmits).2.held hp fun r => write_read

theorem hosts_alike_renewed :
    let sb := roots ⟨40,8⟩ ⟨[],["/w".toList],[],[]⟩ detour []
    let loaded := Host.load ⟨40,8⟩ ⟨[],["/w".toList],[],[]⟩ detour
    let name := [0x2f,0x77,0x2f,0xd800,0x2f,0x2e,0x2e,0x2f,0xe9]
    Alike (sb.open ⟨40,8⟩ id ⟨renewed,renewed,renewed,renewed⟩ (goText name) .output 9)
        (Host.open ⟨40,8⟩ ⟨[],["/w".toList],[],[]⟩ loaded renewed name .output 9) ∧
      sb.delete ⟨40,8⟩ ⟨renewed,renewed,renewed,renewed⟩ (goText name) =
        Host.delete ⟨40,8⟩ ⟨[],["/w".toList],[],[]⟩ loaded renewed name := by
  intro sb loaded name
  let w := segment ['w'] (by decide)
  let e := segment ['\xc3','\xa9'] (by decide)
  have hroots : sb.write = [[w]] := by decide +kernel
  have hstanding (o : Option Path) : Standing ⟨40,8⟩ detour renewed sb.write o :=
    hroots ▸ standing_one (by decide +kernel) (by decide +kernel)
  have hreal : evalSymlinks renewed ⟨40,8⟩ (sb.datasetName (goText name)) = some [w,e] := by
    decide +kernel
  have hnamed : entryPath renewed ⟨40,8⟩ (sb.datasetName (goText name)) = some [w,e] := by
    decide +kernel
  have hfile : ¬FileRoot renewed ⟨40,8⟩ sb.write [w,e] := fun h => by
    rw [FileRoot,hroots] at h
    exact absurd h.1 (by decide)
  have hsame : sb.datasetName (nodeText name) = sb.datasetName (goText name) := by decide +kernel
  obtain ⟨hopen,hdelete⟩ := hosts_alike ⟨40,8⟩ ⟨[],["/w".toList],[],[]⟩ detour renewed name .output 9 id
  refine ⟨(hopen fun _ => ⟨hsame,hstanding _⟩).mpr fun _ => ⟨?_,?_⟩,
    (hdelete fun _ => ⟨hsame,hstanding _⟩).mpr fun _ => ?_⟩
  · intro real h
    obtain rfl := Option.some.inj (hreal.symm.trans h)
    exact hfile
  · rintro dir hdir ⟨⟨i,hi,hno⟩,-⟩
    have hw : evalSymlinks renewed ⟨40,8⟩ (dirname (sb.datasetName (goText name))) = some [w] := by
      decide +kernel
    obtain rfl := Option.some.inj (hw.symm.trans hdir)
    have hone : stat renewed ⟨40,8⟩ [w] = some 1 := by decide +kernel
    obtain rfl := Option.some.inj (hone.symm.trans hi)
    exact absurd hno (by decide)
  · intro real _ _ named h
    obtain rfl := Option.some.inj (hnamed.symm.trans h)
    refine ⟨⟨[w],hroots ▸ List.mem_singleton_self _,[e],rfl⟩,fun h => absurd h hfile,?_⟩
    rintro ⟨⟨i,hi,hno⟩,-⟩
    have htwo : lstat renewed ⟨40,8⟩ [w,e] = some 2 := by decide +kernel
    obtain rfl := Option.some.inj (htwo.symm.trans hi)
    exact nomatch hno

theorem link_outside_deleted : ¬∀ (limits : Limits) (cfg : Config) (d₀ d : Tree) (name : List Nat)
    (mode : Mode) (new : Inode) (fold : Text → Text),
    Alike ((roots limits cfg d₀ []).open limits fold ⟨d,d,d,d⟩ (goText name) mode new)
        (Host.open limits cfg (Host.load limits cfg d₀) d name mode new) ∧
      (roots limits cfg d₀ []).delete limits ⟨d,d,d,d⟩ (goText name) =
        Host.delete limits cfg (Host.load limits cfg d₀) d name := by
  intro h
  let cfg : Config := ⟨[],["/w".toList],[],[]⟩
  let name := "/w/x/l".toList.map Char.toNat
  have halike := (h ⟨40,8⟩ cfg detour detour name .input 9 id).2
  have hgo : (roots ⟨40,8⟩ cfg detour []).delete ⟨40,8⟩ ⟨detour,detour,detour,detour⟩ (goText name) =
      none := by decide +kernel
  have hhost : Host.delete ⟨40,8⟩ cfg (Host.load ⟨40,8⟩ cfg detour) detour name =
      some [.unlink 4 (segment ['l'] (by decide))] := by decide +kernel
  rw [hgo,hhost] at halike
  exact nomatch halike

end OpenSteamgate.Dataset
